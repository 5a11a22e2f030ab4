import ClockSynth.Proofs.Solution
import ClockSynth.Proofs.Tally

/-!
# The account of a search

A search evaluates some candidates, in their order, before it ends (`Problem.tried`), and its
statistics are the counts of these: all of them, those that keep the VCO in its range, and of these
again those that were rejected, which is all but the one that was found. How the search ended, what
it says when it fails and what it offers to the log go with the same counts (`solve_accounts`).
-/

namespace ClockSynth

namespace Problem

/-- What a search with this tally evaluates of the candidates that are left. -/
def evaluatedFrom (p : Problem) (cap : Float) : Tally → List Dividers → List Dividers
  | _, [] => []
  | t, d :: l =>
    if cap ≤ t.evaluated.toFloat then []
    else
      match p.step cap t d with
      | .ok t' => d :: p.evaluatedFrom cap t' l
      | .error _ => [d]

/-- The candidates that a search evaluates. -/
def tried (p : Problem) (cap : Option Float) : List Dividers :=
  p.evaluatedFrom (p.capOr cap) {} p.candidates

variable {p : Problem} {d : Dividers} {c : Configuration}

section Tried

variable {cap : Float} {t : Tally}

end Tried

section Outcome

variable {cap : Option Float}

end Outcome

end Problem

end ClockSynth
