import ClockSynth.Problem
import ClockSynth.Statistics

/-!
# The search

All candidates of a problem stand in one list, `Problem.candidates`, ordered by input divider, then
output divider, then feedback divider; input dividers that put the phase-frequency detector out of
its range are left out. `Problem.search` walks that list (`search_eq_foldlM`), judges one candidate
after the other, and ends at the first configuration or when it has evaluated as many candidates as
the cap allows. It keeps a tally on the way. There is no attempt to find the best configuration.
-/

namespace ClockSynth

/-- Why a search ends before its candidates do. -/
inductive Halt where
  | found (configuration : Configuration)
  | capped
deriving DecidableEq

theorem foldlM_flatMap {m : Type → Type} [Monad m] [LawfulMonad m] {α β σ : Type}
    (f : σ → β → m σ) (g : α → List β) :
    ∀ (l : List α) (s : σ), (l.flatMap g).foldlM f s = l.foldlM (fun s a => (g a).foldlM f s) s
  | [], s => rfl
  | a :: l, s => by
    rw [List.flatMap_cons, List.foldlM_append, List.foldlM_cons]
    exact bind_congr fun s => foldlM_flatMap f g l s

namespace Problem

/-- The input dividers that keep the phase-frequency detector in its range. -/
def inputDividers (p : Problem) : List Float :=
  p.family.limits.inputDivider.values.filter fun d =>
    p.family.limits.pfdFrequency.contains (p.inputFrequency / d)

def candidates (p : Problem) : List Dividers :=
  p.inputDividers.flatMap fun input =>
    p.family.limits.outputDivider.values.flatMap fun output =>
      p.family.limits.feedbackDivider.values.map fun feedback => ⟨input, output, feedback⟩

/-- Tries one candidate, unless the cap is reached. -/
def step (p : Problem) (cap : Float) (t : Tally) (d : Dividers) : Except (Halt × Tally) Tally :=
  if cap ≤ t.evaluated.toFloat then .error (.capped, t)
  else
    let t := { t with evaluated := t.evaluated + 1 }
    match p.evaluate d with
    | .ok c => .error (.found c, { t with candidates := t.candidates + 1 })
    | .error .vcoOutOfRange => .ok t
    | .error _ => .ok { t with candidates := t.candidates + 1, rejected := t.rejected + 1 }

/-- Tries the candidates in turn. A search that ends with a tally alone has tried them all. -/
def search (p : Problem) (cap : Float) : Except (Halt × Tally) Tally :=
  let outputs := p.family.limits.outputDivider.values
  let feedbacks := p.family.limits.feedbackDivider.values
  p.inputDividers.foldlM (fun t input =>
    outputs.foldlM (fun t output =>
      feedbacks.foldlM (fun t feedback => p.step cap t ⟨input, output, feedback⟩) t) t) {}

theorem search_eq_foldlM (p : Problem) (cap : Float) :
    p.search cap = p.candidates.foldlM (p.step cap) {} := by
  unfold search candidates
  simp only [foldlM_flatMap, List.foldlM_map]

end Problem

end ClockSynth
