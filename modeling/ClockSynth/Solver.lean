import ClockSynth.Configuration.Report
import ClockSynth.Error
import ClockSynth.Log
import ClockSynth.Search

/-!
# Solving a problem

`Problem.solve` runs the search under a cap, or without one under the number of all combinations,
and says how it ended. An `Outcome` carries the configuration, or the cap at which the search gave
up if it was the cap that ended it. What there is to log about an outcome is `Outcome.events`.
-/

namespace ClockSynth

inductive Outcome where
  | solved (configuration : Configuration) (tally : Tally)
  | failed (cap : Option Float) (tally : Tally)
deriving DecidableEq

namespace Outcome

def statistics : Outcome → Statistics
  | solved c t => { t with phantomFeedback := c.hasPhantom, limitReached := false }
  | failed cap t => { t with phantomFeedback := false, limitReached := cap.isSome }

def configuration? : Outcome → Option Configuration
  | solved c _ => some c
  | failed .. => none

def source : String := "divider-solver"

/-- What there is to log: a solution and the time it took, or a failure. -/
def events (elapsed : String) : Outcome → List Event
  | solved c t =>
    [⟨.debug, source,
        [.text ("Solved after " ++ t.evaluated.repr ++ " combinations (" ++ elapsed ++ ")")]⟩,
      ⟨.debug, source, [.text c.report]⟩]
  | failed cap t =>
    [⟨.warn, source,
        [.text (Error.noConfigurationMessage cap ++ " (" ++ t.candidates.repr ++ " VCO candidates, "
          ++ t.rejected.repr ++ " rejected)")]⟩]

end Outcome

namespace Problem

/-- The cap of a search that is given none allows all combinations of dividers. -/
def capOr (p : Problem) (cap : Option Float) : Float :=
  cap.getD p.family.limits.combinations

def solve (p : Problem) (cap : Option Float) : Outcome :=
  let cap := p.capOr cap
  match p.search cap with
  | .error (.found c, t) => .solved c t
  | .error (.capped, t) => .failed (some cap) t
  | .ok t => .failed none t

end Problem

end ClockSynth
