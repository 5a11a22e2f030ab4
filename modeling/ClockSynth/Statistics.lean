/-!
# What a search counted

A search evaluates combinations of dividers one after the other and keeps a `Tally`. The
`Statistics` of its outcome add whether a spare output carries the feedback and whether the search
stopped at its cap.
-/

namespace ClockSynth

/-- Counts of combinations: evaluated, with the VCO in its range, and rejected all the same. -/
structure Tally where
  evaluated : Nat := 0
  candidates : Nat := 0
  rejected : Nat := 0
deriving DecidableEq, Repr, Inhabited

/-- The counts of a search that has ended, and how it ended. -/
structure Statistics extends Tally where
  phantomFeedback : Bool
  limitReached : Bool
deriving DecidableEq, Repr, Inhabited

end ClockSynth
