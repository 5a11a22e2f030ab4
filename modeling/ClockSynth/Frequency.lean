import ClockSynth.Number.Text

/-!
# Frequencies

Frequencies are doubles in hertz. A range holds both its bounds, and a NaN lies in no range
(`FrequencyRange.contains`). People read megahertz with two places (`Frequency.inMHz`); the
primitive's attribute takes the shortest text, where a whole number keeps one place
(`Frequency.pinText`).
-/

namespace ClockSynth

/-- The frequencies from `min` to `max`, in hertz. -/
structure FrequencyRange where
  min : Float
  max : Float
deriving DecidableEq, Inhabited

/-- Both bounds lie in the range. -/
def FrequencyRange.contains (r : FrequencyRange) (frequency : Float) : Bool :=
  r.min ≤ frequency && frequency ≤ r.max

namespace Frequency

/-- A frequency in megahertz with two places and the unit. -/
def inMHz (frequency : Float) : String :=
  Number.fixed (frequency / 1e6) 2 ++ "MHz"

/-- A frequency in megahertz, without the unit and without loss. -/
def pinText (frequency : Float) : String :=
  let mhz := frequency / 1e6
  if Number.isInteger mhz then Number.fixed mhz 1 else Number.text mhz

end Frequency

end ClockSynth
