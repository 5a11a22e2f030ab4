import ClockSynth.Divider
import ClockSynth.Frequency

/-!
# Families of PLL primitives

A family says how many outputs its primitive drives, which dividers it has, between which bounds
each of its frequencies must stay, and how its ports are named: output slot `i` carries the letter
at index `i`. A slot is a double, and one that is no index of the letters has no port
(`Family.letter?`).
-/

namespace ClockSynth

/-- The operating limits of a primitive. The phase-frequency detector runs at the divided input. -/
structure Limits where
  maxOutputs : Float
  inputDivider : DividerRange
  feedbackDivider : DividerRange
  outputDivider : DividerRange
  inputFrequency : FrequencyRange
  outputFrequency : FrequencyRange
  vcoFrequency : FrequencyRange
  pfdFrequency : FrequencyRange
deriving DecidableEq, Inhabited

def Limits.combinations (l : Limits) : Float :=
  l.inputDivider.count * l.outputDivider.count * l.feedbackDivider.count

/-- A family of primitives; the calibration attributes go onto each primitive as they stand. -/
structure Family where
  id : String
  name : String
  primitive : String
  limits : Limits
  slotLetters : List String
  calibration : List (String × String)
deriving DecidableEq, Inhabited

namespace Family

def letter? (f : Family) (slot : Float) : Option String :=
  (Number.toNat? slot).bind fun i => f.slotLetters[i]?

/-- The ECP5 primitive: four outputs and dividers from 1 to 128. -/
def ecp5 : Family where
  id := "ecp5"
  name := "Lattice ECP5 EHXPLLL"
  primitive := "EHXPLLL"
  limits :=
    { maxOutputs := 4
      inputDivider := ⟨1, 129⟩
      feedbackDivider := ⟨1, 129⟩
      outputDivider := ⟨1, 129⟩
      inputFrequency := ⟨8e6, 400e6⟩
      outputFrequency := ⟨3.125e6, 400e6⟩
      vcoFrequency := ⟨400e6, 800e6⟩
      pfdFrequency := ⟨10e6, 400e6⟩ }
  slotLetters := ["P", "S", "S2", "S3"]
  calibration :=
    [("ICP_CURRENT", "6"), ("LPF_RESISTOR", "16"), ("MFG_ENABLE_FILTEROPAMP", "1"),
      ("MFG_GMCREF_SEL", "2")]

end Family

end ClockSynth
