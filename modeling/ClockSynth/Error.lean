import ClockSynth.Frequency
import ClockSynth.Statistics

/-!
# What can go wrong

Each constructor is one cause, with what is needed to report it; `Error.message` is the report.
-/

namespace ClockSynth

/-- A step of a plan that only an open plan takes. -/
inductive PlanStep where
  | registerInput
  | registerOutput
  | enableDynamicPhaseAdjust
deriving DecidableEq, Repr

/-- A part of a stored configuration that must be a finite number. -/
inductive StoredField where
  | inputFrequency
  | inputDivider
  | feedbackDivider
  | feedbackOutputDivider
  | vcoFrequency
  | feedbackSlot
deriving DecidableEq, Repr

/-- Why a plan does not take a step. -/
inductive PlanFault where
  | finalized (step : PlanStep)
  | inputRegistered
  | noInputYet
  | noInput
deriving DecidableEq, Repr

/-- Why stored data is no configuration. -/
inductive StoredFault where
  | notObject
  | noOutputs
  | slot (key : String)
  | entry (slot : Float)
  | field (name : StoredField)
  | feedback (slot : Float)
deriving DecidableEq

/-- The clock whose frequency is out of range. -/
inductive ClockRole where
  | input
  | output (domain : String)
deriving DecidableEq, Repr

inductive Error where
  | frequency (role : ClockRole) (frequency : Float) (range : FrequencyRange)
  | capacity (maxOutputs : Float)
  | noConfiguration (cap : Option Float) (statistics : Statistics)
  | plan (fault : PlanFault)
  | stored (fault : StoredFault)
  | unknownFamily (id : String)
  | unnamedSlots (id : String) (letters : Nat) (maxOutputs : Float)
  | unnamedSlot (slot : Float) (primitive : String)
  | unknownPlan (id : String)
deriving DecidableEq

def PlanStep.name : PlanStep → String
  | registerInput => "registerInput"
  | registerOutput => "registerOutput"
  | enableDynamicPhaseAdjust => "enableDynamicPhaseAdjust"

def StoredField.name : StoredField → String
  | inputFrequency => "inputFrequency"
  | inputDivider => "inputDivider"
  | feedbackDivider => "feedbackDivider"
  | feedbackOutputDivider => "feedbackOutputDivider"
  | vcoFrequency => "vcoFrequency"
  | feedbackSlot => "feedbackSlot"

def ClockRole.name : ClockRole → String
  | input => "Input"
  | output domain => "Output " ++ domain

def PlanFault.message : PlanFault → String
  | finalized step => step.name ++ " called after finalize()"
  | inputRegistered => "Input clock is already registered"
  | noInputYet => "Register the input clock before its outputs"
  | noInput => "No input clock registered"

def StoredFault.message : StoredFault → String
  | notObject => "Serialized configuration must be an object"
  | noOutputs => "Serialized configuration is missing \"outputs\""
  | slot key => "Invalid output slot \"" ++ key ++ "\""
  | entry s => "Invalid output entry for slot " ++ Number.text s
  | field f => "Serialized configuration field \"" ++ f.name ++ "\" must be a finite number"
  | feedback s => "Feedback slot " ++ Number.text s ++ " has no output entry"

/-- Says that a search found nothing, and within which cap if the cap ended it. -/
def Error.noConfigurationMessage : Option Float → String
  | none => "No PLL config found"
  | some cap => "No PLL config found within " ++ Number.text cap ++ " combinations"

def Error.message : Error → String
  | frequency role f range =>
    role.name ++ " frequency " ++ Frequency.inMHz f ++ " is outside " ++ Frequency.inMHz range.min
      ++ ".." ++ Frequency.inMHz range.max
  | capacity n => "PLL supports at most " ++ Number.text n ++ " outputs"
  | noConfiguration cap _ => noConfigurationMessage cap
  | plan fault => fault.message
  | stored fault => fault.message
  | unknownFamily id => "Unknown PLL family \"" ++ id ++ "\""
  | unnamedSlots id letters n =>
    "PLL family \"" ++ id ++ "\" names " ++ letters.repr ++ " slots but allows " ++ Number.text n
      ++ " outputs"
  | unnamedSlot slot primitive =>
    "Output slot " ++ Number.text slot ++ " has no port name on " ++ primitive
  | unknownPlan id => "Unknown plan \"" ++ id ++ "\""

end ClockSynth
