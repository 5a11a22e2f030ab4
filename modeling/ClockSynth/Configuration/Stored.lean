import ClockSynth.Configuration
import ClockSynth.Error
import ClockSynth.Number.Numeral
import ClockSynth.Record
import ClockSynth.Value

/-!
# Stored configurations

A configuration is stored with its outputs in a record under the texts of their slots. Of two outputs
in one slot the later is kept. Reading takes loose data and checks it piece by piece, in the order in
which the pieces are read out, so that the first fault is the one reported. What is read has its
outputs in the order of their slots; two keys may write one slot, and then their order stays.
-/

namespace ClockSynth

/-- A stored output; the mark is one on a phantom output. -/
structure StoredOutput where
  divider : Float
  frequency : Float
  phase : Float
  mark : Float
deriving DecidableEq, Inhabited

structure Stored where
  inputFrequency : Float
  inputDivider : Float
  feedbackDivider : Float
  feedbackOutputDivider : Float
  vcoFrequency : Float
  feedbackSlot : Float
  outputs : Record StoredOutput

def Output.store (o : Output) : StoredOutput where
  divider := o.divider
  frequency := o.frequency
  phase := o.phase
  mark := if o.phantom then 1 else 0

def Configuration.store (c : Configuration) : Stored where
  inputFrequency := c.inputFrequency
  inputDivider := c.inputDivider
  feedbackDivider := c.feedbackDivider
  feedbackOutputDivider := c.feedbackOutputDivider
  vcoFrequency := c.vcoFrequency
  feedbackSlot := c.feedbackSlot
  outputs := .ofList (c.outputs.map fun o => (Number.text o.slot, o.store))

namespace StoredOutput

def restore (s : StoredOutput) (slot : Float) : Output where
  slot := slot
  divider := s.divider
  frequency := s.frequency
  phase := s.phase
  phantom := s.mark == 1

def toValue (s : StoredOutput) : Value :=
  .array [.number s.divider, .number s.frequency, .number s.phase, .number s.mark]

/-- Four numbers and nothing else. -/
def ofValue? : Value → Option StoredOutput
  | .array [.number divider, .number frequency, .number phase, .number mark] =>
    some ⟨divider, frequency, phase, mark⟩
  | _ => none

theorem ofValue?_toValue (s : StoredOutput) : ofValue? s.toValue = some s := rfl

end StoredOutput

/-- A stored configuration as loose data. -/
def Stored.toValue (s : Stored) : Value :=
  .object
    [("inputFrequency", .number s.inputFrequency),
      ("inputDivider", .number s.inputDivider),
      ("feedbackDivider", .number s.feedbackDivider),
      ("feedbackOutputDivider", .number s.feedbackOutputDivider),
      ("vcoFrequency", .number s.vcoFrequency),
      ("feedbackSlot", .number s.feedbackSlot),
      ("outputs", .object (s.outputs.fields.map fun (key, o) => (key, o.toValue)))]

def Value.fields? : Value → Option (Record Value)
  | .object fields => some (.ofList fields)
  | _ => none

namespace Configuration

/-- Reads one output, and with it the number that its slot is. -/
def readOutput (field : String × Value) : Except StoredFault (Nat × Output) :=
  match Number.read? field.1 with
  | none => .error (.slot field.1)
  | some slot =>
    match Number.toNat? slot with
    | none => .error (.slot field.1)
    | some n =>
      match StoredOutput.ofValue? field.2 with
      | none => .error (.entry slot)
      | some stored => .ok (n, stored.restore slot)

/-- Reads all outputs and puts them in the order of their slots. -/
def readOutputs (outputs : Record Value) : Except StoredFault (List Output) :=
  (outputs.enumerate.mapM readOutput).map fun read => (Ranked.sort Prod.fst read).map Prod.snd

/-- Reads a number that must be finite. -/
def readField (data : Record Value) (f : StoredField) : Except StoredFault Float :=
  match data.get? f.name with
  | some (.number x) => if x.isFinite then .ok x else .error (.field f)
  | _ => .error (.field f)

def read (data : Value) : Except StoredFault Configuration := do
  let some fields := data.fields? | throw .notObject
  let some outputsData := (fields.get? "outputs").bind Value.fields? | throw .noOutputs
  let outputs ← readOutputs outputsData
  let inputFrequency ← readField fields .inputFrequency
  let inputDivider ← readField fields .inputDivider
  let feedbackDivider ← readField fields .feedbackDivider
  let feedbackOutputDivider ← readField fields .feedbackOutputDivider
  let vcoFrequency ← readField fields .vcoFrequency
  let feedbackSlot ← readField fields .feedbackSlot
  if outputs.any (·.slot == feedbackSlot) then
    return {
      inputFrequency, inputDivider, feedbackDivider, feedbackOutputDivider, vcoFrequency,
      feedbackSlot, outputs }
  else throw (.feedback feedbackSlot)

end Configuration

end ClockSynth
