import ClockSynth.Configuration
import ClockSynth.Error
import ClockSynth.Family
import ClockSynth.Record

/-!
# The primitive of a configuration

`Snapshot.primitive` turns a configuration, and the plan that it was found for, into what stands on
an instance of the primitive: attributes, parameters, and the signals on its ports. Ports are named
by slot letters, so a slot without a letter is an error; nothing else can fail.
-/

namespace ClockSynth

/-- The input clock of a plan, and the signal that brings it. -/
structure Input where
  frequency : Float
  signal : String
deriving DecidableEq, Inhabited

/-- A plan as it stood when it was solved. -/
structure Snapshot where
  family : Family
  input : Input
  requests : List Request
  dynamicPhase : Bool
deriving DecidableEq, Inhabited

inductive Parameter where
  | text (s : String)
  | number (x : Float)
deriving DecidableEq

/-- Everything that stands on an instance of a primitive, and the configuration behind it. -/
structure Primitive where
  name : String
  attributes : List (String × String)
  parameters : Record Parameter
  inputs : Record String
  outputs : Record String
  resetDomains : List String
  configuration : Configuration

/-- The coarse phase of an output, in cycles of the VCO. At phase zero the counter idles at
`divider - 1`, and a whole turn is `divider + 1` steps. No phase is refused. -/
def coarsePhase (degrees divider : Float) : Float :=
  Number.trunc (degrees * (divider + 1) / 360 + divider - 1)

def domainSignal (domain : String) : String :=
  domain ++ "_clk"

/-- The signal on a port that only carries the feedback. -/
def feedbackSignal : String := "clkfb"

/-- The letter of a slot that must have one. -/
def Family.letter (f : Family) (slot : Float) : Except Error String :=
  match f.letter? slot with
  | some l => .ok l
  | none => .error (.unnamedSlot slot f.primitive)

/-- The value that leads the feedback through a slot. -/
def Family.feedbackPath (f : Family) (slot : Float) : Except Error String :=
  (f.letter slot).map ("INT_O" ++ ·)

/-- The signals that turn a phase, on the inputs that take them. -/
def phaseInputs : List (String × String) :=
  [("PHASESEL0", "phase_sel[0]"), ("PHASESEL1", "phase_sel[1]"), ("PHASEDIR", "phase_dir"),
    ("PHASESTEP", "phase_step"), ("PHASELOADREG", "phase_load")]

structure Port where
  name : String
  output : Output
deriving DecidableEq, Inhabited

def Port.parameters (p : Port) : List (String × Parameter) :=
  [(p.name ++ "_ENABLE", .text "ENABLED"),
    (p.name ++ "_DIV", .number p.output.divider),
    (p.name ++ "_FPHASE", .number 0),
    (p.name ++ "_CPHASE", .number (coarsePhase p.output.phase p.output.divider))]

namespace Snapshot

def port (s : Snapshot) (o : Output) : Except Error Port :=
  (s.family.letter o.slot).map fun l => ⟨"CLKO" ++ l, o⟩

/-- The signal on a port: the clock of the first request for its slot. -/
def signal (s : Snapshot) (o : Output) : String :=
  if o.phantom then feedbackSignal
  else
    match s.requests.find? (·.slot == o.slot) with
    | some r => domainSignal r.domain
    | none => feedbackSignal

/-- The parameters of the whole primitive, in the order of writing. -/
def parameters (s : Snapshot) (c : Configuration) (path : String) (ports : List Port) :
    List (String × Parameter) :=
  (if s.dynamicPhase then [("DPHASE_SOURCE", .text "ENABLED")] else [])
    ++ [("FEEDBK_PATH", .text path), ("CLKFB_DIV", .number c.feedbackDivider),
      ("CLKI_DIV", .number c.inputDivider)]
    ++ ports.flatMap Port.parameters

def inputs (s : Snapshot) : List (String × String) :=
  [("RST", "reset"), ("CLKI", s.input.signal), ("STDBY", "stdby")]
    ++ if s.dynamicPhase then phaseInputs else []

def outputs (s : Snapshot) (ports : List Port) : List (String × String) :=
  ("LOCK", "locked") :: ports.map fun p => (p.name, s.signal p.output)

def primitive (s : Snapshot) (c : Configuration) : Except Error Primitive := do
  let path ← s.family.feedbackPath c.feedbackSlot
  let ports ← c.outputs.mapM s.port
  return {
    name := s.family.primitive
    attributes := ("FREQUENCY_PIN_CLKI", Frequency.pinText s.input.frequency) :: s.family.calibration
    parameters := .ofList (s.parameters c path ports)
    inputs := .ofList s.inputs
    outputs := .ofList (s.outputs ports)
    resetDomains := (s.requests.filter Request.withReset).map Request.domain
    configuration := c }

end Snapshot

end ClockSynth
