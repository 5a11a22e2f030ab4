import ClockSynth.Configuration
import ClockSynth.Family

/-!
# Candidates

A `Problem` asks for a configuration; a choice of its three feedback dividers is a candidate.
`Problem.evaluate` judges one. The VCO it gives must be in range, every request must find a divider
at that VCO, and the feedback must have a way: the first request whose divider is the chosen one
carries it, unless its phase moves, and failing such a request a spare slot does.
-/

namespace ClockSynth

/-- What is asked of a family, the built-in one unless another is named: output clocks made from an
input clock. -/
structure Problem where
  family : Family := Family.ecp5
  inputFrequency : Float
  requests : List Request
  dynamicPhase : Bool
deriving DecidableEq, Inhabited

/-- The dividers of the feedback loop: of the input, of the output that is fed back, and of the way
back. -/
structure Dividers where
  input : Float
  output : Float
  feedback : Float
deriving DecidableEq, Inhabited

/-- Why a candidate is no configuration. -/
inductive Rejection where
  | vcoOutOfRange
  | outputUnresolved
  | noFreeFeedbackSlot
deriving DecidableEq, Repr

/-- The divider of the spare slot that closes the feedback loop, cut to a whole number. -/
def phantomDivider (vco inputDivider inputFrequency feedbackDivider : Float) : Float :=
  Number.trunc ((vco * inputDivider) / (inputFrequency * feedbackDivider))

/-- A request meets its frequency with the first divider that comes near enough. -/
def Request.resolve? (r : Request) (dividers : DividerRange) (vco : Float) : Option Output :=
  (dividers.resolve? vco r.frequency r.margin).map fun d =>
    { slot := r.slot, divider := d, frequency := vco / d, phase := r.phase, phantom := false }

namespace Problem

/-- The frequency at which the VCO closes the loop. -/
def vco (p : Problem) (d : Dividers) : Float :=
  p.inputFrequency / d.input * d.feedback * d.output

/-- The phase of an output that carries the feedback must stand still. -/
def eligible (p : Problem) (r : Request) : Bool :=
  !(p.dynamicPhase && r.usesDynamicPhase)

/-- The slot of the first output that can carry the feedback. -/
def feedbackSlot? (p : Problem) (d : Dividers) (outputs : List Output) : Option Float :=
  ((p.requests.zip outputs).find? fun (r, o) => o.divider == d.output && p.eligible r).map (·.1.slot)

/-- The number of requests, which is also the slot after the last of them. -/
def spareSlot (p : Problem) : Float :=
  p.requests.length.toFloat

/-- The spare output that closes the loop. -/
def phantom (p : Problem) (d : Dividers) : Output :=
  let vco := p.vco d
  let divider := phantomDivider vco d.input p.inputFrequency d.feedback
  { slot := p.spareSlot, divider, frequency := vco / divider, phase := 0, phantom := true }

/-- The configuration with these dividers and outputs. -/
def configuration (p : Problem) (d : Dividers) (feedbackSlot : Float) (outputs : List Output) :
    Configuration where
  inputFrequency := p.inputFrequency
  inputDivider := d.input
  feedbackDivider := d.feedback
  feedbackOutputDivider := d.output
  vcoFrequency := p.vco d
  feedbackSlot := feedbackSlot
  outputs := outputs

/-- The requested outputs at the VCO of a candidate. -/
def resolve? (p : Problem) (d : Dividers) : Option (List Output) :=
  p.requests.mapM fun r => r.resolve? p.family.limits.outputDivider (p.vco d)

/-- Leads the feedback through one of the requested outputs, or else through a spare one. -/
def close (p : Problem) (d : Dividers) (outputs : List Output) : Except Rejection Configuration :=
  match p.feedbackSlot? d outputs with
  | some slot => .ok (p.configuration d slot outputs)
  | none =>
    if p.family.limits.maxOutputs ≤ p.spareSlot then .error .noFreeFeedbackSlot
    else .ok (p.configuration d p.spareSlot (outputs ++ [p.phantom d]))

def evaluate (p : Problem) (d : Dividers) : Except Rejection Configuration :=
  if p.family.limits.vcoFrequency.contains (p.vco d) then
    match p.resolve? d with
    | none => .error .outputUnresolved
    | some outputs => p.close d outputs
  else .error .vcoOutOfRange

theorem evaluate_eq_vcoOutOfRange_iff {p : Problem} {d : Dividers} :
    p.evaluate d = .error .vcoOutOfRange
      ↔ p.family.limits.vcoFrequency.contains (p.vco d) = false := by
  unfold evaluate
  split
  · rename_i h
    simp only [h, Bool.true_eq_false, iff_false]
    split
    · simp
    · unfold close
      split
      · simp
      · split <;> simp
  · rename_i h
    simpa using h

end Problem

end ClockSynth
