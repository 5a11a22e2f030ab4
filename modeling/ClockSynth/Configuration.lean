/-!
# Requests and configurations

A `Request` asks for one output clock: its frequency, the relative margin allowed on it, and its
phase. A `Configuration` is what a primitive is set to: its dividers, the frequency of its VCO, and
one `Output` for each slot that runs. The VCO is divided down to the outputs, and one of these,
divided once more, is fed back to be compared with the divided input. Where no requested output can
carry the feedback, a spare one does: a phantom.
-/

namespace ClockSynth

/-- An output clock that is asked for. -/
structure Request where
  slot : Float
  domain : String
  frequency : Float
  phase : Float
  margin : Float
  withReset : Bool
  usesDynamicPhase : Bool
deriving DecidableEq, Inhabited

/-- An output slot that runs; a phantom one only carries the feedback. -/
structure Output where
  slot : Float
  divider : Float
  frequency : Float
  phase : Float
  phantom : Bool
deriving DecidableEq, Inhabited

/-- The setting of a primitive. `feedbackOutputDivider` divides the output that is fed back, which
is the one of `feedbackSlot`. -/
structure Configuration where
  inputFrequency : Float
  inputDivider : Float
  feedbackDivider : Float
  feedbackOutputDivider : Float
  vcoFrequency : Float
  feedbackSlot : Float
  outputs : List Output
deriving DecidableEq, Inhabited

/-- A spare output carries the feedback. -/
def Configuration.hasPhantom (c : Configuration) : Bool :=
  c.outputs.any Output.phantom

end ClockSynth
