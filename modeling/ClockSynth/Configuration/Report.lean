import ClockSynth.Configuration
import ClockSynth.Frequency

/-!
# Reports for people

One line for each clock that is registered, and a table for a configuration.
-/

namespace ClockSynth

def inputReport (frequency : Float) : String :=
  "Registering ClkIn of " ++ Frequency.inMHz frequency ++ "."

/-- Announces an output clock, with its margin in percent. -/
def Request.report (r : Request) : String :=
  "Creating ClkOut" ++ Number.text r.slot ++ " " ++ r.domain ++ " of " ++ Frequency.inMHz r.frequency
    ++ " (+-" ++ Number.fixed (r.margin * 100) 2 ++ "%)."

def Output.report (o : Output) : String :=
  "  clko" ++ Number.text o.slot ++ "     : div " ++ Number.text o.divider ++ ", "
    ++ Frequency.inMHz o.frequency ++ ", phase " ++ Number.text o.phase
    ++ (if o.phantom then " (feedback)" else "")

/-- The table of a configuration: its feedback loop, then its outputs. -/
def Configuration.report (c : Configuration) : String :=
  "\n".intercalate <|
    ["Config:",
      "  clki_div  : " ++ Number.text c.inputDivider,
      "  clkfb_div : " ++ Number.text c.feedbackDivider,
      "  clkfb     : ClkOut" ++ Number.text c.feedbackSlot,
      "  vco       : " ++ Frequency.inMHz c.vcoFrequency]
    ++ c.outputs.map Output.report

end ClockSynth
