import ClockSynth.Session
import ClockSynth.Configuration.Stored
import ClockSynth.Primitive.Instance
import ClockSynth.Proofs.Number.Line
import ClockSynth.Proofs.Number.Arithmetic
import ClockSynth.Proofs.Number.Natural
import ClockSynth.Proofs.Divider
import ClockSynth.Proofs.Search
import ClockSynth.Proofs.Candidate
import ClockSynth.Proofs.Solution
import ClockSynth.Proofs.Number.Error
import ClockSynth.Proofs.Phantom
import ClockSynth.Proofs.Cap
import ClockSynth.Proofs.Plan
import ClockSynth.Proofs.Primitive
import ClockSynth.Proofs.Drive
import ClockSynth.Proofs.Letter
import ClockSynth.Proofs.Session
import ClockSynth.Proofs.Number.Decimal
import ClockSynth.Proofs.Number.Text
import ClockSynth.Proofs.Stored
import ClockSynth.Proofs.RoundTrip
import ClockSynth.Proofs.Finalize
import ClockSynth.Proofs.Recovery
import ClockSynth.Proofs.Alias
import ClockSynth.Proofs.Tally
import ClockSynth.Proofs.Verdict
import ClockSynth.Proofs.Variation
import ClockSynth.Proofs.Reorder
import ClockSynth.Proofs.Relaxation
import ClockSynth.Proofs.Logging
import ClockSynth.Proofs.Merged
import ClockSynth.Proofs.Number.Same
import ClockSynth.Proofs.Eligibility
import ClockSynth.Proofs.Account
import ClockSynth.Proofs.Threshold
import ClockSynth.Proofs.Decision
import ClockSynth.Proofs.Written
import ClockSynth.Proofs.Instance
import ClockSynth.Proofs.Registry
import ClockSynth.Proofs.Filter
import ClockSynth.Proofs.Even
import ClockSynth.Proofs.Phase
import ClockSynth.Proofs.Integers
import ClockSynth.Proofs.PinText
