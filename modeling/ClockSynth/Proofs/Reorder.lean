import ClockSynth.Proofs.Solution
import ClockSynth.Proofs.Variation

/-!
# The order of requests

To put the requests of a problem in another order changes neither the candidate at which its search
ends nor any count (`solve_perm`). The outputs change places along with their requests. Only the
slot that feeds back depends on the order: it is that of the first request that can.
-/

namespace ClockSynth.Problem

/-- The same requests, in another order. -/
structure Reorders (p q : Problem) : Prop extends SameLoop p q where
  dynamicPhase : q.dynamicPhase = p.dynamicPhase
  perm : p.requests.Perm q.requests

/-- How solutions for two orders of the requests correspond: each request has its output in both,
and the feedback takes the first way that its order offers. -/
structure Corresponds (p q : Problem) (c c' : Configuration) : Prop where
  inputFrequency : c'.inputFrequency = c.inputFrequency
  inputDivider : c'.inputDivider = c.inputDivider
  feedbackDivider : c'.feedbackDivider = c.feedbackDivider
  feedbackOutputDivider : c'.feedbackOutputDivider = c.feedbackOutputDivider
  vcoFrequency : c'.vcoFrequency = c.vcoFrequency
  outputs : ∃ (serve : Request → Output) (more : List Output),
    (∀ r ∈ p.requests, r.Served p.family.limits.outputDivider c.vcoFrequency (serve r))
      ∧ c.outputs = p.requests.map serve ++ more ∧ c'.outputs = q.requests.map serve ++ more
      ∧ p.Feedback c (p.requests.map serve) more ∧ q.Feedback c' (q.requests.map serve) more

variable {p q : Problem} {d : Dividers} {c c' : Configuration}

namespace Reorders

theorem spareSlot (h : Reorders p q) : q.spareSlot = p.spareSlot := by
  rw [Problem.spareSlot, Problem.spareSlot, h.perm.length_eq]

theorem phantom (h : Reorders p q) (d : Dividers) : q.phantom d = p.phantom d := by
  unfold Problem.phantom
  rw [h.spareSlot, h.vco, h.inputFrequency]

theorem carries_iff (h : Reorders p q) {output : Float} {x : Request × Output} :
    q.Carries output x ↔ p.Carries output x := by
  rw [Carries, Carries, h.dynamicPhase]

theorem exists_feeds_iff (h : Reorders p q) :
    (∃ r ∈ q.requests, q.Feeds d r) ↔ ∃ r ∈ p.requests, p.Feeds d r := by
  refine exists_congr fun r => and_congr h.perm.mem_iff.symm ?_
  rw [Feeds, Feeds, h.serve, h.carries_iff]

/-- Validity does not look at the order. -/
theorem valid_iff (h : Reorders p q) (d : Dividers) : p.Valid d ↔ q.Valid d := by
  rw [Problem.valid_iff, Problem.valid_iff, h.exists_feeds_iff, h.tunes, h.family, h.spareSlot]
  simp only [h.reaches_iff, h.perm.mem_iff]

/-- Whether some request feeds back does not depend on the order. -/
theorem more_eq (h : Reorders p q) {slot slot' : Float} {more more' : List Output}
    (hclose : p.Closes d (p.requests.map (p.serve d)) slot more)
    (hclose' : q.Closes d (q.requests.map (q.serve d)) slot' more') : more' = more := by
  rcases hclose.more_eq with ⟨hfeeds, rfl⟩ | ⟨hnone, rfl⟩ <;>
    rcases hclose'.more_eq with ⟨hfeeds', rfl⟩ | ⟨hnone', rfl⟩
  · rfl
  · exact absurd (h.exists_feeds_iff.2 hfeeds) hnone'
  · exact absurd (h.exists_feeds_iff.1 hfeeds') hnone
  · rw [h.phantom]

theorem corresponds (h : Reorders p q) (he : p.evaluate d = .ok c) (he' : q.evaluate d = .ok c') :
    Corresponds p q c c' := by
  obtain ⟨-, hreaches, slot, more, hclose, rfl⟩ := evaluate_serve_iff.1 he
  obtain ⟨-, -, slot', more', hclose', rfl⟩ := evaluate_serve_iff.1 he'
  obtain rfl := h.more_eq hclose hclose'
  have hserve : q.serve d = p.serve d := congrFun h.serve d
  rw [hserve] at hclose' ⊢
  exact
    { inputFrequency := h.inputFrequency
      inputDivider := rfl
      feedbackDivider := rfl
      feedbackOutputDivider := rfl
      vcoFrequency := h.vco d
      outputs := ⟨p.serve d, more', fun r hr => served_iff.2 ⟨hreaches r hr, rfl⟩, rfl, rfl,
        hclose.feedback _, hclose'.feedback _⟩ }

end Reorders

theorem Corresponds.hasPhantom (h : Corresponds p q c c') (hperm : p.requests.Perm q.requests) :
    c'.hasPhantom = c.hasPhantom := by
  obtain ⟨serve, more, -, hc, hc', -⟩ := h.outputs
  rw [Configuration.hasPhantom, Configuration.hasPhantom, hc, hc']
  exact (((hperm.map serve).append_right more).any_eq).symm

/-- A problem with its requests in another order has the same outcome, with the same counts, or the
same failure: each request keeps its output, a phantom stays as it is, and only the slot that feeds
back is chosen anew, as the first in the new order that can. -/
theorem solve_perm (p : Problem) {requests : List Request} (h : p.requests.Perm requests)
    (cap : Option Float) :
    let q := { p with requests := requests }
    (q.solve cap).statistics = (p.solve cap).statistics
      ∧ ((∃ c c' t, p.solve cap = .solved c t ∧ q.solve cap = .solved c' t ∧ Corresponds p q c c')
        ∨ ∃ limit t, p.solve cap = .failed limit t ∧ q.solve cap = .failed limit t) := by
  intro q
  have hq : Reorders p q := { family := rfl, inputFrequency := rfl, dynamicPhase := rfl, perm := h }
  rcases solve_congr hq.toSameLoop hq.valid_iff cap with
    ⟨d, c, c', t, he, he', hp, hp'⟩ | ⟨limit, t, hp, hp'⟩ <;> rw [hp, hp']
  · have hc := hq.corresponds he he'
    refine ⟨?_, .inl ⟨c, c', t, rfl, rfl, hc⟩⟩
    rw [Outcome.statistics, Outcome.statistics, hc.hasPhantom h]
  · exact ⟨rfl, .inr ⟨limit, t, rfl, rfl⟩⟩

/-- Two requests either of which can feed back, and one that cannot. -/
def twins : Problem :=
  { small with
    requests := [⟨0, "core", 500e6, 0, 0.01, true, false⟩, ⟨1, "usb", 250e6, 90, 0.01, true, false⟩,
      ⟨2, "ddr", 500e6, 0, 0.01, false, false⟩] }

/-- In the reverse order the feedback runs through the other of the two. -/
theorem solve_perm_twins :
    twins.requests.Perm twins.requests.reverse
      ∧ ∃ c c' t, twins.solve none = .solved c t
        ∧ { twins with requests := twins.requests.reverse }.solve none = .solved c' t
        ∧ Corresponds twins { twins with requests := twins.requests.reverse } c c'
        ∧ c.feedbackSlot = 0 ∧ c'.feedbackSlot = 2 := by
  have hperm : twins.requests.Perm twins.requests.reverse := (List.reverse_perm _).symm
  refine ⟨hperm, ?_⟩
  have hslot : (twins.solve none).configuration?.map Configuration.feedbackSlot = some 0 := by
    decide +kernel
  have hslot' : ({ twins with requests := twins.requests.reverse }.solve none).configuration?.map
      Configuration.feedbackSlot = some 2 := by decide +kernel
  obtain ⟨-, ⟨c, c', t, hp, hp', hc⟩ | ⟨limit, t, hp, -⟩⟩ := twins.solve_perm hperm none
  · rw [hp] at hslot
    rw [hp'] at hslot'
    exact ⟨c, c', t, hp, hp', hc, Option.some.inj hslot, Option.some.inj hslot'⟩
  · rw [hp] at hslot
    cases hslot

end ClockSynth.Problem
