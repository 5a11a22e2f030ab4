import ClockSynth.Proofs.Number.Same
import ClockSynth.Proofs.Variation

/-!
# Who may feed back

A problem frees another one if its requests want the same clocks, one by one, and each that could
feed back in the other still can. The requests then get the same dividers at every candidate, so a
candidate that was valid stays so, and a problem is solved no later for it, however many outputs it
has. While a slot is free the feedback has a way in any case, and the two searches end at the same
candidate, one perhaps with a phantom where the other has none (`solve_freed`).
-/

namespace ClockSynth

open Number

section Alike

/-- The requests want the same frequency within the same margin. -/
structure Request.Alike (r r' : Request) : Prop where
  frequency : Same r.frequency r'.frequency
  margin : Same r.margin r'.margin

variable {r r' : Request}

theorem Request.Alike.meets_iff (h : r.Alike r') {vco d : Float} :
    r.Meets vco d ↔ r'.Meets vco d := by
  rw [Request.Meets, Request.Meets, h.frequency.abs_sub_le_iff,
    (h.frequency.mul h.margin).le_iff]

theorem DividerRange.resolve?_congr (dividers : DividerRange) (h : r.Alike r') (vco : Float) :
    dividers.resolve? vco r'.frequency r'.margin = dividers.resolve? vco r.frequency r.margin := by
  rw [resolve?_eq_find?, resolve?_eq_find?]
  exact congrArg (dividers.values.find? ·) (funext fun d => decide_eq_decide.2 h.meets_iff.symm)

end Alike

namespace Problem

/-- The requests of `q` are those of `p` as to frequency and margin, one by one, and each may feed
back if its counterpart may. -/
structure Frees (p q : Problem) : Prop extends SameLoop p q where
  requests : List.Forall₂ (fun r r' => r.Alike r' ∧ (p.eligible r = true → q.eligible r' = true))
    p.requests q.requests

/-- The configurations divide alike on the way to the requested outputs. -/
structure SameDivision (p q : Problem) (c c' : Configuration) : Prop where
  inputDivider : c'.inputDivider = c.inputDivider
  feedbackDivider : c'.feedbackDivider = c.feedbackDivider
  feedbackOutputDivider : c'.feedbackOutputDivider = c.feedbackOutputDivider
  vcoFrequency : c'.vcoFrequency = c.vcoFrequency
  outputs : ∃ served served' more more' : List Output,
    c.outputs = served ++ more ∧ c'.outputs = served' ++ more'
      ∧ List.Forall₂ (fun r o => r.Served p.family.limits.outputDivider c.vcoFrequency o)
        p.requests served
      ∧ List.Forall₂ (fun r o => r.Served q.family.limits.outputDivider c'.vcoFrequency o)
        q.requests served'
      ∧ served'.map Output.divider = served.map Output.divider

variable {p q : Problem} {d : Dividers} {c c' : Configuration}

theorem divider_serve (p : Problem) (d : Dividers) {r r' : Request} (h : r.Alike r') :
    (p.serve d r').divider = (p.serve d r).divider := by
  unfold serve Request.resolve?
  rw [DividerRange.resolve?_congr _ h]
  cases p.family.limits.outputDivider.resolve? (p.vco d) r.frequency r.margin <;> rfl

namespace Frees

theorem spareSlot (h : Frees p q) : q.spareSlot = p.spareSlot := by
  rw [Problem.spareSlot, Problem.spareSlot, h.requests.length_eq]

theorem reaches_all_iff (h : Frees p q) :
    (∀ r ∈ q.requests, q.Reaches d r) ↔ ∀ r ∈ p.requests, p.Reaches d r := by
  have hreaches {r r' : Request} (hr : r.Alike r') : q.Reaches d r' ↔ p.Reaches d r := by
    rw [h.reaches_iff]
    exact exists_congr fun x => and_congr_right fun _ => hr.meets_iff.symm
  constructor
  · intro hq r hr
    obtain ⟨r', hr', halike, -⟩ := exists_right_of_mem_left h.requests r hr
    exact (hreaches halike).1 (hq r' hr')
  · intro hp r' hr'
    obtain ⟨r, hr, halike, -⟩ := exists_left_of_mem_right h.requests r' hr'
    exact (hreaches halike).2 (hp r hr)

theorem exists_feeds (h : Frees p q) (hfeeds : ∃ r ∈ p.requests, p.Feeds d r) :
    ∃ r ∈ q.requests, q.Feeds d r := by
  obtain ⟨r, hr, hfeeds⟩ := hfeeds
  obtain ⟨r', hr', halike, heligible⟩ := exists_right_of_mem_left h.requests r hr
  obtain ⟨hdivider, hmay⟩ := feeds_iff.1 hfeeds
  refine ⟨r', hr', feeds_iff.2 ⟨?_, heligible hmay⟩⟩
  rwa [h.serve, divider_serve p d halike]

/-- A valid candidate stays valid. -/
theorem valid (h : Frees p q) (hd : p.Valid d) : q.Valid d := by
  obtain ⟨htunes, hreaches, hclosed⟩ := valid_iff.1 hd
  refine valid_iff.2 ⟨h.tunes ▸ htunes, h.reaches_all_iff.2 hreaches, ?_⟩
  rw [h.family, h.spareSlot]
  exact hclosed.imp_left h.exists_feeds

/-- While a slot is free, the two have the same valid candidates. -/
theorem valid_iff_of_free (h : Frees p q)
    (hfree : ¬ p.family.limits.maxOutputs ≤ p.requests.length.toFloat) :
    p.Valid d ↔ q.Valid d := by
  have hfree' : ¬ q.family.limits.maxOutputs ≤ q.spareSlot := by rwa [h.family, h.spareSlot]
  rw [valid_iff, valid_iff, h.reaches_all_iff, h.tunes]
  simp only [hfree', or_true, show ¬ p.family.limits.maxOutputs ≤ p.spareSlot from hfree,
    not_false_eq_true]

theorem map_divider_serve (h : Frees p q) (d : Dividers) :
    (q.requests.map (q.serve d)).map Output.divider
      = (p.requests.map (p.serve d)).map Output.divider := by
  rw [h.serve, List.map_map, List.map_map, eq_comm, ← List.forall₂_eq_eq_eq,
    List.forall₂_map_left_iff, List.forall₂_map_right_iff]
  exact h.requests.imp fun r r' hr => (divider_serve p d hr.1).symm

theorem sameDivision (h : Frees p q) (he : p.evaluate d = .ok c) (he' : q.evaluate d = .ok c') :
    SameDivision p q c c' := by
  obtain ⟨hi, hb, ho, hv, more, hc, hserved⟩ := dividers_of_evaluate he
  obtain ⟨hi', hb', ho', hv', more', hc', hserved'⟩ := dividers_of_evaluate he'
  exact
    { inputDivider := hi'.trans hi.symm
      feedbackDivider := hb'.trans hb.symm
      feedbackOutputDivider := ho'.trans ho.symm
      vcoFrequency := hv'.trans ((h.vco d).trans hv.symm)
      outputs := ⟨_, _, more, more', hc, hc', hserved, hserved', h.map_divider_serve d⟩ }

end Frees

/-- To let more requests feed back loses no solution, however many outputs there are: the freed
problem is solved within as many combinations. While a slot is free, who may feed back decides
between a phantom and none, and nothing else: both problems are solved, with the same dividers, or
both fail, after the same counts. -/
theorem solve_freed (h : Frees p q) (cap : Option Float) :
    (∀ c t, p.solve cap = .solved c t →
        ∃ c' t', q.solve cap = .solved c' t' ∧ t'.evaluated ≤ t.evaluated)
      ∧ (¬ p.family.limits.maxOutputs ≤ p.requests.length.toFloat →
        (q.solve cap).statistics
            = { (p.solve cap).statistics with
                phantomFeedback := (q.solve cap).statistics.phantomFeedback }
          ∧ ((∃ c c' t, p.solve cap = .solved c t ∧ q.solve cap = .solved c' t
              ∧ SameDivision p q c c')
            ∨ ∃ limit t, p.solve cap = .failed limit t ∧ q.solve cap = .failed limit t)) := by
  refine ⟨fun c t hs => solve_mono h.toSameLoop (fun d hd => h.valid hd) hs, fun hfree => ?_⟩
  rcases solve_congr h.toSameLoop (fun d => h.valid_iff_of_free hfree) cap with
    ⟨d, c, c', t, he, he', hp, hq⟩ | ⟨limit, t, hp, hq⟩ <;> rw [hp, hq]
  · exact ⟨rfl, .inl ⟨c, c', t, rfl, rfl, h.sameDivision he he'⟩⟩
  · exact ⟨rfl, .inr ⟨limit, t, rfl, rfl⟩⟩

/-- Two requests, one of them with a moving phase, for a family of so many outputs. -/
def restless (maxOutputs : Float) : Problem :=
  { small with
    family := { Family.small with limits := { Family.small.limits with maxOutputs := maxOutputs } }
    requests := [
      ⟨0, "core", 500e6, 0, 0.01, true, true⟩,
      ⟨1, "usb", 250e6, 90, 0.01, true, false⟩]
    dynamicPhase := true }

/-- With both slots taken the feedback is found one candidate earlier once the phases stand still;
with more slots there is a phantom less. -/
theorem solve_freed_restless :
    Frees (restless 2) { restless 2 with dynamicPhase := false }
      ∧ (∃ c t c' t', (restless 2).solve none = .solved c t
        ∧ { restless 2 with dynamicPhase := false }.solve none = .solved c' t'
        ∧ t'.evaluated ≤ t.evaluated ∧ t.evaluated = 3 ∧ t'.evaluated = 2)
      ∧ Frees (restless 4) { restless 4 with dynamicPhase := false }
      ∧ ((restless 4).solve none).statistics.phantomFeedback = true
      ∧ ({ restless 4 with dynamicPhase := false }.solve none).statistics
        = { ((restless 4).solve none).statistics with phantomFeedback := false } := by
  have h (n : Float) : Frees (restless n) { restless n with dynamicPhase := false } :=
    { family := rfl
      inputFrequency := rfl
      requests := List.forall₂_same.2 fun r _ => ⟨⟨.refl _, .refl _⟩, fun _ => rfl⟩ }
  refine ⟨h 2, ?_, h 4, by decide +kernel, ?_⟩
  · have hsome : ((restless 2).solve none).configuration?.isSome = true := by decide +kernel
    have hp : ((restless 2).solve none).statistics.evaluated = 3 := by decide +kernel
    have hq : ({ restless 2 with dynamicPhase := false }.solve none).statistics.evaluated = 2 := by
      decide +kernel
    cases hs : (restless 2).solve none with
    | failed limit t => rw [hs] at hsome; cases hsome
    | solved c t =>
      obtain ⟨c', t', hs', hle⟩ := (solve_freed (h 2) none).1 c t hs
      rw [hs] at hp
      rw [hs'] at hq
      exact ⟨c, t, c', t', rfl, hs', hle, hp, hq⟩
  · have hfree :
        ¬ (restless 4).family.limits.maxOutputs ≤ (restless 4).requests.length.toFloat := by
      decide +kernel
    have hreal : ({ restless 4 with dynamicPhase := false }.solve none).statistics.phantomFeedback
        = false := by decide +kernel
    rw [((solve_freed (h 4) none).2 hfree).1, hreal]

end Problem

end ClockSynth
