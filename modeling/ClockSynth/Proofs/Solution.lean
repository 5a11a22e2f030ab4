import ClockSynth.Proofs.Candidate
import ClockSynth.Proofs.Search

/-!
# What a solution satisfies

Whatever the search stops at, its configuration is built from one candidate, and `Solves` collects
what this means: the dividers come from their ranges, the frequencies on the way are in theirs, each
request has its output, in order, and the feedback is closed by one of these or by one more.
-/

namespace ClockSynth.Problem

/-- How the feedback of a configuration is led back, with `more` after the requested outputs. -/
inductive Feedback (p : Problem) (c : Configuration) (outputs : List Output) : List Output → Prop
  | request {before after : List (Request × Output)} {r : Request} {o : Output} :
      p.requests.zip outputs = before ++ (r, o) :: after →
      p.Carries c.feedbackOutputDivider (r, o) →
      (∀ x ∈ before, ¬ p.Carries c.feedbackOutputDivider x) → c.feedbackSlot = r.slot →
      Feedback p c outputs []
  | phantom {o : Output} : (∀ x ∈ p.requests.zip outputs, ¬ p.Carries c.feedbackOutputDivider x) →
      ¬ p.family.limits.maxOutputs ≤ p.requests.length.toFloat → o.phantom = true →
      o.slot = p.requests.length.toFloat → c.feedbackSlot = o.slot → o.phase = 0 →
      Feedback p c outputs [o]

/-- The configuration solves the problem. -/
structure Solves (p : Problem) (c : Configuration) : Prop where
  inputFrequency : c.inputFrequency = p.inputFrequency
  inputDivider : c.inputDivider ∈ p.family.limits.inputDivider.values
  feedbackDivider : c.feedbackDivider ∈ p.family.limits.feedbackDivider.values
  feedbackOutputDivider : c.feedbackOutputDivider ∈ p.family.limits.outputDivider.values
  pfd : p.family.limits.pfdFrequency.contains (p.inputFrequency / c.inputDivider) = true
  vcoFrequency : c.vcoFrequency
    = p.inputFrequency / c.inputDivider * c.feedbackDivider * c.feedbackOutputDivider
  vco : p.family.limits.vcoFrequency.contains c.vcoFrequency = true
  outputs : ∃ outputs more, c.outputs = outputs ++ more
    ∧ List.Forall₂ (fun r o => r.Served p.family.limits.outputDivider c.vcoFrequency o)
      p.requests outputs
    ∧ p.Feedback c outputs more

variable {p : Problem} {c : Configuration}

theorem mem_candidates_iff {d : Dividers} :
    d ∈ p.candidates
      ↔ d.input ∈ p.family.limits.inputDivider.values
        ∧ p.family.limits.pfdFrequency.contains (p.inputFrequency / d.input) = true
        ∧ d.output ∈ p.family.limits.outputDivider.values
        ∧ d.feedback ∈ p.family.limits.feedbackDivider.values :=
  mem_triples_iff

theorem Closes.feedback {d : Dividers} {outputs more : List Output} {slot : Float}
    (h : p.Closes d outputs slot more) (outs : List Output) :
    p.Feedback (p.configuration d slot outs) outputs more := by
  cases h with
  | request hl hx hb hslot => exact .request hl hx hb hslot
  | phantom hnone hmax hslot => exact .phantom hnone hmax rfl rfl hslot rfl

theorem solves_of_evaluate {d : Dividers} {c : Configuration} (hd : d ∈ p.candidates)
    (h : p.evaluate d = .ok c) : p.Solves c := by
  obtain ⟨hi, hpfd, ho, hb⟩ := mem_candidates_iff.1 hd
  obtain ⟨hvco, outputs, slot, more, hserved, hclose, rfl⟩ := evaluate_ok_iff.1 h
  exact
    { inputFrequency := rfl
      inputDivider := hi
      feedbackDivider := hb
      feedbackOutputDivider := ho
      pfd := hpfd
      vcoFrequency := rfl
      vco := hvco
      outputs := ⟨outputs, more, rfl, hserved, hclose.feedback _⟩ }

namespace Solves

/-- An output of a solution serves the request in its place, or it is the phantom after them. -/
theorem output_cases (h : p.Solves c) {i : ℕ} {o : Output} (ho : c.outputs[i]? = some o) :
    (∃ r, p.requests[i]? = some r ∧ r.Served p.family.limits.outputDivider c.vcoFrequency o)
      ∨ i = p.requests.length ∧ o.phantom = true ∧ o.slot = p.requests.length.toFloat
        ∧ c.feedbackSlot = o.slot := by
  obtain ⟨outputs, more, hc, hserved, hfeedback⟩ := h.outputs
  obtain ⟨hlen, hget⟩ := List.forall₂_iff_get.1 hserved
  rw [hc] at ho
  rcases lt_or_ge i outputs.length with hi | hi
  · rw [List.getElem?_append_left hi] at ho
    obtain ⟨_, rfl⟩ := List.getElem?_eq_some_iff.1 ho
    exact .inl ⟨p.requests[i], List.getElem?_eq_getElem (hlen ▸ hi), hget i (hlen ▸ hi) hi⟩
  · rw [List.getElem?_append_right hi] at ho
    cases hfeedback with
    | request => simp at ho
    | phantom _ _ hphantom hslot hpath _ =>
      obtain ⟨hlt, rfl⟩ := List.getElem?_eq_some_iff.1 ho
      rw [List.length_singleton] at hlt
      refine .inr ⟨by omega, ?_⟩
      rw [List.getElem_singleton]
      exact ⟨hphantom, hslot, hpath⟩

theorem exists_output (h : p.Solves c) {i : ℕ} {r : Request} (hr : p.requests[i]? = some r) :
    ∃ o, c.outputs[i]? = some o
      ∧ r.Served p.family.limits.outputDivider c.vcoFrequency o := by
  obtain ⟨outputs, more, hc, hserved, -⟩ := h.outputs
  obtain ⟨hlen, hget⟩ := List.forall₂_iff_get.1 hserved
  obtain ⟨hi, rfl⟩ := List.getElem?_eq_some_iff.1 hr
  refine ⟨outputs[i], ?_, hget i hi (hlen ▸ hi)⟩
  rw [hc, List.getElem?_append_left (hlen ▸ hi), List.getElem?_eq_getElem]

theorem exists_feedback (h : p.Solves c) : ∃ o ∈ c.outputs, c.feedbackSlot = o.slot := by
  obtain ⟨outputs, more, hc, hserved, hfeedback⟩ := h.outputs
  rw [hc]
  cases hfeedback with
  | @request before after r o hl _ _ hslot =>
    have hzip : (r, o) ∈ p.requests.zip outputs := by
      rw [hl]
      simp
    obtain ⟨-, ho⟩ := List.of_mem_zip hzip
    have hserve := (List.forall₂_zip hserved hzip)
    exact ⟨o, List.mem_append_left _ ho, hslot.trans hserve.slot.symm⟩
  | @phantom o _ _ _ _ hpath _ => exact ⟨o, by simp, hpath⟩

/-- A phantom is the last output. -/
theorem hasPhantom_iff (h : p.Solves c) :
    c.hasPhantom = true ↔ ∃ o, c.outputs.getLast? = some o ∧ o.phantom = true := by
  obtain ⟨outputs, more, hc, hserved, hfeedback⟩ := h.outputs
  have hany := any_phantom_of_served hserved
  rw [Configuration.hasPhantom, hc]
  cases hfeedback with
  | request =>
    rw [List.append_nil, hany]
    refine iff_of_false Bool.false_ne_true ?_
    rintro ⟨o, ho, hphantom⟩
    have := List.any_eq_true.2 ⟨o, List.mem_of_getLast? ho, hphantom⟩
    rw [hany] at this
    cases this
  | @phantom o _ _ hphantom => simp [hphantom]

end Solves

/-- The configuration of a solved problem solves it. -/
theorem solves_of_solve {cap : Option Float} {c : Configuration} {t : Tally}
    (h : p.solve cap = .solved c t) : p.Solves c := by
  obtain ⟨d, hd, he⟩ := exists_mem_candidates_of_solved h
  exact solves_of_evaluate hd he

/-- The configuration that the search finds for the small problem. -/
def smallConfiguration : Configuration :=
  { inputFrequency := 250e6
    inputDivider := 1
    feedbackDivider := 2
    feedbackOutputDivider := 1
    vcoFrequency := 500e6
    feedbackSlot := 1
    outputs := [⟨0, 2, 250e6, 0, false⟩, ⟨1, 1, 500e6, 0, true⟩] }

theorem solves_smallConfiguration :
    small.solve none = .solved smallConfiguration ⟨2, 1, 0⟩ ∧ small.Solves smallConfiguration := by
  have h : small.solve none = .solved smallConfiguration ⟨2, 1, 0⟩ := by decide +kernel
  exact ⟨h, solves_of_solve h⟩

end ClockSynth.Problem
