import ClockSynth.Proofs.Candidate
import ClockSynth.Proofs.Tally

/-!
# The verdict on a candidate

Each request looks for its divider alone, so what it gets at a candidate is a function of the
request (`Problem.serve`), and the requests have a say in the verdict only as a set: each must have
a divider that meets it, and one of them must carry the feedback or a slot be free (`valid_iff`).
-/

namespace ClockSynth.Problem

/-- The output of a request at a candidate that has a divider for it. -/
def serve (p : Problem) (d : Dividers) (r : Request) : Output :=
  (r.resolve? p.family.limits.outputDivider (p.vco d)).getD default

/-- A divider meets the request at this candidate. -/
def Reaches (p : Problem) (d : Dividers) (r : Request) : Prop :=
  ∃ x ∈ p.family.limits.outputDivider.values, r.Meets (p.vco d) x

/-- The request gets the divider that is fed back, and its phase stands still. -/
def Feeds (p : Problem) (d : Dividers) (r : Request) : Prop :=
  p.Carries d.output (r, p.serve d r)

variable {p : Problem} {d : Dividers} {r : Request} {c : Configuration}

theorem feeds_iff :
    p.Feeds d r ↔ ((p.serve d r).divider == d.output) = true ∧ p.eligible r = true := by
  rw [Feeds, ← carries_iff, Bool.and_eq_true]

theorem served_iff {o : Output} :
    r.Served p.family.limits.outputDivider (p.vco d) o ↔ p.Reaches d r ∧ o = p.serve d r := by
  have hreaches : p.Reaches d r
      ↔ ∃ o, r.resolve? p.family.limits.outputDivider (p.vco d) = some o := by
    rw [← Option.isSome_iff_exists, Request.resolve?, Option.isSome_map,
      DividerRange.resolve?_eq_find?, List.find?_isSome]
    simp only [Reaches, Request.Meets, decide_eq_true_iff]
  rw [← Request.resolve?_eq_some_iff, hreaches, serve]
  constructor
  · intro h
    rw [h]
    exact ⟨⟨o, rfl⟩, rfl⟩
  · rintro ⟨⟨o', h⟩, rfl⟩
    rw [h]
    rfl

theorem served_all_iff {outputs : List Output} :
    List.Forall₂ (fun r o => r.Served p.family.limits.outputDivider (p.vco d) o) p.requests outputs
      ↔ (∀ r ∈ p.requests, p.Reaches d r) ∧ outputs = p.requests.map (p.serve d) := by
  simp only [served_iff]
  constructor
  · intro h
    refine ⟨fun r hr => ?_, ?_⟩
    · obtain ⟨o, -, hreaches, -⟩ := exists_right_of_mem_left h r hr
      exact hreaches
    · rw [eq_comm, ← List.forall₂_eq_eq_eq, List.forall₂_map_left_iff]
      exact h.imp fun r o ho => ho.2.symm
  · rintro ⟨h, rfl⟩
    rw [List.forall₂_map_right_iff, List.forall₂_same]
    exact fun r hr => ⟨h r hr, rfl⟩

/-- The verdict in terms of what each request gets. -/
theorem evaluate_serve_iff :
    p.evaluate d = .ok c
      ↔ p.tunes d = true ∧ (∀ r ∈ p.requests, p.Reaches d r)
        ∧ ∃ slot more, p.Closes d (p.requests.map (p.serve d)) slot more
          ∧ c = p.configuration d slot (p.requests.map (p.serve d) ++ more) := by
  rw [evaluate_ok_iff]
  refine and_congr_right fun _ => ?_
  simp only [served_all_iff]
  constructor
  · rintro ⟨outputs, slot, more, ⟨hreaches, rfl⟩, hclose, hc⟩
    exact ⟨hreaches, slot, more, hclose, hc⟩
  · rintro ⟨hreaches, slot, more, hclose, hc⟩
    exact ⟨_, slot, more, ⟨hreaches, rfl⟩, hclose, hc⟩

/-- A configuration has the dividers of its candidate and the VCO that they give. -/
theorem dividers_of_evaluate (h : p.evaluate d = .ok c) :
    c.inputDivider = d.input ∧ c.feedbackDivider = d.feedback ∧ c.feedbackOutputDivider = d.output
      ∧ c.vcoFrequency = p.vco d ∧ ∃ more, c.outputs = p.requests.map (p.serve d) ++ more
        ∧ List.Forall₂ (fun r o => r.Served p.family.limits.outputDivider c.vcoFrequency o)
          p.requests (p.requests.map (p.serve d)) := by
  obtain ⟨-, hreaches, slot, more, -, rfl⟩ := evaluate_serve_iff.1 h
  exact ⟨rfl, rfl, rfl, rfl, more, rfl, served_all_iff.2 ⟨hreaches, rfl⟩⟩

theorem mem_zip_serve {x : Request × Output} :
    x ∈ p.requests.zip (p.requests.map (p.serve d))
      ↔ ∃ r ∈ p.requests, (r, p.serve d r) = x := by
  rw [← List.map_prod_left_eq_zip, List.mem_map]

/-- A phantom is added just where no request feeds back. -/
theorem Closes.more_eq {slot : Float} {more : List Output}
    (h : p.Closes d (p.requests.map (p.serve d)) slot more) :
    (∃ r ∈ p.requests, p.Feeds d r) ∧ more = []
      ∨ (¬ ∃ r ∈ p.requests, p.Feeds d r) ∧ more = [p.phantom d] := by
  cases h with
  | @request before after r o hl hx _ _ =>
    obtain ⟨r', hr', heq⟩ := mem_zip_serve.1 (hl ▸ List.mem_append_right before List.mem_cons_self)
    exact .inl ⟨⟨r', hr', show p.Carries d.output _ from heq ▸ hx⟩, rfl⟩
  | phantom hnone _ _ =>
    refine .inr ⟨?_, rfl⟩
    rintro ⟨r, hr, hfeeds⟩
    exact hnone _ (mem_zip_serve.2 ⟨r, hr, rfl⟩) hfeeds

/-- The loop is closed by a request that feeds back, the first of them, or through a free slot. -/
theorem exists_closes_iff :
    (∃ slot more, p.Closes d (p.requests.map (p.serve d)) slot more)
      ↔ (∃ r ∈ p.requests, p.Feeds d r) ∨ ¬ p.family.limits.maxOutputs ≤ p.spareSlot := by
  constructor
  · rintro ⟨slot, more, hclose⟩
    rcases hclose.more_eq with ⟨hfeeds, -⟩ | ⟨-, rfl⟩
    · exact .inl hfeeds
    · cases hclose with
      | phantom _ hspare _ => exact .inr hspare
  · intro h
    rcases forall_or_exists_first (fun x => ¬ p.Carries d.output x)
      (p.requests.zip (p.requests.map (p.serve d))) with hnone | ⟨before, x, after, hl, hb, hx⟩
    · refine ⟨_, _, .phantom hnone (h.resolve_left ?_) rfl⟩
      rintro ⟨r, hr, hfeeds⟩
      exact hnone _ (mem_zip_serve.2 ⟨r, hr, rfl⟩) hfeeds
    · exact ⟨_, _, .request hl (not_not.1 hx) hb rfl⟩

/-- A candidate is valid just if its VCO is in range, every request is met at it, and one of them
feeds back or a slot is free. -/
theorem valid_iff :
    p.Valid d
      ↔ p.tunes d = true ∧ (∀ r ∈ p.requests, p.Reaches d r)
        ∧ ((∃ r ∈ p.requests, p.Feeds d r) ∨ ¬ p.family.limits.maxOutputs ≤ p.spareSlot) := by
  simp only [Valid, evaluate_serve_iff, exists_and_left, ← exists_closes_iff]
  refine and_congr_right fun _ => and_congr_right fun _ => ?_
  exact ⟨fun ⟨_, slot, more, hclose, _⟩ => ⟨slot, more, hclose⟩,
    fun ⟨slot, more, hclose⟩ => ⟨_, slot, more, hclose, rfl⟩⟩

end ClockSynth.Problem
