import ClockSynth.Problem
import ClockSynth.Proofs.Traversal

/-!
# What a valid candidate gives

A request is `Served` by an output with the first divider that meets it. The feedback is closed by
the first request that can carry it, or else by a phantom (`Problem.Closes`). `evaluate_ok_iff` puts
these together: a candidate is valid just if its VCO is in range, every request is served at it, and
the feedback is closed.
-/

namespace ClockSynth

theorem find?_eq_some_iff_first {α : Type} {q : α → Bool} {P : α → Prop}
    (h : ∀ a, q a = true ↔ P a) {l : List α} {a : α} :
    l.find? q = some a
      ↔ ∃ before after, l = before ++ a :: after ∧ P a ∧ ∀ x ∈ before, ¬ P x := by
  rw [List.find?_eq_some_iff_append]
  simp only [Bool.not_eq_true', ← Bool.not_eq_true, h]
  constructor
  · rintro ⟨ha, before, after, hl, hb⟩
    exact ⟨before, after, hl, ha, hb⟩
  · rintro ⟨before, after, hl, ha, hb⟩
    exact ⟨ha, before, after, hl, hb⟩

theorem first_unique {α : Type} {P : α → Prop} {before before' after after' : List α} {a a' : α}
    (h : before ++ a :: after = before' ++ a' :: after') (hb : ∀ x ∈ before, ¬ P x) (ha : P a)
    (hb' : ∀ x ∈ before', ¬ P x) (ha' : P a') : a = a' := by
  classical
  have hfirst := @find?_eq_some_iff_first α (fun x => decide (P x)) P (fun x => decide_eq_true_iff)
    (before ++ a :: after)
  have h1 := (@hfirst a).2 ⟨before, after, rfl, ha, hb⟩
  have h2 := (@hfirst a').2 ⟨before', after', h, ha', hb'⟩
  exact Option.some.inj (h1.symm.trans h2)

section Served

/-- With this divider the VCO comes within the margin of the frequency. -/
def Request.Meets (r : Request) (vco d : Float) : Prop :=
  (vco / d - r.frequency).abs ≤ r.frequency * r.margin

/-- `d` is the first divider of a range that meets the request. -/
def Request.FirstFit (r : Request) (dividers : DividerRange) (vco d : Float) : Prop :=
  ∃ before after, dividers.values = before ++ d :: after ∧ r.Meets vco d
    ∧ ∀ x ∈ before, ¬ r.Meets vco x

/-- The output is the one that the request asks for. -/
structure Request.Served (r : Request) (dividers : DividerRange) (vco : Float) (o : Output) :
    Prop where
  slot : o.slot = r.slot
  phase : o.phase = r.phase
  phantom : o.phantom = false
  frequency : o.frequency = vco / o.divider
  firstFit : r.FirstFit dividers vco o.divider

variable {r : Request} {dividers : DividerRange} {vco : Float}

theorem DividerRange.resolve?_eq_some_iff {d : Float} :
    dividers.resolve? vco r.frequency r.margin = some d ↔ r.FirstFit dividers vco d := by
  rw [DividerRange.resolve?_eq_find?]
  exact find?_eq_some_iff_first fun d => decide_eq_true_iff

theorem Request.resolve?_eq_some_iff {o : Output} :
    r.resolve? dividers vco = some o ↔ r.Served dividers vco o := by
  rw [Request.resolve?, Option.map_eq_some_iff]
  constructor
  · rintro ⟨d, hd, rfl⟩
    exact ⟨rfl, rfl, rfl, rfl, DividerRange.resolve?_eq_some_iff.1 hd⟩
  · intro h
    refine ⟨o.divider, DividerRange.resolve?_eq_some_iff.2 h.firstFit, ?_⟩
    rw [← h.slot, ← h.phase, ← h.phantom, ← h.frequency]

theorem Request.FirstFit.mem_values {d : Float} (h : r.FirstFit dividers vco d) :
    d ∈ dividers.values := by
  obtain ⟨before, after, hl, -⟩ := h
  rw [hl]
  simp

theorem any_phantom_of_served {requests : List Request} {outputs : List Output}
    (h : List.Forall₂ (fun r o => r.Served dividers vco o) requests outputs) :
    outputs.any Output.phantom = false := by
  induction h with
  | nil => rfl
  | cons ho _ ih => rw [List.any_cons, ho.phantom, ih, Bool.or_self]

end Served

namespace Problem

/-- The output has the divider that is fed back, and its phase stands still. -/
def Carries (p : Problem) (output : Float) (x : Request × Output) : Prop :=
  (x.2.divider == output) = true ∧ ¬ (p.dynamicPhase = true ∧ x.1.usesDynamicPhase = true)

/-- How the feedback loop is closed: through the first request that can carry it, and then there are
no more outputs, or through one more, a phantom in the spare slot. -/
inductive Closes (p : Problem) (d : Dividers) (outputs : List Output) (slot : Float) :
    List Output → Prop
  | request {before after : List (Request × Output)} {r : Request} {o : Output} :
      p.requests.zip outputs = before ++ (r, o) :: after → p.Carries d.output (r, o) →
      (∀ x ∈ before, ¬ p.Carries d.output x) → slot = r.slot → Closes p d outputs slot []
  | phantom : (∀ x ∈ p.requests.zip outputs, ¬ p.Carries d.output x) →
      ¬ p.family.limits.maxOutputs ≤ p.spareSlot → slot = p.spareSlot →
      Closes p d outputs slot [p.phantom d]

variable {p : Problem} {d : Dividers} {outputs : List Output} {c : Configuration}

theorem carries_iff (output : Float) (x : Request × Output) :
    (x.2.divider == output && p.eligible x.1) = true ↔ p.Carries output x := by
  rw [Bool.and_eq_true, Carries, eligible, Bool.not_eq_true', ← Bool.not_eq_true, Bool.and_eq_true]

theorem feedbackSlot?_eq_none_iff :
    p.feedbackSlot? d outputs = none
      ↔ ∀ x ∈ p.requests.zip outputs, ¬ p.Carries d.output x := by
  rw [feedbackSlot?, Option.map_eq_none_iff, List.find?_eq_none]
  exact forall₂_congr fun x _ => not_congr (carries_iff d.output x)

theorem feedbackSlot?_eq_some_iff {slot : Float} :
    p.feedbackSlot? d outputs = some slot
      ↔ ∃ before r o after, p.requests.zip outputs = before ++ (r, o) :: after
        ∧ p.Carries d.output (r, o) ∧ (∀ x ∈ before, ¬ p.Carries d.output x) ∧ slot = r.slot := by
  rw [feedbackSlot?, Option.map_eq_some_iff]
  constructor
  · rintro ⟨⟨r, o⟩, hfind, rfl⟩
    obtain ⟨before, after, hl, hx, hb⟩ :=
      (find?_eq_some_iff_first (carries_iff (p := p) d.output)).1 hfind
    exact ⟨before, r, o, after, hl, hx, hb, rfl⟩
  · rintro ⟨before, r, o, after, hl, hx, hb, rfl⟩
    have hfind := (find?_eq_some_iff_first (carries_iff (p := p) d.output)).2
      ⟨before, after, hl, hx, hb⟩
    exact ⟨(r, o), hfind, rfl⟩

theorem close_ok_iff :
    p.close d outputs = .ok c
      ↔ ∃ slot more, p.Closes d outputs slot more
        ∧ c = p.configuration d slot (outputs ++ more) := by
  unfold close
  cases hs : p.feedbackSlot? d outputs with
  | some slot =>
    obtain ⟨before, r, o, after, hl, hx, hb, rfl⟩ := feedbackSlot?_eq_some_iff.1 hs
    constructor
    · intro h
      cases h
      exact ⟨r.slot, [], .request hl hx hb rfl, by rw [List.append_nil]⟩
    · rintro ⟨slot, more, hclose, rfl⟩
      cases hclose with
      | request hl' hx' hb' hslot =>
        have := feedbackSlot?_eq_some_iff.2 ⟨_, _, _, _, hl', hx', hb', hslot⟩
        rw [hs] at this
        cases this
        rw [List.append_nil]
      | phantom hnone _ _ =>
        rw [feedbackSlot?_eq_none_iff.2 hnone] at hs
        cases hs
  | none =>
    have hnone := feedbackSlot?_eq_none_iff.1 hs
    simp only []
    split_ifs with hmax
    · simp only [false_iff]
      rintro ⟨slot, more, hclose, -⟩
      cases hclose with
      | request hl hx _ _ => exact hnone _ (by rw [hl]; simp) hx
      | phantom _ hspare _ => exact hspare hmax
    · constructor
      · intro h
        cases h
        exact ⟨p.spareSlot, [p.phantom d], .phantom hnone hmax rfl, rfl⟩
      · rintro ⟨slot, more, hclose, rfl⟩
        cases hclose with
        | request hl hx _ _ => exact absurd hx (hnone _ (by rw [hl]; simp))
        | phantom _ _ hslot => rw [hslot]

theorem resolve?_eq_some_iff :
    p.resolve? d = some outputs
      ↔ List.Forall₂ (fun r o => r.Served p.family.limits.outputDivider (p.vco d) o)
        p.requests outputs := by
  rw [resolve?, mapM_eq_some_iff]
  simp only [Request.resolve?_eq_some_iff]

/-- A candidate is valid just if its VCO is in range, every request is served, and the feedback is
closed. -/
theorem evaluate_ok_iff :
    p.evaluate d = .ok c
      ↔ p.family.limits.vcoFrequency.contains (p.vco d) = true
        ∧ ∃ outputs slot more,
          List.Forall₂ (fun r o => r.Served p.family.limits.outputDivider (p.vco d) o)
            p.requests outputs
          ∧ p.Closes d outputs slot more ∧ c = p.configuration d slot (outputs ++ more) := by
  unfold evaluate
  split_ifs with hvco
  · simp only [hvco, true_and]
    cases hr : p.resolve? d with
    | none =>
      refine ⟨nofun, ?_⟩
      rintro ⟨outputs, slot, more, hserved, -⟩
      rw [resolve?_eq_some_iff.2 hserved] at hr
      cases hr
    | some outputs =>
      simp only [close_ok_iff]
      have hserved := resolve?_eq_some_iff.1 hr
      constructor
      · rintro ⟨slot, more, hclose, rfl⟩
        exact ⟨outputs, slot, more, hserved, hclose, rfl⟩
      · rintro ⟨outputs', slot, more, hserved', hclose, rfl⟩
        rw [resolve?_eq_some_iff.2 hserved'] at hr
        cases hr
        exact ⟨slot, more, hclose, rfl⟩
  · simp only [false_iff]
    rintro ⟨h, -⟩
    exact hvco h

end Problem

end ClockSynth
