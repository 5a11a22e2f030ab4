import ClockSynth.Proofs.Number.Line
import ClockSynth.Proofs.Verdict

/-!
# The decision on a candidate

There are three grounds to reject a candidate: its VCO is out of range, a request is met by no
divider, or no way is left for the feedback. They are looked at in this order, so each is given only
where none before it holds, and a candidate against which there is none is a configuration
(`Problem.Decides`, `evaluate_decides`). As to the feedback only the first divider that meets a
request counts. A request does not carry it if some divider meets it before the one that is fed
back, though this one would meet it too.
-/

namespace ClockSynth

open Number

theorem Request.FirstFit.unique {r : Request} {dividers : DividerRange} {vco x y : Float}
    (hx : r.FirstFit dividers vco x) (hy : r.FirstFit dividers vco y) : x = y :=
  Option.some.inj ((DividerRange.resolve?_eq_some_iff.2 hx).symm.trans
    (DividerRange.resolve?_eq_some_iff.2 hy))

theorem FrequencyRange.contains_of_isNaN (range : FrequencyRange) {frequency : Float}
    (h : frequency.isNaN = true) : range.contains frequency = false := by
  rw [contains, Bool.and_eq_false_iff, decide_eq_false_iff_not, le_iff, h]
  simp

namespace Problem

/-- The first divider that meets the request is the one that is fed back, and the phase of the
request stands still. -/
def CanFeed (p : Problem) (d : Dividers) (r : Request) : Prop :=
  ∃ x, r.FirstFit p.family.limits.outputDivider (p.vco d) x ∧ (x == d.output) = true
    ∧ ¬ (p.dynamicPhase = true ∧ r.usesDynamicPhase = true)

/-- The verdict on a candidate, with the grounds for it in the order in which they count. -/
structure Decides (p : Problem) (d : Dividers) (verdict : Except Rejection Configuration) :
    Prop where
  vcoOutOfRange : verdict = .error .vcoOutOfRange
    ↔ ¬ (p.family.limits.vcoFrequency.min ≤ p.inputFrequency / d.input * d.feedback * d.output
      ∧ p.inputFrequency / d.input * d.feedback * d.output ≤ p.family.limits.vcoFrequency.max)
  vcoIsNaN : (p.inputFrequency / d.input * d.feedback * d.output).isNaN = true →
    verdict = .error .vcoOutOfRange
  outputUnresolved : verdict = .error .outputUnresolved
    ↔ p.tunes d = true ∧ ∃ r ∈ p.requests, ¬ p.Reaches d r
  noFreeFeedbackSlot : verdict = .error .noFreeFeedbackSlot
    ↔ p.tunes d = true ∧ (∀ r ∈ p.requests, p.Reaches d r)
      ∧ p.family.limits.maxOutputs ≤ p.requests.length.toFloat
      ∧ ¬ ∃ r ∈ p.requests, p.CanFeed d r
  valid : (∃ c, verdict = .ok c)
    ↔ p.tunes d = true ∧ (∀ r ∈ p.requests, p.Reaches d r)
      ∧ ((∃ r ∈ p.requests, p.CanFeed d r)
        ∨ ¬ p.family.limits.maxOutputs ≤ p.requests.length.toFloat)
  phantom : ∀ c, verdict = .ok c → (c.hasPhantom = false ↔ ∃ r ∈ p.requests, p.CanFeed d r)
  feedback : ∀ c, verdict = .ok c → c.hasPhantom = false →
    ∃ before r after, p.requests = before ++ r :: after ∧ p.CanFeed d r
      ∧ (∀ x ∈ before, ¬ p.CanFeed d x) ∧ c.feedbackSlot = r.slot
  overtaken : ∀ r x, r.FirstFit p.family.limits.outputDivider (p.vco d) x →
    (x == d.output) = false → ¬ p.CanFeed d r
  later : ∀ before r after, p.requests = before ++ r :: after → p.tunes d = true →
    ¬ p.Reaches d r → verdict = .error .outputUnresolved

variable {p : Problem} {d : Dividers} {r : Request} {c : Configuration}

theorem canFeed_iff (h : p.Reaches d r) : p.CanFeed d r ↔ p.Feeds d r := by
  have hfit := (served_iff.2 ⟨h, rfl⟩).firstFit
  constructor
  · rintro ⟨x, hx, hbeq, hstill⟩
    obtain rfl := hx.unique hfit
    exact ⟨hbeq, hstill⟩
  · rintro ⟨hbeq, hstill⟩
    exact ⟨_, hfit, hbeq, hstill⟩

theorem exists_canFeed_iff (h : ∀ r ∈ p.requests, p.Reaches d r) :
    (∃ r ∈ p.requests, p.CanFeed d r) ↔ ∃ r ∈ p.requests, p.Feeds d r :=
  exists_congr fun r => and_congr_right fun hr => canFeed_iff (h r hr)

theorem resolve?_eq_none_iff : p.resolve? d = none ↔ ∃ r ∈ p.requests, ¬ p.Reaches d r := by
  rw [Option.eq_none_iff_forall_ne_some]
  simp only [ne_eq, resolve?_eq_some_iff, served_all_iff, not_and]
  constructor
  · intro h
    by_contra hall
    push Not at hall
    exact h _ hall rfl
  · rintro ⟨r, hr, hunmet⟩ outputs hall
    exact absurd (hall r hr) hunmet

/-- The feedback is refused a way only where no request feeds back and no slot is free. -/
theorem close_eq_error (h : ¬ ∃ r ∈ p.requests, p.Feeds d r)
    (hfull : p.family.limits.maxOutputs ≤ p.spareSlot) :
    p.close d (p.requests.map (p.serve d)) = .error .noFreeFeedbackSlot := by
  have hnone : p.feedbackSlot? d (p.requests.map (p.serve d)) = none := by
    refine feedbackSlot?_eq_none_iff.2 fun x hx hcarries => h ?_
    obtain ⟨r, hr, rfl⟩ := mem_zip_serve.1 hx
    exact ⟨r, hr, hcarries⟩
  simp only [close, hnone, if_pos hfull]

/-- Of the grounds the first that holds makes the verdict. -/
theorem evaluate_cases (p : Problem) (d : Dividers) :
    (p.tunes d = false ∧ p.evaluate d = .error .vcoOutOfRange)
      ∨ p.tunes d = true
        ∧ ((∃ r ∈ p.requests, ¬ p.Reaches d r) ∧ p.evaluate d = .error .outputUnresolved
          ∨ (∀ r ∈ p.requests, p.Reaches d r)
            ∧ (p.family.limits.maxOutputs ≤ p.spareSlot ∧ (¬ ∃ r ∈ p.requests, p.CanFeed d r)
                ∧ p.evaluate d = .error .noFreeFeedbackSlot
              ∨ ((∃ r ∈ p.requests, p.CanFeed d r) ∨ ¬ p.family.limits.maxOutputs ≤ p.spareSlot)
                ∧ ∃ c, p.evaluate d = .ok c)) := by
  rcases htunes : p.tunes d with _ | _
  · exact .inl ⟨rfl, evaluate_eq_vcoOutOfRange_iff.2 htunes⟩
  refine .inr ⟨rfl, ?_⟩
  have htuned : p.family.limits.vcoFrequency.contains (p.vco d) = true := htunes
  by_cases hreaches : ∀ r ∈ p.requests, p.Reaches d r
  · refine .inr ⟨hreaches, ?_⟩
    rw [exists_canFeed_iff hreaches]
    by_cases hclosed :
        (∃ r ∈ p.requests, p.Feeds d r) ∨ ¬ p.family.limits.maxOutputs ≤ p.spareSlot
    · exact .inr ⟨hclosed, valid_iff.2 ⟨htunes, hreaches, hclosed⟩⟩
    · rw [not_or, not_not] at hclosed
      have hserved := resolve?_eq_some_iff.2 (served_all_iff.2 ⟨hreaches, rfl⟩)
      refine .inl ⟨hclosed.2, hclosed.1, ?_⟩
      simp only [evaluate, htuned, hserved, if_true, close_eq_error hclosed.1 hclosed.2]
  · have hunmet : ∃ r ∈ p.requests, ¬ p.Reaches d r := by
      push Not at hreaches
      exact hreaches
    refine .inl ⟨hunmet, ?_⟩
    simp only [evaluate, htuned, resolve?_eq_none_iff.2 hunmet, if_true]

theorem evaluate_eq_outputUnresolved_iff :
    p.evaluate d = .error .outputUnresolved
      ↔ p.tunes d = true ∧ ∃ r ∈ p.requests, ¬ p.Reaches d r := by
  rcases p.evaluate_cases d with ⟨ht, he⟩ | ⟨ht, ⟨hunmet, he⟩ | ⟨hall, ⟨-, -, he⟩ | ⟨-, c, he⟩⟩⟩ <;>
    rw [he, ht]
  · simp
  · simpa using hunmet
  · simpa using hall
  · simpa using hall

theorem evaluate_eq_noFreeFeedbackSlot_iff :
    p.evaluate d = .error .noFreeFeedbackSlot
      ↔ p.tunes d = true ∧ (∀ r ∈ p.requests, p.Reaches d r)
        ∧ p.family.limits.maxOutputs ≤ p.spareSlot ∧ ¬ ∃ r ∈ p.requests, p.CanFeed d r := by
  rcases p.evaluate_cases d with
    ⟨ht, he⟩ | ⟨ht, ⟨⟨r, hr, hunmet⟩, he⟩ | ⟨hall, ⟨hfull, hnone, he⟩ | ⟨hclosed, c, he⟩⟩⟩ <;>
    rw [he, ht]
  · simp
  · exact iff_of_false (by simp) fun h => hunmet (h.2.1 r hr)
  · exact iff_of_true rfl ⟨rfl, hall, hfull, hnone⟩
  · refine iff_of_false (by simp) ?_
    rintro ⟨-, -, hfull, hnone⟩
    exact hclosed.elim hnone fun hfree => hfree hfull

/-- A valid candidate feeds back through the first request that can, or through a phantom. -/
theorem feedback_of_evaluate (h : p.evaluate d = .ok c) :
    (c.hasPhantom = false ∧ ∃ before r after, p.requests = before ++ r :: after ∧ p.CanFeed d r
        ∧ (∀ x ∈ before, ¬ p.CanFeed d x) ∧ c.feedbackSlot = r.slot)
      ∨ c.hasPhantom = true ∧ ¬ ∃ r ∈ p.requests, p.CanFeed d r := by
  obtain ⟨-, hreaches, slot, more, hclose, rfl⟩ := evaluate_serve_iff.1 h
  have hreal := any_phantom_of_served (served_all_iff.2 ⟨hreaches, rfl⟩)
  rw [exists_canFeed_iff hreaches, Configuration.hasPhantom, configuration, List.any_append, hreal]
  cases hclose with
  | request hl hx hb hslot =>
    rw [← List.map_prod_left_eq_zip] at hl
    obtain ⟨before, rest, hsplit, rfl, hrest⟩ := List.map_eq_append_iff.1 hl
    obtain ⟨r, after, rfl, hr, -⟩ := List.map_eq_cons_iff.1 hrest
    obtain ⟨rfl, rfl⟩ := Prod.mk.inj hr
    have hmem : ∀ x ∈ before ++ r :: after, p.Reaches d x := hsplit ▸ hreaches
    refine .inl ⟨rfl, before, r, after, hsplit, (canFeed_iff (hmem r (by simp))).2 hx, ?_, hslot⟩
    intro x hx
    rw [canFeed_iff (hmem x (List.mem_append_left _ hx))]
    exact hb _ (List.mem_map_of_mem hx)
  | phantom hnone =>
    refine .inr ⟨rfl, ?_⟩
    rintro ⟨r, hr, hfeeds⟩
    exact hnone _ (mem_zip_serve.2 ⟨r, hr, rfl⟩) hfeeds

/-- A candidate is rejected for the first ground that holds against it, and for no other reason, and
where none holds it is a configuration. This has a phantom just if no request can carry the
feedback; else the first that can does carry it. -/
theorem evaluate_decides (p : Problem) (d : Dividers) : p.Decides d (p.evaluate d) where
  vcoOutOfRange := by
    rw [evaluate_eq_vcoOutOfRange_iff, ← Bool.not_eq_true, FrequencyRange.contains,
      Bool.and_eq_true, decide_eq_true_iff, decide_eq_true_iff]
    rfl
  vcoIsNaN h := evaluate_eq_vcoOutOfRange_iff.2 (FrequencyRange.contains_of_isNaN _ h)
  outputUnresolved := evaluate_eq_outputUnresolved_iff
  noFreeFeedbackSlot := evaluate_eq_noFreeFeedbackSlot_iff
  valid := by
    refine valid_iff.trans (and_congr_right fun _ => and_congr_right fun hreaches => ?_)
    rw [exists_canFeed_iff hreaches]
    rfl
  phantom c hc := by
    rcases feedback_of_evaluate hc with ⟨hreal, before, r, after, hsplit, hr, -⟩ | ⟨hphantom, hnone⟩
    · exact iff_of_true hreal ⟨r, by rw [hsplit]; simp, hr⟩
    · exact iff_of_false (by simp [hphantom]) hnone
  feedback c hc hreal := by
    rcases feedback_of_evaluate hc with ⟨-, hfirst⟩ | ⟨hphantom, -⟩
    · exact hfirst
    · rw [hreal] at hphantom
      cases hphantom
  overtaken r x hx hne := by
    rintro ⟨y, hy, hbeq, -⟩
    obtain rfl := hx.unique hy
    rw [hne] at hbeq
    cases hbeq
  later before r after hsplit htunes hunmet :=
    evaluate_eq_outputUnresolved_iff.2 ⟨htunes, r, by rw [hsplit]; simp, hunmet⟩

/-- The divider 2, which is fed back, would meet this request, but the divider 1 meets it first. -/
example :
    ({ small with requests := [⟨0, "core", 350e6, 0, 0.5, true, false⟩] }.evaluate
      ⟨1, 2, 1⟩).toOption.map Configuration.hasPhantom = some true := by
  decide +kernel

end Problem

end ClockSynth
