import ClockSynth.Proofs.Number.Error
import ClockSynth.Proofs.Tally

/-!
# The cap that is none

A search that is given no cap is capped at the number of all combinations of dividers. As long as
that number is exact in doubles, this cap leaves no candidate out, so that a search that fails under
it has tried them all (`exhausted_of_failed`).
-/

namespace ClockSynth

open Number

variable {p : Problem} {inputs outputs feedbacks : List Float}

/-- The input dividers that keep the phase-frequency detector in its range, times all the others. -/
theorem length_triples (p : Problem) (inputs outputs feedbacks : List Float) :
    (p.triples inputs outputs feedbacks).length
      = (inputs.filter fun i => p.family.limits.pfdFrequency.contains (p.inputFrequency / i)).length
        * outputs.length * feedbacks.length := by
  rw [Problem.triples, List.length_flatMap]
  simp only [List.length_flatMap, List.length_map, List.map_const', List.sum_replicate_nat]
  exact (mul_assoc _ _ _).symm

theorem length_triples_le (p : Problem) (inputs outputs feedbacks : List Float) :
    (p.triples inputs outputs feedbacks).length
      ≤ inputs.length * outputs.length * feedbacks.length := by
  rw [length_triples]
  gcongr
  exact List.length_filter_le _ _

section Combinations

variable {x y : Float} {m n : ℕ}

/-- The number of dividers of a range is a finite double. -/
theorem value_toFloat_bounds (hm : m ≤ 2 ^ 64) :
    m.toFloat.isFinite = true ∧ 0 ≤ value m.toFloat ∧ value m.toFloat ≤ 2 ^ 64 := by
  have hm' : (m : ℚ) ≤ 2 ^ 64 := by exact_mod_cast hm
  have hm0 : (0 : ℚ) ≤ m := m.cast_nonneg
  have hdouble : IsDouble (2 ^ 64) := ⟨1, 64, by norm_num, by norm_num, by norm_num⟩
  obtain ⟨hf, hv⟩ := (roundsTo_toFloat m).finite_of_abs_le (by rw [abs_of_nonneg hm0]; linarith)
  rw [hv]
  exact ⟨hf, nearest_nonneg hm0, nearest_le_of_isDouble hdouble hm'⟩

theorem isFinite_mul_toFloat (hm : m ≤ 2 ^ 64) (hn : n ≤ 2 ^ 64) :
    (m.toFloat * n.toFloat).isFinite = true := by
  obtain ⟨hmf, hm0, hm1⟩ := value_toFloat_bounds hm
  obtain ⟨hnf, hn0, hn1⟩ := value_toFloat_bounds hn
  have hdouble : IsDouble (2 ^ 128) := ⟨1, 128, by norm_num, by norm_num, by norm_num⟩
  have hproduct : value m.toFloat * value n.toFloat ≤ 2 ^ 128 :=
    (mul_le_mul hm1 hn1 hn0 (by norm_num)).trans (by norm_num)
  refine ((roundsTo_mul hmf hnf).finite ?_).1
  rw [abs_of_nonneg (nearest_nonneg (mul_nonneg hm0 hn0))]
  calc nearest (value m.toFloat * value n.toFloat) ≤ 2 ^ (128 : ℤ) := by
        exact_mod_cast nearest_le_of_isDouble hdouble hproduct
    _ < overflow := zpow_lt_zpow_right₀ one_lt_two (by norm_num)

/-- A product that is small enough is exact, also where one factor is zero and the other is not. -/
theorem roundsTo_mul_natCast (hx : RoundsTo m x) (hy : RoundsTo n y) (hxf : x.isFinite = true)
    (hyf : y.isFinite = true) (h : m * n ≤ 2 ^ 53) : RoundsTo (m * n : ℕ) (x * y) := by
  have hr := roundsTo_mul hxf hyf
  rw [hx.value_eq hxf, hy.value_eq hyf] at hr
  rcases Nat.eq_zero_or_pos (m * n) with hzero | hpos
  · have hnearest : nearest m * nearest n = 0 := by
      rcases Nat.mul_eq_zero.1 hzero with rfl | rfl <;> simp [nearest_zero]
    rwa [hnearest, ← Nat.cast_zero, ← hzero] at hr
  · have hm := (Nat.le_mul_of_pos_right m (Nat.pos_of_mul_pos_left hpos)).trans h
    have hn := (Nat.le_mul_of_pos_left n (Nat.pos_of_mul_pos_right hpos)).trans h
    rwa [nearest_eq_self (isDouble_natCast hm), nearest_eq_self (isDouble_natCast hn),
      ← Nat.cast_mul] at hr

/-- The number of all combinations is exact where it is small enough. -/
theorem toNat?_combinations {l : Limits} (hi : l.inputDivider.Ends inputs)
    (ho : l.outputDivider.Ends outputs) (hf : l.feedbackDivider.Ends feedbacks)
    (h : inputs.length * outputs.length * feedbacks.length ≤ 2 ^ 53) :
    toNat? l.combinations = some (inputs.length * outputs.length * feedbacks.length) := by
  have hsteps {r : DividerRange} {d : List Float} (hd : r.Ends d) : d.length ≤ 2 ^ 64 :=
    DividerRange.length_le_steps hd.nodup
  unfold Limits.combinations DividerRange.count
  rw [DividerRange.values_eq hi, DividerRange.values_eq ho, DividerRange.values_eq hf]
  obtain ⟨hif, -⟩ := value_toFloat_bounds (hsteps hi)
  obtain ⟨hof, -⟩ := value_toFloat_bounds (hsteps ho)
  obtain ⟨hff, -⟩ := value_toFloat_bounds (hsteps hf)
  have hiof := isFinite_mul_toFloat (hsteps hi) (hsteps ho)
  refine toNat?_of_roundsTo ?_ h
  rcases Nat.eq_zero_or_pos feedbacks.length with hzero | hpos
  · -- The first two ranges may be too long for their product to be exact.
    have hr := roundsTo_mul hiof hff
    rw [(roundsTo_toFloat _).value_eq hff, hzero, Nat.cast_zero, nearest_zero, mul_zero] at hr
    rwa [hzero, Nat.mul_zero, Nat.cast_zero]
  · have hio := roundsTo_mul_natCast (roundsTo_toFloat _) (roundsTo_toFloat _) hif hof
      ((Nat.le_mul_of_pos_right _ hpos).trans h)
    exact roundsTo_mul_natCast hio (roundsTo_toFloat _) hiof hff h

end Combinations

namespace Problem

/-- A cap that no place reaches keeps nothing back. -/
theorem reach_eq_candidates {cap : Option Float}
    (h : ∀ i < p.candidates.length, ¬ p.capOr cap ≤ i.toFloat) : p.reach cap = p.candidates := by
  refine (withinCapFrom_isPrefix _ 0 _).eq_of_length_le ?_
  by_contra hlt
  rw [not_le] at hlt
  exact h _ hlt (cap_le_length_reach hlt)

theorem cut?_eq_none {cap : Option Float} (h : p.reach cap = p.candidates) : p.cut? cap = none := by
  rw [cut?, h, if_neg (lt_irrefl _)]

/-- The number of all combinations leaves no candidate out. -/
theorem reach_none (p : Problem) (hi : p.family.limits.inputDivider.Ends inputs)
    (ho : p.family.limits.outputDivider.Ends outputs)
    (hf : p.family.limits.feedbackDivider.Ends feedbacks)
    (h : inputs.length * outputs.length * feedbacks.length ≤ 2 ^ 53) :
    p.reach none = p.candidates := by
  refine reach_eq_candidates fun i hi' => ?_
  rw [candidates_eq_triples hi ho hf] at hi'
  have hlt := hi'.trans_le (length_triples_le p inputs outputs feedbacks)
  change ¬ p.family.limits.combinations ≤ i.toFloat
  rw [le_iff_of_toNat? (toNat?_combinations hi ho hf h) (toNat?_toFloat (hlt.le.trans h)), not_le]
  exact hlt

/-- Without a cap of its own a search never stops at one, and where it fails there is no solution:
it has evaluated every combination that keeps the phase-frequency detector in its range, and each
was rejected. -/
theorem exhausted_of_failed (p : Problem) (hi : p.family.limits.inputDivider.Ends inputs)
    (ho : p.family.limits.outputDivider.Ends outputs)
    (hf : p.family.limits.feedbackDivider.Ends feedbacks)
    (h : inputs.length * outputs.length * feedbacks.length ≤ 2 ^ 53) :
    let tuned := fun i => p.family.limits.pfdFrequency.contains (p.inputFrequency / i)
    (p.solve none).statistics.limitReached = false
      ∧ ∀ limit t, p.solve none = .failed limit t →
        limit = none
          ∧ t.evaluated = (inputs.filter tuned).length * outputs.length * feedbacks.length
          ∧ ∀ i ∈ inputs, tuned i = true → ∀ o ∈ outputs, ∀ b ∈ feedbacks,
            ∃ reason, p.evaluate ⟨i, o, b⟩ = .error reason := by
  intro tuned
  have hreach := p.reach_none hi ho hf h
  have hall := candidates_eq_triples hi ho hf
  rcases p.solve_outcome none with ⟨before, d, after, c, -, -, -, hs⟩ | ⟨hnone, hs⟩ <;> rw [hs]
  · refine ⟨rfl, fun limit t ht => ?_⟩
    cases ht
  · rw [cut?_eq_none hreach]
    refine ⟨rfl, fun limit t ht => ?_⟩
    cases ht
    rw [hreach, hall] at hnone
    refine ⟨rfl, ?_, fun i hi htuned o ho b hb => ?_⟩
    · rw [hreach, hall, rejecting, length_triples]
      exact Nat.zero_add _
    · have hrejected := hnone ⟨i, o, b⟩ (mem_triples_iff.2 ⟨hi, htuned, ho, hb⟩)
      cases he : p.evaluate ⟨i, o, b⟩ with
      | ok c => exact absurd ⟨c, he⟩ hrejected
      | error reason => exact ⟨reason, rfl⟩

/-- No divider brings the request near enough to any VCO in range. -/
def offTune : Problem :=
  { small with requests := [⟨0, "core", 300e6, 0, 0.01, true, false⟩] }

theorem exhausted_offTune :
    Family.small.limits.inputDivider.Ends [1] ∧ Family.small.limits.outputDivider.Ends [1, 2]
      ∧ Family.small.limits.feedbackDivider.Ends [1, 2]
      ∧ ∃ t, offTune.solve none = .failed none t ∧ t.evaluated = 4
        ∧ ∃ reason, offTune.evaluate ⟨1, 2, 1⟩ = .error reason := by
  have hi : Family.small.limits.inputDivider.Ends [1] :=
    DividerRange.ends_of_countFrom 4 (by decide +kernel) (by decide)
  have ho : Family.small.limits.outputDivider.Ends [1, 2] :=
    DividerRange.ends_of_countFrom 4 (by decide +kernel) (by decide)
  have hnone : (offTune.solve none).configuration? = none := by decide +kernel
  refine ⟨hi, ho, ho, ?_⟩
  cases hs : offTune.solve none with
  | solved c t => rw [hs] at hnone; cases hnone
  | failed limit t =>
    obtain ⟨-, hfailed⟩ := exhausted_of_failed offTune hi ho ho (by decide)
    obtain ⟨rfl, hcount, hrejected⟩ := hfailed limit t hs
    refine ⟨t, rfl, hcount.trans (by decide +kernel), ?_⟩
    exact hrejected 1 (by simp) (by decide +kernel) 2 (by simp) 1 (by simp)

end Problem

end ClockSynth
