import ClockSynth.Proofs.Candidate
import ClockSynth.Proofs.Cap

/-!
# Ranges between integers

Between integers of at most `2 ^ 53` a range counts each integer once, in ascending order, and comes
to its end there. The first divider that passes is then the least one, so an output takes the least
divider that meets it, and fails only where no divider does (`Spans.covers`). The number of all
combinations is the product of what the three ranges span, where this is below `2 ^ 53`
(`counts_integers`).
-/

namespace ClockSynth

open Number

namespace DividerRange

/-- The dividers of the range are the integers from `a` up to `b`, and an output takes the least of
them that brings it within its tolerance. -/
structure Covers (r : DividerRange) (a b : ℤ) : Prop where
  ends : r.Ends r.values
  isFinite : ∀ x ∈ r.values, x.isFinite = true
  integers : r.values.map value = (List.range (b - a).toNat).map fun i : ℕ => ((a + i : ℤ) : ℚ)
  ascends : r.values.Pairwise (· < ·)
  taken : ∀ vco frequency margin d, r.resolve? vco frequency margin = some d
    ↔ d ∈ r.values ∧ (vco / d - frequency).abs ≤ frequency * margin
      ∧ ∀ x ∈ r.values, (vco / x - frequency).abs ≤ frequency * margin → d ≤ x
  refused : ∀ vco frequency margin, r.resolve? vco frequency margin = none
    ↔ ∀ x ∈ r.values, ¬ (vco / x - frequency).abs ≤ frequency * margin

variable {r : DividerRange} {a b : ℤ}

theorem pairwise_lt_of_map_value {l : List Float} (hfinite : ∀ x ∈ l, x.isFinite = true) {n : ℕ}
    (h : l.map value = (List.range n).map fun i : ℕ => ((a + i : ℤ) : ℚ)) :
    l.Pairwise (· < ·) := by
  have hvalues : (l.map value).Pairwise (· < ·) := by
    rw [h, List.pairwise_map]
    refine List.pairwise_lt_range.imp fun hij => ?_
    exact_mod_cast Int.add_lt_add_left (by exact_mod_cast hij) a
  rw [List.pairwise_map] at hvalues
  exact hvalues.imp_of_mem fun hx hy => (lt_iff_value (hfinite _ hx) (hfinite _ hy)).2

/-- Of ascending doubles the first that passes is the least. -/
theorem find?_eq_some_iff_least {l : List Float} (hl : l.Pairwise (· < ·))
    (hfinite : ∀ x ∈ l, x.isFinite = true) {q : Float → Bool} {P : Float → Prop}
    (h : ∀ x, q x = true ↔ P x) {d : Float} :
    l.find? q = some d ↔ d ∈ l ∧ P d ∧ ∀ x ∈ l, P x → d ≤ x := by
  rw [find?_eq_some_iff_first h]
  constructor
  · rintro ⟨before, after, rfl, hd, hbefore⟩
    refine ⟨by simp, hd, fun x hx hpass => ?_⟩
    rcases List.mem_append.1 hx with hx | hx
    · exact absurd hpass (hbefore x hx)
    rcases List.mem_cons.1 hx with rfl | hx
    · have hf := hfinite x (by simp)
      exact (le_iff_value hf hf).2 le_rfl
    · obtain ⟨-, hafter, -⟩ := List.pairwise_append.1 hl
      exact double_le_of_lt ((List.pairwise_cons.1 hafter).1 x hx)
  · rintro ⟨hmem, hd, hleast⟩
    obtain ⟨before, after, rfl⟩ := List.append_of_mem hmem
    refine ⟨before, after, rfl, hd, fun x hx hpass => ?_⟩
    obtain ⟨-, -, hcross⟩ := List.pairwise_append.1 hl
    have hlt : x < d := hcross x hx d List.mem_cons_self
    have hle := hleast x (List.mem_append_left _ hx) hpass
    have hself := double_lt_of_lt_of_le hlt hle
    exact double_lt_asymm hself hself

theorem Spans.covers (h : r.Spans a b) : r.Covers a b := by
  obtain ⟨l, hends, hfinite, hmap⟩ := h.exists_ends
  obtain rfl := values_eq hends
  have hascends := pairwise_lt_of_map_value hfinite hmap
  refine ⟨hends, hfinite, hmap, hascends, fun vco frequency margin d => ?_,
    fun vco frequency margin => ?_⟩
  · rw [resolve?_eq_find?]
    exact find?_eq_some_iff_least hascends hfinite fun x => decide_eq_true_iff
  · rw [resolve?_eq_find?, List.find?_eq_none]
    exact forall₂_congr fun x _ => not_congr decide_eq_true_iff

theorem Covers.length_eq (h : r.Covers a b) : r.values.length = (b - a).toNat := by
  simpa using congrArg List.length h.integers

end DividerRange

/-- A range between integers of at most `2 ^ 53` counts these integers and ends, and an output takes
the least of them that meets it. The number of all combinations of three such ranges is the product
of what they span, as long as this is below `2 ^ 53`. -/
theorem counts_integers :
    (∀ (r : DividerRange) (a b : ℤ), r.Spans a b → r.Covers a b)
      ∧ ∀ (l : Limits) (ai bi ao bo af bf : ℤ), l.inputDivider.Spans ai bi →
          l.outputDivider.Spans ao bo → l.feedbackDivider.Spans af bf →
          (bi - ai).toNat * (bo - ao).toNat * (bf - af).toNat < 2 ^ 53 →
          toNat? l.combinations = some ((bi - ai).toNat * (bo - ao).toNat * (bf - af).toNat) := by
  refine ⟨fun r a b h => h.covers, fun l ai bi ao bo af bf hi ho hf hlt => ?_⟩
  have hi := hi.covers
  have ho := ho.covers
  have hf := hf.covers
  rw [← hi.length_eq, ← ho.length_eq, ← hf.length_eq] at hlt ⊢
  exact toNat?_combinations hi.ends ho.ends hf.ends hlt.le

/-- A range over the zero, and the ranges of the ECP5 primitive. -/
theorem counts_integers_ecp5 :
    (DividerRange.mk (-2) 1).Spans (-2) 1
      ∧ (DividerRange.mk (-2) 1).values.map value = [-2, -1, 0]
      ∧ (DividerRange.mk 1 129).Spans 1 129
      ∧ toNat? Family.ecp5.limits.combinations = some 2097152 := by
  have hsmall : (DividerRange.mk (-2) 1).Spans (-2) 1 :=
    ⟨by decide +kernel, by decide +kernel, by norm_num, by norm_num⟩
  have hecp5 : (DividerRange.mk 1 129).Spans 1 129 :=
    ⟨by decide +kernel, by decide +kernel, by norm_num, by norm_num⟩
  obtain ⟨hcovers, hproduct⟩ := counts_integers
  refine ⟨hsmall, ?_, hecp5, hproduct _ 1 129 1 129 1 129 hecp5 hecp5 hecp5 (by decide)⟩
  rw [(hcovers _ _ _ hsmall).integers]
  rfl

end ClockSynth
