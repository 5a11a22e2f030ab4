import Mathlib.Algebra.Order.Field.Power
import Mathlib.Data.Int.Log
import Mathlib.Data.Rat.Floor
import Mathlib.Tactic.Linarith
import Mathlib.Tactic.NormNum
import Mathlib.Tactic.Positivity
import Mathlib.Tactic.Ring

/-!
# Rounding to the nearest double

Doubles of one size are the multiples of one power of two, `2 ^ grid q` around `q`. `nearest q` is
the closest of these multiples, and of two the even one. Overflow is left out: `nearest` goes on
past the largest double. It never turns an order around (`nearest_mono`), it keeps what is a double
already (`nearest_eq_self`), and on what is not too small its error is at most one part in `2 ^ 53`
(`abs_nearest_sub_le_mul`).
-/

namespace ClockSynth.Number

section RoundEven

/-- The integer closest to `q`, and of two the even one. -/
def roundEven (q : ℚ) : ℤ :=
  if Int.fract q < 1 / 2 then ⌊q⌋
  else if 1 / 2 < Int.fract q then ⌊q⌋ + 1
  else ⌊q⌋ + ⌊q⌋ % 2

theorem roundEven_cases (q : ℚ) :
    (roundEven q = ⌊q⌋ ∧ Int.fract q ≤ 1 / 2)
      ∨ (roundEven q = ⌊q⌋ + 1 ∧ 1 / 2 ≤ Int.fract q) := by
  unfold roundEven
  split_ifs with h1 h2
  · exact .inl ⟨rfl, h1.le⟩
  · exact .inr ⟨rfl, h2.le⟩
  · have hf : Int.fract q = 1 / 2 := by linarith
    rcases Int.emod_two_eq_zero_or_one ⌊q⌋ with h | h
    · exact .inl ⟨by omega, hf.le⟩
    · exact .inr ⟨by omega, hf.ge⟩

theorem abs_roundEven_sub_le (q : ℚ) : |(roundEven q : ℚ) - q| ≤ 1 / 2 := by
  have hq := Int.floor_add_fract q
  have h0 := Int.fract_nonneg q
  have h1 := Int.fract_lt_one q
  rcases roundEven_cases q with ⟨he, h⟩ | ⟨he, h⟩
  · rw [he, abs_le]
    constructor <;> linarith
  · rw [he, abs_le]
    push_cast
    constructor <;> linarith

theorem roundEven_intCast (n : ℤ) : roundEven n = n := by
  simp [roundEven]

theorem roundEven_mono {p q : ℚ} (h : p ≤ q) : roundEven p ≤ roundEven q := by
  rcases lt_or_eq_of_le (Int.floor_mono h) with hf | hf
  · rcases roundEven_cases p with ⟨hp, -⟩ | ⟨hp, -⟩ <;>
      rcases roundEven_cases q with ⟨hq, -⟩ | ⟨hq, -⟩ <;> omega
  · have hfr : Int.fract p ≤ Int.fract q := by
      unfold Int.fract
      rw [hf]
      linarith
    unfold roundEven
    rw [hf]
    have := Int.emod_two_eq_zero_or_one ⌊q⌋
    split_ifs <;> first | omega | linarith

theorem roundEven_neg (q : ℚ) : roundEven (-q) = -roundEven q := by
  by_cases h0 : Int.fract q = 0
  · obtain ⟨n, rfl⟩ := Int.fract_eq_zero_iff.1 h0
    rw [← Int.cast_neg, roundEven_intCast, roundEven_intCast]
  · have hfr := Int.fract_neg h0
    have hfl : ⌊-q⌋ = -⌊q⌋ - 1 := by
      have h1 := Int.floor_add_fract q
      have h2 := Int.floor_add_fract (-q)
      have h3 : (⌊-q⌋ : ℚ) = -⌊q⌋ - 1 := by linarith
      exact_mod_cast h3
    unfold roundEven
    rw [hfr, hfl]
    split_ifs <;> first | omega | (exfalso; linarith)

end RoundEven

section Grid

/-- The exponent of the spacing of the doubles around `q`. -/
def grid (q : ℚ) : ℤ :=
  max (Int.log 2 |q| - 52) (-1074)

/-- `y` is a multiple of `2 ^ g`. -/
def OnGrid (g : ℤ) (y : ℚ) : Prop :=
  ∃ m : ℤ, y = m * 2 ^ g

theorem two_zpow_pos (g : ℤ) : (0 : ℚ) < 2 ^ g :=
  zpow_pos two_pos g

theorem OnGrid.mono {g g' : ℤ} {y : ℚ} (h : OnGrid g y) (hg : g' ≤ g) : OnGrid g' y := by
  obtain ⟨m, rfl⟩ := h
  obtain ⟨k, rfl⟩ := Int.le.dest hg
  refine ⟨m * 2 ^ k, ?_⟩
  rw [zpow_add₀ two_ne_zero, zpow_natCast]
  push_cast
  ring

theorem onGrid_zpow {g k : ℤ} (h : g ≤ k) : OnGrid g (2 ^ k) :=
  OnGrid.mono ⟨1, by simp⟩ h

theorem OnGrid.neg {g : ℤ} {y : ℚ} (h : OnGrid g y) : OnGrid g (-y) := by
  obtain ⟨m, rfl⟩ := h
  exact ⟨-m, by push_cast; ring⟩

theorem grid_neg (q : ℚ) : grid (-q) = grid q := by
  simp [grid]

theorem neg_1074_le_grid (q : ℚ) : -1074 ≤ grid q :=
  le_max_right _ _

theorem abs_lt_two_zpow_grid (q : ℚ) : |q| < 2 ^ (grid q + 53) := by
  have h := Int.lt_zpow_succ_log_self Nat.one_lt_two |q|
  refine h.trans_le (zpow_le_zpow_right₀ one_le_two ?_)
  have := le_max_left (Int.log 2 |q| - 52) (-1074)
  unfold grid
  omega

/-- Below `2 ^ (g + 53)` the doubles are no further apart than `2 ^ g`. -/
theorem grid_le {q : ℚ} {g : ℤ} (hq : q ≠ 0) (hg : -1074 ≤ g) (h : |q| < 2 ^ (g + 53)) :
    grid q ≤ g := by
  have hlog : Int.log 2 |q| < g + 53 :=
    (Int.lt_zpow_iff_log_lt Nat.one_lt_two (abs_pos.2 hq)).1 (by exact_mod_cast h)
  exact max_le (by omega) hg

/-- Above the smallest spacing a double has all its 53 digits. -/
theorem two_zpow_grid_le {q : ℚ} (hq : q ≠ 0) (h : -1074 < grid q) : 2 ^ (grid q + 52) ≤ |q| := by
  have hlog : grid q + 52 = Int.log 2 |q| := by
    unfold grid at h ⊢
    omega
  rw [hlog]
  exact_mod_cast Int.zpow_log_le_self Nat.one_lt_two (abs_pos.2 hq)

/-- Where one of two rationals has the wider spacing, a power of two on both grids stands between
their sizes. -/
theorem exists_between_of_grid_lt {p q : ℚ} (hq : q ≠ 0) (h : grid p < grid q) :
    ∃ k : ℤ, |p| < 2 ^ k ∧ 2 ^ k ≤ |q| ∧ OnGrid (grid p) (2 ^ k) ∧ OnGrid (grid q) (2 ^ k) := by
  refine ⟨grid q + 52, ?_, two_zpow_grid_le hq ((neg_1074_le_grid p).trans_lt h),
    onGrid_zpow (by omega), onGrid_zpow (by omega)⟩
  exact (abs_lt_two_zpow_grid p).trans_le (zpow_le_zpow_right₀ one_le_two (by omega))

end Grid

section Nearest

/-- The double nearest to `q`, of two the even one, if doubles had no largest exponent. -/
def nearest (q : ℚ) : ℚ :=
  roundEven (q / 2 ^ grid q) * 2 ^ grid q

theorem nearest_zero : nearest 0 = 0 := by
  have h : roundEven 0 = 0 := roundEven_intCast 0
  simp [nearest, h]

theorem nearest_neg (q : ℚ) : nearest (-q) = -nearest q := by
  simp only [nearest, grid_neg, neg_div, roundEven_neg]
  push_cast
  ring

/-- Rounding does not pass a multiple of the spacing. -/
theorem nearest_le {q y : ℚ} (h : q ≤ y) (hy : OnGrid (grid q) y) : nearest q ≤ y := by
  obtain ⟨m, rfl⟩ := hy
  have hg := two_zpow_pos (grid q)
  have hm : roundEven (q / 2 ^ grid q) ≤ m := by
    rw [← roundEven_intCast m]
    exact roundEven_mono ((div_le_iff₀ hg).2 h)
  exact mul_le_mul_of_nonneg_right (by exact_mod_cast hm) hg.le

theorem le_nearest {q y : ℚ} (h : y ≤ q) (hy : OnGrid (grid q) y) : y ≤ nearest q := by
  have := nearest_le (neg_le_neg h) (by rw [grid_neg]; exact hy.neg)
  rw [nearest_neg] at this
  exact neg_le_neg_iff.1 this

theorem nearest_nonneg {q : ℚ} (h : 0 ≤ q) : 0 ≤ nearest q :=
  le_nearest h ⟨0, by simp⟩

/-- What is below half the smallest double vanishes. -/
theorem nearest_eq_zero {q : ℚ} (h0 : 0 ≤ q) (h : q < 2 ^ (-1075 : ℤ)) : nearest q = 0 := by
  rcases h0.eq_or_lt with rfl | hpos
  · exact nearest_zero
  · have hg : grid q = -1074 := by
      refine le_antisymm (grid_le hpos.ne' le_rfl ?_) (neg_1074_le_grid q)
      rw [abs_of_pos hpos]
      exact h.trans (zpow_lt_zpow_right₀ one_lt_two (by norm_num))
    have hhalf : q / 2 ^ (-1074 : ℤ) < 1 / 2 := by
      rw [div_lt_iff₀ (two_zpow_pos _)]
      calc q < 2 ^ (-1 + -1074 : ℤ) := by simpa using h
        _ = 1 / 2 * 2 ^ (-1074 : ℤ) := by rw [zpow_add₀ two_ne_zero]; norm_num
    have hnn : 0 ≤ q / 2 ^ (-1074 : ℤ) := div_nonneg h0 (two_zpow_pos _).le
    have hfl : ⌊q / 2 ^ (-1074 : ℤ)⌋ = 0 := Int.floor_eq_zero_iff.2 ⟨hnn, by linarith⟩
    rw [nearest, hg, roundEven, Int.fract, hfl, Int.cast_zero, sub_zero, if_pos hhalf, Int.cast_zero,
      zero_mul]

theorem nearest_mono {p q : ℚ} (h : p ≤ q) : nearest p ≤ nearest q := by
  rcases eq_or_ne p 0 with rfl | hp
  · rw [nearest_zero]
    exact nearest_nonneg h
  rcases eq_or_ne q 0 with rfl | hq
  · rw [nearest_zero]
    exact nearest_le h ⟨0, by simp⟩
  rcases lt_trichotomy (grid p) (grid q) with hg | hg | hg
  · obtain ⟨k, hpk, hkq, hgp, hgq⟩ := exists_between_of_grid_lt hq hg
    have hq0 : 0 ≤ q := by
      by_contra hneg
      rw [abs_of_neg (not_le.1 hneg)] at hkq
      linarith [(abs_lt.1 hpk).1, h]
    rw [abs_of_nonneg hq0] at hkq
    exact (nearest_le (abs_lt.1 hpk).2.le hgp).trans (le_nearest hkq hgq)
  · have hg2 := two_zpow_pos (grid q)
    unfold nearest
    rw [hg]
    have := roundEven_mono ((div_le_div_iff_of_pos_right hg2).2 h)
    exact mul_le_mul_of_nonneg_right (by exact_mod_cast this) hg2.le
  · obtain ⟨k, hqk, hkp, hgq, hgp⟩ := exists_between_of_grid_lt hp hg
    have hp0 : p ≤ 0 := by
      by_contra hpos
      rw [abs_of_pos (not_le.1 hpos)] at hkp
      linarith [(abs_lt.1 hqk).2, h]
    rw [abs_of_nonpos hp0] at hkp
    exact (nearest_le (by linarith) hgp.neg).trans (le_nearest (abs_lt.1 hqk).1.le hgq.neg)

/-- What doubles can be: 53 digits at an exponent that is not too small. -/
def IsDouble (y : ℚ) : Prop :=
  ∃ (m e : ℤ), |m| < 2 ^ 53 ∧ -1074 ≤ e ∧ y = m * 2 ^ e

theorem IsDouble.onGrid {y : ℚ} (h : IsDouble y) : OnGrid (grid y) y := by
  obtain ⟨m, e, hm, he, rfl⟩ := h
  rcases eq_or_ne m 0 with rfl | h0
  · exact ⟨0, by simp⟩
  refine OnGrid.mono ⟨m, rfl⟩ (grid_le ?_ he ?_)
  · exact mul_ne_zero (by exact_mod_cast h0) (two_zpow_pos e).ne'
  · rw [abs_mul, abs_of_pos (two_zpow_pos e), add_comm, zpow_add₀ two_ne_zero]
    have hm' : |(m : ℚ)| < 2 ^ (53 : ℤ) := by exact_mod_cast hm
    exact mul_lt_mul_of_pos_right hm' (two_zpow_pos e)

theorem isDouble_zero : IsDouble 0 :=
  ⟨0, 0, by norm_num, by norm_num, by simp⟩

theorem IsDouble.neg {y : ℚ} (h : IsDouble y) : IsDouble (-y) := by
  obtain ⟨m, e, hm, he, rfl⟩ := h
  exact ⟨-m, e, by rwa [abs_neg], he, by push_cast; ring⟩

theorem IsDouble.abs {y : ℚ} (h : IsDouble y) : IsDouble |y| := by
  rcases abs_choice y with hy | hy <;> rw [hy]
  exacts [h, h.neg]

/-- A double is its own nearest double. -/
theorem nearest_eq_self {y : ℚ} (h : IsDouble y) : nearest y = y :=
  le_antisymm (nearest_le le_rfl h.onGrid) (le_nearest le_rfl h.onGrid)

theorem nearest_le_of_isDouble {q y : ℚ} (hy : IsDouble y) (h : q ≤ y) : nearest q ≤ y :=
  nearest_eq_self hy ▸ nearest_mono h

theorem le_nearest_of_isDouble {q y : ℚ} (hy : IsDouble y) (h : y ≤ q) : y ≤ nearest q :=
  nearest_eq_self hy ▸ nearest_mono h

theorem abs_nearest_le {q y : ℚ} (hy : IsDouble y) (h : |q| ≤ y) : |nearest q| ≤ y := by
  obtain ⟨hlow, hhigh⟩ := abs_le.1 h
  exact abs_le.2 ⟨le_nearest_of_isDouble hy.neg hlow, nearest_le_of_isDouble hy hhigh⟩

theorem isDouble_intCast {n : ℤ} (h : |n| ≤ 2 ^ 53) : IsDouble n := by
  rcases lt_or_eq_of_le h with h | h
  · exact ⟨n, 0, h, by norm_num, by simp⟩
  · rcases eq_or_eq_neg_of_abs_eq h with rfl | rfl
    · exact ⟨2 ^ 52, 1, by norm_num, by norm_num, by norm_num⟩
    · exact ⟨-2 ^ 52, 1, by norm_num, by norm_num, by norm_num⟩

theorem isDouble_natCast {n : ℕ} (h : n ≤ 2 ^ 53) : IsDouble n := by
  have := isDouble_intCast (n := n) (by rw [Nat.abs_cast]; exact_mod_cast h)
  simpa using this

/-- Binary fractions with few places are doubles. -/
theorem isDouble_div_two_pow {m : ℤ} {k : ℕ} (hm : |m| < 2 ^ 53) (hk : k ≤ 1074) :
    IsDouble (m / 2 ^ k) :=
  ⟨m, -k, hm, by omega, by rw [zpow_neg, zpow_natCast, div_eq_mul_inv]⟩

/-- From a double upwards the first whole number is a double again: where doubles have gaps, they
are whole themselves. -/
theorem isDouble_ceil {y : ℚ} (h : IsDouble y) : IsDouble ⌈y⌉ := by
  obtain ⟨m, e, hm, he, rfl⟩ := h
  rcases le_or_gt 0 e with h0 | h0
  · obtain ⟨k, rfl⟩ := Int.eq_ofNat_of_zero_le h0
    have hwhole : (m : ℚ) * 2 ^ (k : ℤ) = ((m * 2 ^ k : ℤ) : ℚ) := by
      push_cast
      rw [zpow_natCast]
    refine ⟨m, k, hm, he, ?_⟩
    rw [hwhole, Int.ceil_intCast]
  · have hle : |(m : ℚ) * 2 ^ e| ≤ 2 ^ 53 := by
      rw [abs_mul, abs_of_pos (two_zpow_pos e)]
      have hm' : |(m : ℚ)| ≤ 2 ^ 53 := by exact_mod_cast hm.le
      exact (mul_le_of_le_one_right (abs_nonneg _) (zpow_le_one_of_nonpos₀ one_le_two h0.le)).trans hm'
    obtain ⟨hlow, hhigh⟩ := abs_le.1 hle
    refine isDouble_intCast (abs_le.2 ⟨?_, Int.ceil_le.2 (by exact_mod_cast hhigh)⟩)
    have := hlow.trans (Int.le_ceil _)
    exact_mod_cast this

/-- Rounding moves by half the spacing at most. -/
theorem abs_nearest_sub_le (q : ℚ) : |nearest q - q| ≤ 2 ^ grid q / 2 := by
  have hg := two_zpow_pos (grid q)
  have h := mul_le_mul_of_nonneg_right (abs_roundEven_sub_le (q / 2 ^ grid q)) hg.le
  rw [← abs_of_pos hg, ← abs_mul, abs_of_pos hg, sub_mul, div_mul_cancel₀ _ hg.ne'] at h
  unfold nearest
  linarith

/-- On what is at least the smallest normal double, the relative error is at most one part in
`2 ^ 53`. -/
theorem abs_nearest_sub_le_mul {q : ℚ} (h : 2 ^ (-1022 : ℤ) ≤ |q|) :
    |nearest q - q| ≤ |q| / 2 ^ 53 := by
  have hq : 0 < |q| := (two_zpow_pos _).trans_le h
  have hlog : grid q = Int.log 2 |q| - 52 := by
    have := (Int.zpow_le_iff_le_log Nat.one_lt_two hq).1 (by exact_mod_cast h)
    exact max_eq_left (by omega)
  have hself : (2 : ℚ) ^ Int.log 2 |q| ≤ |q| := by
    exact_mod_cast Int.zpow_log_le_self Nat.one_lt_two hq
  have herr := abs_nearest_sub_le q
  rw [hlog, zpow_sub₀ two_ne_zero, div_div] at herr
  have h53 : (2 : ℚ) ^ (52 : ℤ) * 2 = 2 ^ 53 := by norm_num
  rw [h53] at herr
  exact herr.trans (div_le_div_of_nonneg_right hself (by positivity))

end Nearest

end ClockSynth.Number
