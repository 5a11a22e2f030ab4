import ClockSynth.Proofs.Number.Arithmetic

/-!
# The error of a chain of operations

`Near k q x` says that `x` is `q` up to `k` roundings, each of which moves by a factor of `slack` at
most, up or down. Products and quotients add up these counts (`Near.mul`, `Near.div`) as long as the
exact results stay away from the ends of the range of doubles.
-/

namespace ClockSynth.Number

/-- The largest factor by which one rounding moves. -/
def slack : ℚ :=
  1 + 1 / 2 ^ 52

theorem slack_pow_pos (k : ℕ) : 0 < slack ^ k := by
  unfold slack
  positivity

theorem slack_pow_le {k : ℕ} (h : k ≤ 16) : slack ^ k ≤ 1 + 1 / 2 ^ 44 := by
  have h1 : (1 : ℚ) ≤ slack := by
    unfold slack
    norm_num
  calc slack ^ k ≤ slack ^ 16 := pow_le_pow_right₀ h1 h
    _ ≤ 1 + 1 / 2 ^ 44 := by
      unfold slack
      norm_num

theorem slack_pow_le_two {k : ℕ} (h : k ≤ 16) : slack ^ k ≤ 2 :=
  (slack_pow_le h).trans (by norm_num)

/-- `x` is a double that stands at `q` up to `k` roundings. -/
structure Near (k : ℕ) (q : ℚ) (x : Float) : Prop where
  finite : x.isFinite = true
  le : value x ≤ q * slack ^ k
  ge : q ≤ value x * slack ^ k

variable {j k : ℕ} {p q : ℚ} {x y : Float}

theorem near_zero (h : x.isFinite = true) : Near 0 (value x) x :=
  ⟨h, by simp, by simp⟩

theorem Near.pos (h : Near k q x) (hq : 0 < q) : 0 < value x :=
  pos_of_mul_pos_left (hq.trans_le h.ge) (slack_pow_pos k).le

theorem RoundsTo.finite_of_abs_le (h : RoundsTo q x) (hq : |q| ≤ 2 ^ 100) :
    x.isFinite = true ∧ value x = nearest q := by
  have hd : IsDouble (2 ^ 100) := ⟨1, 100, by norm_num, by norm_num, by norm_num⟩
  have habs : |nearest q| ≤ 2 ^ (100 : ℤ) := by exact_mod_cast abs_nearest_le hd hq
  exact h.finite (habs.trans_lt (zpow_lt_zpow_right₀ one_lt_two (by norm_num)))

theorem RoundsTo.near (h : RoundsTo q x) (hlo : 1 / 2 ≤ q) (hhi : q ≤ 2 ^ 100) : Near 1 q x := by
  have hq : 0 < q := by linarith
  have hsmall : (2 : ℚ) ^ (-1022 : ℤ) ≤ |q| := by
    rw [abs_of_pos hq]
    refine le_trans ?_ hlo
    calc (2 : ℚ) ^ (-1022 : ℤ) ≤ 2 ^ (-1 : ℤ) := zpow_le_zpow_right₀ one_le_two (by norm_num)
      _ = 1 / 2 := by norm_num
  obtain ⟨hf, hv⟩ := h.finite_of_abs_le (by rwa [abs_of_pos hq])
  have herr := abs_nearest_sub_le_mul hsmall
  rw [abs_of_pos hq, abs_le] at herr
  obtain ⟨h1, h2⟩ := herr
  refine ⟨hf, ?_, ?_⟩ <;> rw [hv, pow_one, slack] <;> linarith

/-- One more rounding of what is within `k` roundings already. -/
theorem RoundsTo.near_succ {r : ℚ} (h : RoundsTo r x) (hle : r ≤ q * slack ^ k)
    (hge : q ≤ r * slack ^ k) (h1 : 1 ≤ q) (h2 : q ≤ 2 ^ 99) (hk : k ≤ 16) : Near (k + 1) q x := by
  have hs := slack_pow_pos k
  have hs2 := slack_pow_le_two hk
  have hr : 0 < r := pos_of_mul_pos_left (by linarith) hs.le
  have hn := h.near (by nlinarith) (by nlinarith)
  have hle' := hn.le
  have hge' := hn.ge
  rw [pow_one] at hle' hge'
  have hslack : 0 < slack := by simpa using slack_pow_pos 1
  refine ⟨hn.finite, ?_, ?_⟩
  · calc value x ≤ r * slack := hle'
      _ ≤ q * slack ^ k * slack := mul_le_mul_of_nonneg_right hle hslack.le
      _ = q * slack ^ (k + 1) := by rw [pow_succ, mul_assoc]
  · calc q ≤ r * slack ^ k := hge
      _ ≤ value x * slack * slack ^ k := mul_le_mul_of_nonneg_right hge' hs.le
      _ = value x * slack ^ (k + 1) := by rw [pow_succ]; ring

theorem Near.mul (hx : Near j p x) (hy : Near k q y) (hp : 0 < p) (hq : 0 < q) (h1 : 1 ≤ p * q)
    (h2 : p * q ≤ 2 ^ 99) (hjk : j + k ≤ 16) : Near (j + k + 1) (p * q) (x * y) := by
  have hx0 := hx.pos hp
  have hy0 := hy.pos hq
  refine (roundsTo_mul hx.finite hy.finite).near_succ ?_ ?_ h1 h2 hjk
  · calc value x * value y ≤ p * slack ^ j * (q * slack ^ k) :=
          mul_le_mul hx.le hy.le hy0.le (mul_pos hp (slack_pow_pos j)).le
      _ = p * q * slack ^ (j + k) := by rw [pow_add]; ring
  · calc p * q ≤ value x * slack ^ j * (value y * slack ^ k) :=
          mul_le_mul hx.ge hy.ge hq.le (mul_pos hx0 (slack_pow_pos j)).le
      _ = value x * value y * slack ^ (j + k) := by rw [pow_add]; ring

theorem Near.div (hx : Near j p x) (hy : Near k q y) (hp : 0 < p) (hq : 0 < q) (h1 : 1 ≤ p / q)
    (h2 : p / q ≤ 2 ^ 99) (hjk : j + k ≤ 16) : Near (j + k + 1) (p / q) (x / y) := by
  have hx0 := hx.pos hp
  have hy0 := hy.pos hq
  have hj := slack_pow_pos j
  have hk := slack_pow_pos k
  refine (roundsTo_div hx.finite hy.finite hy0.ne').near_succ ?_ ?_ h1 h2 hjk
  · rw [div_le_iff₀ hy0]
    calc value x ≤ p * slack ^ j := hx.le
      _ = p / q * slack ^ j * q := by field_simp
      _ ≤ p / q * slack ^ j * (value y * slack ^ k) := by gcongr; exact hy.ge
      _ = p / q * slack ^ (j + k) * value y := by rw [pow_add]; ring
  · rw [div_le_iff₀ hq]
    calc p ≤ value x * slack ^ j := hx.ge
      _ = value x / value y * slack ^ j * value y := by field_simp
      _ ≤ value x / value y * slack ^ j * (q * slack ^ k) := by gcongr; exact hy.le
      _ = value x / value y * slack ^ (j + k) * q := by rw [pow_add]; ring

/-- On what is not too large a few roundings are less than one. -/
theorem Near.abs_sub_le_one (h : Near k q x) (hk : k ≤ 16) (hq : 0 < q) (hx : value x ≤ 2 ^ 40) :
    |value x - q| ≤ 1 := by
  have hs := slack_pow_le hk
  have hx0 := h.pos hq
  have hge : q ≤ value x * (1 + 1 / 2 ^ 44) := h.ge.trans (mul_le_mul_of_nonneg_left hs hx0.le)
  have hle : value x ≤ q * (1 + 1 / 2 ^ 44) := h.le.trans (mul_le_mul_of_nonneg_left hs hq.le)
  rw [abs_le]
  constructor <;> linarith

end ClockSynth.Number
