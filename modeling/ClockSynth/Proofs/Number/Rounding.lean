import ClockSynth.Proofs.Number.Line
import Mathlib.Data.Nat.Log
import Mathlib.Tactic.FieldSimp

/-!
# Rounding by digits

An operation shifts digits out and keeps two bits of what it loses. `Describes` says what these know
of the exact result, and `packs_roundWithAccuracy` that rounding by them is rounding by `nearest`,
to an infinity where that is too large (`RoundsTo`).
-/

namespace ClockSynth.Number

open Float.Model Float.Model.UnpackedFloat

section Describes

/-- The digits are the whole part of `x`, and the two bits say where the rest stands to a half. -/
structure Describes (em : ExtendedMantissa) (x : ℚ) : Prop where
  whole : (em.mantissa : ℤ) = ⌊x⌋
  roundBit : em.roundBit = true ↔ 1 / 2 ≤ Int.fract x
  stickyBit : em.stickyBit = true ↔ Int.fract x ≠ 0 ∧ Int.fract x ≠ 1 / 2

theorem describes_natCast (m : ℕ) :
    Describes (ExtendedMantissa.ofMantissaAndAccuracy m .exact) m := by
  constructor <;> simp [ExtendedMantissa.ofMantissaAndAccuracy]

theorem mantissa_ofMantissaAndAccuracy (m : ℕ) (a : Accuracy) :
    (ExtendedMantissa.ofMantissaAndAccuracy m a).mantissa = m := by
  rcases a with _ | _ | _ | _ <;> rfl

theorem floor_natCast_div (m n : ℕ) : ⌊(m : ℚ) / n⌋ = ((m / n : ℕ) : ℤ) := by
  rw [Int.floor_div_natCast, Int.floor_natCast]
  rfl

section Quotient

variable (m : ℕ) {n : ℕ}

theorem fract_div_eq_zero (hn : 0 < n) : Int.fract ((m : ℚ) / n) = 0 ↔ m % n = 0 := by
  have hn' : (n : ℚ) ≠ 0 := by exact_mod_cast hn.ne'
  rw [Int.fract_div_natCast_eq_div_natCast_mod, div_eq_zero_iff, or_iff_left hn', Nat.cast_eq_zero]

theorem half_le_fract_div (hn : 0 < n) : 1 / 2 ≤ Int.fract ((m : ℚ) / n) ↔ n ≤ 2 * (m % n) := by
  have hn' : (0 : ℚ) < n := by exact_mod_cast hn
  rw [Int.fract_div_natCast_eq_div_natCast_mod, div_le_div_iff₀ two_pos hn', one_mul, mul_comm]
  exact_mod_cast Iff.rfl

theorem fract_div_eq_half (hn : 0 < n) : Int.fract ((m : ℚ) / n) = 1 / 2 ↔ 2 * (m % n) = n := by
  have hn' : (n : ℚ) ≠ 0 := by exact_mod_cast hn.ne'
  rw [Int.fract_div_natCast_eq_div_natCast_mod, div_eq_div_iff hn' two_ne_zero, one_mul, mul_comm]
  exact_mod_cast Iff.rfl

theorem roundBit_inexact (o : Ordering) :
    (ExtendedMantissa.ofMantissaAndAccuracy m (.inexact o)).roundBit = true ↔ o ≠ .lt := by
  cases o <;> simp [ExtendedMantissa.ofMantissaAndAccuracy]

theorem stickyBit_inexact (o : Ordering) :
    (ExtendedMantissa.ofMantissaAndAccuracy m (.inexact o)).stickyBit = true ↔ o ≠ .eq := by
  cases o <;> simp [ExtendedMantissa.ofMantissaAndAccuracy]

/-- A remainder that is compared with half the divisor describes a quotient. -/
theorem describes_div (hn : 0 < n) :
    Describes (ExtendedMantissa.ofMantissaAndAccuracy (m / n) (accuracyOfFraction (m % n) n))
      ((m : ℚ) / n) := by
  have hwhole (a : Accuracy) :
      ((ExtendedMantissa.ofMantissaAndAccuracy (m / n) a).mantissa : ℤ) = ⌊(m : ℚ) / n⌋ := by
    rw [mantissa_ofMantissaAndAccuracy, floor_natCast_div]
  unfold accuracyOfFraction
  by_cases h0 : m % n = 0
  · have hfract := (fract_div_eq_zero m hn).2 h0
    rw [if_pos h0]
    refine ⟨hwhole _, ?_, ?_⟩
    · simp [ExtendedMantissa.ofMantissaAndAccuracy, hfract]
    · simp [ExtendedMantissa.ofMantissaAndAccuracy, hfract]
  · rw [if_neg h0]
    refine ⟨hwhole _, ?_, ?_⟩
    · rw [roundBit_inexact, compare_ge_iff_ge, half_le_fract_div m hn]
    · rw [stickyBit_inexact, ne_eq, compare_eq_iff_eq, ← fract_div_eq_half m hn]
      exact (and_iff_right fun hf => h0 ((fract_div_eq_zero m hn).1 hf)).symm

end Quotient

theorem Describes.half {em : ExtendedMantissa} {x : ℚ} (h : Describes em x) :
    Describes em.shiftRightOne (x / 2) := by
  have h0 := Int.fract_nonneg x
  have h1 := Int.fract_lt_one x
  have hdiv : ⌊x / 2⌋ = ⌊x⌋ / 2 := by exact_mod_cast Int.floor_div_natCast x 2
  have hfr : Int.fract (x / 2) = ((⌊x⌋ % 2 : ℤ) + Int.fract x) / 2 := by
    have h2 := Int.floor_add_fract x
    have h3 := Int.floor_add_fract (x / 2)
    have h4 : ((⌊x⌋ / 2 * 2 + ⌊x⌋ % 2 : ℤ) : ℚ) = ⌊x⌋ := by
      exact_mod_cast Int.ediv_mul_add_emod ⌊x⌋ 2
    rw [hdiv] at h3
    push_cast at h4
    linarith
  have hm := h.whole
  have hsticky : (em.roundBit || em.stickyBit) = true ↔ Int.fract x ≠ 0 := by
    rw [Bool.or_eq_true, h.roundBit, h.stickyBit]
    constructor
    · rintro (h | h) <;> [exact (lt_of_lt_of_le (by norm_num) h).ne'; exact h.1]
    · intro h
      by_cases hc : 1 / 2 ≤ Int.fract x
      · exact .inl hc
      · exact .inr ⟨h, fun he => hc he.ge⟩
  have hodd : ⌊x⌋ % 2 = 0 ∧ em.mantissa % 2 = 0 ∨ ⌊x⌋ % 2 = 1 ∧ em.mantissa % 2 = 1 := by
    omega
  refine ⟨?_, ?_, ?_⟩
  · rw [hdiv, ← hm]
    rfl
  · simp only [ExtendedMantissa.shiftRightOne, hfr]
    rcases hodd with ⟨ho, ho'⟩ | ⟨ho, ho'⟩ <;> rw [ho, ho'] <;> norm_num <;> linarith
  · simp only [ExtendedMantissa.shiftRightOne, hsticky, hfr]
    rcases hodd with ⟨ho, -⟩ | ⟨ho, -⟩ <;> rw [ho] <;> push_cast
    · refine ⟨fun h => ⟨?_, ?_⟩, fun h hc => h.1 (by rw [hc]; norm_num)⟩
      · intro hc
        exact h (by linarith)
      · intro hc
        linarith
    · refine ⟨fun h => ⟨?_, ?_⟩, fun h hc => h.2 (by rw [hc]; norm_num)⟩
      · intro hc
        linarith
      · intro hc
        exact h (by linarith)

theorem Describes.shiftRight {em : ExtendedMantissa} {x : ℚ} (h : Describes em x) (k : ℕ) :
    Describes (em >>> k) (x / 2 ^ k) := by
  show Describes (k.repeat ExtendedMantissa.shiftRightOne em) _
  induction k with
  | zero => simpa [Nat.repeat] using h
  | succ k ih =>
    rw [pow_succ, ← div_div]
    exact ih.half

theorem Describes.roundedMantissa {em : ExtendedMantissa} {x : ℚ} (h : Describes em x) :
    (em.roundedMantissa : ℤ) = roundEven x := by
  have h1 := Int.fract_nonneg x
  rcases em with ⟨m, r, s⟩
  obtain ⟨hm, hr, hs⟩ := h
  simp only [] at hm hr hs
  unfold roundEven
  rw [← hm]
  cases r <;> cases s <;>
    simp only [Bool.false_eq_true, false_iff, true_iff, not_le, not_and_or, not_not,
      ExtendedMantissa.roundedMantissa, ExtendedMantissa.accuracy,
      Accuracy.roundToNearestEven] at hr hs ⊢
  · rw [if_pos hr]
  · rw [if_pos hr]
  · have hf : Int.fract x = 1 / 2 := hs.resolve_left (by linarith)
    rw [hf, if_neg (lt_irrefl _), if_neg (lt_irrefl _)]
    push_cast
    rfl
  · have hf : 1 / 2 < Int.fract x := lt_of_le_of_ne hr (Ne.symm hs.2)
    rw [if_neg (by linarith), if_pos hf]
    push_cast
    rfl

end Describes

section Round

/-- The first power of two that is too large for a double. -/
def overflow : ℚ :=
  2 ^ (1024 : ℤ)

theorem overflow_pos : 0 < overflow :=
  two_zpow_pos _

/-- Where the double nearest to a rational stands, once that is rounded. -/
def clamp (q : ℚ) : WithBot (WithTop ℚ) :=
  if overflow ≤ q then ⊤ else if q ≤ -overflow then ⊥ else ((q : ℚ) : WithTop ℚ)

theorem clamp_of_abs_lt {q : ℚ} (h : |q| < overflow) : clamp q = ((q : ℚ) : WithTop ℚ) := by
  obtain ⟨h1, h2⟩ := abs_lt.1 h
  rw [clamp, if_neg h2.not_ge, if_neg h1.not_ge]

theorem clamp_mono {p q : ℚ} (h : p ≤ q) : clamp p ≤ clamp q := by
  have hpos := overflow_pos
  unfold clamp
  split_ifs
  all_goals first | exact le_rfl | exact le_top | exact bot_le | (exfalso; linarith) | skip
  exact_mod_cast h

theorem clamp_nearest_of_le {q : ℚ} (h : overflow ≤ q) : clamp (nearest q) = ⊤ := by
  have hd : IsDouble overflow := ⟨1, 1024, by norm_num, by norm_num, by simp [overflow]⟩
  rw [clamp, if_pos (le_nearest_of_isDouble hd h)]

/-- `x` is the double nearest to `q`, or the infinity beyond. -/
structure RoundsTo (q : ℚ) (x : Float) : Prop where
  isNaN : x.isNaN = false
  line : line x = clamp (nearest q)

theorem RoundsTo.le {p q : ℚ} {x y : Float} (hx : RoundsTo p x) (hy : RoundsTo q y) (h : p ≤ q) :
    x ≤ y := by
  rw [le_iff, hx.line, hy.line]
  exact ⟨hx.isNaN, hy.isNaN, clamp_mono (nearest_mono h)⟩

/-- Doubles nearest to one rational are equal. -/
theorem RoundsTo.beq {q : ℚ} {x y : Float} (hx : RoundsTo q x) (hy : RoundsTo q y) :
    (x == y) = true :=
  beq_iff.2 ⟨hx.isNaN, hy.isNaN, hx.line.trans hy.line.symm⟩

theorem RoundsTo.finite {q : ℚ} {x : Float} (h : RoundsTo q x) (hq : |nearest q| < overflow) :
    x.isFinite = true ∧ value x = nearest q :=
  isFinite_of_line h.isNaN (h.line.trans (clamp_of_abs_lt hq))

/-- Digits that fit, at an exponent without an upper bound. -/
structure Fits (m : ℕ) (e : ℤ) : Prop where
  pos : 0 < m
  lt : m < 2 ^ 53
  least : -1074 ≤ e
  full : 2 ^ 52 ≤ m ∨ e = -1074

theorem lineOf_pack {m : ℕ} {e : ℤ} (s : Sign) (h : Fits m e) :
    UnpackedFloat.isNaN (Float.Model.pack (.finite s m e h.pos)).unpack = false
      ∧ lineOf (Float.Model.pack (.finite s m e h.pos)).unpack = clamp (sgn s * (m * 2 ^ e)) := by
  have he := two_zpow_pos e
  rcases le_or_gt e 971 with hle | hgt
  · rw [unpack_pack h.pos ⟨h.lt, h.least, hle, h.full⟩]
    refine ⟨rfl, (clamp_of_abs_lt ?_).symm⟩
    have hm : (m : ℚ) < 2 ^ (53 : ℤ) := by exact_mod_cast h.lt
    rw [valueOf, abs_sgn_mul, abs_of_nonneg (by positivity)]
    calc (m : ℚ) * 2 ^ e < 2 ^ (53 : ℤ) * 2 ^ e := mul_lt_mul_of_pos_right hm he
      _ = 2 ^ (53 + e) := (zpow_add₀ two_ne_zero _ _).symm
      _ ≤ overflow := zpow_le_zpow_right₀ one_le_two (by omega)
  · rw [unpack_pack_of_lt h.pos hgt]
    have hm : (2 : ℚ) ^ (52 : ℤ) ≤ m := by
      exact_mod_cast h.full.resolve_right (by omega)
    have hbig : overflow ≤ m * 2 ^ e := by
      calc overflow ≤ 2 ^ (52 + e) := zpow_le_zpow_right₀ one_le_two (by omega)
        _ = 2 ^ (52 : ℤ) * 2 ^ e := zpow_add₀ two_ne_zero _ _
        _ ≤ m * 2 ^ e := mul_le_mul_of_nonneg_right hm he.le
    have hpos := overflow_pos
    cases s
    · refine ⟨rfl, ?_⟩
      rw [clamp, sgn, neg_one_mul, if_neg (by linarith), if_pos (by linarith)]
      rfl
    · refine ⟨rfl, ?_⟩
      rw [clamp, sgn, one_mul, if_pos hbig]
      rfl

theorem target_eq (m : ℕ) (e : ℤ) :
    Format.binary64.targetExponent (totalExponent m e) = max ((m.log2 : ℤ) + e - 52) (-1074) := by
  have h : Format.binary64.minExponent = -1074 := by decide
  have h' : (Format.binary64.mantissaBits : ℤ) = 53 := by decide
  rw [Format.targetExponent, totalExponent, h, h']
  omega

/-- The digits are many enough for what is shifted out to be described. -/
def Enough (m : ℕ) (e : ℤ) : Prop :=
  2 ^ 52 ≤ m ∨ e ≤ -1074

theorem le_log2_of_le {m k : ℕ} (h : 2 ^ k ≤ m) : k ≤ m.log2 :=
  (Nat.le_log2 (by have := Nat.two_pow_pos k; omega)).2 h

theorem Enough.le_target {m : ℕ} {e : ℤ} (h : Enough m e) :
    e ≤ Format.binary64.targetExponent (totalExponent m e) := by
  rw [target_eq]
  rcases h with h | h
  · have := le_log2_of_le h
    omega
  · omega

/-- The exponent that the shift goes to is the spacing of the doubles around the exact result. -/
theorem Enough.target_eq_grid {m : ℕ} {e : ℤ} {x : ℚ} (h : Enough m e) (hx : 0 < x)
    (hm : (m : ℤ) = ⌊x⌋) :
    Format.binary64.targetExponent (totalExponent m e) = grid (x * 2 ^ e) := by
  have hlo : (m : ℚ) ≤ x := by
    have := Int.floor_le x
    rw [← hm] at this
    exact_mod_cast this
  have hhi : x < m + 1 := by
    have := Int.lt_floor_add_one x
    rw [← hm] at this
    exact_mod_cast this
  have hpos : 0 < x * 2 ^ e := mul_pos hx (two_zpow_pos e)
  rw [target_eq, grid, abs_of_pos hpos]
  have hlt : Int.log 2 (x * 2 ^ e) < (m.log2 : ℤ) + 1 + e := by
    refine (Int.lt_zpow_iff_log_lt Nat.one_lt_two hpos).1 ?_
    have h1 : (m : ℚ) + 1 ≤ 2 ^ (m.log2 + 1) := by exact_mod_cast Nat.lt_log2_self (n := m)
    push_cast
    rw [zpow_add₀ two_ne_zero]
    refine mul_lt_mul_of_pos_right (hhi.trans_le ?_) (two_zpow_pos e)
    exact_mod_cast h1
  rcases Nat.eq_zero_or_pos m with rfl | hm0
  · have he : e ≤ -1074 := h.resolve_left (by norm_num)
    have : (0 : ℕ).log2 = 0 := by decide
    omega
  · have hge : (m.log2 : ℤ) + e ≤ Int.log 2 (x * 2 ^ e) := by
      refine (Int.zpow_le_iff_le_log Nat.one_lt_two hpos).1 ?_
      have h1 : (2 : ℚ) ^ m.log2 ≤ m := by exact_mod_cast Nat.log2_self_le hm0.ne'
      push_cast
      rw [zpow_add₀ two_ne_zero]
      refine mul_le_mul_of_nonneg_right ?_ (two_zpow_pos e).le
      exact_mod_cast h1.trans hlo
    omega

/-- The result of an operation, once it is packed, stands at the double nearest to `q`. -/
structure Packs (u : UnpackedFloat) (q : ℚ) : Prop where
  isNaN : (Float.Model.pack u).unpack.isNaN = false
  line : lineOf (Float.Model.pack u).unpack = clamp (nearest q)

theorem packs_zero (s : Sign) : Packs (.zero s) 0 := by
  have h : clamp (nearest 0) = ((0 : ℚ) : WithTop ℚ) := by
    rw [nearest_zero, clamp_of_abs_lt (by rw [abs_zero]; exact overflow_pos)]
  constructor
  · rw [unpack_pack_zero]
    rfl
  · rw [unpack_pack_zero, h]
    rfl

theorem Packs.roundsTo {u : UnpackedFloat} {q : ℚ} (h : Packs u q) :
    RoundsTo q (.ofModel (.pack u)) :=
  ⟨h.isNaN, h.line⟩

theorem nearest_sgn_mul (s : Sign) (q : ℚ) : nearest (sgn s * q) = sgn s * nearest q := by
  cases s
  · rw [sgn, neg_one_mul, neg_one_mul, nearest_neg]
  · rw [sgn, one_mul, one_mul]

/-- A shift to the spacing of the doubles, and the digits that are left rounded. -/
theorem roundedMantissa_shift {m : ℕ} {e : ℤ} {a : Accuracy} {x : ℚ} (h : Enough m e) (hx : 0 < x)
    (hd : Describes (.ofMantissaAndAccuracy m a) x) :
    ((shiftToTargetExponent Format.binary64 m e a).1.roundedMantissa : ℤ)
        = roundEven (x * 2 ^ e / 2 ^ grid (x * 2 ^ e))
      ∧ (shiftToTargetExponent Format.binary64 m e a).2 = grid (x * 2 ^ e) := by
  have hm : (m : ℤ) = ⌊x⌋ := by rw [← hd.whole, mantissa_ofMantissaAndAccuracy]
  have ht := h.target_eq_grid hx hm
  have hle := h.le_target
  rw [ht] at hle
  obtain ⟨k, hk⟩ := Int.le.dest hle
  have hk' : (grid (x * 2 ^ e) - e).toNat = k := by omega
  unfold shiftToTargetExponent shiftToExponent
  simp only [ht, hk']
  refine ⟨?_, hk⟩
  rw [(hd.shiftRight k).roundedMantissa]
  congr 1
  rw [← hk, zpow_add₀ two_ne_zero, zpow_natCast, mul_comm ((2 : ℚ) ^ e), mul_div_mul_right _ _
    (two_zpow_pos e).ne']

/-- Rounding gave one digit too many at most, and then the digits are those of a power of two. -/
theorem shift_rounded {r : ℕ} {t : ℤ} (hr : r ≤ 2 ^ 53) (ht : -1074 ≤ t) :
    let p := shiftToTargetExponent Format.binary64 r t .exact
    (r < 2 ^ 53 → p.1.mantissa = r ∧ p.2 = t)
      ∧ (r = 2 ^ 53 → p.1.mantissa = 2 ^ 52 ∧ p.2 = t + 1) := by
  unfold shiftToTargetExponent shiftToExponent
  simp only [target_eq]
  constructor
  · intro h
    have hlog : r.log2 ≤ 52 := by
      rcases Nat.eq_zero_or_pos r with rfl | h0
      · decide
      · have := (Nat.log2_lt h0.ne').2 h
        omega
    have hz : (max ((r.log2 : ℤ) + t - 52) (-1074) - t).toNat = 0 := by omega
    simp only [hz]
    exact ⟨rfl, by simp⟩
  · rintro rfl
    have hlog : (2 ^ 53 : ℕ).log2 = 53 := Nat.log2_two_pow
    have hz : (max (((2 ^ 53 : ℕ).log2 : ℤ) + t - 52) (-1074) - t).toNat = 1 := by omega
    simp only [hz]
    exact ⟨by decide, by simp⟩

theorem digits_le {q : ℚ} (hq : 0 < q) {r : ℕ} (hr : (r : ℤ) = roundEven (q / 2 ^ grid q)) :
    r ≤ 2 ^ 53 := by
  have hlt : q / 2 ^ grid q ≤ ((2 ^ 53 : ℤ) : ℚ) := by
    rw [div_le_iff₀ (two_zpow_pos (grid q))]
    have := abs_lt_two_zpow_grid q
    rw [abs_of_pos hq, add_comm, zpow_add₀ two_ne_zero] at this
    exact_mod_cast this.le
  have := roundEven_mono hlt
  rw [roundEven_intCast, ← hr] at this
  exact_mod_cast this

/-- Rounding to the spacing gives 53 digits, unless it is the least spacing. -/
theorem le_digits {q : ℚ} (hq : 0 < q) {r : ℕ} (hr : (r : ℤ) = roundEven (q / 2 ^ grid q)) :
    2 ^ 52 ≤ r ∨ grid q = -1074 := by
  rcases (neg_1074_le_grid q).lt_or_eq with hlt | heq
  · left
    have h52 : ((2 ^ 52 : ℤ) : ℚ) ≤ q / 2 ^ grid q := by
      rw [le_div_iff₀ (two_zpow_pos (grid q))]
      have := two_zpow_grid_le hq.ne' hlt
      rw [abs_of_pos hq, add_comm, zpow_add₀ two_ne_zero] at this
      exact_mod_cast this
    have := roundEven_mono h52
    rw [roundEven_intCast, ← hr] at this
    exact_mod_cast this
  · exact .inr heq.symm

theorem packs_roundWithAccuracy (s : Sign) {m : ℕ} {e : ℤ} {a : Accuracy} {x : ℚ}
    (h : Enough m e) (hx : 0 < x) (hd : Describes (.ofMantissaAndAccuracy m a) x) :
    Packs (roundWithAccuracy Format.binary64 s m e a) (sgn s * (x * 2 ^ e)) := by
  obtain ⟨hr, ht⟩ := roundedMantissa_shift h hx hd
  set q := x * 2 ^ e with hq
  have hqpos : 0 < q := mul_pos hx (two_zpow_pos e)
  unfold roundWithAccuracy
  generalize shiftToTargetExponent Format.binary64 m e a = p at hr ht
  obtain ⟨em, t⟩ := p
  simp only [] at hr ht ⊢
  subst ht
  generalize em.roundedMantissa = r at hr
  have hnear : nearest q = r * 2 ^ grid q := by
    rw [nearest, ← hr]
    norm_cast
  have hr53 := digits_le hqpos hr
  obtain ⟨hlt, heq⟩ := shift_rounded hr53 (neg_1074_le_grid q)
  generalize shiftToTargetExponent Format.binary64 r (grid q) .exact = p at hlt heq
  obtain ⟨em', t'⟩ := p
  simp only [] at hlt heq ⊢
  rcases lt_or_eq_of_le hr53 with hc | hc
  · obtain ⟨hm', rfl⟩ := hlt hc
    split_ifs with h0
    · have hzero : nearest (sgn s * q) = 0 := by
        rw [nearest_sgn_mul, hnear, ← hm', h0]
        simp
      have hz := packs_zero s
      exact ⟨hz.isNaN, by rw [hz.line, hzero, nearest_zero]⟩
    · have hfits : Fits em'.mantissa (grid q) := by
        rw [hm'] at h0 ⊢
        exact ⟨Nat.pos_of_ne_zero h0, hc, neg_1074_le_grid q, le_digits hqpos hr⟩
      obtain ⟨h1, h2⟩ := lineOf_pack s hfits
      exact ⟨h1, by rw [h2, nearest_sgn_mul, hnear, hm']⟩
  · obtain ⟨hm', rfl⟩ := heq hc
    have hfits : Fits em'.mantissa (grid q + 1) := by
      rw [hm']
      have := neg_1074_le_grid q
      exact ⟨by norm_num, by norm_num, by omega, .inl le_rfl⟩
    have h0 : em'.mantissa ≠ 0 := hfits.pos.ne'
    obtain ⟨h1, h2⟩ := lineOf_pack s hfits
    rw [dif_neg h0]
    refine ⟨h1, ?_⟩
    rw [h2, nearest_sgn_mul, hnear, hm', hc, zpow_add₀ two_ne_zero]
    congr 2
    push_cast
    ring

end Round

end ClockSynth.Number
