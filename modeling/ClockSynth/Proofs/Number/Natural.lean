import ClockSynth.Number.Exact
import ClockSynth.Proofs.Number.Arithmetic

/-!
# Natural numbers as doubles

A natural number becomes the double nearest to it, so the order is kept (`toFloat_le`), and it is
itself up to `2 ^ 53` (`value_toFloat`). Back from doubles, `toNat?` reads the value
(`toNat?_eq_some_iff`) and `trunc` cuts it (`value_trunc`). As long as results stay up to `2 ^ 53`,
doubles that are natural numbers are added, multiplied and evenly divided as these (`toNat?_add`,
`toNat?_mul`, `toNat?_div`).
-/

namespace ClockSynth.Number

open Float.Model Float.Model.UnpackedFloat

section OfNat

theorem packs_natCast (n : ℕ) (s : Sign) : Packs (UnpackedFloat.normalize Format.binary64 n 0 s) n := by
  have h := packs_normalize n 0 s
  rwa [zpow_zero, mul_one, Int.cast_natCast] at h

theorem roundsTo_toUInt64 (n : UInt64) : RoundsTo n.toNat n.toFloat :=
  (packs_natCast n.toNat .positive).roundsTo

theorem natCast_lt_overflow {n : ℕ} (h : n ≤ 2 ^ 53) : |(n : ℚ)| < overflow := by
  have h1 : (n : ℚ) ≤ 2 ^ (53 : ℤ) := by exact_mod_cast h
  rw [abs_of_nonneg (Nat.cast_nonneg n)]
  exact h1.trans_lt (zpow_lt_zpow_right₀ one_lt_two (by norm_num))

/-- The one that a small number is multiplied with when it is read. -/
theorem value_ofBits_one :
    (Float.ofBits 0x3FF0000000000000).isFinite = true
      ∧ value (Float.ofBits 0x3FF0000000000000) = 1 := by
  have h : (Float.ofBits 0x3FF0000000000000).toModel.unpack
      = .finite .positive (2 ^ 52) (-52) (by decide) := rfl
  obtain ⟨hf, hv⟩ := isFinite_of_unpack h
  refine ⟨hf, ?_⟩
  rw [hv, valueOf, sgn]
  norm_num

theorem roundsTo_toFloat (n : ℕ) : RoundsTo n n.toFloat := by
  show RoundsTo n (Float.ofScientific n false 0)
  unfold Float.ofScientific
  split
  · rename_i h
    have hn : n.toUInt64.toNat = n := by
      rw [Nat.toUInt64, UInt64.toNat_ofNat']
      omega
    have hr := roundsTo_toUInt64 n.toUInt64
    rw [hn] at hr
    obtain ⟨hf, hv⟩ := isFinite_of_isDouble hr (isDouble_natCast h.1.le) (natCast_lt_overflow h.1.le)
    obtain ⟨hf1, hv1⟩ := value_ofBits_one
    have hm := roundsTo_mul hf hf1
    rw [hv, hv1, mul_one] at hm
    exact hm
  · have hp := packs_ofScientific n 0
    rw [zpow_zero, mul_one] at hp
    exact hp.roundsTo

theorem isNaN_toFloat (n : ℕ) : n.toFloat.isNaN = false :=
  (roundsTo_toFloat n).isNaN

theorem toFloat_le {m n : ℕ} (h : m ≤ n) : m.toFloat ≤ n.toFloat :=
  (roundsTo_toFloat m).le (roundsTo_toFloat n) (by exact_mod_cast h)

theorem value_toFloat {n : ℕ} (h : n ≤ 2 ^ 53) :
    n.toFloat.isFinite = true ∧ value n.toFloat = n :=
  isFinite_of_isDouble (roundsTo_toFloat n) (isDouble_natCast h) (natCast_lt_overflow h)

theorem value_one : (1 : Float).isFinite = true ∧ value 1 = 1 := by
  have h := @value_toFloat 1 (by norm_num)
  rwa [Nat.cast_one] at h

theorem intCast_lt_overflow {n : ℤ} (h : |n| ≤ 2 ^ 53) : |(n : ℚ)| < overflow := by
  have h1 : ((|n| : ℤ) : ℚ) ≤ 2 ^ (53 : ℤ) := by exact_mod_cast h
  rw [← Int.cast_abs]
  exact h1.trans_lt (zpow_lt_zpow_right₀ one_lt_two (by norm_num))

/-- Counting on is exact up to `2 ^ 53`. -/
theorem value_add_one {n : ℤ} {x : Float} (hx : x.isFinite = true) (hv : value x = n)
    (h : |n + 1| ≤ 2 ^ 53) : (x + 1).isFinite = true ∧ value (x + 1) = (n + 1 : ℤ) := by
  have hr := roundsTo_add hx value_one.1
  rw [hv, value_one.2, ← Int.cast_one, ← Int.cast_add] at hr
  exact isFinite_of_isDouble hr (isDouble_intCast h) (intCast_lt_overflow h)

end OfNat

section ToNat

variable {x : Float} {m n : ℕ}

theorem whole_of_nonneg (m : ℕ) {e : ℤ} (h : 0 ≤ e) : ((whole m e : ℕ) : ℚ) = m * 2 ^ e := by
  obtain ⟨k, rfl⟩ := Int.eq_ofNat_of_zero_le h
  rw [whole, if_pos h, Nat.shiftLeft_eq, Int.toNat_natCast, zpow_natCast]
  push_cast
  rfl

theorem whole_eq_floor (m : ℕ) (e : ℤ) : ((whole m e : ℕ) : ℤ) = ⌊(m : ℚ) * 2 ^ e⌋ := by
  rcases le_or_gt 0 e with h | h
  · rw [← whole_of_nonneg m h, Int.floor_natCast]
  · obtain ⟨k, hk⟩ := Int.eq_ofNat_of_zero_le (by omega : 0 ≤ -e)
    have he : e = -(k : ℤ) := by omega
    have hd := floor_natCast_div m (2 ^ k)
    rw [whole, if_neg (by omega), hk, Int.toNat_natCast, Nat.shiftRight_eq_div_pow, ← hd, he,
      zpow_neg, zpow_natCast]
    push_cast
    rfl

theorem isWhole_iff (m : ℕ) (e : ℤ) : isWhole m e = true ↔ ((whole m e : ℕ) : ℚ) = m * 2 ^ e := by
  rcases le_or_gt 0 e with h | h
  · simp [isWhole, h, whole_of_nonneg m h]
  · obtain ⟨k, hk⟩ := Int.eq_ofNat_of_zero_le (by omega : 0 ≤ -e)
    have he : e = -(k : ℤ) := by omega
    have hpow : ((2 : ℚ) ^ k) ≠ 0 := by positivity
    rw [isWhole, whole, if_neg (by omega), hk, Int.toNat_natCast, he, zpow_neg, zpow_natCast,
      eq_mul_inv_iff_mul_eq₀ hpow, Nat.shiftLeft_eq, Bool.or_eq_true, decide_eq_true_iff,
      or_iff_right (by omega), beq_iff_eq]
    exact_mod_cast Iff.rfl

/-- `isInteger` reads the value. -/
theorem isInteger_iff (hx : x.isFinite = true) : isInteger x = true ↔ ∃ n : ℤ, value x = n := by
  unfold isInteger
  rcases finite_cases hx with ⟨s, hu⟩ | ⟨s, m, e, hm, hu, -⟩
  · rw [hu, (isFinite_of_unpack_zero hu).2]
    exact iff_of_true rfl ⟨0, Int.cast_zero.symm⟩
  · rw [hu]
    simp only [isWhole_iff]
    constructor
    · intro hwhole
      refine ⟨s.apply (whole m e), ?_⟩
      rw [(isFinite_of_unpack hu).2, valueOf, intCast_apply, Int.cast_natCast, hwhole]
    · rintro ⟨n, hn⟩
      have hsize := abs_value_of_unpack hu
      rw [hn, ← Int.cast_abs] at hsize
      have hfloor := whole_eq_floor m e
      rw [← hsize, Int.floor_intCast] at hfloor
      rw [← hsize]
      exact_mod_cast hfloor

theorem isFinite_of_toNat? (h : toNat? x = some n) : x.isFinite = true := by
  show UnpackedFloat.isFinite x.toModel.unpack = true
  unfold toNat? at h
  cases hu : x.toModel.unpack <;> rw [hu] at h <;> first | rfl | cases h

/-- `toNat?` reads the value. -/
theorem toNat?_eq_some_iff (hx : x.isFinite = true) : toNat? x = some n ↔ value x = n := by
  unfold toNat? value
  rcases finite_cases hx with ⟨s, hu⟩ | ⟨s, m, e, hm, hu, -⟩ <;> rw [hu]
  · rw [valueOf_zero]
    simp [eq_comm]
  · cases s
    · have hneg := @valueOf_neg m e hm
      have hn : (0 : ℚ) ≤ n := Nat.cast_nonneg n
      constructor <;> intro h
      · cases h
      · linarith
    · have hw := isWhole_iff m e
      have hfl := whole_eq_floor m e
      simp only [valueOf, sgn, one_mul]
      constructor
      · intro h
        split_ifs at h with hc
        · obtain rfl := Option.some.inj h
          exact (hw.1 hc).symm
      · intro h
        rw [h, Int.floor_natCast] at hfl
        have hwn : whole m e = n := by exact_mod_cast hfl
        rw [if_pos (hw.2 (by rw [hwn, h])), hwn]

theorem value_of_toNat? (h : toNat? x = some n) : x.isFinite = true ∧ value x = n :=
  have hx := isFinite_of_toNat? h
  ⟨hx, (toNat?_eq_some_iff hx).1 h⟩

/-- The double is a natural number; both zeros are. -/
def IsNatural (x : Float) : Prop :=
  x.isFinite = true ∧ ∃ n : ℕ, value x = n

theorem isNatural_iff : IsNatural x ↔ ∃ n, toNat? x = some n := by
  constructor
  · rintro ⟨hx, n, hn⟩
    exact ⟨n, (toNat?_eq_some_iff hx).2 hn⟩
  · rintro ⟨n, hn⟩
    obtain ⟨hx, hv⟩ := value_of_toNat? hn
    exact ⟨hx, n, hv⟩

theorem toNat?_of_roundsTo (h : RoundsTo n x) (hn : n ≤ 2 ^ 53) : toNat? x = some n := by
  obtain ⟨hf, hv⟩ := isFinite_of_isDouble h (isDouble_natCast hn) (natCast_lt_overflow hn)
  exact (toNat?_eq_some_iff hf).2 hv

theorem toNat?_toFloat (h : n ≤ 2 ^ 53) : toNat? n.toFloat = some n :=
  toNat?_of_roundsTo (roundsTo_toFloat n) h

theorem toNat?_one : toNat? 1 = some 1 :=
  toNat?_toFloat (by norm_num)

theorem toFloat_beq_iff (hm : m ≤ 2 ^ 53) (hn : n ≤ 2 ^ 53) :
    (m.toFloat == n.toFloat) = true ↔ m = n := by
  obtain ⟨hmf, hmv⟩ := value_toFloat hm
  obtain ⟨hnf, hnv⟩ := value_toFloat hn
  rw [beq_iff_value hmf hnf, hmv, hnv, Nat.cast_inj]

section Read

variable {y : Float} (hx : toNat? x = some m) (hy : toNat? y = some n)

include hx hy

/-- Doubles that are natural numbers are ordered as these. -/
theorem le_iff_of_toNat? : x ≤ y ↔ m ≤ n := by
  obtain ⟨hxf, hxv⟩ := value_of_toNat? hx
  obtain ⟨hyf, hyv⟩ := value_of_toNat? hy
  rw [le_iff_value hxf hyf, hxv, hyv, Nat.cast_le]

theorem beq_iff_of_toNat? : (x == y) = true ↔ m = n := by
  obtain ⟨hxf, hxv⟩ := value_of_toNat? hx
  obtain ⟨hyf, hyv⟩ := value_of_toNat? hy
  rw [beq_iff_value hxf hyf, hxv, hyv, Nat.cast_inj]

/-- Sums, products and even quotients of natural numbers are exact up to `2 ^ 53`. -/
theorem toNat?_add (h : m + n ≤ 2 ^ 53) : toNat? (x + y) = some (m + n) := by
  obtain ⟨hxf, hxv⟩ := value_of_toNat? hx
  obtain ⟨hyf, hyv⟩ := value_of_toNat? hy
  refine toNat?_of_roundsTo ?_ h
  rw [Nat.cast_add, ← hxv, ← hyv]
  exact roundsTo_add hxf hyf

theorem toNat?_mul (h : m * n ≤ 2 ^ 53) : toNat? (x * y) = some (m * n) := by
  obtain ⟨hxf, hxv⟩ := value_of_toNat? hx
  obtain ⟨hyf, hyv⟩ := value_of_toNat? hy
  refine toNat?_of_roundsTo ?_ h
  rw [Nat.cast_mul, ← hxv, ← hyv]
  exact roundsTo_mul hxf hyf

theorem toNat?_div (hn : 0 < n) (hdvd : n ∣ m) (h : m / n ≤ 2 ^ 53) :
    toNat? (x / y) = some (m / n) := by
  obtain ⟨hxf, hxv⟩ := value_of_toNat? hx
  obtain ⟨hyf, hyv⟩ := value_of_toNat? hy
  have hn0 : (n : ℚ) ≠ 0 := by exact_mod_cast hn.ne'
  refine toNat?_of_roundsTo ?_ h
  rw [Nat.cast_div hdvd hn0, ← hxv, ← hyv]
  exact roundsTo_div hxf hyf (hyv ▸ hn0)

end Read

/-- Only the zero has two doubles. -/
theorem eq_of_toNat? {y : Float} (hx : toNat? x = some n) (hy : toNat? y = some n) (hn : 0 < n) :
    x = y := by
  obtain ⟨hxf, hxv⟩ := value_of_toNat? hx
  obtain ⟨hyf, hyv⟩ := value_of_toNat? hy
  exact eq_of_value_eq hxf hyf (hxv.trans hyv.symm) (by rw [hxv]; exact_mod_cast hn.ne')

theorem toNat?_of_beq {y : Float} (h : (x == y) = true) (hx : toNat? x = some n) :
    toNat? y = some n := by
  obtain ⟨hxf, hxv⟩ := value_of_toNat? hx
  obtain ⟨hyf, hv⟩ := isFinite_of_beq (double_beq_symm h) hxf
  rw [toNat?_eq_some_iff hyf, hv, hxv]

/-- Rounding a natural number gives a natural number. -/
theorem exists_nearest_eq_natCast (n : ℕ) : ∃ m : ℕ, nearest n = m := by
  rcases le_or_gt n (2 ^ 53) with h | h
  · exact ⟨n, nearest_eq_self (isDouble_natCast h)⟩
  · -- Above `2 ^ 53` the spacing is a whole number.
    have hlog : 53 ≤ Int.log 2 |(n : ℚ)| := by
      rw [abs_of_nonneg (Nat.cast_nonneg n), ← Int.zpow_le_iff_le_log Nat.one_lt_two (by
        exact_mod_cast (Nat.zero_lt_of_lt h))]
      exact_mod_cast h.le
    obtain ⟨k, hk⟩ := Int.eq_ofNat_of_zero_le (a := grid n) (by
      have := le_max_left (Int.log 2 |(n : ℚ)| - 52) (-1074)
      unfold grid
      omega)
    have hint : nearest n = ((roundEven (n / 2 ^ grid n) * 2 ^ k : ℤ) : ℚ) := by
      unfold nearest
      rw [hk]
      push_cast
      rw [zpow_natCast]
    have hnn := nearest_nonneg (q := n) (Nat.cast_nonneg n)
    rw [hint] at hnn ⊢
    have h0 : 0 ≤ roundEven (n / 2 ^ grid n) * 2 ^ k := by exact_mod_cast hnn
    refine ⟨(roundEven (n / 2 ^ grid n) * 2 ^ k).toNat, ?_⟩
    exact_mod_cast (Int.toNat_of_nonneg h0).symm

/-- Where `j` is rounded to below a double and `j + 1` is not, the latter is rounded to the ceiling
of the double. -/
theorem nearest_succ_eq_ceil {v : ℚ} {j : ℕ} (hv : IsDouble v) (hlt : nearest j < v)
    (hle : v ≤ nearest (j + 1 : ℕ)) : nearest (j + 1 : ℕ) = ⌈v⌉ := by
  refine le_antisymm ?_ ?_
  · -- `j` itself is rounded to below `v`, so it cannot reach the ceiling.
    have hj : (j : ℤ) < ⌈v⌉ := by
      by_contra hge
      have hmono := nearest_mono (p := v) (q := j) (Int.ceil_le.1 (not_lt.1 hge))
      rw [nearest_eq_self hv] at hmono
      exact hmono.not_gt hlt
    have hj1 : ((j + 1 : ℕ) : ℚ) ≤ ⌈v⌉ := by
      exact_mod_cast hj
    exact (nearest_mono hj1).trans (nearest_eq_self (isDouble_ceil hv)).le
  · obtain ⟨m, hm⟩ := exists_nearest_eq_natCast (j + 1)
    rw [hm] at hle ⊢
    exact_mod_cast Int.ceil_le.2 (by exact_mod_cast hle)

/-- The first natural number that is no less than `x`, as a double, is the ceiling of `x`, or 0 where
that is negative. -/
theorem value_toFloat_of_first {x : Float} {k : ℕ} (hk : k.toFloat.isFinite = true)
    (hle : x ≤ k.toFloat) (hlt : ∀ i < k, ¬ x ≤ i.toFloat) :
    value k.toFloat = ((max 0 ⌈value x⌉ : ℤ) : ℚ) := by
  cases k with
  | zero =>
    have h0 : value (Nat.toFloat 0) = 0 := by
      simpa using (value_toFloat (Nat.zero_le (2 ^ 53))).2
    have hx : value x ≤ 0 := by
      cases hf : x.isFinite with
      | true => rwa [le_iff_value hf hk, h0] at hle
      | false => exact (value_of_not_finite hf).le
    rw [h0, max_eq_left (Int.ceil_le.2 (by exact_mod_cast hx)), Int.cast_zero]
  | succ j =>
    have hxn : x.isNaN = false := (le_iff.1 hle).1
    have hjx := (not_le_iff_lt hxn (isNaN_toFloat j)).1 (hlt j j.lt_succ_self)
    have hzero : Nat.toFloat 0 ≤ j.toFloat := toFloat_le j.zero_le
    have hj : j.toFloat.isFinite = true :=
      isFinite_of_le_of_le (value_toFloat (Nat.zero_le (2 ^ 53))).1 hk hzero (toFloat_le j.le_succ)
    have hx : x.isFinite = true :=
      isFinite_of_le_of_le hj hk (double_le_of_lt hjx) hle
    rw [lt_iff_value hj hx, (roundsTo_toFloat j).value_eq hj] at hjx
    rw [le_iff_value hx hk, (roundsTo_toFloat (j + 1)).value_eq hk] at hle
    have hpos : 0 < value x := (nearest_nonneg j.cast_nonneg).trans_lt hjx
    rw [(roundsTo_toFloat (j + 1)).value_eq hk, max_eq_right (Int.ceil_nonneg hpos.le)]
    exact nearest_succ_eq_ceil (isDouble_value x) hjx hle

/-- A natural number that is below another one as a double is there as a natural number below it,
also where doubles have gaps. -/
theorem exists_toNat?_of_toFloat_lt {n l : ℕ} (h : n.toFloat < l.toFloat) :
    ∃ m < l, toNat? n.toFloat = some m := by
  obtain ⟨m, hm⟩ := exists_nearest_eq_natCast n
  have hn := roundsTo_toFloat n
  have hlt := (lt_iff.1 h).2.2
  rw [hn.line, (roundsTo_toFloat l).line, hm] at hlt
  have hover : (m : ℚ) < overflow := by
    by_contra hc
    rw [clamp, if_pos (not_lt.1 hc)] at hlt
    exact absurd le_top hlt.not_ge
  obtain ⟨hf, hv⟩ := hn.finite (by rwa [hm, abs_of_nonneg (Nat.cast_nonneg m)])
  rw [hm] at hv
  refine ⟨m, ?_, (toNat?_eq_some_iff hf).2 hv⟩
  by_contra hc
  have hle : nearest l ≤ m :=
    nearest_le_of_isDouble (hv ▸ isDouble_value _) (by exact_mod_cast not_lt.1 hc)
  exact hlt.not_ge (clamp_mono hle)

/-- Cutting gives the floor of what is not negative. -/
theorem value_trunc (hx : x.isFinite = true) (h0 : 0 ≤ value x) :
    (trunc x).isFinite = true ∧ value (trunc x) = ⌊value x⌋ := by
  rcases finite_cases hx with ⟨s, hu⟩ | ⟨s, m, e, hm, hu, hc⟩
  · have ht : trunc x = x := by
      unfold trunc
      rw [hu]
    rw [ht, (isFinite_of_unpack_zero hu).2, Int.floor_zero, Int.cast_zero]
    exact ⟨hx, rfl⟩
  · cases s with
    | negative =>
      have := @valueOf_neg m e hm
      rw [value, hu] at h0
      linarith
    | positive =>
      have hv : value x = m * 2 ^ e := by rw [value, hu, valueOf, sgn, one_mul]
      rw [hv, ← whole_eq_floor, Int.cast_natCast]
      unfold trunc
      rw [hu]
      rcases le_or_gt 0 e with he | he
      · rw [whole_of_nonneg m he, ← hv]
        simp only [he, if_true, hx, and_self]
      · have hw : whole m e ≤ 2 ^ 53 := by
          rw [whole, if_neg (by omega)]
          exact (Nat.shiftRight_le _ _).trans hc.lt.le
        have hn : (whole m e).toUInt64.toNat = whole m e := by
          rw [Nat.toUInt64, UInt64.toNat_ofNat']
          omega
        simp only [if_neg he.not_ge]
        have hr := roundsTo_toUInt64 (whole m e).toUInt64
        rw [hn] at hr
        exact isFinite_of_isDouble hr (isDouble_natCast hw) (natCast_lt_overflow hw)

theorem toNat?_trunc (hx : x.isFinite = true) (hle : (n : ℚ) ≤ value x) (hlt : value x < n + 1) :
    toNat? (trunc x) = some n := by
  obtain ⟨hf, hv⟩ := value_trunc hx (n.cast_nonneg.trans hle)
  have hfloor : ⌊value x⌋ = n := Int.floor_eq_iff.2 ⟨by exact_mod_cast hle, by exact_mod_cast hlt⟩
  rw [toNat?_eq_some_iff hf, hv, hfloor, Int.cast_natCast]

end ToNat

end ClockSynth.Number
