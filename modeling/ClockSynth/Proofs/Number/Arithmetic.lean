import ClockSynth.Proofs.Number.Rounding

/-!
# Arithmetic rounds to nearest

Each operation on finite doubles gives the double nearest to the exact result, or an infinity where
that is too large. A natural number becomes the double nearest to it, itself up to `2 ^ 53`. Doubles
that compare as equal are the same but for the sign of a zero, and a difference to them does not show
that sign in its magnitude (`abs_sub_le_of_beq`).
-/

namespace ClockSynth.Number

open Float.Model Float.Model.UnpackedFloat

section Unpacked

theorem Canonical.fits {m : ℕ} {e : ℤ} (h : Canonical m e) (hm : 0 < m) : Fits m e :=
  ⟨hm, h.lt, h.least, h.full⟩

theorem shiftLeft_mul_zpow (m k : ℕ) (e : ℤ) :
    ((m <<< k : ℕ) : ℚ) * 2 ^ (e - k) = m * 2 ^ e := by
  rw [Nat.shiftLeft_eq, Nat.cast_mul, Nat.cast_pow, mul_assoc, zpow_sub₀ two_ne_zero, zpow_natCast]
  have : (2 : ℚ) ^ k ≠ 0 := by positivity
  field_simp
  norm_num

theorem le_shiftLeft {m k n : ℕ} (hm : 0 < m) (h : n ≤ m.log2 + k) : 2 ^ n ≤ m <<< k := by
  rw [Nat.shiftLeft_eq]
  calc 2 ^ n ≤ 2 ^ (m.log2 + k) := Nat.pow_le_pow_right two_pos h
    _ = 2 ^ m.log2 * 2 ^ k := Nat.pow_add _ _ _
    _ ≤ m * 2 ^ k := Nat.mul_le_mul_right _ (Nat.log2_self_le hm.ne')

theorem packs_round (s : Sign) {m : ℕ} (e : ℤ) (hm : 0 < m) :
    Packs (UnpackedFloat.round Format.binary64 s m e) (sgn s * (m * 2 ^ e)) := by
  unfold UnpackedFloat.round decreaseExponent
  simp only [target_eq]
  set k := (e - max ((m.log2 : ℤ) + e - 52) (-1074)).toNat with hk
  have hen : Enough (m <<< k) (e - k) := by
    by_cases hlog : (m.log2 : ℤ) + e - 52 ≤ -1074
    · exact .inr (by omega)
    · exact .inl (le_shiftLeft hm (by omega))
  have hpos : (0 : ℚ) < (m <<< k : ℕ) := by
    exact_mod_cast (Nat.two_pow_pos _).trans_le (le_shiftLeft (n := 0) hm (Nat.zero_le _))
  have h := packs_roundWithAccuracy s hen hpos (describes_natCast _)
  rwa [shiftLeft_mul_zpow] at h

theorem packs_normalize (n : ℤ) (e : ℤ) (s : Sign) :
    Packs (UnpackedFloat.normalize Format.binary64 n e s) (n * 2 ^ e) := by
  unfold UnpackedFloat.normalize
  rcases lt_trichotomy n 0 with h | rfl | h
  · rw [compare_lt_iff_lt.2 h]
    have hp := packs_round .negative (m := (-n).toNat) e (by omega)
    have hn : (((-n).toNat : ℕ) : ℚ) = -n := by
      exact_mod_cast Int.toNat_of_nonneg (by omega : 0 ≤ -n)
    rw [hn, sgn] at hp
    convert hp using 1
    ring
  · rw [compare_eq_iff_eq.2 rfl, Int.cast_zero, zero_mul]
    exact packs_zero s
  · rw [compare_gt_iff_gt.2 h]
    have hp := packs_round .positive (m := n.toNat) e (by omega)
    have hn : ((n.toNat : ℕ) : ℚ) = n := by exact_mod_cast Int.toNat_of_nonneg h.le
    rwa [hn, sgn, one_mul] at hp

theorem sgn_mul (s t : Sign) : sgn (s * t) = sgn s * sgn t := by
  cases s <;> cases t <;> norm_num [sgn]

theorem sgn_div (s t : Sign) : sgn (s / t) = sgn s / sgn t := by
  cases s <;> cases t <;> norm_num [sgn] <;> rfl

theorem sgn_neg (s : Sign) : sgn (-s) = -sgn s := by
  cases s <;> norm_num [sgn]

theorem packs_mul {s t : Sign} {m n : ℕ} {e f : ℤ} (hm : 0 < m) (hn : 0 < n)
    (h : Enough (m * n) (e + f)) :
    Packs (UnpackedFloat.mul Format.binary64 (.finite s m e hm) (.finite t n f hn))
      (valueOf (.finite s m e hm) * valueOf (.finite t n f hn)) := by
  have hpos : (0 : ℚ) < (m * n : ℕ) := by exact_mod_cast Nat.mul_pos hm hn
  have hp := packs_roundWithAccuracy (s * t) h hpos (describes_natCast _)
  simp only [valueOf, UnpackedFloat.mul]
  convert hp using 1
  rw [sgn_mul, zpow_add₀ two_ne_zero, Nat.cast_mul]
  ring

theorem Canonical.enough_mul {m n : ℕ} {e f : ℤ} (h : Canonical m e) (h' : Canonical n f)
    (hm : 0 < m) (hn : 0 < n) : Enough (m * n) (e + f) := by
  rcases h.full with hc | hc
  · exact .inl (hc.trans (Nat.le_mul_of_pos_right _ hn))
  · rcases h'.full with hc' | hc'
    · exact .inl (hc'.trans (Nat.le_mul_of_pos_left _ hm))
    · exact .inr (by omega)

theorem packs_div {s t : Sign} {m n : ℕ} {e f : ℤ} (hm : 0 < m) (hn : 0 < n) :
    Packs (UnpackedFloat.div Format.binary64 (.finite s m e hm) (.finite t n f hn))
      (valueOf (.finite s m e hm) / valueOf (.finite t n f hn)) := by
  have htot : Format.binary64.targetExponent (totalExponent m e - totalExponent n f)
      = max ((m.log2 : ℤ) + e - (n.log2 + f) - 53) (-1074) := by
    have h : Format.binary64.minExponent = -1074 := by decide
    have h' : (Format.binary64.mantissaBits : ℤ) = 53 := by decide
    rw [Format.targetExponent, totalExponent, totalExponent, h, h']
    omega
  have hn' : (0 : ℚ) < n := by exact_mod_cast hn
  simp only [valueOf, UnpackedFloat.div, divCore, htot]
  set g := min (e - f) (max ((m.log2 : ℤ) + e - (n.log2 + f) - 53) (-1074)) with hg
  set k := (e - f - g).toNat with hk
  have hgk : g = e - f - k := by omega
  have hge : g ≤ -1074 ∨ 2 ^ 52 * n ≤ m <<< k := by
    by_cases hc : g ≤ -1074
    · exact .inl hc
    · refine .inr ?_
      calc 2 ^ 52 * n ≤ 2 ^ 52 * 2 ^ (n.log2 + 1) :=
            Nat.mul_le_mul_left _ (Nat.lt_log2_self (n := n)).le
        _ = 2 ^ (52 + (n.log2 + 1)) := (Nat.pow_add _ _ _).symm
        _ ≤ m <<< k := le_shiftLeft hm (by omega)
  have hen : Enough (m <<< k / n) g :=
    hge.symm.imp (fun h => (Nat.le_div_iff_mul_le hn).2 h) id
  have hpos : (0 : ℚ) < ((m <<< k : ℕ) : ℚ) / n := by
    refine div_pos ?_ hn'
    exact_mod_cast (Nat.two_pow_pos _).trans_le (le_shiftLeft (n := 0) hm (Nat.zero_le _))
  have hp := packs_roundWithAccuracy (s / t) hen hpos (describes_div _ hn)
  convert hp using 1
  have hq : ((m <<< k : ℕ) : ℚ) / n * 2 ^ g = m * 2 ^ (e - f) / n := by
    rw [div_mul_eq_mul_div, hgk, shiftLeft_mul_zpow]
  rw [sgn_div, hq, zpow_sub₀ two_ne_zero]
  have h1 := (two_zpow_pos f).ne'
  have h2 : sgn t ≠ 0 := by cases t <;> norm_num [sgn]
  field_simp

theorem overflow_le_mul_ten_zpow {m : ℕ} {e : ℤ} (hm : m ≠ 0) (he : 1024 ≤ e) :
    overflow ≤ (m : ℚ) * 10 ^ e := by
  have hone : (1 : ℚ) ≤ m := by exact_mod_cast Nat.pos_of_ne_zero hm
  obtain ⟨k, rfl⟩ := Int.eq_ofNat_of_zero_le (by omega : 0 ≤ e)
  calc overflow ≤ 2 ^ (k : ℤ) := zpow_le_zpow_right₀ one_le_two he
    _ ≤ 10 ^ (k : ℤ) := by
      rw [zpow_natCast, zpow_natCast]
      exact pow_le_pow_left₀ two_pos.le (by norm_num) k
    _ ≤ m * 10 ^ (k : ℤ) := le_mul_of_one_le_left (by positivity) hone

theorem mul_ten_zpow_lt {m : ℕ} {e : ℤ} (he : e ≤ 0) (h : (m.log2 : ℤ) + 1 + e ≤ -1075) :
    (m : ℚ) * 10 ^ e < 2 ^ (-1075 : ℤ) := by
  have hlog : (m : ℚ) < 2 ^ ((m.log2 : ℤ) + 1) := by
    exact_mod_cast Nat.lt_log2_self (n := m)
  obtain ⟨k, hk⟩ := Int.eq_ofNat_of_zero_le (by omega : 0 ≤ -e)
  have hten : (10 : ℚ) ^ e ≤ 2 ^ e := by
    rw [show e = -(k : ℤ) by omega, zpow_neg, zpow_neg, zpow_natCast, zpow_natCast]
    exact inv_anti₀ (by positivity) (pow_le_pow_left₀ two_pos.le (by norm_num) k)
  calc (m : ℚ) * 10 ^ e ≤ m * 2 ^ e := mul_le_mul_of_nonneg_left hten (Nat.cast_nonneg m)
    _ < 2 ^ ((m.log2 : ℤ) + 1) * 2 ^ e := mul_lt_mul_of_pos_right hlog (two_zpow_pos e)
    _ = 2 ^ ((m.log2 : ℤ) + 1 + e) := (zpow_add₀ two_ne_zero _ _).symm
    _ ≤ 2 ^ (-1075 : ℤ) := zpow_le_zpow_right₀ one_le_two h

/-- A coefficient with a power of ten is rounded to nearest. -/
theorem packs_ofScientific (m : ℕ) (e : ℤ) :
    Packs (UnpackedFloat.ofScientific Format.binary64 m e) (m * 10 ^ e) := by
  have hbits : (2 : ℤ) ^ Format.binary64.exponentBits = 2048 := by decide
  unfold UnpackedFloat.ofScientific
  split_ifs with hm hhigh hlow hnn
  · rw [hm, Nat.cast_zero, zero_mul]
    exact packs_zero _
  · have hbig : overflow ≤ (m : ℚ) * 10 ^ e := overflow_le_mul_ten_zpow hm (by omega)
    constructor
    · rw [unpack_pack_infinity]
      rfl
    · rw [unpack_pack_infinity, clamp_nearest_of_le hbig]
      rfl
  · have hsmall : (m : ℚ) * 10 ^ e < 2 ^ (-1075 : ℤ) := mul_ten_zpow_lt (by omega) (by omega)
    have hz := packs_zero .positive
    have hnear : nearest ((m : ℚ) * 10 ^ e) = nearest 0 := by
      rw [nearest_zero, nearest_eq_zero (by positivity) hsmall]
    exact ⟨hz.isNaN, hz.line.trans (by rw [hnear])⟩
  · have hpos := (Nat.two_pow_pos _).trans_le
      (le_shiftLeft (k := Format.binary64.mantissaBits) (Nat.pos_of_ne_zero hm) (Nat.zero_le _))
    have hp := @packs_mul .positive .positive _ (10 ^ e.toNat)
      (-(Format.binary64.mantissaBits : ℤ)) 0 hpos (by positivity) (.inl ?_)
    · have hv := shiftLeft_mul_zpow m Format.binary64.mantissaBits 0
      rw [zero_sub, zpow_zero, mul_one] at hv
      have hten : ((10 ^ e.toNat : ℕ) : ℚ) = 10 ^ e := by
        rw [Nat.cast_pow, ← zpow_natCast, Int.toNat_of_nonneg hnn]
        rfl
      simp only [valueOf, sgn, one_mul, zpow_zero, mul_one] at hp
      rwa [hv, hten] at hp
    · calc 2 ^ 52 ≤ m <<< Format.binary64.mantissaBits :=
            le_shiftLeft (Nat.pos_of_ne_zero hm) (by show 52 ≤ m.log2 + 53; omega)
        _ ≤ m <<< Format.binary64.mantissaBits * 10 ^ e.toNat :=
            Nat.le_mul_of_pos_right _ (by positivity)
  · have hp := @packs_div .positive .positive m (10 ^ (-e).toNat) 0 0 (Nat.pos_of_ne_zero hm)
      (by positivity)
    have hten : ((10 ^ (-e).toNat : ℕ) : ℚ) = (10 ^ e)⁻¹ := by
      rw [Nat.cast_pow, ← zpow_natCast, Int.toNat_of_nonneg (by omega), zpow_neg]
      rfl
    simp only [valueOf, sgn, one_mul, zpow_zero, mul_one] at hp
    rwa [hten, div_inv_eq_mul] at hp

theorem valueOf_zero (s : Sign) : valueOf (.zero s) = 0 :=
  rfl

theorem Canonical.abs_valueOf_lt {m : ℕ} {e : ℤ} (s : Sign) (hm : 0 < m) (h : Canonical m e) :
    |valueOf (.finite s m e hm)| < overflow := by
  have he := two_zpow_pos e
  have hlt : (m : ℚ) < 2 ^ (53 : ℤ) := by exact_mod_cast h.lt
  have hle := h.greatest
  rw [valueOf, abs_sgn_mul, abs_of_nonneg (by positivity)]
  calc (m : ℚ) * 2 ^ e < 2 ^ (53 : ℤ) * 2 ^ e := mul_lt_mul_of_pos_right hlt he
    _ = 2 ^ (53 + e) := (zpow_add₀ two_ne_zero _ _).symm
    _ ≤ overflow := zpow_le_zpow_right₀ one_le_two (by omega)

theorem Canonical.packs {m : ℕ} {e : ℤ} (s : Sign) (hm : 0 < m) (h : Canonical m e) :
    Packs (.finite s m e hm) (valueOf (.finite s m e hm)) := by
  obtain ⟨h1, h2⟩ := lineOf_pack s (h.fits hm)
  exact ⟨h1, by rw [nearest_eq_self (h.isDouble s hm), h2, valueOf]⟩

theorem packs_add {s t : Sign} {m n : ℕ} {e f : ℤ} (hm : 0 < m) (hn : 0 < n) :
    Packs (UnpackedFloat.add Format.binary64 (.finite s m e hm) (.finite t n f hn))
      (valueOf (.finite s m e hm) + valueOf (.finite t n f hn)) := by
  obtain ⟨j, hj⟩ := Int.le.dest (min_le_left e f)
  obtain ⟨k, hk⟩ := Int.le.dest (min_le_right e f)
  have hj' : (e - min e f).toNat = j := by omega
  have hk' : (f - min e f).toNat = k := by omega
  simp only [UnpackedFloat.add, decreaseExponent, hj', hk']
  convert packs_normalize _ _ _ using 1
  have h1 := shiftLeft_mul_zpow m j e
  have h2 := shiftLeft_mul_zpow n k f
  rw [show e - (j : ℤ) = min e f by omega] at h1
  rw [show f - (k : ℤ) = min e f by omega] at h2
  rw [Int.cast_add, intCast_apply, intCast_apply, Int.cast_natCast, Int.cast_natCast, valueOf,
    valueOf, ← h1, ← h2]
  ring

theorem sub_finite {s t : Sign} {m n : ℕ} {e f : ℤ} (hm : 0 < m) (hn : 0 < n) :
    UnpackedFloat.sub Format.binary64 (.finite s m e hm) (.finite t n f hn)
      = UnpackedFloat.add Format.binary64 (.finite s m e hm) (.finite (-t) n f hn) := by
  have h (k : ℤ) : (-t).apply k = -t.apply k := by
    cases t
    · exact (neg_neg k).symm
    · rfl
  simp only [UnpackedFloat.sub, UnpackedFloat.add, h, ← sub_eq_add_neg]

end Unpacked

section Doubles

variable {x y : Float} {q : ℚ}

/-- The two shapes of a finite double. -/
theorem finite_cases (h : x.isFinite = true) :
    (∃ s, x.toModel.unpack = .zero s)
      ∨ (∃ s m e, ∃ hm : 0 < m, x.toModel.unpack = .finite s m e hm ∧ Canonical m e) := by
  change UnpackedFloat.isFinite x.toModel.unpack = true at h
  cases hu : x.toModel.unpack with
  | notANumber => rw [hu] at h; cases h
  | infinity s => rw [hu] at h; cases h
  | zero s => exact .inl ⟨s, rfl⟩
  | finite s m e hm => exact .inr ⟨s, m, e, hm, rfl, canonical_of_unpack hu⟩

theorem isFinite_of_unpack {s : Sign} {m : ℕ} {e : ℤ} {hm : 0 < m}
    (h : x.toModel.unpack = .finite s m e hm) :
    x.isFinite = true ∧ value x = valueOf (.finite s m e hm) := by
  show UnpackedFloat.isFinite x.toModel.unpack = true ∧ valueOf x.toModel.unpack = _
  rw [h]
  exact ⟨rfl, rfl⟩

theorem isFinite_of_unpack_zero {s : Sign} (h : x.toModel.unpack = .zero s) :
    x.isFinite = true ∧ value x = 0 := by
  show UnpackedFloat.isFinite x.toModel.unpack = true ∧ valueOf x.toModel.unpack = 0
  rw [h]
  exact ⟨rfl, rfl⟩

theorem abs_value_of_unpack {s : Sign} {m : ℕ} {e : ℤ} {hm : 0 < m}
    (h : x.toModel.unpack = .finite s m e hm) : |value x| = m * 2 ^ e := by
  rw [(isFinite_of_unpack h).2, valueOf, abs_sgn_mul, abs_of_pos (by positivity)]

theorem abs_value_lt (x : Float) : |value x| < overflow := by
  unfold value
  cases hu : x.toModel.unpack with
  | finite s m e hm => exact (canonical_of_unpack hu).abs_valueOf_lt s hm
  | _ => exact abs_zero.trans_lt overflow_pos

theorem roundsTo_mul (hx : x.isFinite = true) (hy : y.isFinite = true) :
    RoundsTo (value x * value y) (x * y) := by
  refine @Packs.roundsTo (UnpackedFloat.mul Format.binary64 x.toModel.unpack y.toModel.unpack) _ ?_
  unfold value
  rcases finite_cases hx with ⟨s, hu⟩ | ⟨s, m, e, hm, hu, hc⟩ <;>
    rcases finite_cases hy with ⟨t, hv⟩ | ⟨t, n, f, hn, hv, hd⟩ <;> rw [hu, hv]
  · rw [valueOf_zero, zero_mul]
    exact packs_zero _
  · rw [valueOf_zero, zero_mul]
    exact packs_zero _
  · rw [valueOf_zero, mul_zero]
    exact packs_zero _
  · exact packs_mul hm hn (hc.enough_mul hd hm hn)

theorem roundsTo_div (hx : x.isFinite = true) (hy : y.isFinite = true) (h0 : value y ≠ 0) :
    RoundsTo (value x / value y) (x / y) := by
  refine @Packs.roundsTo (UnpackedFloat.div Format.binary64 x.toModel.unpack y.toModel.unpack) _ ?_
  unfold value at h0 ⊢
  rcases finite_cases hx with ⟨s, hu⟩ | ⟨s, m, e, hm, hu, -⟩ <;>
    rcases finite_cases hy with ⟨t, hv⟩ | ⟨t, n, f, hn, hv, -⟩ <;> rw [hu, hv] <;> rw [hv] at h0
  · exact absurd rfl h0
  · rw [valueOf_zero, zero_div]
    exact packs_zero _
  · exact absurd rfl h0
  · exact packs_div hm hn

theorem roundsTo_add (hx : x.isFinite = true) (hy : y.isFinite = true) :
    RoundsTo (value x + value y) (x + y) := by
  refine @Packs.roundsTo (UnpackedFloat.add Format.binary64 x.toModel.unpack y.toModel.unpack) _ ?_
  unfold value
  rcases finite_cases hx with ⟨s, hu⟩ | ⟨s, m, e, hm, hu, hc⟩ <;>
    rcases finite_cases hy with ⟨t, hv⟩ | ⟨t, n, f, hn, hv, hd⟩ <;> rw [hu, hv]
  · rw [valueOf_zero, valueOf_zero, add_zero]
    cases s <;> cases t <;> exact packs_zero _
  · rw [valueOf_zero, zero_add]
    exact hd.packs t hn
  · rw [valueOf_zero, add_zero]
    exact hc.packs s hm
  · exact packs_add hm hn

theorem roundsTo_sub (hx : x.isFinite = true) (hy : y.isFinite = true) :
    RoundsTo (value x - value y) (x - y) := by
  refine @Packs.roundsTo (UnpackedFloat.sub Format.binary64 x.toModel.unpack y.toModel.unpack) _ ?_
  have hneg {t n f} (hn : 0 < n) : -valueOf (.finite t n f hn) = valueOf (.finite (-t) n f hn) := by
    rw [valueOf, valueOf, sgn_neg, neg_mul]
  unfold value
  rcases finite_cases hx with ⟨s, hu⟩ | ⟨s, m, e, hm, hu, hc⟩ <;>
    rcases finite_cases hy with ⟨t, hv⟩ | ⟨t, n, f, hn, hv, hd⟩ <;> rw [hu, hv]
  · rw [valueOf_zero, valueOf_zero, sub_zero]
    cases s <;> cases t <;> exact packs_zero _
  · rw [valueOf_zero, zero_sub, hneg]
    exact hd.packs (-t) hn
  · rw [valueOf_zero, sub_zero]
    exact hc.packs s hm
  · rw [sub_finite, sub_eq_add_neg, hneg]
    exact packs_add hm hn

theorem isFinite_of_isDouble (h : RoundsTo q x) (hq : IsDouble q) (hlt : |q| < overflow) :
    x.isFinite = true ∧ value x = q := by
  have := h.finite (by rwa [nearest_eq_self hq])
  rwa [nearest_eq_self hq] at this

theorem clamp_eq_coe {r : ℚ} (h : clamp q = ((r : ℚ) : WithTop ℚ)) : q = r := by
  unfold clamp at h
  split_ifs at h
  · cases h
  · cases h
  · exact WithTop.coe_injective (WithBot.coe_injective h)

theorem RoundsTo.value_eq (h : RoundsTo q x) (hx : x.isFinite = true) : value x = nearest q :=
  (clamp_eq_coe (h.line.symm.trans (line_of_isFinite hx))).symm

/-- A quotient is finite only if what is divided is. -/
theorem isFinite_of_div (h : (x / y).isFinite = true) (hy : y.isFinite = true) :
    x.isFinite = true := by
  change UnpackedFloat.isFinite
    (Float.Model.pack (UnpackedFloat.div _ x.toModel.unpack y.toModel.unpack)).unpack = true at h
  show UnpackedFloat.isFinite x.toModel.unpack = true
  cases hu : x.toModel.unpack with
  | zero s => rfl
  | finite s m e hm => rfl
  | notANumber =>
    have hdiv (v : UnpackedFloat) : UnpackedFloat.div Format.binary64 .notANumber v = .notANumber := by
      cases v <;> rfl
    rw [hu, hdiv] at h
    cases h
  | infinity s =>
    rw [hu] at h
    rcases finite_cases hy with ⟨t, hv⟩ | ⟨t, n, f, hn, hv, -⟩ <;>
      rw [hv, UnpackedFloat.div, unpack_pack_infinity] at h <;> cases h

/-- What is divided by one or more does not overflow. -/
theorem isFinite_div (hx : x.isFinite = true) (hy : y.isFinite = true) (h : 1 ≤ |value y|) :
    (x / y).isFinite = true := by
  have hsmaller : |value x / value y| ≤ |value x| := by
    rw [abs_div]
    exact div_le_self (abs_nonneg _) h
  have hle := abs_nearest_le (isDouble_value x).abs hsmaller
  exact ((roundsTo_div hx hy (abs_pos.1 (one_pos.trans_le h))).finite
    (hle.trans_lt (abs_value_lt x))).1

theorem value_abs (hx : x.isFinite = true) :
    x.abs.isFinite = true ∧ value x.abs = |value x| := by
  have hr : RoundsTo |value x| x.abs := by
    refine @Packs.roundsTo x.toModel.unpack.abs _ ?_
    unfold value
    rcases finite_cases hx with ⟨s, hu⟩ | ⟨s, m, e, hm, hu, hc⟩ <;> rw [hu]
    · rw [valueOf_zero, abs_zero]
      exact packs_zero _
    · have hp := hc.packs .positive hm
      rw [← abs_of_pos (valueOf_pos hm), valueOf, abs_sgn_mul, ← abs_sgn_mul s] at hp
      exact hp
  exact isFinite_of_isDouble hr (isDouble_value x).abs (by rw [abs_abs]; exact abs_value_lt x)

theorem value_neg (hx : x.isFinite = true) : (-x).isFinite = true ∧ value (-x) = -value x := by
  have hr : RoundsTo (-value x) (-x) := by
    refine @Packs.roundsTo x.toModel.unpack.neg _ ?_
    unfold value
    rcases finite_cases hx with ⟨s, hu⟩ | ⟨s, m, e, hm, hu, hc⟩ <;> rw [hu]
    · rw [valueOf_zero, neg_zero]
      exact packs_zero _
    · have hp := hc.packs (-s) hm
      rwa [valueOf, sgn_neg, neg_mul] at hp
  exact isFinite_of_isDouble hr (isDouble_value x).neg (by rw [abs_neg]; exact abs_value_lt x)

theorem eq_of_unpack_eq (h : x.toModel.unpack = y.toModel.unpack) : x = y := by
  have hmodel : x.toModel = y.toModel := by
    rw [← pack_unpack x.toModel, h, pack_unpack]
  exact congrArg Float.ofModel hmodel

/-- Finite doubles with one value are the same, unless they are the two zeros. -/
theorem eq_of_value_eq (hx : x.isFinite = true) (hy : y.isFinite = true) (h : value x = value y)
    (h0 : value x ≠ 0) : x = y := by
  rcases finite_cases hx with ⟨s, hu⟩ | ⟨s, m, e, hm, hu, hc⟩
  · exact absurd (isFinite_of_unpack_zero hu).2 h0
  rcases finite_cases hy with ⟨t, hv⟩ | ⟨t, n, f, hn, hv, hd⟩
  · exact absurd (h.trans (isFinite_of_unpack_zero hv).2) h0
  have hsize : (m : ℚ) * 2 ^ e = n * 2 ^ f := by
    rw [← abs_value_of_unpack hu, h, abs_value_of_unpack hv]
  obtain ⟨rfl, rfl⟩ := hc.eq_of_mul_zpow_eq hd hsize
  obtain rfl : s = t := by
    have hpos := @valueOf_pos m e hm
    have hneg := @valueOf_neg m e hm
    rw [(isFinite_of_unpack hu).2, (isFinite_of_unpack hv).2] at h
    cases s <;> cases t <;> first | rfl | linarith
  exact eq_of_unpack_eq (hu.trans hv.symm)

end Doubles

section Zeros

variable {x y z : Float}

/-- The two shapes of a double that is not finite. -/
theorem infinite_cases (h : x.isFinite = false) :
    x.toModel.unpack = .notANumber ∨ ∃ s, x.toModel.unpack = .infinity s := by
  change UnpackedFloat.isFinite x.toModel.unpack = false at h
  cases hu : x.toModel.unpack with
  | notANumber => exact .inl rfl
  | infinity s => exact .inr ⟨s, rfl⟩
  | zero s => rw [hu] at h; cases h
  | finite s m e hm => rw [hu] at h; cases h

theorem value_of_not_finite {x : Float} (h : x.isFinite = false) : value x = 0 := by
  unfold value
  rcases infinite_cases h with hu | ⟨s, hu⟩ <;> rw [hu] <;> rfl

theorem unpack_of_value_eq_zero (hx : x.isFinite = true) (h : value x = 0) :
    ∃ s, x.toModel.unpack = .zero s := by
  rcases finite_cases hx with hzero | ⟨s, m, e, hm, hu, -⟩
  · exact hzero
  · have hsize := abs_value_of_unpack hu
    rw [h, abs_zero] at hsize
    exact absurd hsize (by positivity)

/-- Doubles that compare as equal are the same, unless they are zeros. -/
theorem eq_or_zero_of_beq (h : (x == y) = true) :
    x = y ∨ (∃ s, x.toModel.unpack = .zero s) ∧ ∃ t, y.toModel.unpack = .zero t := by
  cases hx : x.isFinite with
  | true =>
    obtain ⟨hy, hv⟩ := isFinite_of_beq (double_beq_symm h) hx
    by_cases h0 : value x = 0
    · exact .inr ⟨unpack_of_value_eq_zero hx h0, unpack_of_value_eq_zero hy (hv.trans h0)⟩
    · exact .inl (eq_of_value_eq hx hy hv.symm h0)
  | false =>
    have hy : y.isFinite = false := Bool.eq_false_iff.2 fun hy =>
      Bool.false_ne_true (hx.symm.trans (isFinite_of_beq h hy).1)
    obtain ⟨hxn, hyn, hline⟩ := beq_iff.1 h
    refine .inl (eq_of_unpack_eq ?_)
    change UnpackedFloat.isNaN x.toModel.unpack = false at hxn
    change UnpackedFloat.isNaN y.toModel.unpack = false at hyn
    unfold line at hline
    rcases infinite_cases hx with hu | ⟨s, hu⟩ <;> rw [hu] at hxn hline ⊢
    · cases hxn
    rcases infinite_cases hy with hv | ⟨t, hv⟩ <;> rw [hv] at hyn hline ⊢
    · cases hyn
    · cases s <;> cases t <;> first | rfl | cases hline

/-- To take away a zero changes no value. -/
theorem value_sub_zero (hx : x.isFinite = true) {s : Sign} (hy : y.toModel.unpack = .zero s) :
    (x - y).isFinite = true ∧ value (x - y) = value x := by
  obtain ⟨hfinite, hzero⟩ := isFinite_of_unpack_zero hy
  have hr := roundsTo_sub hx hfinite
  rw [hzero, sub_zero] at hr
  exact isFinite_of_isDouble hr (isDouble_value x) (abs_value_lt x)

theorem sub_zero_of_not_finite (hx : x.isFinite = false) {s t : Sign}
    (hy : y.toModel.unpack = .zero s) (hz : z.toModel.unpack = .zero t) : x - y = x - z := by
  show Float.ofModel (Float.Model.pack (UnpackedFloat.sub _ _ _))
    = Float.ofModel (Float.Model.pack (UnpackedFloat.sub _ _ _))
  rw [hy, hz]
  rcases infinite_cases hx with hu | ⟨s, hu⟩ <;> rw [hu] <;> rfl

/-- Doubles that compare as equal are equally far from any other. -/
theorem abs_sub_le_of_beq (h : (y == z) = true) {w : Float} (hle : (x - y).abs ≤ w) :
    (x - z).abs ≤ w := by
  rcases eq_or_zero_of_beq h with rfl | ⟨⟨s, hy⟩, t, hz⟩
  · exact hle
  cases hx : x.isFinite with
  | false => rwa [← sub_zero_of_not_finite hx hy hz]
  | true =>
    obtain ⟨hyf, hyv⟩ := value_sub_zero hx hy
    obtain ⟨hzf, hzv⟩ := value_sub_zero hx hz
    obtain ⟨hyf, hyv'⟩ := value_abs hyf
    obtain ⟨hzf, hzv'⟩ := value_abs hzf
    refine double_le_trans ((le_iff_value hzf hyf).2 ?_) hle
    rw [hyv', hzv', hyv, hzv]

end Zeros

end ClockSynth.Number
