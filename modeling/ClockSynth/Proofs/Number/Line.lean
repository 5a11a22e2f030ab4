import ClockSynth.Proofs.Number.Nearest
import Mathlib

/-!
# Doubles on the line

A double that is not NaN stands somewhere on the line of rationals between the two infinities
(`line`), and the comparisons of doubles are the comparisons of where they stand (`le_iff`,
`lt_iff`, `beq_iff`). A finite one stands at a rational, its `value`. Packing keeps what has
the right number of digits (`unpack_pack`), sends what is too large to infinity, and undoes
unpacking (`pack_unpack`).
-/

namespace ClockSynth.Number

open Float.Model Float.Model.UnpackedFloat

section Packing

/-- The digits and the exponent of a finite double. -/
structure Canonical (m : ℕ) (e : ℤ) : Prop where
  lt : m < 2 ^ 53
  least : -1074 ≤ e
  greatest : e ≤ 971
  full : 2 ^ 52 ≤ m ∨ e = -1074

theorem unpackSign_packComponents {spec : Format} {s : Sign} {b : BitVec spec.exponentBits}
    {f : BitVec spec.mantissaBitsWithoutImplicit} :
    unpackSign (packComponents spec s b f) = s.toBitVec := by
  ext i hi
  obtain rfl : i = 0 := by omega
  simp [unpackSign, packComponents, BitVec.getLsbD_append, BitVec.getElem_append]

theorem ofBitVec_toBitVec (s : Sign) : Sign.ofBitVec s.toBitVec = s := by
  cases s <;> rfl

theorem toNat_one_append (f : BitVec 52) : (1#1 ++ f).toNat = 2 ^ 52 + f.toNat := by
  rw [BitVec.toNat_append, ← Nat.shiftLeft_add_eq_or_of_lt f.isLt]
  rfl

theorem canonical_of_unpack {x : Float.Model} {s : Sign} {m : ℕ} {e : ℤ} {hm : 0 < m}
    (h : x.unpack = .finite s m e hm) : Canonical m e := by
  unfold Float.Model.unpack UnpackedFloat.unpack at h
  simp only [] at h
  set f := @unpackMantissa Format.binary64 x.toBits.toBitVec
  set b := @unpackExponent Format.binary64 x.toBits.toBitVec
  have hf : f.toNat < 2 ^ 52 := f.isLt
  have hb : b.toNat < 2 ^ 11 := b.isLt
  have hbias : (Format.binary64.exponentBias : ℤ) + (52 : ℕ) = 1075 := by decide
  split at h
  · split at h <;> cases h
  rename_i hinf
  have hinf' : b.toNat ≠ 2047 := fun hc => hinf (BitVec.eq_of_toNat_eq hc)
  split at h
  · rename_i hz
    split at h
    · cases h
    · have hz' : b.toNat = 0 := by rw [hz]; rfl
      simp only [UnpackedFloat.finite.injEq] at h
      obtain ⟨-, rfl, rfl⟩ := h
      exact ⟨by omega, by omega, by omega, .inr (by omega)⟩
  · rename_i hz
    have hz' : b.toNat ≠ 0 := fun hc => hz (BitVec.eq_of_toNat_eq hc)
    simp only [UnpackedFloat.finite.injEq] at h
    obtain ⟨-, rfl, rfl⟩ := h
    rw [toNat_one_append]
    exact ⟨by omega, by omega, by omega, .inl (by omega)⟩

theorem unpack_packComponents (s : Sign) (b : BitVec 11) (f : BitVec 52) :
    UnpackedFloat.unpack Format.binary64 (packComponents Format.binary64 s b f)
      = if b = -1#_ then (if f = 0#_ then .infinity s else .notANumber)
        else if b = 0#_ then
          if h : f = 0#_ then .zero s
          else .finite s f.toNat (-1074)
            (Nat.pos_of_ne_zero fun hc => h (BitVec.eq_of_toNat_eq hc))
        else .finite s (2 ^ 52 + f.toNat) (b.toNat - 1075) (by omega) := by
  have hbias : (Format.binary64.exponentBias : ℤ) = 1023 := by decide
  unfold UnpackedFloat.unpack
  simp only [unpackExponent_packComponents, unpackMantissa_packComponents,
    unpackSign_packComponents, ofBitVec_toBitVec, toNat_one_append, hbias]
  split_ifs with h1 h2 h3 h4
  · rfl
  · rfl
  · rfl
  · subst h3
    rfl
  · congr 1

theorem log2_of_full {m : ℕ} (h : 2 ^ 52 ≤ m) (h' : m < 2 ^ 53) : m.log2 = 52 :=
  (Nat.log2_eq_iff (by omega)).2 ⟨h, h'⟩

theorem unpack_pack {s : Sign} {m : ℕ} {e : ℤ} (hm : 0 < m) (h : Canonical m e) :
    (Float.Model.pack (.finite s m e hm)).unpack = .finite s m e hm := by
  have hbias : (Format.binary64.exponentBias : ℤ) = 1023 := by decide
  have hbits : Format.binary64.mantissaBits = 53 := by decide
  have h1 := h.least
  have h2 := h.greatest
  have hlt := h.lt
  show UnpackedFloat.unpack Format.binary64 (UnpackedFloat.pack Format.binary64 _) = _
  simp only [UnpackedFloat.pack, hbias, hbits]
  rw [if_neg (by omega)]
  by_cases hfull : 2 ^ 52 ≤ m
  · rw [log2_of_full hfull hlt, if_pos rfl, unpack_packComponents]
    have hb : (BitVec.ofNat 11 (e + 1023 + (52 : ℕ)).toNat).toNat = (e + 1075).toNat := by
      rw [BitVec.toNat_ofNat, Nat.mod_eq_of_lt (by omega)]
      omega
    have hf : (BitVec.ofNat 52 m).toNat = m - 2 ^ 52 := by
      rw [BitVec.toNat_ofNat]
      omega
    have hone : BitVec.ofNat 11 (e + 1023 + (52 : ℕ)).toNat ≠ -1#_ := fun hc => by
      rw [hc] at hb
      change 2047 = _ at hb
      omega
    have hzero : BitVec.ofNat 11 (e + 1023 + (52 : ℕ)).toNat ≠ 0#_ := fun hc => by
      rw [hc] at hb
      change 0 = _ at hb
      omega
    rw [if_neg hone, if_neg hzero]
    simp only [UnpackedFloat.finite.injEq, true_and]
    omega
  · obtain rfl : e = -1074 := h.full.resolve_left hfull
    have hlog : m.log2 < 52 := (Nat.log2_lt hm.ne').2 (by omega)
    rw [if_neg (by omega), unpack_packComponents]
    have hf : (BitVec.ofNat 52 m).toNat = m := by
      rw [BitVec.toNat_ofNat]
      omega
    have hne : BitVec.ofNat 52 m ≠ 0#_ := fun hc => by
      rw [hc] at hf
      change 0 = _ at hf
      omega
    rw [if_neg (by decide), if_pos rfl, dif_neg hne]
    simp only [hf]

theorem unpack_pack_of_lt {s : Sign} {m : ℕ} {e : ℤ} (hm : 0 < m) (h : 971 < e) :
    (Float.Model.pack (.finite s m e hm)).unpack = .infinity s := by
  have hbias : (Format.binary64.exponentBias : ℤ) = 1023 := by decide
  show UnpackedFloat.unpack Format.binary64 (UnpackedFloat.pack Format.binary64 _) = _
  simp only [UnpackedFloat.pack, hbias]
  rw [if_pos (by omega), packedInfinity, unpack_packComponents, if_pos rfl]
  rfl

theorem unpack_pack_zero (s : Sign) : (Float.Model.pack (.zero s)).unpack = .zero s := by
  cases s <;> rfl

theorem unpack_pack_infinity (s : Sign) :
    (Float.Model.pack (.infinity s)).unpack = .infinity s := by
  cases s <;> rfl

/-- A word is made of its sign, its exponent and its digits. -/
theorem packComponents_unpack (v : BitVec 64) :
    packComponents Format.binary64 (Sign.ofBitVec (@unpackSign Format.binary64 v))
      (@unpackExponent Format.binary64 v) (@unpackMantissa Format.binary64 v) = v := by
  have hsign (b : BitVec 1) : (Sign.ofBitVec b).toBitVec = b := by
    revert b
    decide
  unfold packComponents
  rw [hsign]
  refine BitVec.eq_of_getElem_eq fun i hi => ?_
  change i < 1 + 11 + 52 at hi
  change ((_ ++ _ : BitVec (1 + 11)) ++ _ : BitVec (1 + 11 + 52))[i] = v[i]
  rw [BitVec.getElem_append, ← BitVec.getLsbD_eq_getElem]
  split
  · simp [unpackMantissa]
  · rename_i hdigit
    rw [BitVec.getElem_append]
    have hi52 : 52 ≤ i := not_lt.1 hdigit
    split
    · simp [unpackExponent, Nat.add_sub_cancel' hi52]
    · rename_i hexponent
      have hi63 : i = 63 := by
        have : ¬ i - 52 < 11 := hexponent
        omega
      subst hi63
      simp [unpackSign]
      rfl

/-- Packing undoes unpacking. -/
theorem pack_unpack (x : Float.Model) : Float.Model.pack x.unpack = x := by
  obtain ⟨⟨v⟩, hvalid⟩ := x
  have hv := packComponents_unpack v
  suffices h : UnpackedFloat.pack Format.binary64 (UnpackedFloat.unpack Format.binary64 v) = v by
    unfold Float.Model.pack Float.Model.unpack
    simp only [h]
  have hnan := hvalid.eq_packedNaN
  simp only [] at hnan
  generalize Sign.ofBitVec (@unpackSign Format.binary64 v) = s at hv
  generalize @unpackExponent Format.binary64 v = b at hv hnan
  generalize @unpackMantissa Format.binary64 v = f at hv hnan
  have hf : f.toNat < 2 ^ 52 := f.isLt
  have hb : b.toNat < 2 ^ 11 := b.isLt
  have hbias : (Format.binary64.exponentBias : ℤ) = 1023 := by decide
  have hbits : Format.binary64.mantissaBits = 53 := by decide
  have hu := unpack_packComponents s b f
  rw [hv] at hu
  rw [hu]
  split_ifs with h1 h2 h3 h4
  · rw [h1, h2] at hv
    exact hv
  · exact (hnan h1 h2).symm
  · rw [h3, h4] at hv
    exact hv
  · have hpos : f.toNat ≠ 0 := fun hc => h4 (BitVec.eq_of_toNat_eq hc)
    have hlog : f.toNat.log2 < 52 := (Nat.log2_lt hpos).2 hf
    simp only [UnpackedFloat.pack, hbias, hbits]
    rw [if_neg (by omega), if_neg (by omega), BitVec.ofNat_toNat, BitVec.setWidth_eq]
    rwa [h3] at hv
  · have hb' : b.toNat ≠ 2047 := fun hc => h1 (BitVec.eq_of_toNat_eq hc)
    have hexp : ((b.toNat : ℤ) - 1075 + 1023 + (52 : ℕ)).toNat = b.toNat := by omega
    have hfull : 2 ^ 52 ≤ 2 ^ 52 + f.toNat := Nat.le_add_right _ _
    simp only [UnpackedFloat.pack, hbias, hbits]
    have hdigits : BitVec.ofNat 52 (2 ^ 52 + f.toNat) = f :=
      BitVec.eq_of_toNat_eq (by rw [BitVec.toNat_ofNat]; omega)
    rw [log2_of_full hfull (by omega), hexp, if_neg (by omega), if_pos rfl, BitVec.ofNat_toNat,
      BitVec.setWidth_eq]
    change packComponents _ s b (BitVec.ofNat 52 _) = v
    rw [hdigits, hv]

end Packing

section Line

/-- The factor of a sign. -/
def sgn : Sign → ℚ
  | .negative => -1
  | .positive => 1

def valueOf : UnpackedFloat → ℚ
  | .finite s m e _ => sgn s * (m * 2 ^ e)
  | _ => 0

def lineOf : UnpackedFloat → WithBot (WithTop ℚ)
  | .infinity .positive => ⊤
  | .infinity .negative => ⊥
  | u => ((valueOf u : ℚ) : WithTop ℚ)

/-- The rational that a finite double stands for. -/
def value (x : Float) : ℚ :=
  valueOf x.toModel.unpack

/-- Where a double stands between the infinities; NaN is put to zero and kept apart by `isNaN`. -/
def line (x : Float) : WithBot (WithTop ℚ) :=
  lineOf x.toModel.unpack

theorem abs_sgn_mul (s : Sign) (q : ℚ) : |sgn s * q| = |q| := by
  cases s <;> simp [sgn]

theorem line_of_isFinite {x : Float} (h : x.isFinite = true) :
    line x = ((value x : ℚ) : WithTop ℚ) := by
  change UnpackedFloat.isFinite x.toModel.unpack = true at h
  unfold line value
  generalize x.toModel.unpack = u at h ⊢
  rcases u with (_ | _) | _ | _ | _ <;> simp_all [UnpackedFloat.isFinite, lineOf]

theorem isNaN_of_isFinite {x : Float} (h : x.isFinite = true) : x.isNaN = false := by
  change UnpackedFloat.isFinite x.toModel.unpack = true at h
  change UnpackedFloat.isNaN x.toModel.unpack = false
  generalize x.toModel.unpack = u at h ⊢
  cases u <;> simp_all [UnpackedFloat.isFinite, UnpackedFloat.isNaN]

theorem isFinite_of_line {x : Float} {q : ℚ} (hn : x.isNaN = false)
    (h : line x = ((q : ℚ) : WithTop ℚ)) : x.isFinite = true ∧ value x = q := by
  change UnpackedFloat.isNaN x.toModel.unpack = false at hn
  show UnpackedFloat.isFinite x.toModel.unpack = true ∧ valueOf x.toModel.unpack = q
  unfold line at h
  generalize x.toModel.unpack = u at hn h ⊢
  rcases u with (_ | _) | _ | _ | _
  · cases h
  · cases h
  · cases hn
  · exact ⟨rfl, WithTop.coe_injective (WithBot.coe_injective h)⟩
  · exact ⟨rfl, WithTop.coe_injective (WithBot.coe_injective h)⟩

theorem intCast_apply (s : Sign) (n : ℤ) : ((s.apply n : ℤ) : ℚ) = sgn s * n := by
  cases s <;> simp [sgn, Sign.apply]

theorem Canonical.isDouble {m : ℕ} {e : ℤ} (s : Sign) (hm : 0 < m) (h : Canonical m e) :
    IsDouble (valueOf (.finite s m e hm)) := by
  refine ⟨s.apply m, e, ?_, h.least, ?_⟩
  · have := h.lt
    cases s <;> simp only [Sign.apply, abs_neg, Nat.abs_cast] <;> exact_mod_cast this
  · rw [intCast_apply, valueOf, Int.cast_natCast, mul_assoc]

theorem isDouble_value (x : Float) : IsDouble (value x) := by
  unfold value
  cases hu : x.toModel.unpack with
  | finite s m e hm => exact (canonical_of_unpack hu).isDouble s hm
  | _ => exact isDouble_zero

theorem valueOf_pos {m : ℕ} {e : ℤ} (hm : 0 < m) : 0 < valueOf (.finite .positive m e hm) := by
  have : (0 : ℚ) < m := by exact_mod_cast hm
  simp only [valueOf, sgn, one_mul]
  positivity

theorem valueOf_neg {m : ℕ} {e : ℤ} (hm : 0 < m) : valueOf (.finite .negative m e hm) < 0 := by
  have := valueOf_pos (e := e) hm
  simp only [valueOf, sgn, one_mul, neg_mul] at this ⊢
  linarith

end Line

section Order

theorem lt_of_exponent_lt {m₁ m₂ : ℕ} {e₁ e₂ : ℤ} (h₁ : Canonical m₁ e₁) (h₂ : Canonical m₂ e₂)
    (h : e₁ < e₂) : (m₁ : ℚ) * 2 ^ e₁ < m₂ * 2 ^ e₂ := by
  have hm₂ : 2 ^ 52 ≤ m₂ := h₂.full.resolve_right (by have := h₁.least; omega)
  have h₁' : (m₁ : ℚ) < 2 ^ (53 : ℤ) := by exact_mod_cast h₁.lt
  have h₂' : (2 : ℚ) ^ (52 : ℤ) ≤ m₂ := by exact_mod_cast hm₂
  calc (m₁ : ℚ) * 2 ^ e₁ < 2 ^ (53 : ℤ) * 2 ^ e₁ := by gcongr
    _ = 2 ^ (53 + e₁) := (zpow_add₀ two_ne_zero _ _).symm
    _ ≤ 2 ^ (52 + e₂) := zpow_le_zpow_right₀ one_le_two (by omega)
    _ = 2 ^ (52 : ℤ) * 2 ^ e₂ := zpow_add₀ two_ne_zero _ _
    _ ≤ m₂ * 2 ^ e₂ := by gcongr

/-- Of two finite doubles of one sign the exponents decide first, then the digits. -/
theorem compare_then {m₁ m₂ : ℕ} {e₁ e₂ : ℤ} (h₁ : Canonical m₁ e₁) (h₂ : Canonical m₂ e₂) :
    (compare e₁ e₂).then (compare m₁ m₂) = compare ((m₁ : ℚ) * 2 ^ e₁) (m₂ * 2 ^ e₂) := by
  rcases lt_trichotomy e₁ e₂ with h | rfl | h
  · rw [compare_lt_iff_lt.2 h, compare_lt_iff_lt.2 (lt_of_exponent_lt h₁ h₂ h)]
    rfl
  · rw [compare_eq_iff_eq.2 rfl, Ordering.then]
    have hp := two_zpow_pos e₁
    rcases lt_trichotomy m₁ m₂ with h | rfl | h
    · rw [compare_lt_iff_lt.2 h, compare_lt_iff_lt.2]
      exact mul_lt_mul_of_pos_right (by exact_mod_cast h) hp
    · rw [compare_eq_iff_eq.2 rfl, compare_eq_iff_eq.2 rfl]
    · rw [compare_gt_iff_gt.2 h, compare_gt_iff_gt.2]
      exact mul_lt_mul_of_pos_right (by exact_mod_cast h) hp
  · rw [compare_gt_iff_gt.2 h, compare_gt_iff_gt.2 (lt_of_exponent_lt h₂ h₁ h)]
    rfl

theorem Canonical.eq_of_mul_zpow_eq {m n : ℕ} {e f : ℤ} (h : Canonical m e) (h' : Canonical n f)
    (heq : (m : ℚ) * 2 ^ e = n * 2 ^ f) : m = n ∧ e = f := by
  have hc := compare_then h h'
  rw [compare_eq_iff_eq.2 heq, Ordering.then_eq_eq, compare_eq_iff_eq, compare_eq_iff_eq] at hc
  exact hc.symm

theorem compare_neg (p q : ℚ) : compare (-p) (-q) = (compare p q).swap := by
  rcases lt_trichotomy p q with h | rfl | h
  · rw [compare_lt_iff_lt.2 h, compare_gt_iff_gt.2 (neg_lt_neg h)]
    rfl
  · rw [compare_eq_iff_eq.2 rfl, compare_eq_iff_eq.2 rfl]
    rfl
  · rw [compare_gt_iff_gt.2 h, compare_lt_iff_lt.2 (neg_lt_neg h)]
    rfl

theorem compare_coe (p q : ℚ) :
    compare ((p : WithTop ℚ) : WithBot (WithTop ℚ)) (q : WithTop ℚ) = compare p q := by
  rcases lt_trichotomy p q with h | rfl | h
  · rw [compare_lt_iff_lt.2 h, compare_lt_iff_lt]
    exact_mod_cast h
  · rw [compare_eq_iff_eq.2 rfl, compare_eq_iff_eq.2 rfl]
  · rw [compare_gt_iff_gt.2 h, compare_gt_iff_gt]
    exact_mod_cast h

theorem compare_unpack (x y : Float.Model) (hx : x.unpack.isNaN = false)
    (hy : y.unpack.isNaN = false) :
    x.unpack.compare y.unpack = some (compare (lineOf x.unpack) (lineOf y.unpack)) := by
  have hcx : ∀ {s m e hm}, x.unpack = .finite s m e hm → Canonical m e := canonical_of_unpack
  have hcy : ∀ {s m e hm}, y.unpack = .finite s m e hm → Canonical m e := canonical_of_unpack
  generalize x.unpack = u at *
  generalize y.unpack = v at *
  -- The shapes decide unless both are rationals, and of these only two finite ones need a look.
  rcases u with (_ | _) | _ | s | ⟨s, m, e, hm⟩ <;>
    rcases v with (_ | _) | _ | t | ⟨t, n, f, hn⟩ <;>
    simp only [UnpackedFloat.compare, lineOf, UnpackedFloat.isNaN, Bool.true_eq_false] at *
  all_goals try rfl
  case zero.finite =>
    rw [compare_coe]
    cases t
    · exact congrArg some (compare_gt_iff_gt.2 (valueOf_neg hn)).symm
    · exact congrArg some (compare_lt_iff_lt.2 (valueOf_pos hn)).symm
  case finite.zero =>
    rw [compare_coe]
    cases s
    · exact congrArg some (compare_lt_iff_lt.2 (valueOf_neg hm)).symm
    · exact congrArg some (compare_gt_iff_gt.2 (valueOf_pos hm)).symm
  case finite.finite =>
    rw [compare_coe]
    cases s <;> cases t
    · simp only [valueOf, sgn, neg_mul, one_mul]
      rw [compare_neg, ← compare_then (hcx rfl) (hcy rfl)]
    · exact congrArg some (compare_lt_iff_lt.2 ((valueOf_neg hm).trans (valueOf_pos hn))).symm
    · exact congrArg some (compare_gt_iff_gt.2 ((valueOf_neg hn).trans (valueOf_pos hm))).symm
    · simp only [valueOf, sgn, one_mul]
      rw [← compare_then (hcx rfl) (hcy rfl)]

theorem compare_of_isNaN {u v : UnpackedFloat} (h : u.isNaN = true ∨ v.isNaN = true) :
    u.compare v = none := by
  rcases u with (_ | _) | _ | s | _ <;> rcases v with (_ | _) | _ | t | _ <;>
    simp_all [UnpackedFloat.isNaN, UnpackedFloat.compare]

/-- Any comparison of doubles says no if one of them is NaN, and else looks at the line. -/
theorem compare_eq (x y : Float) :
    x.toModel.unpack.compare y.toModel.unpack
      = if x.isNaN = false ∧ y.isNaN = false then some (compare (line x) (line y)) else none := by
  split_ifs with h
  · exact compare_unpack _ _ h.1 h.2
  · refine compare_of_isNaN ?_
    by_contra hc
    rw [not_or, Bool.not_eq_true, Bool.not_eq_true] at hc
    exact h hc

theorem compare_eq_some_iff {x y : Float} {o : Ordering} :
    x.toModel.unpack.compare y.toModel.unpack = some o
      ↔ x.isNaN = false ∧ y.isNaN = false ∧ compare (line x) (line y) = o := by
  rw [compare_eq, ← and_assoc]
  split_ifs with h
  · rw [Option.some_inj, and_iff_right h]
  · exact iff_of_false not_false fun hc => h hc.1

theorem le_iff {x y : Float} :
    x ≤ y ↔ x.isNaN = false ∧ y.isNaN = false ∧ line x ≤ line y := by
  show (decide ((x.toModel.unpack.compare y.toModel.unpack).any (·.isLE) = true)) = true ↔ _
  rw [decide_eq_true_iff, Option.any_eq_true]
  constructor
  · rintro ⟨o, ho, hle⟩
    obtain ⟨hx, hy, rfl⟩ := compare_eq_some_iff.1 ho
    exact ⟨hx, hy, compare_le_iff_le.1 (Ordering.ne_gt_iff_isLE.2 hle)⟩
  · rintro ⟨hx, hy, hle⟩
    have ho := compare_eq_some_iff.2 ⟨hx, hy, rfl⟩
    exact ⟨_, ho, Ordering.ne_gt_iff_isLE.1 (compare_le_iff_le.2 hle)⟩

theorem lt_iff {x y : Float} :
    x < y ↔ x.isNaN = false ∧ y.isNaN = false ∧ line x < line y := by
  show (decide ((x.toModel.unpack.compare y.toModel.unpack == some .lt) = true)) = true ↔ _
  rw [decide_eq_true_iff, beq_iff_eq, compare_eq_some_iff, compare_lt_iff_lt]

theorem beq_iff {x y : Float} :
    (x == y) = true ↔ x.isNaN = false ∧ y.isNaN = false ∧ line x = line y := by
  show (x.toModel.unpack.compare y.toModel.unpack == some .eq) = true ↔ _
  rw [beq_iff_eq, compare_eq_some_iff, compare_eq_iff_eq]

theorem double_le_trans {x y z : Float} (hxy : x ≤ y) (hyz : y ≤ z) : x ≤ z := by
  rw [le_iff] at hxy hyz ⊢
  exact ⟨hxy.1, hyz.2.1, hxy.2.2.trans hyz.2.2⟩

theorem double_beq_symm {x y : Float} (h : (x == y) = true) : (y == x) = true := by
  rw [beq_iff] at h ⊢
  exact ⟨h.2.1, h.1, h.2.2.symm⟩

theorem double_beq_trans {x y z : Float} (hxy : (x == y) = true) (hyz : (y == z) = true) :
    (x == z) = true := by
  rw [beq_iff] at hxy hyz ⊢
  exact ⟨hxy.1, hyz.2.1, hxy.2.2.trans hyz.2.2⟩

/-- What is equal to a finite double is finite. -/
theorem isFinite_of_beq {x y : Float} (h : (x == y) = true) (hy : y.isFinite = true) :
    x.isFinite = true ∧ value x = value y := by
  rw [beq_iff, line_of_isFinite hy] at h
  exact isFinite_of_line h.1 h.2.2

theorem double_lt_of_le_of_not_beq {x y : Float} (h : x ≤ y) (hne : ¬ (x == y) = true) : x < y := by
  rw [le_iff] at h
  rw [beq_iff] at hne
  exact lt_iff.2 ⟨h.1, h.2.1, lt_of_le_of_ne h.2.2 fun he => hne ⟨h.1, h.2.1, he⟩⟩

theorem double_le_of_lt {x y : Float} (h : x < y) : x ≤ y := by
  rw [lt_iff] at h
  exact le_iff.2 ⟨h.1, h.2.1, h.2.2.le⟩

theorem double_lt_of_lt_of_le {x y z : Float} (hxy : x < y) (hyz : y ≤ z) : x < z := by
  rw [lt_iff] at hxy ⊢
  rw [le_iff] at hyz
  exact ⟨hxy.1, hyz.2.1, hxy.2.2.trans_le hyz.2.2⟩

theorem double_not_beq_of_lt {x y : Float} (h : x < y) : (x == y) = false := by
  rw [Bool.eq_false_iff]
  exact fun he => (lt_iff.1 h).2.2.ne (beq_iff.1 he).2.2

theorem double_lt_asymm {x y : Float} (h : x < y) : ¬ y < x :=
  fun h' => (lt_iff.1 h).2.2.asymm (lt_iff.1 h').2.2

theorem not_le_iff_lt {x y : Float} (hx : x.isNaN = false) (hy : y.isNaN = false) :
    ¬ x ≤ y ↔ y < x := by
  rw [le_iff, lt_iff, and_iff_right hx, and_iff_right hy, and_iff_right hy, and_iff_right hx, not_le]

theorem le_iff_value {x y : Float} (hx : x.isFinite = true) (hy : y.isFinite = true) :
    x ≤ y ↔ value x ≤ value y := by
  rw [le_iff, line_of_isFinite hx, line_of_isFinite hy, and_iff_right (isNaN_of_isFinite hx),
    and_iff_right (isNaN_of_isFinite hy)]
  simp

theorem lt_iff_value {x y : Float} (hx : x.isFinite = true) (hy : y.isFinite = true) :
    x < y ↔ value x < value y := by
  rw [lt_iff, line_of_isFinite hx, line_of_isFinite hy, and_iff_right (isNaN_of_isFinite hx),
    and_iff_right (isNaN_of_isFinite hy)]
  simp

theorem beq_iff_value {x y : Float} (hx : x.isFinite = true) (hy : y.isFinite = true) :
    (x == y) = true ↔ value x = value y := by
  rw [beq_iff, line_of_isFinite hx, line_of_isFinite hy, and_iff_right (isNaN_of_isFinite hx),
    and_iff_right (isNaN_of_isFinite hy)]
  simp

/-- A double between two finite ones is finite. -/
theorem isFinite_of_le_of_le {x y z : Float} (hx : x.isFinite = true) (hz : z.isFinite = true)
    (hxy : x ≤ y) (hyz : y ≤ z) : y.isFinite = true := by
  obtain ⟨-, hn, h1⟩ := le_iff.1 hxy
  obtain ⟨-, -, h2⟩ := le_iff.1 hyz
  rw [line_of_isFinite hx] at h1
  rw [line_of_isFinite hz] at h2
  change UnpackedFloat.isNaN y.toModel.unpack = false at hn
  show UnpackedFloat.isFinite y.toModel.unpack = true
  unfold line at h1 h2
  generalize y.toModel.unpack = u at hn h1 h2 ⊢
  rcases u with (_ | _) | _ | _ | _
  · exact absurd h1 (by simp [lineOf])
  · exact absurd h2 (by simp [lineOf])
  · cases hn
  · rfl
  · rfl

end Order

end ClockSynth.Number
