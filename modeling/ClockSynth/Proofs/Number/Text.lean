import ClockSynth.Number.Numeral
import ClockSynth.Proofs.Number.Decimal

/-!
# Numbers are read back from their texts

`Numeral cs d` says that the digits, the point and the power of ten in `cs` make the decimal `d`.
Such a text is read as that decimal (`Numeral.decimal?_eq`), and what is written of a decimal is a
numeral of the same value, in each of the shapes it can have (`exists_numeral_written`). As the
shortest decimal of a double reads as it, a finite double is what its text reads as (`read?_text`);
only the sign of a zero is not in the text.
-/

namespace ClockSynth

open Float.Model.UnpackedFloat (Sign)
open Text (isBlank isBlank_of_isDigit trim_eq_self)

namespace Number

section Reading

theorem natural?_of_isDigit {cs : List Char} (hne : cs ≠ []) (h : ∀ c ∈ cs, c.isDigit = true) :
    natural? 10 cs = some (Nat.ofDigitChars 10 cs 0) := by
  have hmap : ∀ l : List Char, (∀ c ∈ l, c.isDigit = true) →
      l.mapM digit? = some (l.map fun c => c.toNat - '0'.toNat) := by
    intro l hl
    induction l with
    | nil => rfl
    | cons c l ih =>
      rw [List.forall_mem_cons] at hl
      rw [List.mapM_cons, ih hl.2, digit?, if_pos hl.1]
      rfl
  have hsmall : (cs.map fun c => c.toNat - '0'.toNat).all (· < 10) = true := by
    rw [List.all_map, List.all_eq_true]
    intro c hc
    have hdigit := h c hc
    simp only [Char.isDigit, Bool.and_eq_true, decide_eq_true_eq, UInt32.le_iff_toNat_le] at hdigit
    have hhigh : c.toNat ≤ 57 := hdigit.2
    have h0 : '0'.toNat = 48 := rfl
    simp only [Function.comp_apply, decide_eq_true_eq]
    omega
  rw [natural?, digits?, hmap cs h]
  simp only [Option.bind_eq_bind, Option.bind_some, hsmall, and_true, ne_eq, List.map_eq_nil_iff,
    hne, not_false_eq_true, if_true, Option.map_some, ofDigits, List.foldl_map]
  rfl

/-- Digits, a point among them or not, and a power of ten make a decimal. -/
inductive Numeral : List Char → Decimal → Prop
  | plain {digits rest : List Char} {p : ℤ} : digits ≠ [] → (∀ c ∈ digits, c.isDigit = true) →
      power? rest = some p → (∀ c ∈ rest, isBlank c = false) →
      Numeral (digits ++ rest) ⟨Nat.ofDigitChars 10 digits 0, p⟩
  | pointed {before after rest : List Char} {p : ℤ} : before ≠ [] →
      (∀ c ∈ before, c.isDigit = true) → (∀ c ∈ after, c.isDigit = true) →
      power? rest = some p → (∀ c ∈ rest, isBlank c = false) →
      Numeral (before ++ '.' :: (after ++ rest))
        ⟨Nat.ofDigitChars 10 (before ++ after) 0, p - after.length⟩

/-- No digit and no point opens a power of ten. -/
theorem span_of_power? {rest : List Char} {p : ℤ} (h : power? rest = some p) :
    rest.takeWhile Char.isDigit = [] ∧ rest.dropWhile Char.isDigit = rest
      ∧ rest.head? ≠ some '.' := by
  unfold power? at h
  split at h
  · simp
  · simp
  · simp
  · cases h

variable {cs : List Char} {d : Decimal}

/-- A numeral is read as the decimal that it makes. -/
theorem Numeral.decimal?_eq (h : Numeral cs d) : decimal? cs = some d := by
  cases h with
  | plain hne hdigits hp =>
    obtain ⟨htake, hdrop, hhead⟩ := span_of_power? hp
    simp [decimal?, List.takeWhile_append_of_pos hdigits, List.dropWhile_append_of_pos hdigits,
      htake, hdrop, hhead, natural?_of_isDigit hne hdigits, hp]
  | @pointed before after rest p hne hb ha hp =>
    obtain ⟨htake, hdrop, -⟩ := span_of_power? hp
    have hn := natural?_of_isDigit (List.append_ne_nil_of_left_ne_nil hne after)
      (List.forall_mem_append.2 ⟨hb, ha⟩)
    have hpoint : Char.isDigit '.' = false := rfl
    simp [decimal?, List.takeWhile_append_of_pos hb, List.dropWhile_append_of_pos hb,
      List.takeWhile_append_of_pos ha, List.dropWhile_append_of_pos ha, htake, hdrop, hpoint, hn,
      hp]

theorem Numeral.isBlank_eq_false (h : Numeral cs d) : ∀ c ∈ cs, isBlank c = false := by
  cases h with
  | plain _ hdigits _ hrest =>
    exact List.forall_mem_append.2 ⟨fun c hc => isBlank_of_isDigit (hdigits c hc), hrest⟩
  | pointed _ hb ha _ hrest =>
    exact List.forall_mem_append.2 ⟨fun c hc => isBlank_of_isDigit (hb c hc),
      List.forall_mem_cons.2 ⟨rfl, List.forall_mem_append.2
        ⟨fun c hc => isBlank_of_isDigit (ha c hc), hrest⟩⟩⟩

theorem unsigned?_of_decimal? (h : decimal? cs = some d) : unsigned? cs = some d.nearest := by
  have hne : cs ≠ "Infinity".toList := by
    rintro rfl
    have hnone : decimal? "Infinity".toList = none := by decide
    rw [hnone] at h
    cases h
  rw [unsigned?, if_neg hne, h]
  rfl

/-- What is read as a decimal has no sign and names no other base. -/
theorem numeral?_of_decimal? (h : decimal? cs = some d) : numeral? cs = some d.nearest := by
  unfold numeral?
  split
  case h_10 => exact unsigned?_of_decimal? h
  all_goals
    exfalso
    simp [decimal?, power?, natural?, digits?] at h

/-- A numeral with its sign is read as the double nearest to it. -/
theorem Numeral.read?_signed (h : Numeral cs d) (s : Sign) :
    read? (String.ofList (signed s cs))
      = some (match s with | .positive => d.nearest | .negative => -d.nearest) := by
  rw [read?, String.toList_ofList]
  cases s with
  | positive =>
    rw [signed, trim_eq_self h.isBlank_eq_false]
    exact numeral?_of_decimal? h.decimal?_eq
  | negative =>
    rw [signed, trim_eq_self (List.forall_mem_cons.2 ⟨rfl, h.isBlank_eq_false⟩)]
    simp only [numeral?, unsigned?_of_decimal? h.decimal?_eq, Option.map_some]

end Reading

end Number

section Writing
open Number (Numeral power? integer? natural?_of_isDigit)

namespace Decimal

theorem isDigit_of_mem_toDigits (n : ℕ) : ∀ c ∈ Nat.toDigits 10 n, c.isDigit = true :=
  fun _ => Nat.isDigit_of_mem_toDigits (by decide) (by decide)

theorem isDigit_of_mem_zeros (n : ℕ) : ∀ c ∈ List.replicate n '0', c.isDigit = true :=
  fun _ hc => List.eq_of_mem_replicate hc ▸ rfl

variable (d : Decimal)

theorem digits_ne_nil : d.digits ≠ [] :=
  Nat.toDigits_ne_nil

theorem isDigit_of_mem_digits : ∀ c ∈ d.digits, c.isDigit = true :=
  isDigit_of_mem_toDigits _

theorem ofDigitChars_digits : Nat.ofDigitChars 10 d.digits 0 = d.coefficient :=
  Nat.ofDigitChars_ten_toDigits

/-- The power of ten behind the digits is read as it is meant. -/
theorem power?_power : power? d.power = some (d.point - 1) := by
  have hn := natural?_of_isDigit Nat.toDigits_ne_nil (isDigit_of_mem_toDigits (d.point - 1).natAbs)
  rw [Nat.ofDigitChars_ten_toDigits] at hn
  unfold power
  by_cases h : d.point - 1 < 0
  · simp only [h, if_true, power?, integer?, hn]
    refine congrArg some ?_
    show -((d.point - 1).natAbs : ℤ) = d.point - 1
    omega
  · simp only [h, if_false, power?, integer?, hn]
    refine congrArg some ?_
    show ((d.point - 1).natAbs : ℤ) = d.point - 1
    omega

theorem isBlank_of_mem_power : ∀ c ∈ d.power, isBlank c = false := by
  unfold power
  refine List.forall_mem_cons.2 ⟨rfl, List.forall_mem_cons.2 ⟨?_, fun c hc =>
    isBlank_of_isDigit (isDigit_of_mem_toDigits _ c hc)⟩⟩
  split_ifs <;> rfl

/-- Zeros behind the digits stand for a power of ten. -/
theorem value_append_zeros {k : ℕ} (h : d.exponent = k) :
    value ⟨Nat.ofDigitChars 10 (d.digits ++ List.replicate k '0') 0, 0⟩ = d.value := by
  rw [value, value, Nat.ofDigitChars_append, ofDigitChars_digits, Nat.ofDigitChars_replicate_zero,
    h]
  push_cast
  rw [zpow_natCast, mul_one, mul_comm]

/-- Zeros before the digits stand for nothing. -/
theorem ofDigitChars_cons_zeros (k : ℕ) :
    Nat.ofDigitChars 10 ('0' :: (List.replicate k '0' ++ d.digits)) 0 = d.coefficient := by
  rw [← List.cons_append, ← List.replicate_succ, Nat.ofDigitChars_append,
    Nat.ofDigitChars_replicate_zero, mul_zero, ofDigitChars_digits]

/-- What is written of a decimal is a numeral of its value. -/
theorem exists_numeral_written : ∃ c, Numeral d.written c ∧ c.value = d.value := by
  have hlen : d.point = d.digits.length + d.exponent := rfl
  have hpos := List.length_pos_iff.2 d.digits_ne_nil
  have hdigit := d.isDigit_of_mem_digits
  have hvalue := d.ofDigitChars_digits
  have hexponent {e : ℤ} (h : e = d.exponent) : value ⟨d.coefficient, e⟩ = d.value := by rw [h]
  have hnothing : ∀ c ∈ ([] : List Char), isBlank c = false := List.forall_mem_nil _
  unfold written
  simp only []
  split_ifs with hplain hzeros hsmall
  · -- No digit stands after the point, and zeros fill the places up to it.
    have h := Numeral.plain (List.append_ne_nil_of_left_ne_nil d.digits_ne_nil _)
      (List.forall_mem_append.2 ⟨hdigit, isDigit_of_mem_zeros (d.point.toNat - d.digits.length)⟩)
      rfl hnothing
    rw [List.append_nil] at h
    exact ⟨_, h, d.value_append_zeros (by omega)⟩
  · -- The point stands among the digits.
    have hne : d.digits.take d.point.toNat ≠ [] :=
      List.take_eq_nil_iff.not.2 (not_or.2 ⟨by omega, d.digits_ne_nil⟩)
    have h := Numeral.pointed hne (fun c hc => hdigit c (List.mem_of_mem_take hc))
      (fun c hc => hdigit c (List.mem_of_mem_drop (i := d.point.toNat) hc)) rfl hnothing
    rw [List.append_nil, List.take_append_drop, hvalue, List.length_drop] at h
    exact ⟨_, h, hexponent (by omega)⟩
  · -- All digits stand after the point.
    have h := Numeral.pointed (List.cons_ne_nil '0' []) (List.forall_mem_singleton.2 rfl)
      (List.forall_mem_append.2 ⟨isDigit_of_mem_zeros (-d.point).toNat, hdigit⟩) rfl hnothing
    rw [List.append_nil, List.singleton_append, List.singleton_append, ofDigitChars_cons_zeros,
      List.length_append, List.length_replicate] at h
    exact ⟨_, h, hexponent (by omega)⟩
  · -- The point stands after the first digit, if there are more, and a power of ten follows.
    rcases hs : d.digits with _ | ⟨first, _ | ⟨second, rest⟩⟩
    · exact absurd hs d.digits_ne_nil
    · have h := Numeral.plain d.digits_ne_nil hdigit d.power?_power d.isBlank_of_mem_power
      rw [hvalue, hs] at h
      refine ⟨_, h, hexponent ?_⟩
      rw [hlen, hs, List.length_singleton]
      omega
    · rw [hs, List.forall_mem_cons] at hdigit
      have h := Numeral.pointed (List.cons_ne_nil first []) (List.forall_mem_singleton.2 hdigit.1)
        hdigit.2 d.power?_power d.isBlank_of_mem_power
      rw [List.singleton_append, List.singleton_append, ← hs, hvalue] at h
      refine ⟨_, h, hexponent ?_⟩
      rw [hlen, hs, List.length_cons]
      omega

end Decimal

end Writing

namespace Number

section RoundTrip

variable {x : Float}

/-- A double as it comes back from its text: a zero has no sign there. -/
def unsignedZero (x : Float) : Float :=
  if x == 0 then 0 else x

theorem beq_zero_iff (hx : x.isFinite = true) : (x == 0) = true ↔ value x = 0 :=
  beq_iff_value hx rfl

theorem unsignedZero_beq (hx : x.isFinite = true) : (unsignedZero x == x) = true := by
  unfold unsignedZero
  split_ifs with h
  · rw [beq_iff_value rfl hx, (beq_zero_iff hx).1 h]
    rfl
  · exact (beq_iff_value hx hx).2 rfl

theorem unsignedZero_of_unpack_zero {s : Sign} (hu : x.toModel.unpack = .zero s) :
    unsignedZero x = 0 := by
  obtain ⟨hx, hv⟩ := isFinite_of_unpack_zero hu
  rw [unsignedZero, if_pos ((beq_zero_iff hx).2 hv)]

theorem text_of_unpack_zero {s : Sign} (hu : x.toModel.unpack = .zero s) : text x = "0" := by
  rw [text, chars, hu]

section Nonzero

variable {s : Sign} {m : ℕ} {e : ℤ} {hm : 0 < m}

/-- Behind the sign of a double, a numeral that reads as its size reads as the double. -/
theorem Numeral.read?_of_nearest {cs : List Char} {c : Decimal} (h : Numeral cs c)
    (hu : x.toModel.unpack = .finite s m e hm) (hf : c.nearest.isFinite = true)
    (hv : value c.nearest = m * 2 ^ e) :
    read? (String.ofList (signed s cs)) = some (unsignedZero x) := by
  obtain ⟨hx, hvx⟩ := isFinite_of_unpack hu
  have hne : value x ≠ 0 := by
    rw [← abs_ne_zero, abs_value_of_unpack hu]
    positivity
  rw [unsignedZero, if_neg ((beq_zero_iff hx).not.2 hne), h.read?_signed]
  refine congrArg some (eq_of_value_eq hx ?_ ?_ hne).symm
  · cases s
    · exact (value_neg hf).1
    · exact hf
  · rw [hvx, valueOf]
    cases s
    · rw [(value_neg hf).2, hv, sgn, neg_one_mul]
    · rw [hv, sgn, one_mul]

/-- The text of a finite double is a numeral of its size behind its sign. -/
theorem exists_numeral_text (hu : x.toModel.unpack = .finite s m e hm) :
    ∃ cs c, Numeral cs c ∧ text x = String.ofList (signed s cs) ∧ c.nearest.isFinite = true
      ∧ value c.nearest = m * 2 ^ e := by
  obtain ⟨haf, hav⟩ := value_abs (isFinite_of_unpack hu).1
  obtain ⟨c, hc, hcv⟩ := (Decimal.shortest x.abs m e).exists_numeral_written
  have hbeq := double_beq_trans (Decimal.nearest_beq hcv) (Decimal.nearest_shortest hu)
  obtain ⟨hcf, hcval⟩ := isFinite_of_beq hbeq haf
  rw [hav, abs_value_of_unpack hu] at hcval
  exact ⟨_, c, hc, by rw [text, chars, hu], hcf, hcval⟩

end Nonzero

/-- A finite double is what its text reads as, except for the sign of a zero. -/
theorem read?_text (hx : x.isFinite = true) : read? (text x) = some (unsignedZero x) := by
  rcases finite_cases hx with ⟨s, hu⟩ | ⟨s, m, e, hm, hu, -⟩
  · rw [unsignedZero_of_unpack_zero hu, text_of_unpack_zero hu]
    rfl
  · obtain ⟨cs, c, hc, htext, hcf, hcv⟩ := exists_numeral_text hu
    rw [htext, hc.read?_of_nearest hu hcf hcv]

/-- Doubles with one text are equal. -/
theorem beq_of_text_eq {y : Float} (hx : x.isFinite = true) (hy : y.isFinite = true)
    (h : text x = text y) : (x == y) = true := by
  have hread := read?_text hx
  rw [h, read?_text hy, Option.some.injEq] at hread
  have hbx := double_beq_symm (unsignedZero_beq hx)
  rw [← hread] at hbx
  exact double_beq_trans hbx (unsignedZero_beq hy)

theorem text_of_value_zero (hx : x.isFinite = true) (h : value x = 0) : text x = "0" := by
  obtain ⟨s, hu⟩ := unpack_of_value_eq_zero hx h
  exact text_of_unpack_zero hu

/-- A text says which double it is, up to the sign of a zero. -/
theorem text_eq_iff {y : Float} (hx : x.isFinite = true) (hy : y.isFinite = true) :
    text x = text y ↔ (x == y) = true := by
  refine ⟨beq_of_text_eq hx hy, fun h => ?_⟩
  have hv := (beq_iff_value hx hy).1 h
  rcases eq_or_ne (value x) 0 with h0 | h0
  · rw [text_of_value_zero hx h0, text_of_value_zero hy (hv ▸ h0)]
  · rw [eq_of_value_eq hx hy hv h0]

theorem isNatural_unsignedZero (h : IsNatural x) : IsNatural (unsignedZero x) := by
  obtain ⟨n, hn⟩ := isNatural_iff.1 h
  exact isNatural_iff.2 ⟨n, toNat?_of_beq (double_beq_symm (unsignedZero_beq h.1)) hn⟩

theorem unsignedZero_unsignedZero (x : Float) : unsignedZero (unsignedZero x) = unsignedZero x := by
  by_cases h : (x == 0) = true
  · rw [unsignedZero, unsignedZero, if_pos h, ite_self]
  · have hx : unsignedZero x = x := if_neg h
    rw [hx, hx]

theorem unsignedZero_lt {y : Float} (hx : x.isFinite = true) (hy : y.isFinite = true)
    (h : x < y) : unsignedZero x < unsignedZero y := by
  obtain ⟨hxf, hxv⟩ := isFinite_of_beq (unsignedZero_beq hx) hx
  obtain ⟨hyf, hyv⟩ := isFinite_of_beq (unsignedZero_beq hy) hy
  rw [lt_iff_value hxf hyf, hxv, hyv]
  exact (lt_iff_value hx hy).1 h

theorem text_unsignedZero (hx : x.isFinite = true) : text (unsignedZero x) = text x :=
  (text_eq_iff (isFinite_of_beq (unsignedZero_beq hx) hx).1 hx).2 (unsignedZero_beq hx)

theorem unsignedZero_toFloat {n : ℕ} (h : n ≤ 2 ^ 53) : unsignedZero n.toFloat = n.toFloat := by
  obtain ⟨hf, hv⟩ := value_toFloat h
  unfold unsignedZero
  split_ifs with h0
  · rw [beq_zero_iff hf, hv, Nat.cast_eq_zero] at h0
    rw [h0]
    rfl
  · rfl

end RoundTrip

end Number

end ClockSynth
