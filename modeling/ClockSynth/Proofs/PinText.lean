import ClockSynth.Frequency
import ClockSynth.Proofs.Number.Text

/-!
# The text of an input frequency

An integer below `10 ^ 21` with one place is its digits and a zero (`fixed_one`), as its exact
decimal has nothing to round after the point. So the text of a frequency at a pin is one of two
numerals, that of an integer or the shortest, and each is read back as the double that it was
written for (`pinText_lossless`).
-/

namespace ClockSynth

open Float.Model.UnpackedFloat (Sign)

namespace Decimal

/-- Where nothing stands after the places that are kept, nothing is rounded. -/
theorem roundAt_of_value {d : Decimal} {places n : ℕ} (h : d.value * 10 ^ places = n) :
    d.roundAt places = n := by
  have hscaled : (d.coefficient : ℚ) * 10 ^ (d.exponent + places) = n := by
    rw [← h, value, zpow_add₀ (by norm_num), zpow_natCast, mul_assoc]
  unfold roundAt
  simp only []
  split_ifs with he
  · obtain ⟨k, hk⟩ := Int.eq_ofNat_of_zero_le he
    rw [hk, zpow_natCast] at hscaled
    rw [hk, Int.toNat_natCast, place]
    exact_mod_cast hscaled
  · obtain ⟨k, hk⟩ := Int.eq_ofNat_of_zero_le (by omega : 0 ≤ -(d.exponent + places))
    have hpos : 0 < place k := Nat.pow_pos (by decide)
    have hwhole : d.coefficient = n * place k := by
      rw [show d.exponent + places = -(k : ℤ) by omega, zpow_neg, zpow_natCast,
        mul_inv_eq_iff_eq_mul₀ (by positivity)] at hscaled
      rw [place]
      exact_mod_cast hscaled
    -- The half that is added to round up is less than one step, and is cut off again.
    rw [hk, Int.toNat_natCast, hwhole]
    calc (2 * (n * place k) + place k) / (2 * place k)
        = (place k + 2 * place k * n) / (2 * place k) := by ring_nf
      _ = place k / (2 * place k) + n := Nat.add_mul_div_left _ _ (by omega)
      _ = n := by rw [Nat.div_eq_of_lt (by omega), Nat.zero_add]

end Decimal

namespace Number

section OnePlace

variable {x : Float} {s : Sign} {m k : ℕ} {e n : ℤ} {hm : 0 < m}

/-- The sign and the digits of a double that is an integer, but not zero. -/
theorem natAbs_of_value (hu : x.toModel.unpack = .finite s m e hm) (hv : value x = n) :
    (m : ℚ) * 2 ^ e = n.natAbs ∧ s.apply n.natAbs = n ∧ 0 < n.natAbs := by
  have hsize : (m : ℚ) * 2 ^ e = n.natAbs := by
    rw [← abs_value_of_unpack hu, hv, Nat.cast_natAbs, Int.cast_abs]
  refine ⟨hsize, ?_, ?_⟩
  · rw [(isFinite_of_unpack hu).2, valueOf, hsize, ← Int.cast_natCast, ← intCast_apply] at hv
    exact_mod_cast hv
  · have hpos : (0 : ℚ) < n.natAbs := hsize ▸ by positivity
    exact_mod_cast hpos

theorem abs_lt_limit_iff (hx : x.isFinite = true) : x.abs < 1e21 ↔ |value x| < 10 ^ 21 := by
  have hlimit : toNat? 1e21 = some (10 ^ 21) := by decide +kernel
  obtain ⟨hf, hv⟩ := value_of_toNat? hlimit
  obtain ⟨haf, hav⟩ := value_abs hx
  rw [lt_iff_value haf hf, hav, hv]
  push_cast
  rfl

theorem pointed_ten_mul (k : ℕ) : pointed (10 * k) 1 = Nat.toDigits 10 k ++ ['.', '0'] := by
  rcases Nat.eq_zero_or_pos k with rfl | hk
  · rfl
  · have hdigits : Nat.toDigits 10 (10 * k) = Nat.toDigits 10 k ++ ['0'] :=
      (Nat.toDigits_append_toDigits (by decide) hk (by decide : 0 < 10)).symm
    have hzeros : 1 + 1 - ((Nat.toDigits 10 k).length + 1) = 0 := by
      have := List.length_pos_iff.2 (Nat.toDigits_ne_nil (b := 10) (n := k))
      omega
    simp [pointed, hdigits, hzeros]

theorem fixed_one_of_unpack_zero (hu : x.toModel.unpack = .zero s) : fixed x 1 = "0.0" := by
  obtain ⟨hx, hv⟩ := isFinite_of_unpack_zero hu
  have hlt : x.abs < 1e21 := by
    rw [abs_lt_limit_iff hx, hv]
    norm_num
  rw [fixed, fixedChars, if_pos hlt, hu]
  rfl

theorem fixed_one_of_unpack (hu : x.toModel.unpack = .finite s m e hm) (hk : (m : ℚ) * 2 ^ e = k)
    (hlt : x.abs < 1e21) :
    fixed x 1 = String.ofList (signed s (Nat.toDigits 10 k ++ ['.', '0'])) := by
  have hround : (Decimal.ofExact m e).roundAt 1 = 10 * k := by
    refine Decimal.roundAt_of_value ?_
    rw [Decimal.value_ofExact, hk]
    push_cast
    ring
  rw [fixed, fixedChars, if_pos hlt, hu]
  simp only [hround, pointed_ten_mul]

theorem ofList_signed (s : Sign) (hk : 0 < k) (cs : List Char) :
    String.ofList (signed s (Nat.toDigits 10 k ++ cs))
      = toString (s.apply k) ++ String.ofList cs := by
  cases s with
  | positive =>
    rw [signed, String.ofList_append, ← Nat.toString_eq_ofList_toDigits]
    rfl
  | negative =>
    obtain ⟨j, rfl⟩ := Nat.exists_eq_succ_of_ne_zero hk.ne'
    rw [signed, ← List.singleton_append, String.ofList_append, String.ofList_append,
      ← Nat.toString_eq_ofList_toDigits, ← String.append_assoc]
    rfl

/-- An integer below the limit is written as it stands, with a zero after the point. -/
theorem fixed_one (hx : x.isFinite = true) (hv : value x = n) (hn : |n| < 10 ^ 21) :
    fixed x 1 = toString n ++ ".0" := by
  rcases finite_cases hx with ⟨s, hu⟩ | ⟨s, m, e, hm, hu, -⟩
  · obtain rfl : n = 0 := by
      rw [(isFinite_of_unpack_zero hu).2] at hv
      exact_mod_cast hv.symm
    rw [fixed_one_of_unpack_zero hu]
    rfl
  · obtain ⟨hsize, hsign, hpos⟩ := natAbs_of_value hu hv
    have hlt : x.abs < 1e21 := by
      rw [abs_lt_limit_iff hx, hv]
      exact_mod_cast hn
    rw [fixed_one_of_unpack hu hsize hlt, ofList_signed s hpos, hsign]

theorem exists_numeral_one (k : ℕ) :
    ∃ c, Numeral (Nat.toDigits 10 k ++ ['.', '0']) c ∧ c.value = k := by
  have h := Numeral.pointed Nat.toDigits_ne_nil (Decimal.isDigit_of_mem_toDigits k)
    (Decimal.isDigit_of_mem_zeros 1) rfl (List.forall_mem_nil _)
  refine ⟨_, h, ?_⟩
  rw [Decimal.value, Nat.ofDigitChars_append, Nat.ofDigitChars_ten_toDigits,
    Nat.ofDigitChars_replicate_zero, List.length_replicate]
  norm_num
  ring

/-- With one place, an integer of any size is read back, except for the sign of a zero. -/
theorem read?_fixed_one (hx : x.isFinite = true) (hi : isInteger x = true) :
    read? (fixed x 1) = some (unsignedZero x) := by
  by_cases hlt : x.abs < 1e21
  · rcases finite_cases hx with ⟨s, hu⟩ | ⟨s, m, e, hm, hu, -⟩
    · rw [fixed_one_of_unpack_zero hu, unsignedZero_of_unpack_zero hu]
      decide +kernel
    · obtain ⟨n, hn⟩ := (isInteger_iff hx).1 hi
      obtain ⟨hsize, -⟩ := natAbs_of_value hu hn
      obtain ⟨c, hc, hcv⟩ := exists_numeral_one n.natAbs
      obtain ⟨hf, hv⟩ := Decimal.nearest_of_value hu (hcv.trans hsize.symm)
      rw [fixed_one_of_unpack hu hsize hlt, hc.read?_of_nearest hu hf hv]
  · -- From the limit on it is the shortest text that is written.
    rw [fixed, fixedChars, if_neg hlt]
    exact read?_text hx

end OnePlace

end Number

namespace Frequency

open Number

variable {frequency : Float}

theorem isFinite_megahertz (h : frequency.isFinite = true) : (frequency / 1e6).isFinite = true := by
  have hmega : toNat? 1e6 = some (10 ^ 6) := by decide +kernel
  obtain ⟨hf, hv⟩ := value_of_toNat? hmega
  refine isFinite_div h hf ?_
  rw [hv]
  norm_num

/-- No finite frequency is lost in its text: it is read back as the double that the megahertz are,
except for the sign of a zero. An integer of them below `10 ^ 21` is written with all its digits and
one zero after the point. -/
theorem pinText_lossless (h : frequency.isFinite = true) :
    read? (pinText frequency) = some (unsignedZero (frequency / 1e6))
      ∧ ∀ n : ℤ, value (frequency / 1e6) = n → |n| < 10 ^ 21 →
          pinText frequency = toString n ++ ".0" := by
  have hmhz := isFinite_megahertz h
  constructor
  · unfold pinText
    simp only []
    split_ifs with hi
    · exact read?_fixed_one hmhz hi
    · exact read?_text hmhz
  · intro n hn hlt
    have hi := (isInteger_iff hmhz).2 ⟨n, hn⟩
    simp only [pinText, hi, if_true]
    exact fixed_one hmhz hn hlt

/-- A negative number of megahertz far beyond `2 ^ 53`, short of the limit. -/
theorem pinText_lossless_large :
    (-1e26 : Float).isFinite = true
      ∧ read? (pinText (-1e26)) = some (-1e20)
      ∧ value (-1e26 / 1e6) = (-10 ^ 20 : ℤ) ∧ |(-10 ^ 20 : ℤ)| < 10 ^ 21
      ∧ pinText (-1e26) = "-100000000000000000000.0" := by
  have hfinite : (-1e26 : Float).isFinite = true := by decide +kernel
  have hvalue : value (-1e26 / 1e6) = (-10 ^ 20 : ℤ) := by decide +kernel
  have hmhz : unsignedZero (-1e26 / 1e6) = -1e20 := by decide +kernel
  have hbound : |(-10 ^ 20 : ℤ)| < 10 ^ 21 := by norm_num
  obtain ⟨hread, hdigits⟩ := pinText_lossless hfinite
  rw [hmhz] at hread
  exact ⟨hfinite, hread, hvalue, hbound, hdigits _ hvalue hbound⟩

end Frequency

end ClockSynth
