import ClockSynth.Number.Text
import ClockSynth.Proofs.Number.Natural

/-!
# What a decimal is worth

A decimal stands for a rational, its `value`, and the double nearest to it depends on nothing else
(`nearest_beq`). The decimal of a finite double has the value of the double, zeros can be moved out
of the coefficient without a change, and so the shortest decimal of a double reads as it
(`nearest_shortest`).
-/

namespace ClockSynth.Decimal

open Float.Model.UnpackedFloat
open Number (RoundsTo packs_ofScientific)

/-- The rational that a decimal stands for. -/
def value (d : Decimal) : ℚ :=
  d.coefficient * 10 ^ d.exponent

theorem roundsTo_nearest (d : Decimal) : RoundsTo d.value d.nearest :=
  (packs_ofScientific d.coefficient d.exponent).roundsTo

theorem nearest_beq {c d : Decimal} (h : c.value = d.value) : (c.nearest == d.nearest) = true :=
  c.roundsTo_nearest.beq (h ▸ d.roundsTo_nearest)

theorem value_ofExact (m : ℕ) (e : ℤ) : (ofExact m e).value = m * 2 ^ e := by
  unfold ofExact
  split_ifs with he
  · obtain ⟨k, rfl⟩ := Int.eq_ofNat_of_zero_le he
    simp [value, Nat.shiftLeft_eq]
  · obtain ⟨k, hk⟩ := Int.eq_ofNat_of_zero_le (by omega : 0 ≤ -e)
    obtain rfl : e = -(k : ℤ) := by omega
    have hten : (10 : ℚ) ^ k = 5 ^ k * 2 ^ k := by
      rw [← mul_pow]
      norm_num
    simp [value, hten]
    field_simp

theorem value_dropZeros : ∀ (n : ℕ) (d : Decimal), (dropZeros n d).value = d.value
  | 0, _ => rfl
  | n + 1, d => by
    unfold dropZeros
    split_ifs with h
    · have hc : ((d.coefficient / 10 : ℕ) : ℚ) * 10 = d.coefficient := by
        exact_mod_cast Nat.div_mul_cancel (Nat.dvd_of_mod_eq_zero h.2)
      rw [value_dropZeros n, value, value, ← hc, zpow_add_one₀ (by norm_num)]
      ring
    · rfl

theorem value_strip (d : Decimal) : d.strip.value = d.value :=
  value_dropZeros _ d

section Nearest

variable {x : Float} {s : Sign} {m : ℕ} {e : ℤ} {hm : 0 < m} {d : Decimal}

/-- A decimal that is worth as much as a double, but for the sign, reads as its size. -/
theorem nearest_of_value (h : x.toModel.unpack = .finite s m e hm) (hd : d.value = m * 2 ^ e) :
    d.nearest.isFinite = true ∧ Number.value d.nearest = m * 2 ^ e := by
  have hr := d.roundsTo_nearest
  rw [hd, ← Number.abs_value_of_unpack h] at hr
  rw [← Number.abs_value_of_unpack h]
  refine Number.isFinite_of_isDouble hr (Number.isDouble_value x).abs ?_
  rw [abs_abs]
  exact Number.abs_value_lt x

/-- The shortest decimal of a double reads as its size. -/
theorem nearest_shortest (h : x.toModel.unpack = .finite s m e hm) :
    ((shortest x.abs m e).nearest == x.abs) = true := by
  refine nearest_shorten ?_ _
  have hvalue : (ofExact m e).strip.value = m * 2 ^ e := by rw [value_strip, value_ofExact]
  obtain ⟨hnf, hnv⟩ := nearest_of_value h hvalue
  obtain ⟨haf, hav⟩ := Number.value_abs (Number.isFinite_of_unpack h).1
  rw [Number.beq_iff_value hnf haf, hnv, hav, Number.abs_value_of_unpack h]

end Nearest

end ClockSynth.Decimal
