import ClockSynth.Proofs.Number.Arithmetic

/-!
# The same number

Two doubles are the same number if they are one double or the two zeros; so NaN is the same as
itself here, and the sign of a zero does not count. Comparisons and distances do not tell such
doubles apart (`Same.le_iff`, `Same.abs_sub_le_iff`), and nor do products (`Same.mul`).
-/

namespace ClockSynth.Number

open Float.Model Float.Model.UnpackedFloat

variable {x y z w : Float}

/-- One number: the doubles are one, or they compare as equal. -/
def Same (x y : Float) : Prop :=
  x = y ∨ (x == y) = true

theorem double_mul_comm (x y : Float) : x * y = y * x := by
  have hmul (u v : UnpackedFloat) :
      UnpackedFloat.mul Format.binary64 u v = UnpackedFloat.mul Format.binary64 v u := by
    rcases u with s | _ | s | ⟨s, m, e, hm⟩ <;> rcases v with t | _ | t | ⟨t, n, f, hn⟩ <;>
      simp only [UnpackedFloat.mul, Nat.mul_comm, Int.add_comm]
    all_goals cases s <;> cases t <;> rfl
  show Float.ofModel (Float.Model.pack (UnpackedFloat.mul _ _ _))
    = Float.ofModel (Float.Model.pack (UnpackedFloat.mul _ _ _))
  rw [hmul]

namespace Same

theorem refl (x : Float) : Same x x :=
  .inl rfl

theorem symm (h : Same x y) : Same y x :=
  h.imp Eq.symm double_beq_symm

theorem trans (h : Same x y) (h' : Same y z) : Same x z := by
  rcases h with rfl | h
  · exact h'
  rcases h' with rfl | h'
  · exact .inr h
  · exact .inr (double_beq_trans h h')

theorem le_of_le (h : Same x y) (hle : w ≤ x) : w ≤ y := by
  rcases h with rfl | h
  · exact hle
  obtain ⟨-, hy, hline⟩ := beq_iff.1 h
  obtain ⟨hw, -, hx⟩ := le_iff.1 hle
  exact le_iff.2 ⟨hw, hy, hline ▸ hx⟩

theorem le_iff (h : Same x y) : w ≤ x ↔ w ≤ y :=
  ⟨h.le_of_le, h.symm.le_of_le⟩

theorem abs_sub_le_iff (h : Same y z) : (x - y).abs ≤ w ↔ (x - z).abs ≤ w := by
  rcases h with rfl | h
  · exact Iff.rfl
  · exact ⟨abs_sub_le_of_beq h, abs_sub_le_of_beq (double_beq_symm h)⟩

theorem eq_or_zero (h : Same x y) :
    x = y ∨ (∃ s, x.toModel.unpack = .zero s) ∧ ∃ t, y.toModel.unpack = .zero t :=
  h.elim .inl eq_or_zero_of_beq

/-- With a finite factor zeros give zeros, and with any other one NaN. -/
theorem zero_mul {s t : Sign} (hx : x.toModel.unpack = .zero s)
    (hy : y.toModel.unpack = .zero t) (z : Float) : Same (x * z) (y * z) := by
  cases hz : z.isFinite with
  | true =>
    obtain ⟨hxf, hxv⟩ := isFinite_of_unpack_zero hx
    obtain ⟨hyf, hyv⟩ := isFinite_of_unpack_zero hy
    have hxz := roundsTo_mul hxf hz
    rw [hxv, ← hyv] at hxz
    exact .inr (hxz.beq (roundsTo_mul hyf hz))
  | false =>
    left
    show Float.ofModel (Float.Model.pack (UnpackedFloat.mul _ _ _))
      = Float.ofModel (Float.Model.pack (UnpackedFloat.mul _ _ _))
    rw [hx, hy]
    rcases infinite_cases hz with hu | ⟨u, hu⟩ <;> rw [hu] <;> rfl

theorem mul {x' y' : Float} (hx : Same x x') (hy : Same y y') : Same (x * y) (x' * y') := by
  have hleft : Same (x * y) (x' * y) := by
    rcases hx.eq_or_zero with rfl | ⟨⟨s, hu⟩, t, hv⟩
    exacts [refl _, zero_mul hu hv y]
  have hright : Same (y * x') (y' * x') := by
    rcases hy.eq_or_zero with rfl | ⟨⟨s, hu⟩, t, hv⟩
    exacts [refl _, zero_mul hu hv x']
  rw [double_mul_comm y, double_mul_comm y'] at hright
  exact hleft.trans hright

end Same

end ClockSynth.Number
