import ClockSynth.Primitive
import ClockSynth.Proofs.Number.Error
import ClockSynth.Proofs.Number.Natural

/-!
# The coarse phase

The coarse phase is cut from a sum that three roundings lead to. A phase in eighths of a degree puts
the exact sum on a whole number, or one part in 2880 and more before the next one. In this gap there
is a double that no rounding passes, `1 / 2 ^ 12` before the whole number (`Inside`). So what is cut
is what exact arithmetic would cut (`coarsePhase_eighths`).
-/

namespace ClockSynth

namespace Number

/-- The double stands at `n` or after it, and before `n + 1` by `1 / 2 ^ 12` or more. -/
structure Inside (n : ℕ) (x : Float) : Prop where
  finite : x.isFinite = true
  ge : (n : ℚ) ≤ value x
  le : value x ≤ n + 1 - 1 / 2 ^ 12

variable {n m : ℕ} {x y : Float} {q : ℚ}

/-- Both ends are doubles, so rounding does not lead out. -/
theorem RoundsTo.inside (h : RoundsTo q x) (hn : n ≤ 2 ^ 40) (hge : (n : ℚ) ≤ q)
    (hle : q ≤ n + 1 - 1 / 2 ^ 12) : Inside n x := by
  have hn' : (n : ℚ) ≤ 2 ^ 40 := by exact_mod_cast hn
  have hlast : IsDouble ((n : ℚ) + 1 - 1 / 2 ^ 12) := by
    have hd := @isDouble_div_two_pow ((n + 1) * 2 ^ 12 - 1) 12 (by rw [abs_lt]; omega) (by norm_num)
    convert hd using 1
    push_cast
    ring
  have h0 : (0 : ℚ) ≤ n := n.cast_nonneg
  obtain ⟨hf, hv⟩ := h.finite_of_abs_le (abs_le.2 ⟨by linarith, by linarith⟩)
  refine ⟨hf, ?_, ?_⟩ <;> rw [hv]
  · exact le_nearest_of_isDouble (isDouble_natCast (by omega)) hge
  · exact nearest_le_of_isDouble hlast hle

theorem Inside.add (h : Inside n x) (hy : toNat? y = some m) (hn : n + m ≤ 2 ^ 40) :
    Inside (n + m) (x + y) := by
  obtain ⟨hyf, hyv⟩ := value_of_toNat? hy
  have hr := roundsTo_add h.finite hyf
  rw [hyv] at hr
  have hge := h.ge
  have hle := h.le
  refine hr.inside hn ?_ ?_ <;> push_cast <;> linarith

theorem Inside.sub (h : Inside (n + m) x) (hy : toNat? y = some m) (hn : n ≤ 2 ^ 40) :
    Inside n (x - y) := by
  obtain ⟨hyf, hyv⟩ := value_of_toNat? hy
  have hr := roundsTo_sub h.finite hyf
  rw [hyv] at hr
  have hge := h.ge
  have hle := h.le
  push_cast at hge hle
  refine hr.inside hn ?_ ?_ <;> linarith

theorem Inside.toNat?_trunc (h : Inside n x) : toNat? (trunc x) = some n :=
  Number.toNat?_trunc h.finite h.ge (h.le.trans_lt (by linarith))

end Number

open Number

/-- The phase is `k` eighths of a degree. -/
structure Eighths (degrees : Float) (k : ℕ) : Prop where
  finite : degrees.isFinite = true
  value_eq : value degrees = k / 8

variable {x y : Float} {k d : ℕ}

theorem toNat?_turn : toNat? 360 = some 360 :=
  toNat?_toFloat (by norm_num)

namespace Eighths

theorem of_roundsTo (h : RoundsTo (k / 8) x) (hk : k ≤ 2 ^ 41) : Eighths x k := by
  have hk' : (k : ℚ) ≤ 2 ^ 41 := by exact_mod_cast hk
  have hdouble : IsDouble ((k : ℚ) / 8) := by
    have hd := @isDouble_div_two_pow k 3 (by rw [Nat.abs_cast]; omega) (by norm_num)
    norm_num at hd
    exact hd
  have h0 : (0 : ℚ) ≤ k / 8 := by positivity
  obtain ⟨hf, hv⟩ := h.finite_of_abs_le (by rw [abs_of_nonneg h0]; linarith)
  exact ⟨hf, hv.trans (nearest_eq_self hdouble)⟩

theorem le_iff {x' : Float} {k' : ℕ} (h : Eighths x k) (h' : Eighths x' k') :
    x ≤ x' ↔ k ≤ k' := by
  rw [le_iff_value h.finite h'.finite, h.value_eq, h'.value_eq,
    div_le_div_iff_of_pos_right (by norm_num), Nat.cast_le]

theorem add_turn (h : Eighths x k) (hk : k ≤ 2 ^ 40) : Eighths (x + 360) (k + 2880) := by
  obtain ⟨hf, hv⟩ := value_of_toNat? toNat?_turn
  have hr := roundsTo_add h.finite hf
  rw [h.value_eq, hv] at hr
  refine of_roundsTo ?_ (by omega)
  convert hr using 1
  push_cast
  ring

theorem mul (h : Eighths x k) (hy : toNat? y = some d) (hk : k * d ≤ 2 ^ 40) :
    Eighths (x * y) (k * d) := by
  obtain ⟨hf, hv⟩ := value_of_toNat? hy
  have hr := roundsTo_mul h.finite hf
  rw [h.value_eq, hv] at hr
  refine of_roundsTo ?_ (by omega)
  convert hr using 1
  push_cast
  ring

/-- What is left over when whole turns are taken out is no more than 2879 parts in 2880. -/
theorem div_turn (h : Eighths x k) (hk : k ≤ 2 ^ 40) : Inside (k / 2880) (x / 360) := by
  obtain ⟨hf, hv⟩ := value_of_toNat? toNat?_turn
  have hr := roundsTo_div h.finite hf (by rw [hv]; norm_num)
  rw [h.value_eq, hv] at hr
  have hk' : (k : ℚ) = 2880 * (k / 2880 : ℕ) + (k % 2880 : ℕ) := by
    exact_mod_cast (Nat.div_add_mod k 2880).symm
  have hmod : ((k % 2880 : ℕ) : ℚ) ≤ 2879 := by
    exact_mod_cast Nat.le_of_lt_succ (Nat.mod_lt k (by norm_num))
  have hmod0 : (0 : ℚ) ≤ (k % 2880 : ℕ) := Nat.cast_nonneg _
  refine hr.inside (by omega) ?_ ?_ <;> push_cast <;> linarith

end Eighths

theorem toNat?_coarsePhase (hx : Eighths x k) (hy : toNat? y = some d) (hpos : 1 ≤ d)
    (hd : d ≤ 2 ^ 20) (hk : k * (d + 1) ≤ 2 ^ 40) :
    toNat? (coarsePhase x y) = some (k * (d + 1) / 2880 + d - 1) := by
  have hstep : toNat? (y + 1) = some (d + 1) := toNat?_add hy toNat?_one (by omega)
  have hturns := (hx.mul hstep hk).div_turn hk
  have hsum := hturns.add hy (by omega)
  have hidle : k * (d + 1) / 2880 + d - 1 + 1 = k * (d + 1) / 2880 + d := by omega
  rw [← hidle] at hsum
  exact (hsum.sub toNat?_one (by omega)).toNat?_trunc

/-- On phases in eighths of a degree the coarse phase is that of exact arithmetic, as long as phase
and divider are not too large together. It does not fall as the phase grows, and a whole turn more
is one more round of the counter. -/
theorem coarsePhase_eighths (hx : Eighths x k) (hy : toNat? y = some d) (hpos : 1 ≤ d)
    (hd : d ≤ 2 ^ 20) (hk : k * (d + 1) ≤ 2 ^ 40) :
    toNat? (coarsePhase x y) = some (k * (d + 1) / 2880 + d - 1)
      ∧ (∀ x' k', Eighths x' k' → k' * (d + 1) ≤ 2 ^ 40 → x ≤ x' →
          coarsePhase x y ≤ coarsePhase x' y)
      ∧ ((k + 2880) * (d + 1) ≤ 2 ^ 40 →
          toNat? (coarsePhase (x + 360) y)
            = some (k * (d + 1) / 2880 + d - 1 + (d + 1))) := by
  have hphase := toNat?_coarsePhase hx hy hpos hd hk
  refine ⟨hphase, fun x' k' hx' hk' hle => ?_, fun hturn => ?_⟩
  · have hphase' := toNat?_coarsePhase hx' hy hpos hd hk'
    rw [le_iff_of_toNat? hphase hphase']
    have hmul := Nat.mul_le_mul_right (d + 1) ((hx.le_iff hx').1 hle)
    have hdiv : k * (d + 1) / 2880 ≤ k' * (d + 1) / 2880 := Nat.div_le_div_right hmul
    omega
  · have hk40 : k ≤ 2 ^ 40 := (Nat.le_mul_of_pos_right k d.succ_pos).trans hk
    rw [toNat?_coarsePhase (hx.add_turn hk40) hy hpos hd hturn]
    have hround : (k + 2880) * (d + 1) / 2880 = k * (d + 1) / 2880 + (d + 1) := by
      rw [Nat.add_mul, Nat.add_mul_div_left _ _ (by norm_num)]
    rw [hround]
    congr 1
    omega

/-- Eight steps a turn, and a phase just past the first of them. -/
theorem coarsePhase_eighths_seven :
    Eighths 45.125 361 ∧ toNat? 7 = some 7
      ∧ toNat? (coarsePhase 45.125 7) = some 7
      ∧ coarsePhase 45.125 7 ≤ coarsePhase 90 7
      ∧ toNat? (coarsePhase (45.125 + 360) 7) = some 15 := by
  have hphase : Eighths 45.125 361 := ⟨by decide +kernel, by decide +kernel⟩
  have hlater : Eighths 90 720 := ⟨by decide +kernel, by decide +kernel⟩
  have hdivider : toNat? 7 = some 7 := by decide +kernel
  obtain ⟨hvalue, hmono, hturn⟩ :=
    coarsePhase_eighths hphase hdivider (by norm_num) (by norm_num) (by norm_num)
  exact ⟨hphase, hdivider, hvalue, hmono 90 720 hlater (by norm_num) (by decide +kernel),
    hturn (by norm_num)⟩

end ClockSynth
