/-!
# Doubles read exactly

Frequencies, dividers and slots are all doubles. A finite one is `± m · 2 ^ e` for a natural `m`
and an integer `e`, which `Float.Model.unpack` gives. Everything here is read off that form, with
no rounding: the part before the point (`trunc`), whether there is anything after it (`isInteger`),
and the natural number a double stands for, if it stands for one (`toNat?`).
-/

namespace ClockSynth.Number

open Float.Model (UnpackedFloat)

/-- The whole part of `m · 2 ^ e`. -/
def whole (m : Nat) (e : Int) : Nat :=
  if 0 ≤ e then m <<< e.toNat else m >>> (-e).toNat

/-- Nothing of `m · 2 ^ e` stands after the point. -/
def isWhole (m : Nat) (e : Int) : Bool :=
  0 ≤ e || m >>> (-e).toNat <<< (-e).toNat == m

/-- Cuts what stands after the point. The sign stays, also on a zero; the infinities and NaN are
their own whole part. -/
def trunc (x : Float) : Float :=
  match x.toModel.unpack with
  | .finite sign m e _ =>
    if 0 ≤ e then x
    else
      let q := (whole m e).toUInt64.toFloat
      match sign with
      | .positive => q
      | .negative => -q
  | _ => x

/-- A finite double with nothing after the point; both zeros count. -/
def isInteger (x : Float) : Bool :=
  match x.toModel.unpack with
  | .finite _ m e _ => isWhole m e
  | .zero _ => true
  | _ => false

/-- The natural number equal to `x`. Negative zero equals zero. -/
def toNat? (x : Float) : Option Nat :=
  match x.toModel.unpack with
  | .finite .positive m e _ => if isWhole m e then some (whole m e) else none
  | .zero _ => some 0
  | _ => none

end ClockSynth.Number
