import ClockSynth.Number.Decimal

/-!
# How a number is written

`Number.text` writes the fewest digits that read back, positionally from a millionth up to `10 ^ 21`
and with a power of ten outside that. `Number.fixed` writes a fixed number of places, a half going
away from zero, and falls back on `Number.text` from `10 ^ 21` on. Zero is written without a sign
by both, but a negative number that rounds to zero keeps its sign.
-/

namespace ClockSynth

namespace Decimal

/-- The point stands after this many digits of the coefficient. -/
def point (d : Decimal) : Int :=
  d.digits.length + d.exponent

/-- The power of ten of the first digit, with its sign. -/
def power (d : Decimal) : List Char :=
  let p := d.point - 1
  'e' :: (if p < 0 then '-' else '+') :: Nat.toDigits 10 p.natAbs

/-- Writes a positive decimal without zeros at the end of its coefficient. -/
def written (d : Decimal) : List Char :=
  let s := d.digits
  let p := d.point
  if 0 < p ∧ p ≤ 21 then
    if s.length ≤ p.toNat then s ++ List.replicate (p.toNat - s.length) '0'
    else s.take p.toNat ++ '.' :: s.drop p.toNat
  else if -6 < p ∧ p ≤ 0 then
    '0' :: '.' :: (List.replicate (-p).toNat '0' ++ s)
  else
    match s with
    | first :: second :: rest => first :: '.' :: second :: rest ++ d.power
    | _ => s ++ d.power

/-- The shortest decimal that reads as the positive double `m · 2 ^ e`. -/
def shortest (x : Float) (m : Nat) (e : Int) : Decimal :=
  let d := ofExact m e
  d.shorten x (d.digits.length - 1)

end Decimal

namespace Number

open Float.Model (UnpackedFloat)

/-- A minus in front of what is negative. -/
def signed (sign : UnpackedFloat.Sign) (cs : List Char) : List Char :=
  match sign with
  | .positive => cs
  | .negative => '-' :: cs

def chars (x : Float) : List Char :=
  match x.toModel.unpack with
  | .notANumber => "NaN".toList
  | .infinity sign => signed sign "Infinity".toList
  | .zero _ => ['0']
  | .finite sign m e _ => signed sign (Decimal.shortest x.abs m e).written

/-- The shortest text that reads back as `x`. -/
def text (x : Float) : String :=
  String.ofList (chars x)

/-- Puts the point before the last `places` digits, with at least one digit before it. -/
def pointed (n places : Nat) : List Char :=
  let s := Nat.toDigits 10 n
  let s := List.replicate (places + 1 - s.length) '0' ++ s
  if places = 0 then s else s.take (s.length - places) ++ '.' :: s.drop (s.length - places)

def fixedChars (x : Float) (places : Nat) : List Char :=
  if x.abs < 1e21 then
    match x.toModel.unpack with
    | .finite sign m e _ => signed sign (pointed ((Decimal.ofExact m e).roundAt places) places)
    | _ => pointed 0 places
  else chars x

/-- `x` with exactly `places` places after the point. -/
def fixed (x : Float) (places : Nat) : String :=
  String.ofList (fixedChars x places)

end Number

end ClockSynth
