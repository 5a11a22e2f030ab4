import ClockSynth.Number.Decimal
import ClockSynth.Text.Blank

/-!
# How a number is read

`Number.read?` reads a whole text as one numeral: decimal digits with a point and a power of ten if
wanted and a sign in front, or `Infinity` in place of the digits, or digits to the base 16, 8 or 2
after `0x`, `0o` or `0b`, without a sign. Blanks around the numeral do not count, and a text of
blanks alone is zero. The value is the double nearest to what is written.
-/

namespace ClockSynth.Number

/-- The value of a digit; letters go on after nine. -/
def digit? (c : Char) : Option Nat :=
  if c.isDigit then some (c.toNat - '0'.toNat)
  else if 'a' ≤ c ∧ c ≤ 'z' then some (c.toNat - 'a'.toNat + 10)
  else if 'A' ≤ c ∧ c ≤ 'Z' then some (c.toNat - 'A'.toNat + 10)
  else none

/-- The digits to a base; there is at least one, and all are below the base. -/
def digits? (base : Nat) (cs : List Char) : Option (List Nat) := do
  let ds ← cs.mapM digit?
  if ds ≠ [] ∧ ds.all (· < base) then some ds else none

/-- The natural number with the given digits, the first one the heaviest. -/
def ofDigits (base : Nat) (ds : List Nat) : Nat :=
  ds.foldl (fun n d => base * n + d) 0

/-- Digits to a base and nothing else. -/
def natural? (base : Nat) (cs : List Char) : Option Nat :=
  (digits? base cs).map (ofDigits base)

/-- A natural number with an optional sign. -/
def integer? (cs : List Char) : Option Int :=
  match cs with
  | '-' :: cs => (natural? 10 cs).map fun n => -n
  | '+' :: cs => (natural? 10 cs).map fun n => n
  | cs => (natural? 10 cs).map fun n => n

/-- The power of ten after the digits: nothing at all, or `e` and an integer. -/
def power? (cs : List Char) : Option Int :=
  match cs with
  | [] => some 0
  | 'e' :: cs => integer? cs
  | 'E' :: cs => integer? cs
  | _ => none

/-- Digits with a point among them or not, and a power of ten. -/
def decimal? (cs : List Char) : Option Decimal := do
  let before := cs.takeWhile Char.isDigit
  let rest := cs.dropWhile Char.isDigit
  let after := if rest.head? = some '.' then rest.tail.takeWhile Char.isDigit else []
  let rest := if rest.head? = some '.' then rest.tail.dropWhile Char.isDigit else rest
  let n ← natural? 10 (before ++ after)
  let p ← power? rest
  return ⟨n, p - after.length⟩

/-- A numeral without a sign. -/
def unsigned? (cs : List Char) : Option Float :=
  if cs = "Infinity".toList then some (1.0 / 0.0) else (decimal? cs).map Decimal.nearest

/-- Digits to a base, as a double. -/
def based? (base : Nat) (cs : List Char) : Option Float :=
  (natural? base cs).map fun n => Decimal.nearest ⟨n, 0⟩

/-- A numeral with nothing around it. -/
def numeral? (cs : List Char) : Option Float :=
  match cs with
  | [] => some 0.0
  | '+' :: cs => unsigned? cs
  | '-' :: cs => (unsigned? cs).map (- ·)
  | '0' :: 'x' :: cs => based? 16 cs
  | '0' :: 'X' :: cs => based? 16 cs
  | '0' :: 'o' :: cs => based? 8 cs
  | '0' :: 'O' :: cs => based? 8 cs
  | '0' :: 'b' :: cs => based? 2 cs
  | '0' :: 'B' :: cs => based? 2 cs
  | cs => unsigned? cs

/-- The number that a text writes, if it writes one. -/
def read? (s : String) : Option Float :=
  numeral? (Text.trim s.toList)

end ClockSynth.Number
