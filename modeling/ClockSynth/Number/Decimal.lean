import ClockSynth.Number.Exact

/-!
# Decimals and the doubles nearest to them

Every finite double is a decimal exactly (`Decimal.ofExact`), and every decimal has a nearest
double (`Decimal.nearest`). Between the two stand the roundings that printing needs: the shortest
decimal that still reads back as a given double (`Decimal.shorten`, with `nearest_shorten`), and
the nearest one with a fixed number of places (`Decimal.roundAt`).
-/

namespace ClockSynth

/-- The number `coefficient · 10 ^ exponent`. -/
structure Decimal where
  coefficient : Nat
  exponent : Int
deriving DecidableEq, Repr

namespace Decimal

/-- The double nearest to a decimal, ties to the even one, and infinity past the largest. -/
def nearest (d : Decimal) : Float :=
  .ofModel (.ofScientific d.coefficient d.exponent)

/-- `m · 2 ^ e`, written as a decimal: a half is five tenths. -/
def ofExact (m : Nat) (e : Int) : Decimal :=
  if 0 ≤ e then ⟨m <<< e.toNat, 0⟩ else ⟨m * Nat.pow 5 (-e).toNat, e⟩

def digits (d : Decimal) : List Char :=
  Nat.toDigits 10 d.coefficient

/-- What a step in the place `k` before the last is worth. -/
def place (k : Nat) : Nat :=
  Nat.pow 10 k

/-- Moves zeros from the end of the coefficient into the exponent, so many at most. -/
def dropZeros : Nat → Decimal → Decimal
  | 0, d => d
  | n + 1, d =>
    if 0 < d.coefficient ∧ d.coefficient % 10 = 0 then
      dropZeros n ⟨d.coefficient / 10, d.exponent + 1⟩
    else d

/-- Moves all zeros from the end of the coefficient into the exponent. -/
def strip (d : Decimal) : Decimal :=
  dropZeros d.digits.length d

/-- The largest decimal not above `d` that does without the last `k` places of `d`. -/
def below (d : Decimal) (k : Nat) : Decimal :=
  strip ⟨d.coefficient / place k, d.exponent + k⟩

/-- The smallest decimal above `d` that does without the last `k` places of `d`. -/
def above (d : Decimal) (k : Nat) : Decimal :=
  strip ⟨d.coefficient / place k + 1, d.exponent + k⟩

/-- The nearer of the two neighbours of `d` that do without its last `k` places. If `d` stands halfway
between them, it is the one whose last place is even. -/
def nearer (d : Decimal) (k : Nat) : Decimal :=
  match compare (2 * (d.coefficient % place k)) (place k) with
  | .lt => d.below k
  | .gt => d.above k
  | .eq => if d.coefficient / place k % 2 = 0 then d.below k else d.above k

/-- The neighbour of `d` without its last `k` places that reads as `x`; of two such the nearer. -/
def neighbour? (d : Decimal) (x : Float) (k : Nat) : Option Decimal :=
  match (d.below k).nearest == x, (d.above k).nearest == x with
  | true, true => some (d.nearer k)
  | true, false => some (d.below k)
  | false, true => some (d.above k)
  | false, false => none

/-- Drops as many places of `d` as it can, and `k` at most, so that the rest still reads as `x`. -/
def shorten (d : Decimal) (x : Float) : Nat → Decimal
  | 0 => d.strip
  | k + 1 =>
    match d.neighbour? x (k + 1) with
    | some s => s
    | none => d.shorten x k

/-- The natural number nearest to `d · 10 ^ places`; halfway goes up. -/
def roundAt (d : Decimal) (places : Nat) : Nat :=
  let e := d.exponent + places
  if 0 ≤ e then d.coefficient * place e.toNat
  else (2 * d.coefficient + place (-e).toNat) / (2 * place (-e).toNat)

theorem nearest_nearer {d : Decimal} {x : Float} {k : Nat} (hb : (d.below k).nearest == x)
    (ha : (d.above k).nearest == x) : (d.nearer k).nearest == x := by
  unfold nearer
  split
  · exact hb
  · exact ha
  · split
    · exact hb
    · exact ha

theorem nearest_of_neighbour? {d s : Decimal} {x : Float} {k : Nat}
    (h : d.neighbour? x k = some s) : s.nearest == x := by
  unfold neighbour? at h
  split at h
  · rename_i hb ha
    cases h
    exact nearest_nearer hb ha
  · rename_i hb _
    cases h
    exact hb
  · rename_i _ ha
    cases h
    exact ha
  · cases h

/-- What is left after shortening reads as `x` if the whole does. -/
theorem nearest_shorten {d : Decimal} {x : Float} (h : d.strip.nearest == x) :
    ∀ k, (d.shorten x k).nearest == x
  | 0 => h
  | k + 1 => by
    unfold shorten
    split
    · rename_i s hs
      exact nearest_of_neighbour? hs
    · exact nearest_shorten h k

end Decimal

end ClockSynth
