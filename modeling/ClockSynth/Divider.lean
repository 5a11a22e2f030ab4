/-!
# Dividers

A divider range counts up from `low` by ones and stops before `high`. `DividerRange.values` is the
whole count; `DividerRange.first?` walks it only as far as it must, which matters where the count
is long, and answers what a search of `values` would (`first?_eq_find?`). An output takes the first
divider that brings it within its tolerance (`DividerRange.resolve?`).
-/

namespace ClockSynth

/-- The dividers `low`, `low + 1`, … below `high`. -/
structure DividerRange where
  low : Float
  high : Float
deriving DecidableEq, Inhabited

namespace DividerRange

/-- There are no more doubles than this, and a count that ends meets none of them twice. -/
def steps : Nat :=
  UInt64.size

/-- Counts on from `d`, below `high` and for so many steps. -/
def countFrom (high : Float) : Nat → Float → List Float
  | 0, _ => []
  | n + 1, d => if d < high then d :: countFrom high n (d + 1) else []

/-- All dividers of the range in ascending order. -/
def values (r : DividerRange) : List Float :=
  countFrom r.high steps r.low

def count (r : DividerRange) : Float :=
  r.values.length.toFloat

/-- Counts like `countFrom`, to the first divider that passes. -/
@[specialize]
def firstFrom? (p : Float → Bool) (high : Float) : Nat → Float → Option Float
  | 0, _ => none
  | n + 1, d => if d < high then if p d then some d else firstFrom? p high n (d + 1) else none

/-- The first divider of the range that passes. -/
@[inline]
def first? (r : DividerRange) (p : Float → Bool) : Option Float :=
  firstFrom? p r.high steps r.low

/-- The first divider that brings an output of this VCO within the margin of its frequency. -/
def resolve? (r : DividerRange) (vco frequency margin : Float) : Option Float :=
  let tolerance := frequency * margin
  r.first? fun d => (vco / d - frequency).abs ≤ tolerance

theorem firstFrom?_eq_find? (p : Float → Bool) (high : Float) :
    ∀ n d, firstFrom? p high n d = (countFrom high n d).find? p
  | 0, _ => rfl
  | n + 1, d => by
    unfold firstFrom? countFrom
    split
    · rw [List.find?_cons]
      cases hp : p d
      · simp [firstFrom?_eq_find? p high n]
      · simp
    · rfl

theorem first?_eq_find? (r : DividerRange) (p : Float → Bool) : r.first? p = r.values.find? p :=
  firstFrom?_eq_find? p r.high steps r.low

theorem resolve?_eq_find? (r : DividerRange) (vco frequency margin : Float) :
    r.resolve? vco frequency margin
      = r.values.find? fun d => (vco / d - frequency).abs ≤ frequency * margin :=
  first?_eq_find? r _

end DividerRange

end ClockSynth
