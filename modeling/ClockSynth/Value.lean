/-!
# Loose data

What comes from outside before it is checked, and what a log line carries: numbers, texts and truth
values, lists of them and objects with named fields, at any depth. A value that is not there
(`absent`) differs from one that is there and empty (`null`).
-/

namespace ClockSynth

/-- A piece of loose data. The fields of an object are writes in order: of two to one name the later
counts. -/
inductive Value where
  | absent
  | null
  | bool (b : Bool)
  | number (x : Float)
  | text (s : String)
  | array (items : List Value)
  | object (fields : List (String × Value))
deriving Inhabited

end ClockSynth
