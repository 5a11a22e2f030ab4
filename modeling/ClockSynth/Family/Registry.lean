import ClockSynth.Error
import ClockSynth.Family
import ClockSynth.Record

/-!
# The families known by name

A registry starts with the built-in family. A family that allows more outputs than it has letters
for is refused; any other is filed under its id, in the place of an earlier family of that id if
there is one.
-/

namespace ClockSynth

/-- Families under their ids, in the order in which the ids were first accepted. -/
structure Registry where
  byId : Record Family

namespace Registry

def families (r : Registry) : List Family :=
  r.byId.values

def find (r : Registry) (id : String) : Except Error Family :=
  match r.byId.get? id with
  | some f => .ok f
  | none => .error (.unknownFamily id)

/-- A slot that the family allows may be left without a letter. -/
def lacksLetters (f : Family) : Bool :=
  f.slotLetters.length.toFloat < f.limits.maxOutputs

def register (r : Registry) (f : Family) : Except Error Registry :=
  if lacksLetters f then .error (.unnamedSlots f.id f.slotLetters.length f.limits.maxOutputs)
  else .ok ⟨r.byId.insert f.id f⟩

def builtin : Registry :=
  ⟨Record.ofList [(Family.ecp5.id, Family.ecp5)]⟩

instance : Inhabited Registry := ⟨builtin⟩

theorem find_register_self {r s : Registry} {f : Family} (h : r.register f = .ok s) :
    s.find f.id = .ok f := by
  unfold register at h
  split at h
  · cases h
  · cases h
    simp [find, Record.get?_insert_self]

theorem find_register_of_ne {r s : Registry} {f : Family} {id : String}
    (h : r.register f = .ok s) (hne : id ≠ f.id) : s.find id = r.find id := by
  unfold register at h
  split at h
  · cases h
  · cases h
    simp [find, Record.get?_insert_of_ne _ _ hne]

end Registry

end ClockSynth
