import ClockSynth.Number.Numeral
import ClockSynth.Ranked

/-!
# Records

A record maps keys to values and remembers in which order the keys came. Writing to a key that is
there keeps its place (`keys_insert_of_mem`), any other key goes to the end. When a record is read
out (`enumerate`), keys that are indices in plain decimal come first, in ascending order, and the
others follow in the order in which they came.
-/

namespace ClockSynth

/-- Writes to a key in a list of fields, at its first place if it is there and else at the end. -/
def Record.put {α : Type} (key : String) (value : α) : List (String × α) → List (String × α)
  | [] => [(key, value)]
  | field :: rest =>
    if field.1 = key then (key, value) :: rest else field :: put key value rest

theorem Record.keys_put_of_mem {α : Type} {key : String} (value : α) :
    ∀ {fields : List (String × α)}, key ∈ fields.map Prod.fst →
      (put key value fields).map Prod.fst = fields.map Prod.fst
  | [], h => by simp at h
  | field :: rest, h => by
    unfold put
    split
    · rename_i hk
      simp [hk]
    · rename_i hk
      rw [List.map_cons, List.mem_cons] at h
      rw [List.map_cons, List.map_cons, keys_put_of_mem value (h.resolve_left fun e => hk e.symm)]

theorem Record.keys_put_of_not_mem {α : Type} {key : String} (value : α) :
    ∀ {fields : List (String × α)}, key ∉ fields.map Prod.fst →
      (put key value fields).map Prod.fst = fields.map Prod.fst ++ [key]
  | [], _ => rfl
  | field :: rest, h => by
    rw [List.map_cons, List.mem_cons, not_or] at h
    unfold put
    rw [if_neg fun e => h.1 e.symm, List.map_cons, keys_put_of_not_mem value h.2]
    rfl

/-- Named values in the order of their arrival, one to a name. -/
structure Record (α : Type) where
  fields : List (String × α)
  nodup : (fields.map Prod.fst).Nodup

namespace Record

variable {α β : Type}

def empty : Record α := ⟨[], List.nodup_nil⟩

instance : EmptyCollection (Record α) := ⟨empty⟩
instance : Inhabited (Record α) := ⟨empty⟩

def keys (r : Record α) : List String :=
  r.fields.map Prod.fst

def values (r : Record α) : List α :=
  r.fields.map Prod.snd

def size (r : Record α) : Nat :=
  r.fields.length

def get? (r : Record α) (key : String) : Option α :=
  r.fields.lookup key

def insert (r : Record α) (key : String) (value : α) : Record α where
  fields := put key value r.fields
  nodup := by
    by_cases h : key ∈ r.fields.map Prod.fst
    · rw [keys_put_of_mem value h]
      exact r.nodup
    · rw [keys_put_of_not_mem value h, List.nodup_append]
      exact ⟨r.nodup, List.pairwise_singleton _ _, fun a ha b hb e => by
        rw [List.mem_singleton] at hb
        exact h (hb ▸ e ▸ ha)⟩

def erase (r : Record α) (key : String) : Record α where
  fields := r.fields.filter (·.1 ≠ key)
  nodup := r.nodup.sublist ((List.filter_sublist).map Prod.fst)

/-- Writes the fields of a list one after the other onto a record. -/
def insertAll (r : Record α) (fields : List (String × α)) : Record α :=
  fields.foldl (fun r field => r.insert field.1 field.2) r

/-- The record that a list of writes leaves. -/
def ofList (fields : List (String × α)) : Record α :=
  insertAll ∅ fields

/-- The index that a key writes in plain decimal: no sign, no zero in front, below `2 ^ 32 - 1`. -/
def index? (key : String) : Option Nat :=
  (Number.natural? 10 key.toList).filter fun n =>
    n < 4294967295 && Nat.toDigits 10 n == key.toList

/-- The fields in the order in which they are read out. -/
def enumerate (r : Record α) : List (String × α) :=
  let (indexed, named) := r.fields.partition fun field => (index? field.1).isSome
  Ranked.sort (fun field => (index? field.1).getD 0) indexed ++ named

theorem keys_nodup (r : Record α) : r.keys.Nodup :=
  r.nodup

theorem keys_insert_of_mem {r : Record α} {key : String} (value : α) (h : key ∈ r.keys) :
    (r.insert key value).keys = r.keys :=
  keys_put_of_mem value h

theorem keys_insert_of_not_mem {r : Record α} {key : String} (value : α) (h : key ∉ r.keys) :
    (r.insert key value).keys = r.keys ++ [key] :=
  keys_put_of_not_mem value h

theorem get?_insert_self (r : Record α) (key : String) (value : α) :
    (r.insert key value).get? key = some value := by
  have h : ∀ fields : List (String × α), (put key value fields).lookup key = some value := by
    intro fields
    induction fields with
    | nil => simp [put]
    | cons field rest ih =>
      unfold put
      split
      · simp
      · rename_i hk
        rw [List.lookup_cons, beq_false_of_ne fun e => hk e.symm]
        exact ih
  exact h r.fields

theorem put_of_lookup {key : String} {value : α} :
    ∀ {fields : List (String × α)}, fields.lookup key = some value → put key value fields = fields
  | [], h => nomatch h
  | field :: rest, h => by
    unfold put
    rw [List.lookup_cons] at h
    split
    · rename_i hk
      rw [hk, beq_self_eq_true, Option.some.injEq] at h
      rw [← hk, ← h]
    · rename_i hk
      rw [beq_false_of_ne fun e => hk e.symm] at h
      rw [put_of_lookup h]

/-- Writing what is there changes nothing. -/
theorem insert_eq_self {r : Record α} {key : String} {value : α} (h : r.get? key = some value) :
    r.insert key value = r := by
  obtain ⟨fields, hnodup⟩ := r
  unfold insert
  congr 1
  exact put_of_lookup h

theorem get?_insert_of_ne (r : Record α) {key other : String} (value : α) (hne : other ≠ key) :
    (r.insert key value).get? other = r.get? other := by
  have h : ∀ fields : List (String × α),
      (put key value fields).lookup other = fields.lookup other := by
    intro fields
    induction fields with
    | nil => simp [put, List.lookup_cons, beq_false_of_ne hne]
    | cons field rest ih =>
      unfold put
      split
      · rename_i hk
        rw [List.lookup_cons, List.lookup_cons, hk]
        simp [beq_false_of_ne hne]
      · rw [List.lookup_cons, List.lookup_cons, ih]
  exact h r.fields

theorem get?_erase_self (r : Record α) (key : String) : (r.erase key).get? key = none := by
  have h : ∀ fields : List (String × α), (fields.filter (·.1 ≠ key)).lookup key = none := by
    intro fields
    induction fields with
    | nil => rfl
    | cons field rest ih =>
      by_cases hk : field.1 = key
      · simpa [hk] using ih
      · rw [List.filter_cons_of_pos (by simpa using hk), List.lookup_cons,
          beq_false_of_ne fun e => hk e.symm]
        exact ih
  exact h r.fields

theorem get?_erase_of_ne (r : Record α) {key other : String} (hne : other ≠ key) :
    (r.erase key).get? other = r.get? other := by
  have h : ∀ fields : List (String × α),
      (fields.filter (·.1 ≠ key)).lookup other = fields.lookup other := by
    intro fields
    induction fields with
    | nil => rfl
    | cons field rest ih =>
      by_cases hk : field.1 = key
      · rw [List.filter_cons_of_neg (by simpa using hk), List.lookup_cons, hk,
          beq_false_of_ne hne]
        exact ih
      · rw [List.filter_cons_of_pos (by simpa using hk), List.lookup_cons, List.lookup_cons, ih]
  exact h r.fields

theorem lookup_eq_some_iff {key : String} {value : α} :
    ∀ {fields : List (String × α)}, (fields.map Prod.fst).Nodup →
      (fields.lookup key = some value ↔ (key, value) ∈ fields)
  | [], _ => by simp
  | (k, v) :: rest, h => by
    rw [List.map_cons, List.nodup_cons] at h
    rw [List.lookup_cons, List.mem_cons]
    by_cases hk : key = k
    · subst hk
      have hn : (key, value) ∉ rest := fun hm => h.1 (List.mem_map.2 ⟨_, hm, rfl⟩)
      rw [beq_self_eq_true, or_iff_left hn, Prod.mk.injEq, Option.some.injEq]
      exact ⟨fun e => ⟨rfl, e.symm⟩, fun e => e.2.symm⟩
    · rw [beq_false_of_ne hk, lookup_eq_some_iff h.2, or_iff_right]
      rintro ⟨⟩
      exact hk rfl

/-- A name has the one value that stands with it. -/
theorem get?_eq_some_iff {r : Record α} {key : String} {value : α} :
    r.get? key = some value ↔ (key, value) ∈ r.fields :=
  lookup_eq_some_iff r.nodup

theorem put_of_not_mem {key : String} (value : α) :
    ∀ {fields : List (String × α)}, key ∉ fields.map Prod.fst →
      put key value fields = fields ++ [(key, value)]
  | [], _ => rfl
  | field :: rest, h => by
    rw [List.map_cons, List.mem_cons, not_or] at h
    unfold put
    rw [if_neg fun e => h.1 e.symm, put_of_not_mem value h.2]
    rfl

theorem fields_insertAll_of_nodup (r : Record α) :
    ∀ {l : List (String × α)}, ((r.fields ++ l).map Prod.fst).Nodup →
      (r.insertAll l).fields = r.fields ++ l := by
  intro l
  induction l generalizing r with
  | nil => simp [insertAll]
  | cons field rest ih =>
    intro h
    have hn : field.1 ∉ r.fields.map Prod.fst := by
      rw [List.map_append, List.nodup_append] at h
      exact fun hm => h.2.2 _ hm _ (by simp) rfl
    have hf : (r.insert field.1 field.2).fields = r.fields ++ [field] := put_of_not_mem _ hn
    have := ih (r.insert field.1 field.2) (by rw [hf]; simpa using h)
    rw [hf] at this
    simpa [insertAll] using this

/-- Writes to different names all stay. -/
theorem fields_ofList_of_nodup {l : List (String × α)} (h : (l.map Prod.fst).Nodup) :
    (ofList l).fields = l :=
  fields_insertAll_of_nodup empty h

/-- Nothing is lost or added when a record is read out. -/
theorem enumerate_perm (r : Record α) : r.enumerate.Perm r.fields := by
  unfold enumerate
  rw [List.partition_eq_filter_filter]
  exact ((Ranked.sort_perm _ _).append_right _).trans
    (List.filter_append_perm (fun field : String × α => (index? field.1).isSome) r.fields)

theorem mem_enumerate {r : Record α} {field : String × α} :
    field ∈ r.enumerate ↔ field ∈ r.fields :=
  r.enumerate_perm.mem_iff

end Record

end ClockSynth
