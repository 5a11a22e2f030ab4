import ClockSynth.Proofs.RoundTrip
import Mathlib.Data.List.Dedup

/-!
# Keys that write one slot

Different keys can write one slot, as `1` and `01` do. Of stored data with two such keys both outputs
are read; but a slot has one text, so storing them again keeps only the later one. This is the one way
in which the slots that are read are not distinct, and the one way in which something is lost
(`distinct_iff_of_read`). It cannot happen where each key is the text of its slot.
-/

namespace ClockSynth

open Number

namespace Record

variable {α : Type} {key other : String}

theorem mem_keys_insert {r : Record α} {value : α} :
    other ∈ (r.insert key value).keys ↔ other ∈ r.keys ∨ other = key := by
  by_cases h : key ∈ r.keys
  · rw [keys_insert_of_mem value h, iff_self_or]
    rintro rfl
    exact h
  · rw [keys_insert_of_not_mem value h, List.mem_append, List.mem_singleton]

theorem mem_keys_insertAll (r : Record α) (l : List (String × α)) :
    key ∈ (r.insertAll l).keys ↔ key ∈ r.keys ∨ key ∈ l.map Prod.fst := by
  induction l generalizing r with
  | nil => simp [insertAll]
  | cons field l ih =>
    rw [insertAll, List.foldl_cons, ← insertAll, ih, mem_keys_insert, List.map_cons,
      List.mem_cons, or_assoc]

/-- A list of writes leaves one field for each key in it. -/
theorem size_ofList (l : List (String × α)) :
    (ofList l).size = (l.map Prod.fst).dedup.length := by
  have hmem : ∀ key, key ∈ (ofList l).keys ↔ key ∈ (l.map Prod.fst).dedup := by
    intro key
    rw [List.mem_dedup, ofList, mem_keys_insertAll]
    exact or_iff_right List.not_mem_nil
  have hperm := (List.perm_ext_iff_of_nodup (ofList l).keys_nodup (List.nodup_dedup _)).2 hmem
  rw [← hperm.length_eq, keys, List.length_map, size]

theorem size_ofList_le (l : List (String × α)) : (ofList l).size ≤ l.length := by
  rw [size_ofList, ← List.length_map Prod.fst]
  exact (List.dedup_sublist _).length_le

/-- Nothing is lost just if no key is written twice. -/
theorem size_ofList_eq_iff {l : List (String × α)} :
    (ofList l).size = l.length ↔ (l.map Prod.fst).Nodup := by
  rw [size_ofList, ← List.length_map Prod.fst, ← List.dedup_eq_self]
  exact ⟨(List.dedup_sublist _).eq_of_length, congrArg List.length⟩

end Record

namespace Configuration

section Slots

variable {c : Configuration}

/-- No slot has two outputs. -/
def Distinct (c : Configuration) : Prop :=
  c.outputs.Pairwise fun a b => (a.slot == b.slot) = false

instance (c : Configuration) : Decidable c.Distinct :=
  inferInstanceAs (Decidable (c.outputs.Pairwise fun a b => (a.slot == b.slot) = false))

/-- The keys under which the outputs are stored. -/
def storedKeys (c : Configuration) : List String :=
  c.outputs.map fun o => text o.slot

theorem distinct_iff_nodup (h : ∀ o ∈ c.outputs, o.slot.isFinite = true) :
    c.Distinct ↔ c.storedKeys.Nodup := by
  rw [storedKeys, List.nodup_iff_pairwise_ne, List.pairwise_map]
  refine List.Pairwise.iff_of_mem fun {a b} ha hb => ?_
  rw [Ne, text_eq_iff (h a ha) (h b hb), Bool.not_eq_true]

theorem size_store_le (c : Configuration) : c.store.outputs.size ≤ c.outputs.length :=
  (Record.size_ofList_le _).trans_eq (List.length_map _)

theorem size_store_eq_iff : c.store.outputs.size = c.outputs.length ↔ c.storedKeys.Nodup := by
  have h := Record.size_ofList_eq_iff (l := c.outputs.map fun o => (text o.slot, o.store))
  rwa [List.length_map, List.map_map] at h

end Slots

section Aliased

variable {outs : Record Value} {outputs : List Output}

/-- Two different keys write one slot. -/
def Aliased (outs : Record Value) : Prop :=
  ∃ a ∈ outs.keys, ∃ b ∈ outs.keys, a ≠ b
    ∧ ∃ x y, IsSlot a x ∧ IsSlot b y ∧ (x == y) = true

/-- Each key is the text of the slot that it writes. -/
def Plain (outs : Record Value) : Prop :=
  ∀ key ∈ outs.keys, ∃ x, IsSlot key x ∧ text x = key

theorem Plain.not_aliased (h : Plain outs) : ¬ Aliased outs := by
  rintro ⟨a, ha, b, hb, hne, x, y, hx, hy, hbeq⟩
  obtain ⟨x', hx', hax⟩ := h a ha
  obtain ⟨y', hy', hby⟩ := h b hb
  obtain rfl := hx.unique hx'
  obtain rfl := hy.unique hy'
  exact hne (hax.symm.trans (((text_eq_iff hx.2.1 hy.2.1).2 hbeq).trans hby))

theorem Listed.length_eq (h : Listed outs outputs) : outputs.length = outs.size := by
  obtain ⟨read, hread, hperm, -⟩ := h.perm
  rw [hperm.length_eq, ← hread.length_eq, outs.enumerate_perm.length_eq, Record.size]

theorem Listed.exists_isSlot (h : Listed outs outputs) {key : String} (hkey : key ∈ outs.keys) :
    ∃ x, IsSlot key x := by
  obtain ⟨read, hread, -⟩ := h.perm
  obtain ⟨field, hfield, rfl⟩ := List.mem_map.1 hkey
  obtain ⟨o, -, ho⟩ := exists_right_of_mem_left hread field (Record.mem_enumerate.2 hfield)
  exact ⟨o.slot, ho.slot⟩

theorem Listed.isNatural (h : Listed outs outputs) {o : Output} (ho : o ∈ outputs) :
    IsNatural o.slot := by
  obtain ⟨read, hread, hperm, -⟩ := h.perm
  obtain ⟨field, -, hfield⟩ := exists_left_of_mem_right hread o (hperm.mem_iff.1 ho)
  exact hfield.slot.2

theorem Listed.isFinite (h : Listed outs outputs) {o : Output} (ho : o ∈ outputs) :
    o.slot.isFinite = true :=
  (h.isNatural ho).1

/-- The outputs that are read are stored under the texts of the slots that the keys write. -/
theorem Listed.texts_perm (h : Listed outs outputs) :
    (outputs.map fun o => some (text o.slot)).Perm
      (outs.keys.map fun key => (read? key).map text) := by
  obtain ⟨read, hread, hperm, -⟩ := h.perm
  have heq : (read.map fun o => some (text o.slot))
      = outs.enumerate.map fun field => (read? field.1).map text := by
    rw [eq_comm, ← List.forall₂_eq_eq_eq, List.forall₂_map_left_iff, List.forall₂_map_right_iff]
    exact hread.imp fun field o ho => by rw [ho.slot.1, Option.map_some]
  rw [Record.keys, List.map_map]
  exact (hperm.map _).trans (heq ▸ outs.enumerate_perm.map _)

theorem Listed.nodup_iff (h : Listed outs outputs) :
    (outputs.map fun o => text o.slot).Nodup ↔ ¬ Aliased outs := by
  rw [← List.nodup_map_iff (Option.some_injective _), List.map_map]
  refine h.texts_perm.nodup_iff.trans ?_
  rw [List.nodup_map_iff_inj_on outs.keys_nodup]
  constructor
  · rintro hinj ⟨a, ha, b, hb, hne, x, y, hx, hy, hbeq⟩
    refine hne (hinj a ha b hb ?_)
    rw [hx.1, hy.1, Option.map_some, Option.map_some, (text_eq_iff hx.2.1 hy.2.1).2 hbeq]
  · intro hnone a ha b hb hab
    obtain ⟨x, hx⟩ := h.exists_isSlot ha
    obtain ⟨y, hy⟩ := h.exists_isSlot hb
    rw [hx.1, hy.1, Option.map_some, Option.map_some, Option.some.injEq,
      text_eq_iff hx.2.1 hy.2.1] at hab
    by_contra hne
    exact hnone ⟨a, ha, b, hb, hne, x, y, hx, hy, hab⟩

end Aliased

/-- Whatever is read has one output for each key. The slots are distinct, and as many entries are
stored again as there were, just if no two keys write one slot; with plain keys it is always so. -/
theorem distinct_iff_of_read {data : Value} {c : Configuration} (h : read data = .ok c) :
    ∃ fields outs, Opens data fields outs ∧ c.outputs.length = outs.size
      ∧ (c.Distinct ↔ ¬ Aliased outs)
      ∧ c.store.outputs.size ≤ outs.size
      ∧ (c.store.outputs.size = outs.size ↔ ¬ Aliased outs)
      ∧ (Plain outs → c.Distinct ∧ c.store.outputs.size = outs.size) := by
  rcases readable_or_firstFault data with ⟨fields, outs, hopens, hreadable⟩ | ⟨fault, hfault⟩
  · obtain ⟨c', hread, hdenotes⟩ := hreadable.read hopens
    obtain rfl : c = c' := Except.ok.inj (h.symm.trans hread)
    have hlisted := hdenotes.outputs
    have hlen := hlisted.length_eq
    have hnodup : c.storedKeys.Nodup ↔ ¬ Aliased outs := hlisted.nodup_iff
    have hdistinct : c.Distinct ↔ ¬ Aliased outs :=
      (distinct_iff_nodup fun o ho => hlisted.isFinite ho).trans hnodup
    have hsize : c.store.outputs.size = outs.size ↔ ¬ Aliased outs := by
      rw [← hlen, size_store_eq_iff, hnodup]
    exact ⟨fields, outs, hopens, hlen, hdistinct, hlen ▸ c.size_store_le, hsize,
      fun hplain => ⟨hdistinct.2 hplain.not_aliased, hsize.2 hplain.not_aliased⟩⟩
  · cases h.symm.trans hfault.read

/-- Two keys write slot 1 here. -/
def doubled : Stored where
  inputFrequency := 25000000
  inputDivider := 1
  feedbackDivider := 4
  feedbackOutputDivider := 6
  vcoFrequency := 600000000
  feedbackSlot := 1
  outputs := .ofList [("1", ⟨6, 100000000, 0, 0⟩), ("01", ⟨12, 50000000, 90, 0⟩)]

/-- What is read from them. -/
def doubledSlot : Configuration where
  inputFrequency := 25000000
  inputDivider := 1
  feedbackDivider := 4
  feedbackOutputDivider := 6
  vcoFrequency := 600000000
  feedbackSlot := 1
  outputs := [
    { slot := 1, divider := 6, frequency := 100000000, phase := 0, phantom := false },
    { slot := 1, divider := 12, frequency := 50000000, phase := 90, phantom := false }]

theorem read_doubled : read doubled.toValue = .ok doubledSlot :=
  rfl

/-- Both outputs are read, and one of them is lost when they are stored again. -/
theorem exists_read_not_distinct :
    ∃ c fields outs, read doubled.toValue = .ok c ∧ Opens doubled.toValue fields outs
      ∧ ¬ c.Distinct ∧ outs.size = 2 ∧ c.store.outputs.size = 1 :=
  ⟨doubledSlot, _, _, read_doubled, ⟨rfl, rfl⟩, by decide +kernel, by decide +kernel,
    by decide +kernel⟩

theorem distinct_iff_of_read_doubled :
    read doubled.toValue = .ok doubledSlot
      ∧ ∃ fields outs, Opens doubled.toValue fields outs ∧ outs.size = 2
        ∧ (doubledSlot.Distinct ↔ ¬ Aliased outs) := by
  obtain ⟨fields, outs, hopens, hlen, hdistinct, -⟩ := distinct_iff_of_read read_doubled
  exact ⟨read_doubled, fields, outs, hopens, hlen.symm, hdistinct⟩

end Configuration

end ClockSynth
