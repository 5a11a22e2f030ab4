import ClockSynth.Proofs.Alias
import ClockSynth.Proofs.Recovery

/-!
# Stored, read and stored again

Where several keys write one slot, reading gives several outputs for it, and as the outputs are read
in the order of their slots, these are neighbours. Storing keeps the last of them. The configuration
that is left, with no signs on zeros, is the one that `merged` gives: it is stored just as the one
that was read, and it is read back as it is. So from what was once read and stored, reading and
storing change nothing more, whatever the data was at first (`store_read_fixed`).
-/

namespace ClockSynth

open Number

namespace Record

variable {α : Type}

theorem put_put (key : String) (old new : α) :
    ∀ fields : List (String × α), put key new (put key old fields) = put key new fields
  | [] => by simp [put]
  | field :: rest => by
    by_cases h : field.1 = key
    · simp [put, h]
    · simp [put, h, put_put key old new rest]

theorem insert_insert (r : Record α) (key : String) (old new : α) :
    (r.insert key old).insert key new = r.insert key new := by
  unfold insert
  congr 1
  exact put_put key old new r.fields

theorem insertAll_cons (r : Record α) (field : String × α) (l : List (String × α)) :
    r.insertAll (field :: l) = (r.insert field.1 field.2).insertAll l :=
  rfl

end Record

section Latest

/-- Of neighbours in one slot only the last. -/
def Output.latest : List Output → List Output
  | [] => []
  | [o] => [o]
  | a :: b :: l => if a.slot == b.slot then latest (b :: l) else a :: latest (b :: l)

namespace Output

variable {outputs : List Output}

theorem latest_sublist (outputs : List Output) : (latest outputs).Sublist outputs := by
  fun_induction latest outputs with
  | case1 => exact .slnil
  | case2 o => exact .refl _
  | case3 a b l _ ih => exact ih.cons a
  | case4 a b l _ ih => exact ih.cons_cons a

/-- No slot is lost. -/
theorem any_latest (outputs : List Output) (x : Float) :
    (latest outputs).any (·.slot == x) = outputs.any (·.slot == x) := by
  fun_induction latest outputs with
  | case1 => rfl
  | case2 o => rfl
  | case3 a b l hab ih =>
    have himp : (a.slot == x) = true → (b.slot == x) = true := fun h =>
      double_beq_trans (double_beq_symm hab) h
    rw [ih, List.any_cons, List.any_cons, List.any_cons, Bool.eq_iff_iff]
    simp only [Bool.or_eq_true]
    exact ⟨.inr, fun h => h.elim (fun ha => .inl (himp ha)) id⟩
  | case4 a b l _ ih => rw [List.any_cons, List.any_cons, ih]

/-- In outputs in order the neighbours in one slot are all that there are in it. -/
theorem latest_ascends (h : outputs.Pairwise (·.slot ≤ ·.slot)) :
    (latest outputs).Pairwise (·.slot < ·.slot) := by
  fun_induction latest outputs with
  | case1 => exact .nil
  | case2 o => exact List.pairwise_singleton _ o
  | case3 a b l _ ih => exact ih h.of_cons
  | case4 a b l hab ih =>
    obtain ⟨ha, hrest⟩ := List.pairwise_cons.1 h
    have hlt : a.slot < b.slot := double_lt_of_le_of_not_beq (ha b (.head l)) hab
    refine List.pairwise_cons.2 ⟨fun o ho => ?_, ih hrest⟩
    rcases List.mem_cons.1 ((latest_sublist (b :: l)).subset ho) with rfl | ho
    · exact hlt
    · exact double_lt_of_lt_of_le hlt ((List.pairwise_cons.1 hrest).1 o ho)

/-- Of neighbours in one slot storing keeps only the last. -/
theorem insertAll_latest (hfinite : ∀ o ∈ outputs, o.slot.isFinite = true)
    (r : Record StoredOutput) :
    r.insertAll ((latest outputs).map fun o => (text o.slot, o.store))
      = r.insertAll (outputs.map fun o => (text o.slot, o.store)) := by
  fun_induction latest outputs generalizing r with
  | case1 => rfl
  | case2 o => rfl
  | case3 a b l hab ih =>
    obtain ⟨ha, hrest⟩ := List.forall_mem_cons.1 hfinite
    have htext : text a.slot = text b.slot := (text_eq_iff ha (hrest b (.head l))).2 hab
    rw [ih hrest]
    simp only [List.map_cons, Record.insertAll_cons, htext, Record.insert_insert]
  | case4 a b l _ ih =>
    rw [List.map_cons, List.map_cons, Record.insertAll_cons, Record.insertAll_cons]
    rw [ih (List.forall_mem_cons.1 hfinite).2]

theorem readBack_readBack (o : Output) : o.readBack.readBack = o.readBack := by
  rw [readBack, readBack, unsignedZero_unsignedZero]

end Output

end Latest

namespace Configuration

variable {c : Configuration}

/-- What is left of a configuration when it is stored. -/
def merged (c : Configuration) : Configuration :=
  { c with outputs := (Output.latest c.outputs).map Output.readBack }

theorem scalar_merged (c : Configuration) (f : StoredField) : c.merged.scalar f = c.scalar f := by
  cases f <;> rfl

theorem store_merged (h : ∀ o ∈ c.outputs, o.slot.isFinite = true) : c.merged.store = c.store := by
  have hfields : c.merged.outputs.map (fun o => (text o.slot, o.store))
      = (Output.latest c.outputs).map fun o => (text o.slot, o.store) := by
    rw [merged, List.map_map]
    refine List.map_congr_left fun o ho => ?_
    have hslot := text_unsignedZero (h o ((Output.latest_sublist _).subset ho))
    exact congrArg (·, o.store) hslot
  have houtputs : Record.ofList (c.merged.outputs.map fun o => (text o.slot, o.store))
      = Record.ofList (c.outputs.map fun o => (text o.slot, o.store)) := by
    rw [hfields]
    exact Output.insertAll_latest h ∅
  rw [store, houtputs]
  rfl

theorem merged_ascends (hfinite : ∀ o ∈ c.outputs, o.slot.isFinite = true)
    (h : c.outputs.Pairwise (·.slot ≤ ·.slot)) :
    c.merged.outputs.Pairwise (·.slot < ·.slot) := by
  rw [merged, List.pairwise_map]
  refine (Output.latest_ascends h).imp_of_mem fun ha hb hlt => ?_
  have hsub := (Output.latest_sublist c.outputs).subset
  exact unsignedZero_lt (hfinite _ (hsub ha)) (hfinite _ (hsub hb)) hlt

section Read

variable {fields outs : Record Value}

theorem Denotes.feedback (h : Denotes fields outs c) (hreadable : Readable fields outs) :
    c.outputs.any (·.slot == c.feedbackSlot) = true := by
  obtain ⟨x, hx, hfield⟩ := hreadable.feedback
  obtain rfl : x = c.feedbackSlot := hx.unique (h.scalar .feedbackSlot)
  exact (h.outputs.any_iff _).2 hfield

theorem Denotes.storable_merged (h : Denotes fields outs c) (hreadable : Readable fields outs) :
    c.merged.Storable where
  finite f := by
    rw [scalar_merged]
    exact (h.scalar f).2
  slot := by
    refine List.forall_mem_map.2 fun o ho => isNatural_unsignedZero ?_
    exact h.outputs.isNatural ((Output.latest_sublist _).subset ho)
  distinct :=
    (merged_ascends (fun _ ho => h.outputs.isFinite ho) h.outputs.ascends).imp double_not_beq_of_lt
  feedback := by
    have hany := h.feedback hreadable
    rw [← Output.any_latest, List.any_eq_true] at hany
    obtain ⟨o, ho, hslot⟩ := hany
    have hfinite := h.outputs.isFinite ((Output.latest_sublist _).subset ho)
    exact ⟨_, List.mem_map_of_mem ho, double_beq_trans (unsignedZero_beq hfinite) hslot⟩

end Read

/-- Whatever is read can be stored and read again. That gives the outputs that storing keeps, one
for each slot, and they are stored as the same again. -/
theorem store_read_fixed {data : Value} (h : read data = .ok c) :
    read c.store.toValue = .ok c.merged ∧ c.merged.store = c.store := by
  obtain ⟨fields, outs, -, hreadable, hdenotes⟩ := exists_denotes_of_read h
  have hfinite : ∀ o ∈ c.outputs, o.slot.isFinite = true :=
    fun _ ho => hdenotes.outputs.isFinite ho
  have hstore := store_merged hfinite
  refine ⟨?_, hstore⟩
  rw [← hstore]
  refine (hdenotes.storable_merged hreadable).read_of_ascends ?_
    (merged_ascends hfinite hdenotes.outputs.ascends)
  exact List.forall_mem_map.2 fun o _ => o.readBack_readBack

/-- Three slots under eight keys, some of them with marks that are no truth values; one scalar is
written twice, and there is a field of no use. -/
def untidy : Value :=
  .object
    [("vcoFrequency", .number 600000000),
      ("outputs", .object
        [("01", .array [.number 6, .number 100000000, .number 0, .number 7]),
          (" 1", .array [.number 12, .number 50000000, .number 90, .number 1]),
          ("2", .array [.number 0, .number (1.0 / 0.0), .number (0.0 / 0.0), .number 2]),
          ("-0", .array [.number 6, .number 100000000, .number (-0.0), .number 1]),
          ("1", .array [.number 3, .number 200000000, .number 0, .number 0]),
          ("0x1", .array [.number 4, .number 150000000, .number 0, .number 1]),
          ("", .array [.number 8, .number 75000000, .number 0, .number 0.5]),
          ("1e0", .array [.number 6, .number 100000000, .number 45, .number 3])]),
      ("feedbackSlot", .number 1),
      ("board", .text "bench"),
      ("feedbackSlot", .number (-0.0)),
      ("inputDivider", .number 1),
      ("feedbackDivider", .number 4),
      ("feedbackOutputDivider", .number 8),
      ("inputFrequency", .number 25000000)]

/-- What is read from it. -/
def untidySlots : Configuration where
  inputFrequency := 25000000
  inputDivider := 1
  feedbackDivider := 4
  feedbackOutputDivider := 8
  vcoFrequency := 600000000
  feedbackSlot := -0.0
  outputs := [
    { slot := -0.0, divider := 6, frequency := 100000000, phase := -0.0, phantom := true },
    { slot := 0, divider := 8, frequency := 75000000, phase := 0, phantom := false },
    { slot := 1, divider := 3, frequency := 200000000, phase := 0, phantom := false },
    { slot := 1, divider := 6, frequency := 100000000, phase := 0, phantom := false },
    { slot := 1, divider := 12, frequency := 50000000, phase := 90, phantom := true },
    { slot := 1, divider := 4, frequency := 150000000, phase := 0, phantom := true },
    { slot := 1, divider := 6, frequency := 100000000, phase := 45, phantom := false },
    { slot := 2, divider := 0, frequency := 1.0 / 0.0, phase := 0.0 / 0.0, phantom := false }]

theorem read_untidy : read untidy = .ok untidySlots :=
  rfl

theorem store_read_fixed_untidy :
    read untidy = .ok untidySlots
      ∧ read untidySlots.store.toValue = .ok untidySlots.merged
      ∧ untidySlots.merged.store = untidySlots.store
      ∧ untidySlots.merged.outputs.map Output.slot = [0, 1, 2] := by
  obtain ⟨hread, hstore⟩ := store_read_fixed read_untidy
  exact ⟨read_untidy, hread, hstore, by decide +kernel⟩

end Configuration

end ClockSynth
