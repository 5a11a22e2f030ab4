import ClockSynth.Proofs.Stored

/-!
# A stored configuration is read back

The texts of different slots are different keys, so nothing is lost when a configuration is stored,
and each key is read as the slot that it was written for. A configuration that is `Storable` is
therefore read back as it was, with its outputs in the order of their slots (`read_store`).
-/

namespace ClockSynth

open Number

/-- An output as it is read back. -/
def Output.readBack (o : Output) : Output :=
  { o with slot := unsignedZero o.slot }

namespace Configuration

variable {c : Configuration}

/-- What a configuration needs to be read back: finite scalars, a natural number for each slot, no
slot twice, and an output in the feedback slot. -/
structure Storable (c : Configuration) : Prop where
  finite : ∀ f, (c.scalar f).isFinite = true
  slot : ∀ o ∈ c.outputs, IsNatural o.slot
  distinct : c.outputs.Pairwise fun a b => (a.slot == b.slot) = false
  feedback : ∃ o ∈ c.outputs, (o.slot == c.feedbackSlot) = true

/-- The field under which an output is stored. -/
def storedField (o : Output) : String × Value :=
  (text o.slot, o.store.toValue)

/-- Different slots have different texts. -/
theorem Storable.nodup_texts (h : c.Storable) : (c.outputs.map fun o => text o.slot).Nodup := by
  rw [List.nodup_iff_pairwise_ne, List.pairwise_map]
  refine h.distinct.imp_of_mem fun ha hb hne heq => ?_
  exact Bool.false_ne_true
    (hne.symm.trans (beq_of_text_eq (h.slot _ ha).1 (h.slot _ hb).1 heq))

theorem Storable.opens (h : c.Storable) :
    ∃ fields outs, Opens c.store.toValue fields outs ∧ (∀ f, HasScalar fields f (c.scalar f))
      ∧ outs.fields = c.outputs.map storedField := by
  have hnodup : ((c.outputs.map fun o => (text o.slot, o.store)).map Prod.fst).Nodup := by
    rw [List.map_map]
    exact h.nodup_texts
  have hstored : c.store.outputs.fields = c.outputs.map fun o => (text o.slot, o.store) :=
    Record.fields_ofList_of_nodup hnodup
  refine ⟨_, .ofList (c.store.outputs.fields.map fun field => (field.1, field.2.toValue)),
    ⟨rfl, rfl⟩, fun f => ⟨by cases f <;> rfl, h.finite f⟩, ?_⟩
  rw [hstored, List.map_map, Record.fields_ofList_of_nodup]
  · rfl
  · rw [List.map_map]
    exact h.nodup_texts

theorem Storable.entry_readBack (h : c.Storable) {o : Output} (ho : o ∈ c.outputs) :
    Entry (storedField o) o.readBack := by
  have hslot := h.slot o ho
  refine ⟨⟨read?_text hslot.1, isNatural_unsignedZero hslot⟩, if o.phantom then 1 else 0, ?_, rfl⟩
  show o.phantom = true ↔ _
  cases o.phantom <;> decide

theorem Storable.readBack_beq (h : c.Storable) {o : Output} (ho : o ∈ c.outputs) :
    (o.readBack.slot == o.slot) = true :=
  unsignedZero_beq (h.slot o ho).1

theorem Storable.readable {fields outs : Record Value} (h : c.Storable)
    (hscalar : ∀ f, HasScalar fields f (c.scalar f))
    (houts : outs.fields = c.outputs.map storedField) : Readable fields outs where
  sound := by
    rw [houts, List.forall_mem_map]
    exact fun o ho => ⟨⟨_, (h.entry_readBack ho).slot⟩, _, _, _, _, rfl⟩
  scalar f := ⟨_, hscalar f⟩
  feedback := by
    obtain ⟨o, ho, hslot⟩ := h.feedback
    exact ⟨_, hscalar .feedbackSlot, storedField o, houts ▸ List.mem_map_of_mem ho, _,
      (h.entry_readBack ho).slot, double_beq_trans (h.readBack_beq ho) hslot⟩

/-- The outputs that are read are the stored ones. -/
theorem Storable.perm_of_listed {outs : Record Value} {outputs : List Output} (h : c.Storable)
    (houts : outs.fields = c.outputs.map storedField) (hlisted : Listed outs outputs) :
    outputs.Perm (c.outputs.map Output.readBack) := by
  obtain ⟨read, hread, hperm, -⟩ := hlisted.perm
  obtain ⟨read', hread', hperm'⟩ := List.perm_comp_forall₂ outs.enumerate_perm.symm hread
  have hstored : List.Forall₂ Entry outs.fields (c.outputs.map Output.readBack) := by
    rw [houts, List.forall₂_map_left_iff, List.forall₂_map_right_iff, List.forall₂_same]
    exact fun o ho => h.entry_readBack ho
  have hunique : Relator.RightUnique Entry := fun _ _ _ h h' => h.unique h'
  rw [List.right_unique_forall₂' hunique hread' hstored] at hperm'
  exact hperm.trans hperm'.symm

/-- Of the outputs that are read no two have one slot. -/
theorem Storable.ascends_of_perm {outputs : List Output} (h : c.Storable)
    (hperm : outputs.Perm (c.outputs.map Output.readBack))
    (hle : outputs.Pairwise (·.slot ≤ ·.slot)) : outputs.Pairwise (·.slot < ·.slot) := by
  have hdistinct :
      (c.outputs.map Output.readBack).Pairwise fun a b => ¬ (a.slot == b.slot) = true := by
    rw [List.pairwise_map]
    refine h.distinct.imp_of_mem fun ha hb hne heq => Bool.false_ne_true (hne.symm.trans ?_)
    exact double_beq_trans (double_beq_symm (h.readBack_beq ha))
      (double_beq_trans heq (h.readBack_beq hb))
  have hdistinct := hdistinct.perm hperm.symm fun hne heq => hne (double_beq_symm heq)
  exact (hle.and hdistinct).imp fun ⟨hle, hne⟩ => double_lt_of_le_of_not_beq hle hne

/-- A configuration is read back as it was stored, with its outputs in the order of their slots. -/
theorem read_store (c : Configuration) (h : c.Storable) :
    ∃ outputs, read c.store.toValue = .ok { c with outputs := outputs }
      ∧ outputs.Perm (c.outputs.map Output.readBack)
      ∧ outputs.Pairwise (·.slot < ·.slot) := by
  obtain ⟨fields, outs, hopens, hscalar, houts⟩ := h.opens
  obtain ⟨c', hread, hdenotes⟩ := (h.readable hscalar houts).read hopens
  have hperm := h.perm_of_listed houts hdenotes.outputs
  refine ⟨c'.outputs, ?_, hperm, h.ascends_of_perm hperm hdenotes.outputs.ascends⟩
  rw [hread]
  exact congrArg _ (eq_of_scalar_eq fun f => (hdenotes.scalar f).unique (hscalar f))

/-- Slots out of order, one of them too large for an index and one a zero with a sign. -/
def mixed : Configuration where
  inputFrequency := 25000000
  inputDivider := 1
  feedbackDivider := 4
  feedbackOutputDivider := 6
  vcoFrequency := 600000000
  feedbackSlot := 0
  outputs := [
    { slot := 4294967296, divider := 6, frequency := 100000000, phase := -0.0, phantom := false },
    { slot := 10, divider := 0, frequency := 1.0 / 0.0, phase := 90, phantom := false },
    { slot := -0.0, divider := 6, frequency := 100000000, phase := 0.0 / 0.0, phantom := true }]

theorem read_store_mixed :
    mixed.Storable ∧ ∃ outputs, read mixed.store.toValue = .ok { mixed with outputs := outputs }
      ∧ outputs.Perm (mixed.outputs.map Output.readBack)
      ∧ outputs.Pairwise (·.slot < ·.slot) := by
  have h : mixed.Storable :=
    { finite := fun f => by cases f <;> decide
      slot := List.forall_mem_cons.2 ⟨isNatural_iff.2 ⟨4294967296, by decide⟩,
        List.forall_mem_cons.2 ⟨isNatural_iff.2 ⟨10, by decide⟩,
          List.forall_mem_cons.2 ⟨isNatural_iff.2 ⟨0, by decide⟩, List.forall_mem_nil _⟩⟩⟩
      distinct := by decide
      feedback := by decide }
  exact ⟨h, read_store mixed h⟩

end Configuration

end ClockSynth
