import ClockSynth.Configuration.Stored
import ClockSynth.Proofs.Number.Text
import ClockSynth.Proofs.Traversal

/-!
# What is read from stored data

Stored data is `Readable` if it has all the pieces of a configuration, and the configuration that it
`Denotes` has one output for each key, in the order of the slots. Of data that is not readable the
first fault is reported (`FirstFault`), in the order in which the pieces are checked. There is no
third way (`readable_or_firstFault`), so reading is described in full.
-/

namespace ClockSynth

open Number

/-- The scalars of a stored configuration in the order in which they are checked. -/
def StoredField.all : List StoredField :=
  [.inputFrequency, .inputDivider, .feedbackDivider, .feedbackOutputDivider, .vcoFrequency,
    .feedbackSlot]

/-- The scalars that are checked before this one. -/
def StoredField.earlier (f : StoredField) : List StoredField :=
  all.takeWhile (· ≠ f)

def Configuration.scalar (c : Configuration) : StoredField → Float
  | .inputFrequency => c.inputFrequency
  | .inputDivider => c.inputDivider
  | .feedbackDivider => c.feedbackDivider
  | .feedbackOutputDivider => c.feedbackOutputDivider
  | .vcoFrequency => c.vcoFrequency
  | .feedbackSlot => c.feedbackSlot

theorem Configuration.eq_of_scalar_eq {c c' : Configuration} (h : ∀ f, c'.scalar f = c.scalar f) :
    c' = { c with outputs := c'.outputs } :=
  (Configuration.mk.injEq ..).mpr ⟨h .inputFrequency, h .inputDivider, h .feedbackDivider,
    h .feedbackOutputDivider, h .vcoFrequency, h .feedbackSlot, rfl⟩

/-- A list of four numbers. -/
def Value.IsTuple (v : Value) : Prop :=
  ∃ a b c d, v = .array [.number a, .number b, .number c, .number d]

namespace Configuration

section Pieces

/-- The key writes `x`, and that is a natural number. -/
def IsSlot (key : String) (x : Float) : Prop :=
  read? key = some x ∧ IsNatural x

/-- A field of the outputs with a slot for a key and four numbers under it. -/
def Sound (field : String × Value) : Prop :=
  (∃ x, IsSlot field.1 x) ∧ field.2.IsTuple

/-- The output that stands under a key. -/
structure Entry (field : String × Value) (o : Output) : Prop where
  slot : IsSlot field.1 o.slot
  tuple : ∃ mark, (o.phantom = true ↔ (mark == 1) = true)
    ∧ field.2 = .array [.number o.divider, .number o.frequency, .number o.phase, .number mark]

/-- A finite number stands in a field. -/
def HasScalar (fields : Record Value) (f : StoredField) (x : Float) : Prop :=
  fields.get? f.name = some (.number x) ∧ x.isFinite = true

/-- The data is an object with an object of outputs. -/
structure Opens (data : Value) (fields outs : Record Value) : Prop where
  isObject : data.fields? = some fields
  hasOutputs : (fields.get? "outputs").bind Value.fields? = some outs

/-- All the pieces of a configuration are there. -/
structure Readable (fields outs : Record Value) : Prop where
  sound : ∀ field ∈ outs.fields, Sound field
  scalar : ∀ f, ∃ x, HasScalar fields f x
  feedback : ∃ x, HasScalar fields .feedbackSlot x
    ∧ ∃ field ∈ outs.fields, ∃ y, IsSlot field.1 y ∧ (y == x) = true

/-- One output for each key, in the order of the slots, and those of one slot in the order in which
their keys are read out. -/
structure Listed (outs : Record Value) (outputs : List Output) : Prop where
  perm : ∃ read, List.Forall₂ Entry outs.enumerate read ∧ outputs.Perm read
    ∧ ∀ x, outputs.filter (·.slot == x) = read.filter (·.slot == x)
  ascends : outputs.Pairwise (·.slot ≤ ·.slot)

/-- The configuration that the data stands for. -/
structure Denotes (fields outs : Record Value) (c : Configuration) : Prop where
  scalar : ∀ f, HasScalar fields f (c.scalar f)
  outputs : Listed outs c.outputs

/-- The first piece that is missing or wrong. -/
inductive FirstFault (data : Value) : StoredFault → Prop
  | notObject : data.fields? = none → FirstFault data .notObject
  | noOutputs {fields : Record Value} : data.fields? = some fields →
      (fields.get? "outputs").bind Value.fields? = none → FirstFault data .noOutputs
  | slot {fields outs : Record Value} {before after : List (String × Value)} {key : String}
      {value : Value} : Opens data fields outs → outs.enumerate = before ++ (key, value) :: after →
      (∀ field ∈ before, Sound field) → (¬ ∃ x, IsSlot key x) →
      FirstFault data (.slot key)
  | entry {fields outs : Record Value} {before after : List (String × Value)} {key : String}
      {value : Value} {x : Float} : Opens data fields outs →
      outs.enumerate = before ++ (key, value) :: after →
      (∀ field ∈ before, Sound field) → IsSlot key x →
      ¬ value.IsTuple → FirstFault data (.entry x)
  | field {fields outs : Record Value} {f : StoredField} : Opens data fields outs →
      (∀ field ∈ outs.fields, Sound field) →
      (∀ g ∈ f.earlier, ∃ x, HasScalar fields g x) → (¬ ∃ x, HasScalar fields f x) →
      FirstFault data (.field f)
  | feedback {fields outs : Record Value} {x : Float} : Opens data fields outs →
      (∀ field ∈ outs.fields, Sound field) →
      (∀ f, ∃ x, HasScalar fields f x) → HasScalar fields .feedbackSlot x →
      (∀ field ∈ outs.fields, ∀ y, IsSlot field.1 y → (y == x) = false) →
      FirstFault data (.feedback x)

end Pieces

section Outputs

variable {field : String × Value} {outs : Record Value} {n : ℕ} {o : Output} {x : Float}
  {outputs : List Output}

theorem ofValue?_eq_some_iff {v : Value} {s : StoredOutput} :
    StoredOutput.ofValue? v = some s ↔ v = s.toValue := by
  constructor
  · intro h
    unfold StoredOutput.ofValue? at h
    split at h
    · cases h
      rfl
    · cases h
  · rintro rfl
    exact s.ofValue?_toValue

theorem exists_ofValue?_iff {v : Value} :
    (∃ s, StoredOutput.ofValue? v = some s) ↔ v.IsTuple := by
  constructor
  · rintro ⟨s, h⟩
    exact ⟨_, _, _, _, ofValue?_eq_some_iff.1 h⟩
  · rintro ⟨a, b, c, d, rfl⟩
    exact ⟨_, rfl⟩

theorem readOutput_eq_ok_iff :
    readOutput field = .ok (n, o) ↔ toNat? o.slot = some n ∧ Entry field o := by
  obtain ⟨key, value⟩ := field
  constructor
  · intro h
    simp only [readOutput] at h
    split at h
    · cases h
    · rename_i slot hslot
      split at h
      · cases h
      · rename_i m hm
        split at h
        · cases h
        · rename_i s hs
          cases h
          exact ⟨hm, ⟨hslot, isNatural_iff.2 ⟨_, hm⟩⟩, s.mark, Iff.rfl, ofValue?_eq_some_iff.1 hs⟩
  · rintro ⟨hn, ⟨hslot, -⟩, mark, hmark, rfl⟩
    have hphantom : o.phantom = (mark == 1) := Bool.eq_iff_iff.2 hmark
    simp only [readOutput, hslot, hn, StoredOutput.ofValue?, StoredOutput.restore, ← hphantom]

theorem readOutput_of_not_isSlot (h : ¬ ∃ x, IsSlot field.1 x) :
    readOutput field = .error (.slot field.1) := by
  unfold readOutput
  split
  · rfl
  · rename_i x hx
    split
    · rfl
    · rename_i n hn
      exact absurd ⟨x, hx, isNatural_iff.2 ⟨n, hn⟩⟩ h

theorem readOutput_of_not_isTuple (hx : IsSlot field.1 x) (h : ¬ field.2.IsTuple) :
    readOutput field = .error (.entry x) := by
  obtain ⟨n, hn⟩ := isNatural_iff.1 hx.2
  have hnone : StoredOutput.ofValue? field.2 = none := by
    rw [Option.eq_none_iff_forall_not_mem]
    exact fun s hs => h (exists_ofValue?_iff.1 ⟨s, hs⟩)
  simp only [readOutput, hx.1, hn, hnone]

theorem Sound.exists_readOutput (h : Sound field) : ∃ r, readOutput field = .ok r := by
  obtain ⟨⟨x, hx, hnat⟩, htuple⟩ := h
  obtain ⟨n, hn⟩ := isNatural_iff.1 hnat
  obtain ⟨s, hs⟩ := exists_ofValue?_iff.2 htuple
  exact ⟨(n, s.restore x), by simp only [readOutput, hx, hn, hs]⟩

/-- Sorting by the natural numbers of the slots leaves the outputs of each slot as they come. -/
theorem filter_sort_slot {read : List (ℕ × Output)} (h : ∀ r ∈ read, toNat? r.2.slot = some r.1)
    (x : Float) :
    ((Ranked.sort Prod.fst read).map Prod.snd).filter (·.slot == x)
      = (read.map Prod.snd).filter (·.slot == x) := by
  have hsort : ∀ r ∈ Ranked.sort Prod.fst read, toNat? r.2.slot = some r.1 := fun r hr =>
    h r ((Ranked.mem_sort _).1 hr)
  rw [List.filter_map, List.filter_map]
  congr 1
  cases hx : toNat? x with
  | some n =>
    have hrank : ∀ l : List (ℕ × Output), (∀ r ∈ l, toNat? r.2.slot = some r.1) →
        l.filter ((·.slot == x) ∘ Prod.snd) = l.filter (·.1 == n) := fun l hl =>
      List.filter_congr fun r hr => Bool.eq_iff_iff.2 <| by
        rw [Function.comp_apply, beq_iff_of_toNat? (hl r hr) hx, beq_iff_eq]
    rw [hrank _ hsort, hrank _ h, Ranked.filter_sort]
  | none =>
    have hnone : ∀ l : List (ℕ × Output), (∀ r ∈ l, toNat? r.2.slot = some r.1) →
        l.filter ((·.slot == x) ∘ Prod.snd) = [] := fun l hl =>
      List.filter_eq_nil_iff.2 fun r hr hbeq => by
        cases hx.symm.trans (toNat?_of_beq hbeq (hl r hr))
    rw [hnone _ hsort, hnone _ h]

theorem listed_of_readOutputs (h : readOutputs outs = .ok outputs) : Listed outs outputs := by
  unfold readOutputs at h
  cases hread : outs.enumerate.mapM readOutput with
  | error e => rw [hread] at h; cases h
  | ok read =>
    rw [hread] at h
    cases h
    have hall := (mapM_eq_ok_iff _ _ _).1 hread
    have hrank : ∀ r ∈ read, toNat? r.2.slot = some r.1 := fun r hr => by
      obtain ⟨field, -, hfield⟩ := exists_left_of_mem_right hall r hr
      exact (readOutput_eq_ok_iff.1 hfield).1
    have hperm := (Ranked.sort_perm Prod.fst read).map Prod.snd
    refine ⟨⟨read.map Prod.snd, ?_, hperm, filter_sort_slot hrank⟩, ?_⟩
    · rw [List.forall₂_map_right_iff]
      exact hall.imp fun field r hr => (readOutput_eq_ok_iff.1 hr).2
    · rw [List.pairwise_map]
      refine (Ranked.pairwise_sort Prod.fst read).imp_of_mem fun ha hb hle => ?_
      rw [Ranked.mem_sort] at ha hb
      exact (le_iff_of_toNat? (hrank _ ha) (hrank _ hb)).2 hle

theorem exists_readOutputs (h : ∀ field ∈ outs.fields, Sound field) :
    ∃ outputs, readOutputs outs = .ok outputs := by
  obtain ⟨read, hread⟩ := exists_mapM_eq_ok fun field hfield =>
    (h field (Record.mem_enumerate.1 hfield)).exists_readOutput
  exact ⟨_, by rw [readOutputs, hread]; rfl⟩

theorem readOutputs_of_first {before after : List (String × Value)} {fault : StoredFault}
    (h : outs.enumerate = before ++ field :: after) (hbefore : ∀ field ∈ before, Sound field)
    (hfault : readOutput field = .error fault) : readOutputs outs = .error fault := by
  rw [readOutputs, h, mapM_eq_error hfault fun b hb => (hbefore b hb).exists_readOutput]
  rfl

theorem IsSlot.unique {key : String} {x y : Float} (hx : IsSlot key x) (hy : IsSlot key y) :
    x = y :=
  Option.some.inj (hx.1.symm.trans hy.1)

theorem Entry.unique {o' : Output} (h : Entry field o) (h' : Entry field o') : o = o' := by
  obtain ⟨mark, hm, hv⟩ := h.tuple
  obtain ⟨mark', hm', hv'⟩ := h'.tuple
  have hslot := h.slot.unique h'.slot
  rw [hv] at hv'
  simp only [Value.array.injEq, List.cons.injEq, Value.number.injEq, and_true] at hv'
  obtain ⟨hdivider, hfrequency, hphase, rfl⟩ := hv'
  have hphantom : o.phantom = o'.phantom := Bool.eq_iff_iff.2 (hm.trans hm'.symm)
  cases o
  cases o'
  exact (Output.mk.injEq ..).mpr ⟨hslot, hdivider, hfrequency, hphase, hphantom⟩

/-- The slots of the outputs are those of the keys. -/
theorem Listed.any_iff (h : Listed outs outputs) (x : Float) :
    outputs.any (·.slot == x) = true
      ↔ ∃ field ∈ outs.fields, ∃ y, IsSlot field.1 y ∧ (y == x) = true := by
  obtain ⟨read, hread, hperm, -⟩ := h.perm
  rw [List.any_eq_true]
  constructor
  · rintro ⟨o, ho, hx⟩
    obtain ⟨field, hfield, hentry⟩ := exists_left_of_mem_right hread o (hperm.mem_iff.1 ho)
    exact ⟨field, Record.mem_enumerate.1 hfield, o.slot, hentry.slot, hx⟩
  · rintro ⟨field, hfield, y, hy, hx⟩
    obtain ⟨o, ho, hentry⟩ := exists_right_of_mem_left hread field
      (Record.mem_enumerate.2 hfield)
    exact ⟨o, hperm.mem_iff.2 ho, by rwa [hentry.slot.unique hy]⟩

end Outputs

section Reading

variable {data : Value} {fields outs : Record Value} {outputs : List Output}

theorem readField_eq_ok {f : StoredField} {x : Float} (h : HasScalar fields f x) :
    readField fields f = .ok x := by
  simp only [readField, h.1, h.2, if_true]

theorem readField_eq_error {f : StoredField} (h : ¬ ∃ x, HasScalar fields f x) :
    readField fields f = .error (.field f) := by
  unfold readField
  split
  · rename_i x hx
    exact if_neg fun hfinite => h ⟨x, hx, hfinite⟩
  · rfl

theorem HasScalar.unique {f : StoredField} {x y : Float} (hx : HasScalar fields f x)
    (hy : HasScalar fields f y) : x = y :=
  Value.number.inj (Option.some.inj (hx.1.symm.trans hy.1))

theorem exists_first_field (fields : Record Value) (h : ¬ ∀ f, ∃ x, HasScalar fields f x) :
    ∃ f : StoredField, (∀ g ∈ f.earlier, ∃ x, HasScalar fields g x)
      ∧ ¬ ∃ x, HasScalar fields f x := by
  rcases forall_or_exists_first (fun f => ∃ x, HasScalar fields f x) StoredField.all with
    hall | ⟨before, f, after, hsplit, hbefore, hf⟩
  · exact absurd (fun f => hall f (by cases f <;> simp [StoredField.all])) h
  · refine ⟨f, ?_, hf⟩
    have hne : ∀ g ∈ before, decide (g ≠ f) = true := fun g hg =>
      decide_eq_true fun he => hf (he ▸ hbefore g hg)
    rw [StoredField.earlier, hsplit, List.takeWhile_append_of_pos hne, List.takeWhile_cons_of_neg
      (by simp), List.append_nil]
    exact hbefore

theorem read_of_notObject (h : data.fields? = none) : read data = .error .notObject := by
  simp only [read, h]
  rfl

theorem read_of_noOutputs (h : data.fields? = some fields)
    (ho : (fields.get? "outputs").bind Value.fields? = none) :
    read data = .error .noOutputs := by
  simp only [read, h, ho]
  rfl

theorem Opens.read_of_outputs (h : Opens data fields outs) {fault : StoredFault}
    (ho : readOutputs outs = .error fault) : read data = .error fault := by
  simp only [read, h.isObject, h.hasOutputs, ho]
  rfl

theorem Opens.read_of_field (h : Opens data fields outs) (ho : readOutputs outs = .ok outputs)
    {f : StoredField} (hearlier : ∀ g ∈ f.earlier, ∃ x, HasScalar fields g x)
    (hf : ¬ ∃ x, HasScalar fields f x) : read data = .error (.field f) := by
  have hf := readField_eq_error hf
  choose! x hx using hearlier
  have hx : ∀ g ∈ f.earlier, readField fields g = .ok (x g) := fun g hg => readField_eq_ok (hx g hg)
  simp only [read, h.isObject, h.hasOutputs, ho]
  cases f <;> simp (disch := decide) only [hx, hf] <;> rfl

/-- Once all else is there, reading hangs on the feedback slot alone. -/
theorem Opens.read_of_scalars (h : Opens data fields outs) (ho : readOutputs outs = .ok outputs)
    (hs : ∀ f, ∃ x, HasScalar fields f x) {slot : Float}
    (hslot : HasScalar fields .feedbackSlot slot) :
    ∃ c : Configuration, (∀ f, HasScalar fields f (c.scalar f)) ∧ c.outputs = outputs
      ∧ read data = if outputs.any (·.slot == slot) then .ok c else .error (.feedback slot) := by
  choose x hx using hs
  obtain rfl := hslot.unique (hx .feedbackSlot)
  have hf := fun f => readField_eq_ok (hx f)
  refine ⟨{
    inputFrequency := x .inputFrequency
    inputDivider := x .inputDivider
    feedbackDivider := x .feedbackDivider
    feedbackOutputDivider := x .feedbackOutputDivider
    vcoFrequency := x .vcoFrequency
    feedbackSlot := x .feedbackSlot
    outputs := outputs }, fun f => by cases f <;> exact hx _, rfl, ?_⟩
  simp only [read, h.isObject, h.hasOutputs, ho, hf]
  rfl

/-- What has all its pieces is read as the configuration that it stands for. -/
theorem Readable.read (h : Readable fields outs) (hopens : Opens data fields outs) :
    ∃ c, read data = .ok c ∧ Denotes fields outs c := by
  obtain ⟨outputs, ho⟩ := exists_readOutputs h.sound
  have hlisted := listed_of_readOutputs ho
  obtain ⟨slot, hslot, hany⟩ := h.feedback
  obtain ⟨c, hc, rfl, hread⟩ := hopens.read_of_scalars ho h.scalar hslot
  rw [if_pos ((hlisted.any_iff slot).2 hany)] at hread
  exact ⟨c, hread, hc, hlisted⟩

/-- The first fault is reported. -/
theorem FirstFault.read {fault : StoredFault} (h : FirstFault data fault) :
    read data = .error fault := by
  cases h with
  | notObject h => exact read_of_notObject h
  | noOutputs h ho => exact read_of_noOutputs h ho
  | slot hopens hsplit hbefore hslot =>
    exact hopens.read_of_outputs
      (readOutputs_of_first hsplit hbefore (readOutput_of_not_isSlot hslot))
  | entry hopens hsplit hbefore hslot htuple =>
    exact hopens.read_of_outputs
      (readOutputs_of_first hsplit hbefore (readOutput_of_not_isTuple hslot htuple))
  | field hopens hsound hearlier hf =>
    obtain ⟨outputs, ho⟩ := exists_readOutputs hsound
    exact hopens.read_of_field ho hearlier hf
  | @feedback fields outs slot hopens hsound hs hslot hnone =>
    obtain ⟨outputs, ho⟩ := exists_readOutputs hsound
    obtain ⟨c, -, -, hread⟩ := hopens.read_of_scalars ho hs hslot
    have hany : ¬ outputs.any (·.slot == slot) = true := by
      rw [(listed_of_readOutputs ho).any_iff]
      rintro ⟨field, hfield, y, hy, hbeq⟩
      exact Bool.false_ne_true ((hnone field hfield y hy).symm.trans hbeq)
    rw [hread, if_neg hany]

theorem readable_or_firstFault (data : Value) :
    (∃ fields outs, Opens data fields outs ∧ Readable fields outs)
      ∨ ∃ fault, FirstFault data fault := by
  cases hobject : data.fields? with
  | none => exact .inr ⟨_, .notObject hobject⟩
  | some fields =>
    cases houtputs : (fields.get? "outputs").bind Value.fields? with
    | none => exact .inr ⟨_, .noOutputs hobject houtputs⟩
    | some outs =>
      have hopens : Opens data fields outs := ⟨hobject, houtputs⟩
      rcases forall_or_exists_first Sound outs.enumerate with
        hsound | ⟨before, ⟨key, value⟩, after, hsplit, hbefore, hfault⟩
      · have hsound : ∀ field ∈ outs.fields, Sound field := fun field hfield =>
          hsound field (Record.mem_enumerate.2 hfield)
        by_cases hscalar : ∀ f, ∃ x, HasScalar fields f x
        · obtain ⟨x, hx⟩ := hscalar .feedbackSlot
          by_cases hany : ∃ field ∈ outs.fields, ∃ y, IsSlot field.1 y ∧ (y == x) = true
          · exact .inl ⟨fields, outs, hopens, hsound, hscalar, x, hx, hany⟩
          · refine .inr ⟨_, .feedback hopens hsound hscalar hx fun field hfield y hy => ?_⟩
            exact Bool.eq_false_iff.2 fun hbeq => hany ⟨field, hfield, y, hy, hbeq⟩
        · obtain ⟨f, hearlier, hf⟩ := exists_first_field fields hscalar
          exact .inr ⟨_, .field hopens hsound hearlier hf⟩
      · by_cases hslot : ∃ x, IsSlot key x
        · obtain ⟨x, hx⟩ := hslot
          exact .inr ⟨_, .entry hopens hsplit hbefore hx fun htuple => hfault ⟨⟨x, hx⟩, htuple⟩⟩
        · exact .inr ⟨_, .slot hopens hsplit hbefore hslot⟩

/-- What is read is what the data stands for, and the data has all the pieces. -/
theorem exists_denotes_of_read {c : Configuration} (h : Configuration.read data = .ok c) :
    ∃ fields outs, Opens data fields outs ∧ Readable fields outs ∧ Denotes fields outs c := by
  rcases readable_or_firstFault data with ⟨fields, outs, hopens, hreadable⟩ | ⟨fault, hfault⟩
  · obtain ⟨c', hread, hdenotes⟩ := hreadable.read hopens
    obtain rfl : c = c' := Except.ok.inj (h.symm.trans hread)
    exact ⟨fields, outs, hopens, hreadable, hdenotes⟩
  · cases h.symm.trans hfault.read

end Reading

end Configuration

end ClockSynth
