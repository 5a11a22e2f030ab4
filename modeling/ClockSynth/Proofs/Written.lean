import ClockSynth.Proofs.Alias
import ClockSynth.Proofs.Letter

/-!
# Nothing on a primitive is written over

The names on a primitive are put together from texts that a family is free to choose, so a letter
may end as a parameter does, or be empty. As the endings differ, and the letters do, the names
differ all the same: with its outputs in different slots a configuration leaves as many entries as
it writes, and each reads back as it was written (`Snapshot.Keeps`). For want of a letter, be it
that of one slot alone, there is no primitive at all (`primitive_keeps`).
-/

namespace ClockSynth

open Number

/-- The slot is an index of the letters. -/
def Family.Indexes (f : Family) (slot : Float) : Prop :=
  ∃ i < f.slotLetters.length, toNat? slot = some i

instance (f : Family) (slot : Float) : Decidable (f.Indexes slot) :=
  inferInstanceAs (Decidable (∃ i < f.slotLetters.length, toNat? slot = some i))

/-- The slots that a configuration names, that of the feedback first. -/
def Configuration.slots (c : Configuration) : List Float :=
  c.feedbackSlot :: c.outputs.map Output.slot

section Indexes

variable {f : Family} {slot : Float}

theorem Family.indexes_iff : f.Indexes slot ↔ ∃ l, f.letter? slot = some l := by
  unfold Indexes letter?
  constructor
  · rintro ⟨i, hi, hslot⟩
    exact ⟨f.slotLetters[i], by rw [hslot, Option.bind_some, List.getElem?_eq_getElem hi]⟩
  · rintro ⟨l, hl⟩
    obtain ⟨i, hslot, hi⟩ := Option.bind_eq_some_iff.1 hl
    exact ⟨i, (List.getElem?_eq_some_iff.1 hi).1, hslot⟩

theorem Family.letter_eq_error (h : ¬ f.Indexes slot) :
    f.letter slot = .error (.unnamedSlot slot f.primitive) := by
  rw [indexes_iff, ← Option.isSome_iff_exists, Option.not_isSome_iff_eq_none] at h
  rw [letter, h]

/-- Different slots are different indices. -/
theorem Configuration.Distinct.nodup {c : Configuration} (h : c.Distinct)
    (hc : ∀ o ∈ c.outputs, f.Indexes o.slot) : (c.outputs.map fun o => toNat? o.slot).Nodup := by
  rw [List.nodup_iff_pairwise_ne, List.pairwise_map]
  refine List.Pairwise.imp_of_mem (fun {a b} ha hb hab heq => ?_) h
  obtain ⟨i, -, hi⟩ := hc a ha
  rw [(beq_iff_of_toNat? hi (heq ▸ hi)).2 rfl] at hab
  cases hab

end Indexes

namespace Snapshot

variable {s : Snapshot} {c : Configuration} {path letter ending key : String} {ports : List Port}
  {prim : Primitive} {value : Parameter} {slot : Float}

/-- All that is written for a configuration stands on the primitive, each thing in a place of its
own. -/
structure Keeps (s : Snapshot) (c : Configuration) (prim : Primitive) : Prop where
  configuration : prim.configuration = c
  written : ∃ letter ports, s.family.letter? c.feedbackSlot = some letter
    ∧ s.family.Named c.outputs ports
    ∧ prim.parameters.fields = s.parameters c ("INT_O" ++ letter) ports
    ∧ prim.outputs.fields = s.outputs ports
  parameters_size : prim.parameters.size
    = 3 + 4 * c.outputs.length + if s.dynamicPhase then 1 else 0
  outputs_size : prim.outputs.size = 1 + c.outputs.length
  source : (∃ value, prim.parameters.get? "DPHASE_SOURCE" = some value) ↔ s.dynamicPhase = true
  enable : ∀ letter value, prim.parameters.get? ("CLKO" ++ letter ++ "_ENABLE") = some value
    ↔ ∃ o ∈ c.outputs, s.family.letter? o.slot = some letter ∧ value = .text "ENABLED"
  divider : ∀ letter value, prim.parameters.get? ("CLKO" ++ letter ++ "_DIV") = some value
    ↔ ∃ o ∈ c.outputs, s.family.letter? o.slot = some letter ∧ value = .number o.divider
  finePhase : ∀ letter value, prim.parameters.get? ("CLKO" ++ letter ++ "_FPHASE") = some value
    ↔ ∃ o ∈ c.outputs, s.family.letter? o.slot = some letter ∧ value = .number 0
  coarsePhase : ∀ letter value, prim.parameters.get? ("CLKO" ++ letter ++ "_CPHASE") = some value
    ↔ ∃ o ∈ c.outputs, s.family.letter? o.slot = some letter
      ∧ value = .number (coarsePhase o.phase o.divider)

/-- Of the parameters only those of ports have names that start as ports do. -/
theorem mem_parameters_iff (hkey : key.toList.take 4 = ['C', 'L', 'K', 'O']) :
    (key, value) ∈ s.parameters c path ports ↔ ∃ p ∈ ports, (key, value) ∈ p.parameters := by
  rw [parameters, List.mem_append, List.mem_flatMap, or_iff_right]
  intro h
  split at h <;> simp at h <;> rcases h with ⟨rfl, -⟩ | ⟨rfl, -⟩ | ⟨rfl, -⟩ | ⟨rfl, -⟩ <;>
    simp at hkey

/-- A parameter of a port comes from an output in the slot of its letter. -/
theorem Writes.parameter_iff (h : s.Writes c letter ports prim) {l : String}
    (hending : ending ∈ ["_ENABLE", "_DIV", "_FPHASE", "_CPHASE"]) :
    prim.parameters.get? (portName l ++ ending) = some value
      ↔ ∃ o ∈ c.outputs, s.family.letter? o.slot = some l
        ∧ (portName l ++ ending, value) ∈ (⟨portName l, o⟩ : Port).parameters := by
  have hkey (o : Output) :
      portName l ++ ending ∈ (⟨portName l, o⟩ : Port).parameters.map Prod.fst := by
    simp only [List.mem_cons, List.not_mem_nil, or_false] at hending
    rcases hending with rfl | rfl | rfl | rfl <;> simp [Port.parameters]
  rw [h.parameter, mem_parameters_iff (Port.take_of_mem rfl (hkey default))]
  constructor
  · rintro ⟨⟨name, o⟩, hp, hmem⟩
    obtain ⟨ho, l', hl', hname⟩ := h.named.exists_letter hp
    obtain rfl : name = portName l' := hname
    obtain rfl := portName_injective
      (Port.name_eq_of_mem (hkey default) (List.mem_map_of_mem (f := Prod.fst) hmem))
    exact ⟨o, ho, hl', hmem⟩
  · rintro ⟨o, ho, hl, hmem⟩
    obtain ⟨l', hl', hp⟩ := h.named.exists_port ho
    obtain rfl : l = l' := Option.some.inj (hl.symm.trans hl')
    exact ⟨_, hp, hmem⟩

theorem keeps_of_primitive (hf : s.family.slotLetters.Nodup) (hc : c.Distinct)
    (hslots : ∀ slot ∈ c.slots, s.family.Indexes slot) (h : s.primitive c = .ok prim) :
    s.Keeps c prim := by
  have hs := hc.nodup fun o ho => hslots o.slot (List.mem_cons_of_mem _ (List.mem_map_of_mem ho))
  obtain ⟨letter, ports, hletter, hnamed, hconfig, hp, hi, ho⟩ := fields_of_primitive hf hs h
  have hw := writes_of_fields hletter hnamed hconfig hp hi ho
  have hlen : ports.length = c.outputs.length := hnamed.length_eq.symm
  refine
    { configuration := hconfig
      written := ⟨letter, ports, hletter, hnamed, hp, ho⟩
      parameters_size := ?_
      outputs_size := ?_
      source := ?_
      enable := fun l value => ?_
      divider := fun l value => ?_
      finePhase := fun l value => ?_
      coarsePhase := fun l value => ?_ }
  · rw [Record.size, hp, parameters]
    split <;> simp [List.length_flatMap, Port.parameters, hlen] <;> omega
  · rw [Record.size, ho, outputs]
    simp [hlen]
    omega
  · simp [hw.source]
  · exact (hw.parameter_iff (by simp)).trans (by simp [Port.parameters])
  · exact (hw.parameter_iff (by simp)).trans (by simp [Port.parameters])
  · exact (hw.parameter_iff (by simp)).trans (by simp [Port.parameters])
  · exact (hw.parameter_iff (by simp)).trans (by simp [Port.parameters])

/-- The first slot without a letter ends the writing. -/
theorem primitive_eq_error {before after : List Float} (h : c.slots = before ++ slot :: after)
    (hbefore : ∀ x ∈ before, s.family.Indexes x) (hslot : ¬ s.family.Indexes slot) :
    s.primitive c = .error (.unnamedSlot slot s.family.primitive) := by
  have herror := Family.letter_eq_error hslot
  rcases before with _ | ⟨first, before⟩
  · obtain ⟨rfl, -⟩ := List.cons.inj h
    simp only [primitive, Family.feedbackPath, herror]
    rfl
  · obtain ⟨rfl, htail⟩ := List.cons.inj h
    obtain ⟨l, hl⟩ := Family.indexes_iff.1 (hbefore _ List.mem_cons_self)
    obtain ⟨outs, rest, houts, rfl, hrest⟩ := List.map_eq_append_iff.1 htail
    obtain ⟨o, outs', rfl, rfl, -⟩ := List.map_eq_cons_iff.1 hrest
    have hport : s.port o = .error (.unnamedSlot o.slot s.family.primitive) := by
      rw [port, herror]
      rfl
    have hports : ∀ o ∈ outs, ∃ p, s.port o = .ok p := by
      intro o ho
      obtain ⟨l, hl⟩ := Family.indexes_iff.1
        (hbefore o.slot (List.mem_cons_of_mem _ (List.mem_map_of_mem ho)))
      exact ⟨_, port_eq_ok_iff.2 ⟨l, hl, rfl⟩⟩
    rw [primitive, feedbackPath_eq_ok_iff.2 ⟨l, hl, rfl⟩, houts, mapM_eq_error hport hports]
    rfl

/-- With different letters and its outputs in different slots, all of which have letters, a
configuration is written with nothing lost, and its primitive keeps it as it is. If the slot of the
feedback or of an output has no letter there is an error instead, for the first such slot. -/
theorem primitive_keeps (s : Snapshot) (c : Configuration) :
    (s.family.slotLetters.Nodup → c.Distinct → (∀ slot ∈ c.slots, s.family.Indexes slot) →
        ∃ prim, s.primitive c = .ok prim ∧ s.Keeps c prim)
      ∧ ((∃ slot ∈ c.slots, ¬ s.family.Indexes slot) →
        ∃ before slot after, c.slots = before ++ slot :: after
          ∧ (∀ x ∈ before, s.family.Indexes x) ∧ ¬ s.family.Indexes slot
          ∧ s.primitive c = .error (.unnamedSlot slot s.family.primitive)) := by
  constructor
  · intro hf hc hslots
    have hletter (slot : Float) (h : slot ∈ c.slots) : ∃ l, s.family.letter? slot = some l :=
      Family.indexes_iff.1 (hslots slot h)
    obtain ⟨prim, hprim⟩ := exists_primitive_of_letters
      (hletter c.feedbackSlot List.mem_cons_self)
      fun o ho => hletter o.slot (List.mem_cons_of_mem _ (List.mem_map_of_mem ho))
    exact ⟨prim, hprim, keeps_of_primitive hf hc hslots hprim⟩
  · rintro ⟨slot, hslot, hmissing⟩
    rcases forall_or_exists_first s.family.Indexes c.slots with hall | ⟨before, x, after, h, hb, hx⟩
    · exact absurd (hall slot hslot) hmissing
    · exact ⟨before, x, after, h, hb, hx, primitive_eq_error h hb hx⟩

/-- A plan on a family whose letters end as parameters do. -/
def lookalike : Snapshot where
  family := { Family.ecp5 with slotLetters := ["", "_DIV", "P", "P_DIV"] }
  input := ⟨25e6, "clkin"⟩
  requests := [⟨0, "core", 100e6, 0, 0.01, true, false⟩]
  dynamicPhase := true

/-- A configuration that leads its feedback through this slot. -/
def lookalikeConfiguration (feedbackSlot : Float) : Configuration where
  inputFrequency := 25e6
  inputDivider := 1
  feedbackDivider := 4
  feedbackOutputDivider := 6
  vcoFrequency := 600e6
  feedbackSlot := feedbackSlot
  outputs := [⟨3, 12, 50e6, 90, false⟩, ⟨0, 6, 100e6, 0, false⟩, ⟨1, 6, 100e6, 0, true⟩]

/-- All is written with the feedback in slot 1, and nothing with the feedback in slot 4. -/
theorem primitive_keeps_lookalike :
    lookalike.family.slotLetters.Nodup ∧ (lookalikeConfiguration 1).Distinct
      ∧ (∃ prim, lookalike.primitive (lookalikeConfiguration 1) = .ok prim
        ∧ lookalike.Keeps (lookalikeConfiguration 1) prim ∧ prim.parameters.size = 16)
      ∧ ∃ slot, ¬ lookalike.family.Indexes slot
        ∧ lookalike.primitive (lookalikeConfiguration 4)
          = .error (.unnamedSlot slot "EHXPLLL") := by
  have hletters : lookalike.family.slotLetters.Nodup := by decide
  have hdistinct : (lookalikeConfiguration 1).Distinct := by decide +kernel
  obtain ⟨prim, hprim, hkeeps⟩ := (primitive_keeps lookalike (lookalikeConfiguration 1)).1
    hletters hdistinct (by decide +kernel)
  obtain ⟨-, slot, -, -, -, hmissing, herror⟩ :=
    (primitive_keeps lookalike (lookalikeConfiguration 4)).2
      ⟨4, List.mem_cons_self, by decide +kernel⟩
  exact ⟨hletters, hdistinct, ⟨prim, hprim, hkeeps, hkeeps.parameters_size⟩, slot, hmissing, herror⟩

end Snapshot

end ClockSynth
