import ClockSynth.Proofs.Finalize
import ClockSynth.Proofs.RoundTrip

/-!
# A finalized configuration is read back

Between `Exact` limits each scalar of a solution is finite: a divider comes from a range of integers,
and the VCO lies in a range with finite bounds. The slots of a plan count up from zero, so those of
its solution ascend, and the feedback runs through one of them. A solution is therefore `Storable`,
and as it has its outputs in order already it is read back as it was (`Run.read_store_of_finalize`).
-/

namespace ClockSynth

open Number

section Limits

/-- Both bounds are finite. -/
structure FrequencyRange.Bounded (r : FrequencyRange) : Prop where
  min : r.min.isFinite = true
  max : r.max.isFinite = true

theorem FrequencyRange.Bounded.isFinite {r : FrequencyRange} {frequency : Float} (h : r.Bounded)
    (hf : r.contains frequency = true) : frequency.isFinite = true := by
  rw [contains, Bool.and_eq_true, decide_eq_true_iff, decide_eq_true_iff] at hf
  exact isFinite_of_le_of_le h.min h.max hf.1 hf.2

/-- What the scalars of a solution take from the limits: dividers between integers, and frequencies of
the input and the VCO between finite bounds. The bounds on the outputs and the detector do not matter
here. -/
structure Limits.Exact (l : Limits) : Prop where
  inputDivider : l.inputDivider.Integral
  feedbackDivider : l.feedbackDivider.Integral
  outputDivider : l.outputDivider.Integral
  inputFrequency : l.inputFrequency.Bounded
  vcoFrequency : l.vcoFrequency.Bounded

end Limits

section Counted

variable {outputs : List Output}

theorem Counted.ascends (h : Counted outputs) (hlen : outputs.length ≤ 2 ^ 53) :
    outputs.Pairwise (·.slot < ·.slot) := by
  rw [List.pairwise_iff_getElem]
  intro i j hi hj hij
  obtain ⟨hif, hiv⟩ := @value_toFloat i (by omega)
  obtain ⟨hjf, hjv⟩ := @value_toFloat j (by omega)
  rw [h i _ (List.getElem?_eq_getElem hi), h j _ (List.getElem?_eq_getElem hj),
    lt_iff_value hif hjf, hiv, hjv]
  exact_mod_cast hij

/-- A slot that was counted to is a natural number, and its zero has no sign. -/
theorem Counted.exists_slot (h : Counted outputs) (hlen : outputs.length ≤ 2 ^ 53) {o : Output}
    (ho : o ∈ outputs) : ∃ n ≤ 2 ^ 53, o.slot = n.toFloat := by
  obtain ⟨i, hi⟩ := List.mem_iff_getElem?.1 ho
  exact ⟨i, (List.getElem?_eq_some_iff.1 hi).1.le.trans hlen, h i o hi⟩

theorem Counted.isNatural (h : Counted outputs) (hlen : outputs.length ≤ 2 ^ 53) {o : Output}
    (ho : o ∈ outputs) : IsNatural o.slot := by
  obtain ⟨n, hn, hslot⟩ := h.exists_slot hlen ho
  exact isNatural_iff.2 ⟨n, hslot ▸ toNat?_toFloat hn⟩

theorem Counted.readBack_eq (h : Counted outputs) (hlen : outputs.length ≤ 2 ^ 53) {o : Output}
    (ho : o ∈ outputs) : o.readBack = o := by
  obtain ⟨n, hn, hslot⟩ := h.exists_slot hlen ho
  have hzero : unsignedZero o.slot = o.slot := by rw [hslot, unsignedZero_toFloat hn]
  rw [Output.readBack, hzero]

end Counted

namespace Configuration

variable {c : Configuration}

/-- Slots that ascend and have no signs on zeros come back in their order and as they are. -/
theorem Storable.read_of_ascends (h : c.Storable) (hslots : ∀ o ∈ c.outputs, o.readBack = o)
    (hasc : c.outputs.Pairwise (·.slot < ·.slot)) : read c.store.toValue = .ok c := by
  obtain ⟨fields, outs, hopens, hscalar, houts⟩ := h.opens
  obtain ⟨c', hread, hdenotes⟩ := (h.readable hscalar houts).read hopens
  have hperm := h.perm_of_listed houts hdenotes.outputs
  have hasc' := h.ascends_of_perm hperm hdenotes.outputs.ascends
  rw [List.map_congr_left hslots, List.map_id'] at hperm
  -- Ascending doubles have one order, so the outputs that are read are the ones that were stored.
  have houtputs : c'.outputs = c.outputs :=
    hperm.eq_of_pairwise (fun _ _ _ _ hlt hgt => absurd hgt (double_lt_asymm hlt)) hasc' hasc
  have heq := eq_of_scalar_eq fun f => (hdenotes.scalar f).unique (hscalar f)
  rw [hread, heq, houtputs]

end Configuration

namespace Problem

variable {p : Problem} {c : Configuration}

theorem Solves.scalar_isFinite (h : p.Solves c) (hl : p.family.limits.Exact)
    (hinput : p.family.limits.inputFrequency.contains p.inputFrequency = true)
    (hcounted : Counted c.outputs) (hlen : c.outputs.length ≤ 2 ^ 53) (f : StoredField) :
    (c.scalar f).isFinite = true := by
  cases f with
  | inputFrequency =>
    rw [Configuration.scalar, h.inputFrequency]
    exact hl.inputFrequency.isFinite hinput
  | inputDivider => exact hl.inputDivider.isFinite h.inputDivider
  | feedbackDivider => exact hl.feedbackDivider.isFinite h.feedbackDivider
  | feedbackOutputDivider => exact hl.outputDivider.isFinite h.feedbackOutputDivider
  | vcoFrequency => exact hl.vcoFrequency.isFinite h.vco
  | feedbackSlot =>
    obtain ⟨o, ho, hslot⟩ := h.exists_feedback
    rw [Configuration.scalar, hslot]
    exact (hcounted.isNatural hlen ho).1

/-- A solution with counted slots has all that is needed to read it back. -/
theorem Solves.storable (h : p.Solves c) (hl : p.family.limits.Exact)
    (hinput : p.family.limits.inputFrequency.contains p.inputFrequency = true)
    (hcounted : Counted c.outputs) (hlen : c.outputs.length ≤ 2 ^ 53) : c.Storable where
  finite := h.scalar_isFinite hl hinput hcounted hlen
  slot _ ho := hcounted.isNatural hlen ho
  distinct := (hcounted.ascends hlen).imp double_not_beq_of_lt
  feedback := by
    obtain ⟨o, ho, hslot⟩ := h.exists_feedback
    have hf := (hcounted.isNatural hlen ho).1
    exact ⟨o, ho, hslot ▸ (beq_iff_value hf hf).2 rfl⟩

end Problem

namespace Plan

variable {f : Family} {cap : Option Float} {p : Plan} {elapsed : String} {prim : Primitive}

/-- The primitive is written for a solution of the plan as it stands, with requests in order. -/
theorem Invariant.solves_of_finalize (h : Invariant f cap p)
    (hp : (p.finalize elapsed).result = .ok prim) :
    ∃ s c, p.snapshot = .ok s ∧ s.problem.family = f ∧ s.Ordered ∧ s.problem.Solves c
      ∧ s.primitive c = .ok prim := by
  obtain ⟨s, c, t, hs, ht, hprim⟩ := h.solution_of_finalize hp
  obtain ⟨hfamily, -⟩ := snapshot_ok hs
  obtain ⟨d, hd, he⟩ := Problem.exists_mem_candidates_of_solved ht
  exact ⟨s, c, hs, hfamily.trans h.family_eq, h.ordered hs, Problem.solves_of_evaluate hd he, hprim⟩

theorem Invariant.read_of_finalize (h : Invariant f cap p) (hl : f.limits.Exact)
    (hlen : f.slotLetters.length ≤ 2 ^ 53) (hp : (p.finalize elapsed).result = .ok prim) :
    Configuration.read prim.configuration.store.toValue = .ok prim.configuration := by
  obtain ⟨s, c, hs, hfamily, hordered, hsolves, hprim⟩ := h.solves_of_finalize hp
  have hinput : f.limits.inputFrequency.contains s.problem.inputFrequency = true :=
    h.input _ (input_of_snapshot hs)
  rw [← hfamily] at hl hlen hinput
  obtain ⟨-, ports, -, hnamed, hc, -⟩ := Snapshot.exists_ports_of_primitive hprim
  have hcounted := hordered.counted hsolves
  have hle := (hcounted.length_le hnamed hlen).trans hlen
  have hstorable := hsolves.storable hl hinput hcounted hle
  rw [hc]
  exact hstorable.read_of_ascends (fun o ho => hcounted.readBack_eq hle ho) (hcounted.ascends hle)

end Plan

namespace Session

variable {s : Session} {id : String} {p : Plan} {entries : List Entry} {clock : Clock}
  {prim : Primitive}

/-- Whatever plan of a session is finalized with success, on a family with exact limits, the
configuration of its primitive is read back as it was stored, with its outputs in the same order. As
slots are doubles, which count up to `2 ^ 53`, the list of letters must not be longer than that. -/
theorem Run.read_store_of_finalize (h : Run {} entries s) (hp : s.plans.get? id = some p)
    (hl : p.family.limits.Exact) (hlen : p.family.slotLetters.length ≤ 2 ^ 53)
    (hok : (s.run clock (.plan id .finalize)).2.1 = .ok (.plan (.primitive prim))) :
    Configuration.read prim.configuration.store.toValue = .ok prim.configuration := by
  obtain ⟨p', hp', hr⟩ := exists_plan_of_finalize hok
  obtain rfl : p' = p := Option.some.inj (hp'.symm.trans hp)
  exact ((h.sound sound_empty).plans id p' hp).2.read_of_finalize hl hlen hr

theorem exact_small : Family.small.limits.Exact where
  inputDivider := @DividerRange.integral_toFloat 1 2 (by norm_num) (by norm_num)
  feedbackDivider := @DividerRange.integral_toFloat 1 3 (by norm_num) (by norm_num)
  outputDivider := @DividerRange.integral_toFloat 1 3 (by norm_num) (by norm_num)
  inputFrequency := ⟨by decide, by decide⟩
  vcoFrequency := ⟨by decide, by decide⟩

theorem read_store_of_finalize_ready :
    ∃ entries s prim, entries.map Entry.command = readyCommands ∧ Run {} entries s
      ∧ (s.run default (.plan "clk" .finalize)).2.1 = .ok (.plan (.primitive prim))
      ∧ Configuration.read prim.configuration.store.toValue = .ok prim.configuration := by
  obtain ⟨entries, hentries, h⟩ := exists_run_after {} default readyCommands
  obtain ⟨prim, hok⟩ := exists_finalize_ready
  exact ⟨entries, _, prim, hentries, h, hok,
    h.read_store_of_finalize get?_ready exact_small (by decide) hok⟩

end Session

end ClockSynth
