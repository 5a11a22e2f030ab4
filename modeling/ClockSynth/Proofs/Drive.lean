import ClockSynth.Proofs.Plan
import ClockSynth.Proofs.Primitive
import ClockSynth.Proofs.Solution

/-!
# What a finalized plan drives

The chain from the calls of a run to the primitive: requests stand in slots `0, 1, …`, the solution
serves each in its place, and the primitive finds the way back from a slot to its request. So every
request is driven on the port of its own letter (`drives_of_finalize`).
-/

namespace ClockSynth

open Number

/-- The primitive drives each request on the port of its slot, and its feedback runs through a port
that is enabled. -/
structure Family.Drives (f : Family) (requests : List Request) (dynamicPhase : Prop)
    (prim : Primitive) : Prop where
  request : ∀ (i : ℕ) (r : Request), requests[i]? = some r →
    ∃ letter d, f.slotLetters[i]? = some letter
      ∧ r.FirstFit f.limits.outputDivider prim.configuration.vcoFrequency d
      ∧ prim.parameters.get? (portName letter ++ "_ENABLE") = some (.text "ENABLED")
      ∧ prim.parameters.get? (portName letter ++ "_DIV") = some (.number d)
      ∧ prim.parameters.get? (portName letter ++ "_CPHASE")
        = some (.number (coarsePhase r.phase d))
      ∧ prim.outputs.get? (portName letter) = some (r.domain ++ "_clk")
  feedback : ∃ letter ∈ f.slotLetters,
    prim.parameters.get? "FEEDBK_PATH" = some (.text ("INT_O" ++ letter))
      ∧ prim.parameters.get? (portName letter ++ "_ENABLE") = some (.text "ENABLED")
  phantom : (∃ name, prim.outputs.get? name = some "clkfb")
    ↔ prim.configuration.hasPhantom = true
  phantomPort : prim.configuration.hasPhantom = true →
    ∃ letter, f.slotLetters[requests.length]? = some letter
      ∧ (∀ name, prim.outputs.get? name = some "clkfb" ↔ name = portName letter)
      ∧ prim.parameters.get? "FEEDBK_PATH" = some (.text ("INT_O" ++ letter))
  source : ∀ value, prim.parameters.get? "DPHASE_SOURCE" = some value
    ↔ value = .text "ENABLED" ∧ dynamicPhase
  inputs : ∀ port signal,
    (port, signal) ∈ [("PHASESEL0", "phase_sel[0]"), ("PHASESEL1", "phase_sel[1]"),
      ("PHASEDIR", "phase_dir"), ("PHASESTEP", "phase_step"), ("PHASELOADREG", "phase_load")] →
    ∀ found, prim.inputs.get? port = some found ↔ found = signal ∧ dynamicPhase

section Slots

theorem Family.letter?_toFloat {f : Family} {n : ℕ} (h : n ≤ 2 ^ 53) :
    f.letter? n.toFloat = f.slotLetters[n]? := by
  rw [letter?, toNat?_toFloat h, Option.bind_some]

variable {outputs : List Output}

/-- The slots count up from zero. -/
def Counted (outputs : List Output) : Prop :=
  ∀ (i : ℕ) (o : Output), outputs[i]? = some o → o.slot = i.toFloat

/-- Only so many slots have letters as there are letters. -/
theorem Counted.length_le {f : Family} {ports : List Port} (h : Counted outputs)
    (hn : f.Named outputs ports) (hf : f.slotLetters.length ≤ 2 ^ 53) :
    outputs.length ≤ f.slotLetters.length := by
  by_contra hlt
  rw [not_le] at hlt
  have hget : outputs[f.slotLetters.length]? = some outputs[f.slotLetters.length] :=
    List.getElem?_eq_getElem hlt
  obtain ⟨l, hl, -⟩ := hn.exists_port (List.mem_of_getElem? hget)
  rw [h _ _ hget, Family.letter?_toFloat hf, List.getElem?_eq_none le_rfl] at hl
  cases hl

theorem Counted.nodup (h : Counted outputs) (hlen : outputs.length ≤ 2 ^ 53) :
    (outputs.map fun o => toNat? o.slot).Nodup := by
  have hmap : (outputs.map fun o => toNat? o.slot) = (List.range outputs.length).map some := by
    refine List.ext_getElem (by simp) ?_
    intro i hi _
    rw [List.length_map] at hi
    rw [List.getElem_map, List.getElem_map, List.getElem_range,
      h i _ (List.getElem?_eq_getElem hi), toNat?_toFloat (by omega)]
  rw [hmap]
  exact List.nodup_range.map (Option.some_injective _)

theorem domainSignal_ne_feedbackSignal (domain : String) :
    domainSignal domain ≠ feedbackSignal := by
  intro h
  have h' := congrArg (fun s : String => s.toList.reverse) h
  simp [domainSignal, feedbackSignal] at h'

end Slots

namespace Snapshot

variable {s : Snapshot} {c : Configuration} {prim : Primitive}

/-- The requests stand in the slots from zero. -/
def Ordered (s : Snapshot) : Prop :=
  ∀ (i : ℕ) (r : Request), s.requests[i]? = some r → r.slot = i.toFloat

theorem Ordered.counted (h : s.Ordered) (hc : s.problem.Solves c) : Counted c.outputs := by
  intro i o ho
  rcases hc.output_cases ho with ⟨r, hr, hserved⟩ | ⟨rfl, -, hslot, -⟩
  · rw [hserved.slot, h i r hr]
  · exact hslot

/-- Going back from its slot finds a request, as no other one has this slot. -/
theorem Ordered.find? (h : s.Ordered) {i : ℕ} {r : Request} (hr : s.requests[i]? = some r)
    (hi : i ≤ 2 ^ 53) : s.requests.find? (·.slot == i.toFloat) = some r := by
  obtain ⟨hlt, rfl⟩ := List.getElem?_eq_some_iff.1 hr
  rw [List.find?_eq_some_iff_getElem]
  refine ⟨?_, i, hlt, rfl, ?_⟩
  · rw [h i _ hr]
    exact (toFloat_beq_iff hi hi).2 rfl
  · intro j hj
    have hjr := List.getElem?_eq_getElem (hj.trans hlt)
    rw [h j _ hjr, Bool.not_eq_true', ← Bool.not_eq_true, toFloat_beq_iff (by omega) hi]
    exact hj.ne

/-- The primitive was written for a solution of a snapshot with its requests in order. -/
structure Settled (s : Snapshot) (c : Configuration) (letter : String) (ports : List Port)
    (prim : Primitive) : Prop extends s.Writes c letter ports prim where
  ordered : s.Ordered
  solves : s.problem.Solves c
  length_le : c.outputs.length ≤ 2 ^ 53

theorem exists_settled (h : s.Ordered) (hc : s.problem.Solves c)
    (hn : s.family.slotLetters.Nodup) (hlen : s.family.slotLetters.length ≤ 2 ^ 53)
    (hp : s.primitive c = .ok prim) : ∃ letter ports, s.Settled c letter ports prim := by
  have hcounted := h.counted hc
  obtain ⟨-, ports', -, hnamed, -⟩ := exists_ports_of_primitive hp
  have hle := (hcounted.length_le hnamed hlen).trans hlen
  obtain ⟨letter, ports, hw⟩ := writes_of_primitive hn (hcounted.nodup hle) hp
  exact ⟨letter, ports, hw, h, hc, hle⟩

namespace Settled

variable {letter : String} {ports : List Port} {i : ℕ} {o : Output} {r : Request}

/-- The index of an output is its slot, so it finds the letter. -/
theorem letter_eq (h : s.Settled c letter ports prim) (ho : c.outputs[i]? = some o) :
    s.family.letter? o.slot = s.family.slotLetters[i]? := by
  have hi := (List.getElem?_eq_some_iff.1 ho).1.le.trans h.length_le
  rw [h.ordered.counted h.solves i o ho, Family.letter?_toFloat hi]

theorem signal_eq (h : s.Settled c letter ports prim) (ho : c.outputs[i]? = some o)
    (hr : s.requests[i]? = some r) (hreal : o.phantom = false) :
    s.signal o = domainSignal r.domain := by
  have hi := (List.getElem?_eq_some_iff.1 ho).1.le.trans h.length_le
  rw [signal, hreal, h.ordered.counted h.solves i o ho, h.ordered.find? hr hi]
  rfl

theorem signal_eq_feedbackSignal_iff (h : s.Settled c letter ports prim) (ho : o ∈ c.outputs) :
    s.signal o = feedbackSignal ↔ o.phantom = true := by
  obtain ⟨i, hi⟩ := List.mem_iff_getElem?.1 ho
  rcases h.solves.output_cases hi with ⟨r, hr, hserved⟩ | ⟨-, hphantom, -⟩
  · rw [h.signal_eq hi hr hserved.phantom, hserved.phantom]
    simp [domainSignal_ne_feedbackSignal]
  · rw [signal, hphantom]
    simp

theorem output_feedbackSignal_iff (h : s.Settled c letter ports prim) (name : String) :
    prim.outputs.get? name = some feedbackSignal
      ↔ ∃ o ∈ c.outputs, o.phantom = true
        ∧ ∃ l, s.family.letter? o.slot = some l ∧ name = portName l := by
  rw [h.output_iff (by decide)]
  refine exists_congr fun o => and_congr_right fun ho => and_congr_left' ?_
  exact h.signal_eq_feedbackSignal_iff ho

/-- A phantom comes after the outputs of the requests, and so there is at most one. -/
theorem phantom_last (h : s.Settled c letter ports prim) (ho : o ∈ c.outputs)
    (hphantom : o.phantom = true) :
    c.outputs[s.requests.length]? = some o ∧ s.family.letter? o.slot = some letter := by
  obtain ⟨i, hi⟩ := List.mem_iff_getElem?.1 ho
  rcases h.solves.output_cases hi with ⟨r, -, hserved⟩ | ⟨rfl, -, -, hpath⟩
  · rw [hserved.phantom] at hphantom
    cases hphantom
  · exact ⟨hi, hpath ▸ h.feedback⟩

theorem drives_request (h : s.Settled c letter ports prim) (hr : s.requests[i]? = some r) :
    ∃ l d, s.family.slotLetters[i]? = some l
      ∧ r.FirstFit s.family.limits.outputDivider prim.configuration.vcoFrequency d
      ∧ prim.parameters.get? (portName l ++ "_ENABLE") = some (.text "ENABLED")
      ∧ prim.parameters.get? (portName l ++ "_DIV") = some (.number d)
      ∧ prim.parameters.get? (portName l ++ "_CPHASE") = some (.number (coarsePhase r.phase d))
      ∧ prim.outputs.get? (portName l) = some (r.domain ++ "_clk") := by
  obtain ⟨o, ho, hserved⟩ := h.solves.exists_output hr
  have hmem := List.mem_of_getElem? ho
  obtain ⟨l, hl, -⟩ := h.named.exists_port hmem
  obtain ⟨henable, hdiv, -, hphase, hsignal⟩ := h.port hmem hl
  refine ⟨l, o.divider, (h.letter_eq ho).symm.trans hl, ?_, henable, hdiv, ?_, ?_⟩
  · rw [h.configuration]
    exact hserved.firstFit
  · rw [hphase, hserved.phase]
  · rw [hsignal, h.signal_eq ho hr hserved.phantom]
    rfl

theorem drives_feedback (h : s.Settled c letter ports prim) :
    letter ∈ s.family.slotLetters
      ∧ prim.parameters.get? (portName letter ++ "_ENABLE") = some (.text "ENABLED") := by
  obtain ⟨o, ho, hslot⟩ := h.solves.exists_feedback
  have hl : s.family.letter? o.slot = some letter := hslot ▸ h.feedback
  obtain ⟨i, hi⟩ := List.mem_iff_getElem?.1 ho
  exact ⟨List.mem_of_getElem? ((h.letter_eq hi).symm.trans hl), (h.port ho hl).1⟩

theorem hasPhantom_iff (h : s.Settled c letter ports prim) :
    prim.configuration.hasPhantom = true ↔ ∃ o ∈ c.outputs, o.phantom = true := by
  rw [h.configuration, Configuration.hasPhantom, List.any_eq_true]

theorem drives_phantom (h : s.Settled c letter ports prim) :
    (∃ name, prim.outputs.get? name = some feedbackSignal)
      ↔ prim.configuration.hasPhantom = true := by
  rw [h.hasPhantom_iff]
  constructor
  · rintro ⟨name, hname⟩
    obtain ⟨o, ho, hphantom, -⟩ := (h.output_feedbackSignal_iff name).1 hname
    exact ⟨o, ho, hphantom⟩
  · rintro ⟨o, ho, hphantom⟩
    have hl := (h.phantom_last ho hphantom).2
    exact ⟨portName letter, (h.output_feedbackSignal_iff _).2 ⟨o, ho, hphantom, _, hl, rfl⟩⟩

theorem drives_phantomPort (h : s.Settled c letter ports prim)
    (hphantom : prim.configuration.hasPhantom = true) :
    s.family.slotLetters[s.requests.length]? = some letter
      ∧ ∀ name, prim.outputs.get? name = some feedbackSignal ↔ name = portName letter := by
  obtain ⟨o, ho, hphantom⟩ := h.hasPhantom_iff.1 hphantom
  obtain ⟨hget, hl⟩ := h.phantom_last ho hphantom
  refine ⟨(h.letter_eq hget).symm.trans hl, ?_⟩
  intro name
  rw [h.output_feedbackSignal_iff]
  constructor
  · rintro ⟨o', ho', hphantom', l, hl', rfl⟩
    rw [(h.phantom_last ho' hphantom').2, Option.some.injEq] at hl'
    rw [hl']
  · rintro rfl
    exact ⟨o, ho, hphantom, letter, hl, rfl⟩

theorem drives (h : s.Settled c letter ports prim) :
    s.family.Drives s.requests (s.dynamicPhase = true) prim where
  request _ _ hr := h.drives_request hr
  feedback := ⟨letter, h.drives_feedback.1, h.feedbackPath, h.drives_feedback.2⟩
  phantom := h.drives_phantom
  phantomPort hphantom :=
    ⟨letter, (h.drives_phantomPort hphantom).1, (h.drives_phantomPort hphantom).2, h.feedbackPath⟩
  source := h.source
  inputs _ _ hx := h.phaseInput hx

end Settled

end Snapshot

namespace Plan

variable {f : Family} {cap : Option Float} {calls : List (Call × Reply Answer)} {p : Plan}
  {elapsed : String} {prim : Primitive}

/-- What is finalized is built from a solution of the plan as it stands. -/
theorem Invariant.solution_of_finalize (h : Invariant f cap p)
    (hp : (p.finalize elapsed).result = .ok prim) :
    ∃ s c t, p.snapshot = .ok s ∧ s.problem.solve cap = .solved c t ∧ s.primitive c = .ok prim := by
  unfold finalize at hp
  cases hs : p.solution with
  | some s =>
    rw [hs] at hp
    obtain ⟨hsnapshot, t, ht⟩ := h.solution s hs
    exact ⟨s.snapshot, s.configuration, t, hsnapshot, ht, hp⟩
  | none =>
    cases hn : p.snapshot with
    | error e => simp [hs, hn] at hp
    | ok s =>
      cases ho : s.problem.solve p.cap with
      | failed cap t => simp [hs, hn, solve, ho] at hp
      | solved c t =>
        rw [hs, hn] at hp
        simp only [solve, ho] at hp
        exact ⟨s, c, t, rfl, h.cap_eq ▸ ho, hp⟩

section Snapshot

variable {s : Snapshot}

theorem exists_input_of_snapshot (h : p.snapshot = .ok s) :
    ∃ input, p.input = some input ∧ s = ⟨p.family, input, p.requests, p.dynamicPhase⟩ := by
  unfold snapshot at h
  cases hi : p.input with
  | none => rw [hi] at h; cases h
  | some input =>
    rw [hi] at h
    cases h
    exact ⟨input, rfl, rfl⟩

theorem snapshot_ok (h : p.snapshot = .ok s) :
    s.family = p.family ∧ s.requests = p.requests ∧ s.dynamicPhase = p.dynamicPhase := by
  obtain ⟨input, -, rfl⟩ := exists_input_of_snapshot h
  exact ⟨rfl, rfl, rfl⟩

theorem input_of_snapshot (h : p.snapshot = .ok s) : p.input = some s.input := by
  obtain ⟨input, hi, rfl⟩ := exists_input_of_snapshot h
  exact hi

/-- The requests of a plan are in the order of their slots. -/
theorem Invariant.ordered (h : Invariant f cap p) (hs : p.snapshot = .ok s) : s.Ordered := by
  obtain ⟨-, hrequests, -⟩ := snapshot_ok hs
  intro i r hr
  rw [hrequests] at hr
  exact h.slot i r hr

end Snapshot

/-- Whenever a run of calls can be finalized, the primitive drives all that the calls registered,
and its phase inputs are there just if a call enabled them. As slots are doubles, which count up to
`2 ^ 53`, the list of letters must not be longer than that. -/
theorem drives_of_finalize (h : Run { family := f, cap := cap } calls p)
    (hn : f.slotLetters.Nodup) (hlen : f.slotLetters.length ≤ 2 ^ 53)
    (hp : (p.finalize elapsed).result = .ok prim) :
    f.Drives (registered calls) (∃ x ∈ calls, Enables x) prim := by
  have hinv := h.invariant
  obtain ⟨s, c, t, hs, ht, hprim⟩ := hinv.solution_of_finalize hp
  obtain ⟨hfamily, hrequests, hdynamic⟩ := snapshot_ok hs
  rw [hinv.family_eq] at hfamily
  obtain ⟨d, hd, he⟩ := Problem.exists_mem_candidates_of_solved ht
  have hordered : s.Ordered := by
    intro i r hr
    rw [hrequests] at hr
    exact hinv.slot i r hr
  have hsolves : s.problem.Solves c := Problem.solves_of_evaluate hd he
  obtain ⟨letter, ports, hsettled⟩ := Snapshot.exists_settled hordered hsolves (hfamily ▸ hn)
    (hfamily ▸ hlen) hprim
  have hdrives := hsettled.drives
  rwa [hfamily, hrequests, hdynamic, h.dynamicPhase_iff, h.requests_eq] at hdrives

/-- The calls for one output whose phase moves, so that a spare one has to feed back for it. -/
def smallCalls : List Call :=
  [.registerInput 250e6 none, .registerOutput "core" 250e6 {}, .enableDynamicPhase]

/-- The plan that these calls leave. -/
def smallPlan : Plan :=
  { family := Family.small
    input := some ⟨250e6, "clkin"⟩
    requests := [⟨0, "core", 250e6, 0, 1e-2, true, true⟩]
    dynamicPhase := true }

theorem drives_smallPlan :
    ∃ calls prim, calls.map Prod.fst = smallCalls
      ∧ Run { family := Family.small } calls smallPlan
      ∧ (smallPlan.finalize "0").result = .ok prim ∧ prim.configuration.hasPhantom = true
      ∧ Family.small.Drives (registered calls) (∃ x ∈ calls, Enables x) prim := by
  have hstart : Run { family := Family.small } [] { family := Family.small } := .nil
  have hrun := ((hstart.snoc "0" (.registerInput 250e6 none)).snoc "0"
    (.registerOutput "core" 250e6 {})).snoc "0" .enableDynamicPhase
  have hplan : (((({ family := Family.small } : Plan).call "0"
      (.registerInput 250e6 none)).plan.call "0" (.registerOutput "core" 250e6 {})).plan.call "0"
      .enableDynamicPhase).plan = smallPlan := by
    decide +kernel
  rw [hplan] at hrun
  have hok : (smallPlan.finalize "0").result.toOption.map (·.configuration.hasPhantom)
      = some true := by
    decide +kernel
  obtain ⟨prim, hprim, hphantom⟩ := Option.map_eq_some_iff.1 hok
  have hp : (smallPlan.finalize "0").result = .ok prim := by
    cases hr : (smallPlan.finalize "0").result with
    | error e => rw [hr] at hprim; cases hprim
    | ok prim' => rw [hr] at hprim; cases hprim; rfl
  exact ⟨_, prim, rfl, hrun, hp, hphantom, drives_of_finalize hrun (by decide) (by decide) hp⟩

end Plan

end ClockSynth
