import ClockSynth.Primitive
import ClockSynth.Proofs.Traversal
import Mathlib

/-!
# What a primitive reads back

All that is written onto a primitive stays: the names of ports and parameters are built from slot
letters, and different letters never make one name (`parameters_nodup`, `outputs_nodup`). So it
reads back just what `Snapshot.parameters`, `Snapshot.inputs` and `Snapshot.outputs` list
(`writes_of_primitive`).
-/

namespace ClockSynth

open Number

section Keys

def portName (letter : String) : String :=
  "CLKO" ++ letter

theorem portName_injective : Function.Injective portName := by
  intro l l' h
  simpa [portName] using h

theorem Port.parameters_nodup (p : Port) : (p.parameters.map Prod.fst).Nodup := by
  simp [Port.parameters]

/-- The four endings tell the parameters of a port apart, whatever its name is. -/
theorem Port.name_eq_of_mem {p q : Port} {key : String} (hp : key ∈ p.parameters.map Prod.fst)
    (hq : key ∈ q.parameters.map Prod.fst) : p.name = q.name := by
  simp only [Port.parameters, List.map_cons, List.map_nil, List.mem_cons, List.not_mem_nil,
    or_false] at hp hq
  rcases hp with rfl | rfl | rfl | rfl <;> rcases hq with h | h | h | h <;>
    have h' := congrArg (fun s : String => s.toList.reverse) h <;> simp at h' <;>
    exact String.toList_inj.1 h'

/-- A parameter of a port starts as its name does. -/
theorem Port.take_of_mem {p : Port} {letter key : String} (hp : p.name = portName letter)
    (h : key ∈ p.parameters.map Prod.fst) : key.toList.take 4 = ['C', 'L', 'K', 'O'] := by
  simp only [Port.parameters, List.map_cons, List.map_nil, List.mem_cons, List.not_mem_nil,
    or_false, hp, portName] at h
  rcases h with rfl | rfl | rfl | rfl <;> simp

end Keys

/-- The ports of outputs, each with the letter of its slot. -/
def Family.Named (f : Family) (outputs : List Output) (ports : List Port) : Prop :=
  List.Forall₂ (fun o p => ∃ l, f.letter? o.slot = some l ∧ p = ⟨portName l, o⟩) outputs ports

namespace Family.Named

variable {f : Family} {outputs : List Output} {ports : List Port}

theorem exists_port (h : f.Named outputs ports) {o : Output} (ho : o ∈ outputs) :
    ∃ l, f.letter? o.slot = some l ∧ ⟨portName l, o⟩ ∈ ports := by
  induction h with
  | nil => cases ho
  | cons hp _ ih =>
    obtain ⟨l, hl, rfl⟩ := hp
    rcases List.mem_cons.1 ho with rfl | ho
    · exact ⟨l, hl, List.mem_cons_self⟩
    · obtain ⟨l', hl', hm⟩ := ih ho
      exact ⟨l', hl', List.mem_cons_of_mem _ hm⟩

theorem exists_letter (h : f.Named outputs ports) {p : Port} (hp : p ∈ ports) :
    p.output ∈ outputs ∧ ∃ l, f.letter? p.output.slot = some l ∧ p.name = portName l := by
  induction h with
  | nil => cases hp
  | cons hq _ ih =>
    obtain ⟨l, hl, rfl⟩ := hq
    rcases List.mem_cons.1 hp with rfl | hp
    · exact ⟨List.mem_cons_self, l, hl, rfl⟩
    · obtain ⟨ho, hl'⟩ := ih hp
      exact ⟨List.mem_cons_of_mem _ ho, hl'⟩

theorem names_eq (h : f.Named outputs ports) :
    ports.map (fun p => some p.name)
      = (outputs.map fun o => toNat? o.slot).map
        (fun i => (i.bind fun i => f.slotLetters[i]?).map portName) := by
  induction h with
  | nil => rfl
  | cons hp _ ih =>
    obtain ⟨l, hl, rfl⟩ := hp
    rw [letter?] at hl
    rw [List.map_cons, List.map_cons, List.map_cons, ih, hl]
    rfl

theorem names_nodup (h : f.Named outputs ports) (hf : f.slotLetters.Nodup)
    (hs : (outputs.map fun o => toNat? o.slot).Nodup) : (ports.map Port.name).Nodup := by
  have hn : (ports.map fun p => some p.name).Nodup := by
    rw [h.names_eq]
    refine hs.map_on ?_
    intro i hi j hj hij
    obtain ⟨o, ho, rfl⟩ := List.mem_map.1 hi
    obtain ⟨o', ho', rfl⟩ := List.mem_map.1 hj
    obtain ⟨l, hl, -⟩ := h.exists_port ho
    obtain ⟨l', hl', -⟩ := h.exists_port ho'
    unfold letter? at hl hl'
    rw [hl, hl', Option.map_some, Option.map_some, Option.some.injEq] at hij
    obtain rfl := portName_injective hij
    obtain ⟨m, hm, hlm⟩ := Option.bind_eq_some_iff.1 hl
    obtain ⟨m', hm', hlm'⟩ := Option.bind_eq_some_iff.1 hl'
    have hlt := (List.getElem?_eq_some_iff.1 hlm).1
    rw [hm, hm', (List.getElem?_inj hlt hf).1 (hlm.trans hlm'.symm)]
  refine List.Nodup.of_map some ?_
  rwa [List.map_map]

end Family.Named

namespace Snapshot

variable {s : Snapshot} {c : Configuration} {path letter : String} {ports : List Port}
  {prim : Primitive}

theorem port_eq_ok_iff {o : Output} {p : Port} :
    s.port o = .ok p ↔ ∃ l, s.family.letter? o.slot = some l ∧ p = ⟨portName l, o⟩ := by
  unfold port Family.letter
  cases s.family.letter? o.slot with
  | none => simp [Except.map]
  | some l => simp [Except.map, portName, eq_comm]

theorem mapM_port_eq_ok_iff :
    c.outputs.mapM s.port = .ok ports ↔ s.family.Named c.outputs ports := by
  rw [mapM_eq_ok_iff]
  simp only [port_eq_ok_iff, Family.Named]

theorem feedbackPath_eq_ok_iff {f : Family} {slot : Float} :
    f.feedbackPath slot = .ok path ↔ ∃ l, f.letter? slot = some l ∧ path = "INT_O" ++ l := by
  unfold Family.feedbackPath Family.letter
  cases f.letter? slot with
  | none => simp [Except.map]
  | some l => simp [Except.map, eq_comm]

theorem parameters_nodup (hnames : ∀ p ∈ ports, ∃ l, p.name = portName l)
    (hn : (ports.map Port.name).Nodup) :
    ((s.parameters c path ports).map Prod.fst).Nodup := by
  have hports : ((ports.flatMap Port.parameters).map Prod.fst).Nodup := by
    rw [List.map_flatMap, List.nodup_flatMap]
    refine ⟨fun p _ => p.parameters_nodup, ?_⟩
    refine (List.pairwise_map.1 hn).imp ?_
    intro p q hpq key hp hq
    exact hpq (Port.name_eq_of_mem hp hq)
  have hdisjoint : ∀ key ∈ (ports.flatMap Port.parameters).map Prod.fst,
      key.toList.take 4 = ['C', 'L', 'K', 'O'] := by
    intro key hkey
    rw [List.map_flatMap] at hkey
    obtain ⟨p, hp, hkey⟩ := List.mem_flatMap.1 hkey
    obtain ⟨l, hl⟩ := hnames p hp
    exact Port.take_of_mem hl hkey
  unfold parameters
  rw [List.map_append, List.nodup_append]
  refine ⟨by split <;> simp, hports, ?_⟩
  rintro key hkey _ hkey' rfl
  have h := hdisjoint key hkey'
  split at hkey <;> simp at hkey <;> rcases hkey with rfl | rfl | rfl | rfl <;> simp at h

theorem outputs_nodup (hnames : ∀ p ∈ ports, ∃ l, p.name = portName l)
    (hn : (ports.map Port.name).Nodup) : ((s.outputs ports).map Prod.fst).Nodup := by
  have hmap : (s.outputs ports).map Prod.fst = "LOCK" :: ports.map Port.name := by
    rw [outputs, List.map_cons, List.map_map]
    rfl
  rw [hmap, List.nodup_cons]
  refine ⟨?_, hn⟩
  intro h
  obtain ⟨p, hp, hlock⟩ := List.mem_map.1 h
  obtain ⟨l, hl⟩ := hnames p hp
  have h' := congrArg String.toList (hlock.symm.trans hl)
  simp [portName] at h'

theorem inputs_nodup : (s.inputs.map Prod.fst).Nodup := by
  unfold inputs
  split <;> simp [phaseInputs]

/-- The primitive reads back what the snapshot and the configuration give. -/
structure Writes (s : Snapshot) (c : Configuration) (letter : String) (ports : List Port)
    (prim : Primitive) : Prop where
  feedback : s.family.letter? c.feedbackSlot = some letter
  named : s.family.Named c.outputs ports
  configuration : prim.configuration = c
  parameter : ∀ key value, prim.parameters.get? key = some value
    ↔ (key, value) ∈ s.parameters c ("INT_O" ++ letter) ports
  input : ∀ name signal, prim.inputs.get? name = some signal ↔ (name, signal) ∈ s.inputs
  output : ∀ name signal, prim.outputs.get? name = some signal ↔ (name, signal) ∈ s.outputs ports

theorem exists_ports_of_primitive (h : s.primitive c = .ok prim) :
    ∃ letter ports, s.family.letter? c.feedbackSlot = some letter
      ∧ s.family.Named c.outputs ports ∧ prim.configuration = c
      ∧ prim.parameters = .ofList (s.parameters c ("INT_O" ++ letter) ports)
      ∧ prim.inputs = .ofList s.inputs ∧ prim.outputs = .ofList (s.outputs ports) := by
  unfold primitive at h
  cases hpath : s.family.feedbackPath c.feedbackSlot with
  | error e => rw [hpath] at h; cases h
  | ok path =>
    cases hports : c.outputs.mapM s.port with
    | error e => rw [hpath, hports] at h; cases h
    | ok ports =>
      rw [hpath, hports] at h
      cases h
      obtain ⟨letter, hletter, rfl⟩ := feedbackPath_eq_ok_iff.1 hpath
      exact ⟨letter, ports, hletter, mapM_port_eq_ok_iff.1 hports, rfl, rfl, rfl, rfl⟩

/-- On different slots nothing is written over: all that is written can be found, in the order of
writing. -/
theorem fields_of_primitive (hf : s.family.slotLetters.Nodup)
    (hs : (c.outputs.map fun o => toNat? o.slot).Nodup) (h : s.primitive c = .ok prim) :
    ∃ letter ports, s.family.letter? c.feedbackSlot = some letter
      ∧ s.family.Named c.outputs ports ∧ prim.configuration = c
      ∧ prim.parameters.fields = s.parameters c ("INT_O" ++ letter) ports
      ∧ prim.inputs.fields = s.inputs ∧ prim.outputs.fields = s.outputs ports := by
  obtain ⟨letter, ports, hletter, hnamed, hc, hp, hi, ho⟩ := exists_ports_of_primitive h
  have hnames : ∀ p ∈ ports, ∃ l, p.name = portName l := by
    intro p hp
    obtain ⟨-, l, -, hl⟩ := hnamed.exists_letter hp
    exact ⟨l, hl⟩
  have hn := hnamed.names_nodup hf hs
  refine ⟨letter, ports, hletter, hnamed, hc, ?_, ?_, ?_⟩
  · rw [hp, Record.fields_ofList_of_nodup (parameters_nodup hnames hn)]
  · rw [hi, Record.fields_ofList_of_nodup inputs_nodup]
  · rw [ho, Record.fields_ofList_of_nodup (outputs_nodup hnames hn)]

theorem writes_of_fields (hletter : s.family.letter? c.feedbackSlot = some letter)
    (hnamed : s.family.Named c.outputs ports) (hc : prim.configuration = c)
    (hp : prim.parameters.fields = s.parameters c ("INT_O" ++ letter) ports)
    (hi : prim.inputs.fields = s.inputs) (ho : prim.outputs.fields = s.outputs ports) :
    s.Writes c letter ports prim where
  feedback := hletter
  named := hnamed
  configuration := hc
  parameter _ _ := by rw [Record.get?_eq_some_iff, hp]
  input _ _ := by rw [Record.get?_eq_some_iff, hi]
  output _ _ := by rw [Record.get?_eq_some_iff, ho]

theorem writes_of_primitive (hf : s.family.slotLetters.Nodup)
    (hs : (c.outputs.map fun o => toNat? o.slot).Nodup) (h : s.primitive c = .ok prim) :
    ∃ letter ports, s.Writes c letter ports prim := by
  obtain ⟨letter, ports, hletter, hnamed, hc, hp, hi, ho⟩ := fields_of_primitive hf hs h
  exact ⟨letter, ports, writes_of_fields hletter hnamed hc hp hi ho⟩

namespace Writes

theorem port (h : s.Writes c letter ports prim) {o : Output} {l : String} (ho : o ∈ c.outputs)
    (hl : s.family.letter? o.slot = some l) :
    prim.parameters.get? (portName l ++ "_ENABLE") = some (.text "ENABLED")
      ∧ prim.parameters.get? (portName l ++ "_DIV") = some (.number o.divider)
      ∧ prim.parameters.get? (portName l ++ "_FPHASE") = some (.number 0)
      ∧ prim.parameters.get? (portName l ++ "_CPHASE")
        = some (.number (coarsePhase o.phase o.divider))
      ∧ prim.outputs.get? (portName l) = some (s.signal o) := by
  obtain ⟨l', hl', hp⟩ := h.named.exists_port ho
  obtain rfl : l = l' := Option.some.inj (hl.symm.trans hl')
  have hmem : ∀ x ∈ (⟨portName l, o⟩ : Port).parameters,
      prim.parameters.get? x.1 = some x.2 := by
    intro x hx
    exact (h.parameter x.1 x.2).2 (List.mem_append_right _ (List.mem_flatMap.2 ⟨_, hp, hx⟩))
  refine ⟨hmem (_, _) ?_, hmem (_, _) ?_, hmem (_, _) ?_, hmem (_, _) ?_, ?_⟩
  · simp [Port.parameters]
  · simp [Port.parameters]
  · simp [Port.parameters]
  · simp [Port.parameters]
  · exact (h.output _ _).2 (List.mem_cons_of_mem _ (List.mem_map.2 ⟨_, hp, rfl⟩))

theorem feedbackPath (h : s.Writes c letter ports prim) :
    prim.parameters.get? "FEEDBK_PATH" = some (.text ("INT_O" ++ letter)) := by
  refine (h.parameter _ _).2 (List.mem_append_left _ (List.mem_append_right _ ?_))
  simp

theorem source (h : s.Writes c letter ports prim) (value : Parameter) :
    prim.parameters.get? "DPHASE_SOURCE" = some value
      ↔ value = .text "ENABLED" ∧ s.dynamicPhase = true := by
  have hports : ("DPHASE_SOURCE", value) ∉ ports.flatMap Port.parameters := by
    intro hm
    obtain ⟨p, hp, hx⟩ := List.mem_flatMap.1 hm
    obtain ⟨-, l, -, hl⟩ := h.named.exists_letter hp
    have := Port.take_of_mem hl (List.mem_map_of_mem (f := Prod.fst) hx)
    simp at this
  rw [h.parameter, parameters, List.mem_append, or_iff_left hports]
  split <;> simp_all

theorem phaseInput (h : s.Writes c letter ports prim) {x : String × String}
    (hx : x ∈ phaseInputs) (signal : String) :
    prim.inputs.get? x.1 = some signal ↔ signal = x.2 ∧ s.dynamicPhase = true := by
  rw [h.input, inputs]
  simp only [phaseInputs, List.mem_cons, List.not_mem_nil, or_false] at hx
  rcases hx with rfl | rfl | rfl | rfl | rfl <;> split <;> simp_all [phaseInputs]

theorem output_iff (h : s.Writes c letter ports prim) {name signal : String}
    (hs : signal ≠ "locked") :
    prim.outputs.get? name = some signal
      ↔ ∃ o ∈ c.outputs, s.signal o = signal
        ∧ ∃ l, s.family.letter? o.slot = some l ∧ name = portName l := by
  rw [h.output, outputs, List.mem_cons, List.mem_map, or_iff_right (by simp [hs])]
  constructor
  · rintro ⟨p, hp, hx⟩
    obtain ⟨rfl, rfl⟩ := Prod.mk.inj hx
    obtain ⟨ho, hl⟩ := h.named.exists_letter hp
    exact ⟨p.output, ho, rfl, hl⟩
  · rintro ⟨o, ho, rfl, l, hl, rfl⟩
    obtain ⟨l', hl', hp⟩ := h.named.exists_port ho
    obtain rfl : l = l' := Option.some.inj (hl.symm.trans hl')
    exact ⟨_, hp, rfl⟩

end Writes

end Snapshot

end ClockSynth
