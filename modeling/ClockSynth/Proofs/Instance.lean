import ClockSynth.Primitive.Instance
import Mathlib.Data.List.Nodup

/-!
# An instance keeps its whole primitive

Inputs, outputs and parameters may have names in common, or names that start as a tag does. All the
same the text of a keyword says what it names (`Keyword.text_injective`). So nothing is written
over, and the instance shows each thing of the primitive under its keyword and nothing else
(`Instance.Lists`). Two primitives have instances that show the same just if they are the same in
all their parts (`toInstance_lossless`).
-/

namespace ClockSynth

/-- What a keyword of an instance names. -/
inductive Keyword where
  | input (name : String)
  | output (name : String)
  | parameter (name : String)

def Keyword.text : Keyword → String
  | input name => "i_" ++ name
  | output name => "o_" ++ name
  | parameter name => "p_" ++ name

theorem Keyword.text_injective : Function.Injective text := by
  rintro (a | a | a) (b | b | b) h <;> have hlist := congrArg String.toList h <;>
    simp [text] at hlist
  -- Texts of two kinds differ in their first letter, which leaves the pairs of one kind.
  all_goals rw [String.toList_inj.1 hlist]

/-- The instance shows what the primitive has, under the tag of its kind, and nothing else. -/
structure Instance.Lists (i : Instance) (p : Primitive) : Prop where
  primitive : i.primitive = p.name
  attributes : i.attributes = p.attributes
  size : i.keywords.size = p.inputs.size + p.outputs.size + p.parameters.size
  input : ∀ name, i.keywords.get? ("i_" ++ name) = (p.inputs.get? name).map .text
  output : ∀ name, i.keywords.get? ("o_" ++ name) = (p.outputs.get? name).map .text
  parameter : ∀ name, i.keywords.get? ("p_" ++ name) = p.parameters.get? name
  only : ∀ key ∈ i.keywords.keys, ∃ name,
    key = "i_" ++ name ∧ name ∈ p.inputs.keys
      ∨ key = "o_" ++ name ∧ name ∈ p.outputs.keys
      ∨ key = "p_" ++ name ∧ name ∈ p.parameters.keys

/-- The instances show the same. -/
structure Instance.Same (i j : Instance) : Prop where
  primitive : i.primitive = j.primitive
  attributes : i.attributes = j.attributes
  keywords : ∀ key, i.keywords.get? key = j.keywords.get? key

theorem Record.enumerate_nodup {α : Type} (r : Record α) : (r.enumerate.map Prod.fst).Nodup :=
  (r.enumerate_perm.map Prod.fst).nodup_iff.2 r.nodup

namespace Primitive

/-- The primitives have the same name, attributes, inputs, outputs and parameters. -/
structure SameParts (p q : Primitive) : Prop where
  name : p.name = q.name
  attributes : p.attributes = q.attributes
  inputs : ∀ name, p.inputs.get? name = q.inputs.get? name
  outputs : ∀ name, p.outputs.get? name = q.outputs.get? name
  parameters : ∀ name, p.parameters.get? name = q.parameters.get? name

/-- What the primitive has under a keyword. -/
def at? (p : Primitive) : Keyword → Option Parameter
  | .input name => (p.inputs.get? name).map .text
  | .output name => (p.outputs.get? name).map .text
  | .parameter name => p.parameters.get? name

/-- The keywords of all that the primitive has, in the order of writing. -/
def named (p : Primitive) : List Keyword :=
  p.inputs.enumerate.map (.input ·.1) ++ p.outputs.enumerate.map (.output ·.1)
    ++ p.parameters.enumerate.map (.parameter ·.1)

variable {p q : Primitive} {key : String} {value : Parameter}

theorem named_nodup (p : Primitive) : p.named.Nodup := by
  have hmap {α : Type} (r : Record α) {f : String → Keyword} (hf : Function.Injective f) :
      (r.enumerate.map fun x => f x.1).Nodup := by
    have := r.enumerate_nodup.map hf
    rwa [List.map_map] at this
  unfold named
  rw [List.nodup_append, List.nodup_append]
  refine ⟨⟨hmap _ fun a b h => ?_, hmap _ fun a b h => ?_, ?_⟩, hmap _ fun a b h => ?_, ?_⟩
  · exact Keyword.input.inj h
  · exact Keyword.output.inj h
  · simp only [List.mem_map]
    rintro _ ⟨_, _, rfl⟩ _ ⟨_, _, rfl⟩ ⟨⟩
  · exact Keyword.parameter.inj h
  · simp only [List.mem_append, List.mem_map]
    rintro _ (⟨_, _, rfl⟩ | ⟨_, _, rfl⟩) _ ⟨_, _, rfl⟩ ⟨⟩

theorem keywords_keys (p : Primitive) : p.keywords.map Prod.fst = p.named.map Keyword.text := by
  simp [keywords, named, Record.tagged, Keyword.text, Function.comp_def]

theorem keywords_nodup (p : Primitive) : (p.keywords.map Prod.fst).Nodup := by
  rw [keywords_keys]
  exact p.named_nodup.map Keyword.text_injective

theorem mem_keywords_iff :
    (key, value) ∈ p.keywords ↔ ∃ k : Keyword, key = k.text ∧ p.at? k = some value := by
  simp only [keywords, Record.tagged, List.mem_append, List.mem_map, Record.mem_enumerate,
    Prod.exists, Prod.mk.injEq]
  constructor
  · rintro ((⟨name, v, h, rfl, rfl⟩ | ⟨name, v, h, rfl, rfl⟩) | ⟨name, v, h, rfl, rfl⟩)
    · exact ⟨.input name, rfl, by simp [at?, Record.get?_eq_some_iff.2 h]⟩
    · exact ⟨.output name, rfl, by simp [at?, Record.get?_eq_some_iff.2 h]⟩
    · exact ⟨.parameter name, rfl, by simp [at?, Record.get?_eq_some_iff.2 h]⟩
  · rintro ⟨name | name | name, rfl, h⟩
    · obtain ⟨v, hv, rfl⟩ := Option.map_eq_some_iff.1 h
      exact .inl (.inl ⟨name, v, Record.get?_eq_some_iff.1 hv, rfl, rfl⟩)
    · obtain ⟨v, hv, rfl⟩ := Option.map_eq_some_iff.1 h
      exact .inl (.inr ⟨name, v, Record.get?_eq_some_iff.1 hv, rfl, rfl⟩)
    · exact .inr ⟨name, value, Record.get?_eq_some_iff.1 h, rfl, rfl⟩

/-- No keyword is written over. -/
theorem fields_toInstance (p : Primitive) : p.toInstance.keywords.fields = p.keywords :=
  Record.fields_ofList_of_nodup p.keywords_nodup

theorem get?_toInstance :
    p.toInstance.keywords.get? key = some value
      ↔ ∃ k : Keyword, key = k.text ∧ p.at? k = some value := by
  rw [Record.get?_eq_some_iff, fields_toInstance, mem_keywords_iff]

theorem get?_text (p : Primitive) (k : Keyword) :
    p.toInstance.keywords.get? k.text = p.at? k := by
  refine Option.ext fun value => get?_toInstance.trans ⟨?_, fun h => ⟨k, rfl, h⟩⟩
  rintro ⟨l, hl, h⟩
  rwa [Keyword.text_injective hl]

theorem size_toInstance (p : Primitive) :
    p.toInstance.keywords.size = p.inputs.size + p.outputs.size + p.parameters.size := by
  simp [Record.size, fields_toInstance, keywords, Record.tagged,
    (Record.enumerate_perm _).length_eq, Nat.add_assoc]

theorem exists_of_mem_keys (h : key ∈ p.toInstance.keywords.keys) :
    ∃ name, key = "i_" ++ name ∧ name ∈ p.inputs.keys
      ∨ key = "o_" ++ name ∧ name ∈ p.outputs.keys
      ∨ key = "p_" ++ name ∧ name ∈ p.parameters.keys := by
  have hkeys {α : Type} {r : Record α} {field : String × α} (hf : field ∈ r.enumerate) :
      field.1 ∈ r.keys :=
    List.mem_map_of_mem (Record.mem_enumerate.1 hf)
  rw [Record.keys, fields_toInstance, keywords_keys, List.mem_map] at h
  obtain ⟨k, hk, rfl⟩ := h
  simp only [named, List.mem_append, List.mem_map] at hk
  rcases hk with (⟨field, hf, rfl⟩ | ⟨field, hf, rfl⟩) | ⟨field, hf, rfl⟩
  · exact ⟨field.1, .inl ⟨rfl, hkeys hf⟩⟩
  · exact ⟨field.1, .inr (.inl ⟨rfl, hkeys hf⟩)⟩
  · exact ⟨field.1, .inr (.inr ⟨rfl, hkeys hf⟩)⟩

theorem same_of_sameParts (h : p.SameParts q) : p.toInstance.Same q.toInstance where
  primitive := h.name
  attributes := h.attributes
  keywords key := by
    refine Option.ext fun value => ?_
    rw [get?_toInstance, get?_toInstance]
    suffices hat : ∀ k, p.at? k = q.at? k by simp only [hat]
    rintro (name | name | name)
    · exact congrArg (Option.map Parameter.text) (h.inputs name)
    · exact congrArg (Option.map Parameter.text) (h.outputs name)
    · exact h.parameters name

theorem sameParts_of_same (h : p.toInstance.Same q.toInstance) : p.SameParts q := by
  have hat (k : Keyword) : p.at? k = q.at? k := by
    rw [← get?_text, ← get?_text, h.keywords]
  have htext : Function.Injective (Option.map Parameter.text) :=
    Option.map_injective fun _ _ => Parameter.text.inj
  exact {
    name := h.primitive
    attributes := h.attributes
    inputs := fun name => htext (hat (.input name))
    outputs := fun name => htext (hat (.output name))
    parameters := fun name => hat (.parameter name) }

theorem toInstance_lists (p : Primitive) : p.toInstance.Lists p where
  primitive := rfl
  attributes := rfl
  size := p.size_toInstance
  input name := p.get?_text (.input name)
  output name := p.get?_text (.output name)
  parameter name := p.get?_text (.parameter name)
  only _ := exists_of_mem_keys

/-- An instance shows its primitive whole: what it lists is what the primitive has, with nothing
lost under another name and nothing else, and primitives that differ in a part have instances that
differ. -/
theorem toInstance_lossless (p q : Primitive) :
    p.toInstance.Lists p ∧ (p.toInstance.Same q.toInstance ↔ p.SameParts q) :=
  ⟨p.toInstance_lists, sameParts_of_same, same_of_sameParts⟩

/-- One name in all three parts, and names that start as the tags of other parts do. -/
example :
    let p : Primitive :=
      { name := "", attributes := [], resetDomains := [], configuration := default
        inputs := .ofList [("x", "a"), ("o_x", "b")]
        outputs := .ofList [("x", "c"), ("p_x", "d")]
        parameters := .ofList [("x", .number 1), ("i_x", .text "e")] }
    p.toInstance.keywords.keys = ["i_x", "i_o_x", "o_x", "o_p_x", "p_x", "p_i_x"] := by
  decide +kernel

end Primitive

end ClockSynth
