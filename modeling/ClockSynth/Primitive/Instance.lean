import ClockSynth.Primitive

/-!
# Instances

An instance names everything on a primitive in one record: inputs under `i_`, outputs under `o_`
and parameters under `p_`, so that no name hides another.
-/

namespace ClockSynth

/-- A primitive, ready to be instantiated. -/
structure Instance where
  primitive : String
  attributes : List (String × String)
  keywords : Record Parameter

/-- The fields of a record as they are read out, with a tag in front of each name. -/
def Record.tagged {α : Type} (tag : String) (parameter : α → Parameter) (r : Record α) :
    List (String × Parameter) :=
  r.enumerate.map fun (name, value) => (tag ++ name, parameter value)

namespace Primitive

/-- The fields of an instance, in the order of writing. -/
def keywords (p : Primitive) : List (String × Parameter) :=
  p.inputs.tagged "i_" .text ++ p.outputs.tagged "o_" .text ++ p.parameters.tagged "p_" id

/-- The instance of a primitive. -/
def toInstance (p : Primitive) : Instance where
  primitive := p.name
  attributes := p.attributes
  keywords := .ofList p.keywords

end Primitive

end ClockSynth
