import ClockedLogic.Word

/-!
Design errors are the ways in which the description of a component, a look up in a library or
an edit of the inputs of a circuit can be refused. Evaluation has none.
-/

namespace ClockedLogic

/-- The causes of a refusal. The component being built is the `owner`; a pin of one of its
parts is given together with the part as `Part.pin`. -/
inductive DesignError where
  | invalidWidth (owner pin : String) (width : Nat)
  | duplicatePin (owner pin : String)
  | unknownPin (owner pin : String)
  | spanOutOfRange (owner pin : String) (low high width : Nat)
  | widthMismatch (owner part partPin pin : String) (expected found : Nat)
  /-- A part reads an output of its owner. -/
  | outputAsSource (owner pin : String)
  /-- A part drives an input of its owner. -/
  | inputAsTarget (owner pin : String)
  /-- A part drives a constant. -/
  | constantAsTarget (owner pin : String)
  /-- An internal pin that would be defined by some of its bits. -/
  | spannedInternal (owner pin : String)
  | multipleDrivers (owner pin : String)
  /-- An internal pin that is read but not driven. -/
  | undrivenInternal (owner pin : String)
  | partsInBuiltIn (owner : String)
  /-- A loop that no clock edge breaks. -/
  | combinationalCycle (owner through : String)
  | malformedReference (reference : String)
  | unknownComponent (name : String)
  | duplicateComponent (name : String)
  /-- A pin or node that cannot be set from outside. -/
  | notAnInput (pin : String)
  | valueOutOfRange (pin : String) (value : Word) (width : Nat)
deriving DecidableEq, Repr

namespace DesignError

def message : DesignError → String
  | invalidWidth owner pin width =>
    s!"{owner}: pin `{pin}` has width {width}, widths must be in 1..=16"
  | duplicatePin owner pin => s!"{owner}: pin `{pin}` is declared more than once"
  | unknownPin owner pin => s!"{owner}: unknown pin `{pin}`"
  | spanOutOfRange owner pin low high width =>
    s!"{owner}: sub bus {low}..{high} is out of range for `{pin}` of width {width}"
  | widthMismatch owner part partPin pin expected found =>
    s!"{owner}: `{partPin}` of part {part} is {expected} bits wide but `{pin}` is {found}"
  | outputAsSource owner pin => s!"{owner}: output pin `{pin}` can't feed a part input"
  | inputAsTarget owner pin => s!"{owner}: input pin `{pin}` can't be driven by a part output"
  | constantAsTarget owner pin =>
    s!"{owner}: constant `{pin}` can't be driven by a part output"
  | spannedInternal owner pin =>
    s!"{owner}: internal pin `{pin}` can't be defined through a sub bus"
  | multipleDrivers owner pin => s!"{owner}: `{pin}` is driven more than once"
  | undrivenInternal owner pin => s!"{owner}: internal pin `{pin}` is used but never driven"
  | partsInBuiltIn owner => s!"{owner}: built in gates can't have parts"
  | combinationalCycle owner through => s!"{owner}: combinational loop through {through}"
  | malformedReference reference => s!"malformed bus reference `{reference}`"
  | unknownComponent name => s!"unknown gate class `{name}`"
  | duplicateComponent name => s!"gate class `{name}` is already registered"
  | notAnInput pin => s!"`{pin}` is not an input pin"
  | valueOutOfRange pin value width =>
    let number := value.toInt
    s!"{number} doesn't fit in the {width} bits of `{pin}`"

end DesignError

end ClockedLogic
