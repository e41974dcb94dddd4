import ClockedLogic.Blueprint.Build

/-!
A library holds components by name in the order in which they were registered. Descriptions
name their parts; the library finds them, builds the component and registers it.
-/

namespace ClockedLogic

/-- Components with different names, in the order in which they were registered. -/
structure Library where
  components : List Component

structure Description where
  name : String
  inputs : List (String × Nat)
  outputs : List (String × Nat)
  clocked : List String
  parts : List (String × List (String × String))
  chip : Option ChipSpec

namespace Library

def empty : Library := ⟨[]⟩

def standard : Library := ⟨Primitive.all.map Primitive.component⟩

def size (library : Library) : Nat := library.components.length

def names (library : Library) : List String := library.components.map Component.name

def contains (library : Library) (name : String) : Bool := decide (name ∈ library.names)

def find (library : Library) (name : String) : Except DesignError Component :=
  match library.components.find? fun component => component.name == name with
  | some component => .ok component
  | none => .error (.unknownComponent name)

/-- The component registered under the name of a primitive, or else the primitive itself. -/
def primitive (library : Library) (kind : Primitive) : Component :=
  match library.find kind.name with
  | .ok component => component
  | .error _ => kind.component

def register (library : Library) (component : Component) : Except DesignError Library :=
  if library.contains component.name then .error (.duplicateComponent component.name)
  else .ok ⟨library.components ++ [component]⟩

def registerRecord (component : Component) : Record :=
  ⟨.debug, s!"Registered gate class {component.text}"⟩

def findParts (library : Library) : List (String × List (String × String)) →
    Except DesignError (List (Component × List (String × String)))
  | [] => .ok []
  | (name, wires) :: rest => do
    let component ← library.find name
    let parts ← library.findParts rest
    return (component, wires) :: parts

def blueprint (library : Library) (description : Description) :
    Except DesignError Blueprint := do
  let parts ← library.findParts description.parts
  return { name := description.name, inputs := description.inputs
           outputs := description.outputs, clocked := description.clocked
           parts, chip := description.chip }

/-- Builds and registers a component. The records tell what was done, also if the name turns
out to be taken. -/
def define (library : Library) (description : Description) :
    List Record × Except DesignError (Component × Library) :=
  match library.blueprint description >>= Blueprint.build with
  | .error error => ([], .error error)
  | .ok component =>
    match library.register component with
    | .error error => (component.buildRecords, .error error)
    | .ok library =>
      (component.buildRecords ++ [registerRecord component], .ok (component, library))

/-- Builds and registers components in order up to the first that is refused, which is given by
its position. -/
def defineAll (library : Library) (descriptions : List Description) :
    List Record × Except (Nat × DesignError) Library :=
  go library [] 0 descriptions
where
  /-- Goes on after the records and the number of components so far. -/
  go (library : Library) (records : List Record) (position : Nat) :
      List Description → List Record × Except (Nat × DesignError) Library
    | [] => (records, .ok library)
    | description :: rest =>
      match library.define description with
      | (more, .error error) => (records ++ more, .error (position, error))
      | (more, .ok (_, library)) => go library (records ++ more) (position + 1) rest

end Library

end ClockedLogic
