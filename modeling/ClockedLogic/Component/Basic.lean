import ClockedLogic.Chip.Basic
import ClockedLogic.Digraph.Basic
import ClockedLogic.Pin

/-!
A component describes a type of gate: its pins, which of them only matter on clock edges, and
what it consists of. A built in component has a chip. A composite one has parts, each of which
is an instance of another component, and the dependencies that order their evaluation.
-/

namespace ClockedLogic

structure Interface where
  name : String
  inputs : List Pin
  outputs : List Pin
  /-- For each input, whether it is only read on clock edges. -/
  clockedInputs : List Bool
  /-- For each output, whether it only changes on clock edges. -/
  clockedOutputs : List Bool
  /-- Whether the component takes part in clock edges at all. -/
  isClocked : Bool
deriving DecidableEq, Repr

structure Part (α : Type) where
  component : α
  /-- The position in the order of declaration. -/
  position : Nat
  wires : List Wire

/-- What can depend on what inside a composite component. -/
inductive Vertex where
  /-- Comes before every input and every part. -/
  | root
  | input (index : Nat)
  | output (index : Nat)
  | internal (index : Nat)
  /-- A part by its position in the order of declaration. -/
  | part (position : Nat)
deriving DecidableEq, Repr

inductive Component where
  | builtIn (interface : Interface) (chip : ChipSpec)
  /-- A component with internal pins and with parts in the order of evaluation. -/
  | composite (interface : Interface) (internals : List Pin) (parts : List (Part Component))
      (dependencies : Digraph Vertex)

namespace Component

/-- A property of all built in components that a composite one takes over from its parts holds
of all components. -/
@[elab_as_elim]
theorem inductionOn {motive : Component → Prop} (component : Component)
    (builtIn : ∀ interface chip, motive (.builtIn interface chip))
    (composite : ∀ interface internals parts dependencies,
      (∀ part ∈ parts, motive part.component) →
        motive (.composite interface internals parts dependencies)) :
    motive component := by
  refine @Component.rec motive (fun parts => ∀ part ∈ parts, motive part.component)
    (fun part => motive part.component) builtIn composite ?_ ?_ ?_ component
  · intro part h
    cases h
  · intro part parts ihead itail other h
    rcases List.mem_cons.mp h with rfl | h
    · exact ihead
    · exact itail other h
  · intro component position wires ih
    exact ih

def interface : Component → Interface
  | builtIn interface _ => interface
  | composite interface _ _ _ => interface

def name (component : Component) : String := component.interface.name

def inputs (component : Component) : List Pin := component.interface.inputs

def outputs (component : Component) : List Pin := component.interface.outputs

def internals : Component → List Pin
  | builtIn _ _ => []
  | composite _ internals _ _ => internals

def parts : Component → List (Part Component)
  | builtIn _ _ => []
  | composite _ _ parts _ => parts

/-- The graph that ordered the parts. Nothing leads into a clocked input of a part. -/
def dependencies? : Component → Option (Digraph Vertex)
  | builtIn _ _ => none
  | composite _ _ _ dependencies => some dependencies

def isBuiltIn : Component → Bool
  | builtIn _ _ => true
  | composite _ _ _ _ => false

def isClocked (component : Component) : Bool := component.interface.isClocked

/-- Whether an input is only read on clock edges. -/
def isInputClocked (component : Component) (index : Nat) : Bool :=
  component.interface.clockedInputs.getD index false

/-- Whether an output only changes on clock edges. -/
def isOutputClocked (component : Component) (index : Nat) : Bool :=
  component.interface.clockedOutputs.getD index false

def pins (component : Component) : List Pin :=
  component.inputs ++ component.outputs ++ component.internals

def pin? (component : Component) (name : String) : Option Pin := Pin.find? component.pins name

def pinsOf (component : Component) : PinRole → List Pin
  | .input => component.inputs
  | .output => component.outputs
  | .internal => component.internals

def pinAt? (component : Component) (role : PinRole) (index : Nat) : Option Pin :=
  (component.pinsOf role)[index]?

def text (component : Component) : String :=
  let pins := ", ".intercalate ((component.inputs ++ component.outputs).map Pin.text)
  s!"{component.name}({pins})"

end Component

namespace Primitive

def clockedFlags (clocked : List String) (pins : List Pin) : List Bool :=
  pins.map fun pin => decide (pin.name ∈ clocked)

def component (kind : Primitive) : Component :=
  let inputs := Pin.ofDeclarations .input kind.inputs
  let outputs := Pin.ofDeclarations .output kind.outputs
  let clockedInputs := clockedFlags kind.clocked inputs
  let clockedOutputs := clockedFlags kind.clocked outputs
  .builtIn
    { name := kind.name, inputs, outputs, clockedInputs, clockedOutputs
      isClocked := (clockedInputs ++ clockedOutputs).any id }
    (.primitive kind)

end Primitive

end ClockedLogic
