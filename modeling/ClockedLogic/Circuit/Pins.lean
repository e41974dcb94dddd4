import ClockedLogic.Circuit.Basic
import ClockedLogic.DesignError

/-!
The pins of a circuit: reading any of them, and setting the inputs. Only the inputs can be set,
since gates drive all other nodes. An edit that is refused changes nothing.
-/

namespace ClockedLogic

namespace Circuit

def value (circuit : Circuit) (node : Nat) : Word := circuit.state.signals.value node

def node? (circuit : Circuit) (name : String) : Option Nat := circuit.root.node? name

def get? (circuit : Circuit) (name : String) : Option Word :=
  (circuit.node? name).map circuit.value

def getAt? (circuit : Circuit) (role : PinRole) (index : Nat) : Option Word :=
  (circuit.root.nodeAt? role index).map circuit.value

def valuesOf (circuit : Circuit) (role : PinRole) : List Word :=
  (circuit.root.nodesOf role).map circuit.value

def values (circuit : Circuit) : List Word := circuit.state.signals.values.toList

def inputNode (circuit : Circuit) (name : String) : Except DesignError Nat :=
  match circuit.component.pin? name with
  | none => .error (.unknownPin circuit.component.name name)
  | some pin =>
    if pin.role = .input then
      match circuit.root.nodeAt? .input pin.index with
      | some node => .ok node
      | none => .error (.unknownPin circuit.component.name name)
    else .error (.notAnInput name)

def store (circuit : Circuit) (node : Nat) (value : Word) : Circuit :=
  circuit.update fun state => { state with signals := state.signals.set circuit.netlist node value }

/-- Sets an input, whether or not the value fits. -/
def set (circuit : Circuit) (name : String) (value : Word) : Except DesignError Circuit := do
  let node ← circuit.inputNode name
  return circuit.store node value

/-- Sets inputs in order up to the first that is refused. -/
def setMany (circuit : Circuit) : List (String × Word) → Circuit × Except DesignError Unit
  | [] => (circuit, .ok ())
  | (name, value) :: rest =>
    match circuit.set name value with
    | .ok circuit => circuit.setMany rest
    | .error error => (circuit, .error error)

def setChecked (circuit : Circuit) (name : String) (value : Word) :
    Except DesignError Circuit := do
  let node ← circuit.inputNode name
  let width := circuit.netlist.width node
  if Word.fits width value then return circuit.store node value
  else throw (.valueOutOfRange name value width)

/-- Sets the node of an input and tells whether the value is a new one. Gates drive all
other nodes. -/
def setNode (circuit : Circuit) (node : Nat) (value : Word) :
    Except DesignError (Bool × Circuit) :=
  if node ∈ circuit.root.inputs then
    .ok (circuit.value node != value, circuit.store node value)
  else .error (.notAnInput s!"node {node}")

def probe (circuit : Circuit) (name : String) : Except DesignError Circuit :=
  match circuit.node? name with
  | some node =>
    .ok (circuit.update fun state => { state with signals := state.signals.probe node name })
  | none => .error (.unknownPin circuit.component.name name)

end Circuit

end ClockedLogic
