import ClockedLogic.BusReference
import ClockedLogic.Component.Basic

/-!
A blueprint is the text from which a component is built: declared pins, the names of clocked
pins, and either a chip or parts whose wires are pairs of bus references. This module reads
the declarations; pin names are references without bits, and no two are alike.
-/

namespace ClockedLogic

structure Blueprint where
  name : String
  inputs : List (String × Nat)
  outputs : List (String × Nat)
  clocked : List String
  /-- Each part with its wires, given as the reference to the part and the one to the owner. -/
  parts : List (Component × List (String × String))
  /-- What makes the component a built in one. -/
  chip : Option ChipSpec

namespace Blueprint

def checkPin (owner name : String) (width : Nat) : Except DesignError Unit := do
  match ← BusReference.parse name with
  | .pin _ none =>
    if width = 0 ∨ 16 < width then .error (.invalidWidth owner name width) else .ok ()
  | _ => .error (.malformedReference name)

def checkPins (owner : String) : List (String × Nat) → Except DesignError Unit
  | [] => .ok ()
  | (name, width) :: rest => do
    checkPin owner name width
    checkPins owner rest

def firstRepeated? (seen : List String) : List String → Option String
  | [] => none
  | name :: rest => if name ∈ seen then some name else firstRepeated? (name :: seen) rest

def checkNames (owner : String) (names : List String) : Except DesignError Unit :=
  match firstRepeated? [] names with
  | some name => .error (.duplicatePin owner name)
  | none => .ok ()

def checkClocked (owner : String) (names clocked : List String) : Except DesignError Unit :=
  match clocked.find? fun name => decide (name ∉ names) with
  | some name => .error (.unknownPin owner name)
  | none => .ok ()

def inputPins (blueprint : Blueprint) : List Pin := Pin.ofDeclarations .input blueprint.inputs

def outputPins (blueprint : Blueprint) : List Pin := Pin.ofDeclarations .output blueprint.outputs

def declaredPins (blueprint : Blueprint) : List Pin := blueprint.inputPins ++ blueprint.outputPins

def isDeclaredClocked (blueprint : Blueprint) (pin : Pin) : Bool :=
  decide (pin.name ∈ blueprint.clocked)

/-- Checks all declarations: each pin, then that names differ, then the clocked names. -/
def checkDeclarations (blueprint : Blueprint) : Except DesignError Unit := do
  checkPins blueprint.name blueprint.inputs
  checkPins blueprint.name blueprint.outputs
  let names := blueprint.declaredPins.map Pin.name
  checkNames blueprint.name names
  checkClocked blueprint.name names blueprint.clocked

end Blueprint

end ClockedLogic
