import ClockedLogic.Blueprint.Basic

/-!
The wires of a blueprint are read in two passes. First the part side of every wire is looked
up in its part, which leaves the owner side as a reference. Then every name that a part drives
and that is no declared pin becomes an internal pin, as wide as the first part pin that
drives it.
-/

namespace ClockedLogic

/-- A wire whose part side is known. -/
structure OpenWire where
  /-- The part by its position in the order of declaration. -/
  part : Nat
  component : Component
  pin : Pin
  bits : Option BitSpan
  owner : BusReference

namespace OpenWire

def label (wire : OpenWire) : String := s!"{wire.component.name}.{wire.pin.name}"

def width (wire : OpenWire) : Nat := wire.pin.widthOf wire.bits

end OpenWire

namespace Blueprint

def spanWithin (owner pin : String) (width : Nat) :
    Option (BitNumber × BitNumber) → Except DesignError (Option BitSpan)
  | none => .ok none
  | some (low, high) =>
    match BitSpan.ofBounds? low high with
    | some span =>
      if span.fitsIn width then .ok (some span)
      else .error (.spanOutOfRange owner pin low high width)
    | none => .error (.spanOutOfRange owner pin low high width)

def openWire (owner : String) (position : Nat) (component : Component)
    (references : String × String) : Except DesignError OpenWire := do
  match ← BusReference.parse references.1 with
  | .pin name bits =>
    match Pin.find? (component.inputs ++ component.outputs) name with
    | some pin =>
      let span ← spanWithin owner s!"{component.name}.{name}" pin.width bits
      let target ← BusReference.parse references.2
      return { part := position, component, pin, bits := span, owner := target }
    | none => throw (.unknownPin owner s!"{component.name}.{name}")
  | constant => throw (.unknownPin owner s!"{component.name}.{constant.text}")

def wireTexts (blueprint : Blueprint) : List (Nat × Component × (String × String)) :=
  blueprint.parts.zipIdx.flatMap fun ((component, wires), position) =>
    wires.map fun references => (position, component, references)

def openWires (owner : String) :
    List (Nat × Component × (String × String)) → Except DesignError (List OpenWire)
  | [] => .ok []
  | (position, component, references) :: rest => do
    let wire ← openWire owner position component references
    let wires ← openWires owner rest
    return wire :: wires

/-- The internal pins after those found so far, in the order in which parts drive them. -/
def findInternals (owner : String) (declared : List Pin) :
    List Pin → List OpenWire → Except DesignError (List Pin)
  | found, [] => .ok found
  | found, wire :: rest =>
    match wire.pin.role, wire.owner with
    | .output, .pin name bits =>
      if (Pin.find? (declared ++ found) name).isSome then findInternals owner declared found rest
      else if bits.isSome then .error (.spannedInternal owner name)
      else
        let pin := { name, width := wire.width, role := .internal, index := found.length }
        findInternals owner declared (found ++ [pin]) rest
    | _, _ => findInternals owner declared found rest

end Blueprint

end ClockedLogic
