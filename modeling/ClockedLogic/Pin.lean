import ClockedLogic.BitSpan

/-!
Pins are where a component meets its surroundings, or where its parts meet each other. A pin
is found by name or by its role and its position among the pins of that role.
-/

namespace ClockedLogic

inductive PinRole where
  | input
  | output
  | internal
deriving DecidableEq, Repr

namespace PinRole

def text : PinRole → String
  | input => "input"
  | output => "output"
  | internal => "internal"

end PinRole

structure Pin where
  name : String
  width : Nat
  role : PinRole
  /-- The position among the pins of the same role. -/
  index : Nat
deriving DecidableEq, Repr

namespace Pin

/-- The role and the name, with the width if it is not one. -/
def text (pin : Pin) : String :=
  if pin.width = 1 then s!"{pin.role.text} {pin.name}"
  else s!"{pin.role.text} {pin.name}[{pin.width}]"

def ofDeclarations (role : PinRole) (declarations : List (String × Nat)) : List Pin :=
  declarations.zipIdx.map fun ((name, width), index) => { name, width, role, index }

def find? (pins : List Pin) (name : String) : Option Pin :=
  pins.find? fun pin => pin.name == name

def widthOf (pin : Pin) (bits : Option BitSpan) : Nat :=
  match bits with
  | some span => span.width
  | none => pin.width

/-- The bits that are meant, where the whole pin is meant if none are given. -/
def spanOf (pin : Pin) (bits : Option BitSpan) : BitSpan := bits.getD (.whole pin.width)

end Pin

/-- The far end of a wire, inside the component that owns the part. -/
inductive Endpoint where
  | pin (role : PinRole) (index : Nat)
  /-- All bits set. -/
  | ones
  /-- All bits clear. -/
  | zeros
deriving DecidableEq, Repr

/-- A wire between a pin of a part and its owner. A missing span means the whole pin. -/
structure Wire where
  /-- An input pin of the part reads the owner, an output pin drives it. -/
  partRole : PinRole
  partIndex : Nat
  partBits : Option BitSpan
  owner : Endpoint
  ownerBits : Option BitSpan
deriving DecidableEq, Repr

namespace Wire

def joins (role : PinRole) (index : Nat) (wire : Wire) : Bool :=
  decide (wire.partRole = role ∧ wire.partIndex = index)

def isWhole (wire : Wire) : Bool := wire.partBits.isNone && wire.ownerBits.isNone

end Wire

end ClockedLogic
