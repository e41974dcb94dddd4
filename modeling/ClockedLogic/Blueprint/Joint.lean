import ClockedLogic.Blueprint.Wires

/-!
A joint is a wire with both ends known, together with the bits that it drives and the
dependency that it makes. No two joints may drive one bit.
-/

namespace ClockedLogic

inductive Sink where
  | partInput (part index : Nat)
  | owner (role : PinRole) (index : Nat)
deriving DecidableEq, Repr

structure Joint where
  part : Nat
  wire : Wire
  sink : Sink
  /-- The bits of the sink that the wire drives. -/
  span : BitSpan
  /-- How errors call the sink. -/
  label : String
  /-- What depends on what through the wire. -/
  edge : Option (Vertex × Vertex)
deriving DecidableEq, Repr

namespace Joint

def clashes (a b : Joint) : Bool := decide (a.sink = b.sink) && a.span.overlaps b.span

end Joint

def Pin.vertex (pin : Pin) : Vertex :=
  match pin.role with
  | .input => .input pin.index
  | .output => .output pin.index
  | .internal => .internal pin.index

namespace OpenWire

/-- Finds the bits of a pin of the owner, which must be as many as the part side has. -/
def ownerSpan (owner : String) (wire : OpenWire) (pin : Pin) (name : String)
    (bits : Option (BitNumber × BitNumber)) : Except DesignError (Option BitSpan) := do
  let span ← Blueprint.spanWithin owner name pin.width bits
  if pin.widthOf span = wire.width then return span
  else
    throw (.widthMismatch owner wire.component.name wire.pin.name pin.name wire.width
      (pin.widthOf span))

/-- The joint of a wire that a part reads. A clocked input depends on nothing. -/
def source (wire : OpenWire) (owner : Endpoint) (ownerBits : Option BitSpan)
    (pin : Option Pin) : Joint where
  part := wire.part
  wire :=
    { partRole := .input, partIndex := wire.pin.index, partBits := wire.bits, owner, ownerBits }
  sink := .partInput wire.part wire.pin.index
  span := wire.pin.spanOf wire.bits
  label := wire.label
  edge :=
    if wire.component.isInputClocked wire.pin.index then none
    else pin.map fun pin => (pin.vertex, .part wire.part)

def target (wire : OpenWire) (pin : Pin) (name : String) (ownerBits : Option BitSpan) :
    Joint where
  part := wire.part
  wire :=
    { partRole := .output, partIndex := wire.pin.index, partBits := wire.bits
      owner := .pin pin.role pin.index, ownerBits }
  sink := .owner pin.role pin.index
  span := pin.spanOf ownerBits
  label := name
  edge := some (.part wire.part, pin.vertex)

def joinSource (owner : String) (pins : List Pin) (wire : OpenWire) :
    Except DesignError Joint :=
  match wire.owner with
  | .ones => .ok (wire.source .ones none none)
  | .zeros => .ok (wire.source .zeros none none)
  | .pin name bits =>
    match Pin.find? pins name with
    | none => .error (.undrivenInternal owner name)
    | some pin =>
      if pin.role = .output then .error (.outputAsSource owner name)
      else do
        let span ← wire.ownerSpan owner pin name bits
        return wire.source (.pin pin.role pin.index) span (some pin)

def joinTarget (owner : String) (pins : List Pin) (wire : OpenWire) :
    Except DesignError Joint :=
  match wire.owner with
  | .ones => .error (.constantAsTarget owner BusReference.ones.text)
  | .zeros => .error (.constantAsTarget owner BusReference.zeros.text)
  | .pin name bits =>
    match Pin.find? pins name with
    | none => .error (.unknownPin owner name)
    | some pin =>
      if pin.role = .input then .error (.inputAsTarget owner name)
      else if pin.role = .internal ∧ bits.isSome then .error (.spannedInternal owner name)
      else do
        let span ← wire.ownerSpan owner pin name bits
        return wire.target pin name span

def join (owner : String) (pins : List Pin) (wire : OpenWire) : Except DesignError Joint :=
  if wire.pin.role = .input then wire.joinSource owner pins else wire.joinTarget owner pins

end OpenWire

namespace Blueprint

/-- Joins wires in order after those joined so far. A bit that is driven already cannot be
driven again. -/
def joinWires (owner : String) (pins : List Pin) :
    List Joint → List OpenWire → Except DesignError (List Joint)
  | joined, [] => .ok joined
  | joined, wire :: rest => do
    let joint ← wire.join owner pins
    if joined.any joint.clashes then .error (.multipleDrivers owner joint.label)
    else joinWires owner pins (joined ++ [joint]) rest

end Blueprint

end ClockedLogic
