import ClockedLogic.Gate.Basic
import ClockedLogic.Network.Netlist

/-!
Placing a component gives a gate and the statements that make its nodes and listeners. The pins
of a part share the node of the owner where one wire joins two whole pins; any other pin gets a
node of its own, with links for its wires. Statements are carried out afterwards, which is where
spans can turn out to be uneven.
-/

namespace ClockedLogic

/-- One step in the making of a netlist. A missing span means the whole node. -/
inductive Statement where
  | node (width : Nat)
  | listen (node gate : Nat)
  /-- Lets bits of a node follow bits of another. -/
  | link (source : Nat) (bits : Option BitSpan) (target : Nat) (targetBits : Option BitSpan)
  /-- Sets bits of a node from the start. -/
  | raise (node : Nat) (bits : Option BitSpan)
deriving DecidableEq, Repr

namespace Draft

def spanOf (draft : Draft) (node : Nat) : Option BitSpan → Except Fault BitSpan
  | some span => .ok span
  | none => BitSpan.ofWidth (draft.netlist.width node)

def execute (draft : Draft) : Statement → Except Fault Draft
  | .node width => .ok (draft.addNode width)
  | .listen node gate => .ok (draft.listen node gate)
  | .link source bits target targetBits => do
    let bits ← draft.spanOf source bits
    let targetBits ← draft.spanOf target targetBits
    draft.link source bits target targetBits
  | .raise node bits => do
    let bits ← draft.spanOf node bits
    return draft.preset node bits (BitVec.allOnes 16)

def executeAll (draft : Draft) : List Statement → Except Fault Draft
  | [] => .ok draft
  | statement :: rest => do
    let draft ← draft.execute statement
    draft.executeAll rest

end Draft

structure Cursor where
  nodes : Nat
  gates : Nat
deriving DecidableEq, Repr

/-- What has been placed, the statements for it, and where to go on. -/
structure Placed (α : Type) where
  result : α
  statements : List Statement
  cursor : Cursor

structure Scope where
  inputs : List Nat
  outputs : List Nat
  internals : List Nat
deriving DecidableEq, Repr

namespace Scope

def node? (scope : Scope) : Endpoint → Option Nat
  | .pin .input index => scope.inputs[index]?
  | .pin .output index => scope.outputs[index]?
  | .pin .internal index => scope.internals[index]?
  | .ones => none
  | .zeros => none

/-- The node that a pin shares with its owner, if it has one wire only and that is a whole one. -/
def sharedNode? (scope : Scope) : List Wire → Option Nat
  | [wire] => if wire.isWhole then scope.node? wire.owner else none
  | _ => none

/-- The statement for a wire of a pin with a node of its own. A part input follows its owner or
is tied to a constant, a part output is followed. -/
def statement? (scope : Scope) (node : Nat) (wire : Wire) : Option Statement :=
  match scope.node? wire.owner, wire.partRole with
  | some other, .input => some (.link other wire.ownerBits node wire.partBits)
  | some other, _ => some (.link node wire.partBits other wire.ownerBits)
  | none, .input => if wire.owner = .ones then some (.raise node wire.partBits) else none
  | none, _ => none

def placePins (sharing : Bool) (scope : Scope) (wires : List Wire) :
    List Pin → Cursor → Placed (List Nat)
  | [], cursor => ⟨[], [], cursor⟩
  | pin :: pins, cursor =>
    let wiresOfPin := wires.filter (Wire.joins pin.role pin.index)
    match if sharing then scope.sharedNode? wiresOfPin else none with
    | some node =>
      let rest := placePins sharing scope wires pins cursor
      ⟨node :: rest.result, rest.statements, rest.cursor⟩
    | none =>
      let node := cursor.nodes
      let rest := placePins sharing scope wires pins { cursor with nodes := node + 1 }
      ⟨node :: rest.result,
        .node pin.width :: wiresOfPin.filterMap (scope.statement? node) ++ rest.statements,
        rest.cursor⟩

end Scope

namespace Component

mutual

def place (sharing : Bool) : Component → List Nat → List Nat → Cursor → Placed Gate
  | builtIn interface chip, inputs, outputs, cursor =>
    let site := ⟨cursor.gates, builtIn interface chip, inputs, outputs⟩
    ⟨.builtIn site chip, inputs.map (.listen · cursor.gates),
      { cursor with gates := cursor.gates + 1 }⟩
  | composite interface internals parts dependencies, inputs, outputs, cursor =>
    let nodes := (List.range internals.length).map (cursor.nodes + ·)
    let placed := placeParts sharing ⟨inputs, outputs, nodes⟩ parts
      { cursor with nodes := cursor.nodes + internals.length }
    let index := placed.cursor.gates
    let site := ⟨index, composite interface internals parts dependencies, inputs, outputs⟩
    ⟨.composite site nodes placed.result,
      internals.map (.node ·.width) ++ placed.statements ++ inputs.map (.listen · index),
      { placed.cursor with gates := index + 1 }⟩

def placeParts (sharing : Bool) (scope : Scope) :
    List (Part Component) → Cursor → Placed (List Gate)
  | [], cursor => ⟨[], [], cursor⟩
  | ⟨component, _, wires⟩ :: parts, cursor =>
    let inputs := scope.placePins sharing wires component.inputs cursor
    let outputs := scope.placePins sharing wires component.outputs inputs.cursor
    let gate := place sharing component inputs.result outputs.result outputs.cursor
    let rest := placeParts sharing scope parts gate.cursor
    ⟨gate.result :: rest.result,
      inputs.statements ++ outputs.statements ++ gate.statements ++ rest.statements,
      rest.cursor⟩

end

def placeRoot (sharing : Bool) (component : Component) : Placed Gate :=
  let inputs := List.range component.inputs.length
  let outputs := (List.range component.outputs.length).map (component.inputs.length + ·)
  let placed := component.place sharing inputs outputs
    ⟨component.inputs.length + component.outputs.length, 0⟩
  { placed with
    statements :=
      (component.inputs ++ component.outputs).map (.node ·.width) ++ placed.statements }

end Component

end ClockedLogic
