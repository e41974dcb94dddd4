import ClockedLogic.BitSpan

/-!
A netlist is the part of a circuit that never changes: how wide each node is and who listens
to it. Listeners are gates, which have to be evaluated again when the node changes, and links,
which copy bits to another node. A draft grows node by node and also holds the values that the
nodes start with.
-/

namespace ClockedLogic

/-- A copy of some bits of one node into equally many bits of another. -/
structure Link where
  /-- The bits of the node that is listened to. -/
  bits : BitSpan
  target : Nat
  targetBits : BitSpan
deriving DecidableEq, Repr

inductive Listener where
  | gate (index : Nat)
  | link (link : Link)
deriving DecidableEq, Repr

structure Netlist where
  widths : Array Nat
  listeners : Array (List Listener)
deriving DecidableEq, Repr

structure Node where
  width : Nat
  value : Word
deriving DecidableEq, Repr

namespace Node

def new (width : Nat) : Node := ⟨width, 0⟩

def bits (node : Node) (span : BitSpan) : Word := span.extract node.value

def fits (node : Node) (value : Word) : Bool := Word.fits node.width value

end Node

namespace Netlist

def empty : Netlist := ⟨#[], #[]⟩

def size (netlist : Netlist) : Nat := netlist.widths.size

def width (netlist : Netlist) (node : Nat) : Nat := netlist.widths.getD node 0

def listenersOf (netlist : Netlist) (node : Nat) : List Listener :=
  netlist.listeners.getD node []

def strayListener? (netlist : Netlist) (gates node : Nat) : Option Nat :=
  (netlist.listenersOf node).findSome? fun
    | .gate index => if index < gates then none else some index
    | .link _ => none

def addNode (netlist : Netlist) (width : Nat) : Netlist :=
  ⟨netlist.widths.push width, netlist.listeners.push []⟩

def addListener (netlist : Netlist) (node : Nat) (listener : Listener) : Netlist :=
  { netlist with
    listeners := netlist.listeners.setIfInBounds node (netlist.listenersOf node ++ [listener]) }

@[simp] theorem size_addNode (netlist : Netlist) (width : Nat) :
    (netlist.addNode width).size = netlist.size + 1 := by
  simp [addNode, size]

theorem listenersOf_addNode (netlist : Netlist) (width node : Nat) :
    (netlist.addNode width).listenersOf node = netlist.listenersOf node := by
  simp only [addNode, listenersOf, Array.getD_eq_getD_getElem?, Array.getElem?_push]
  split
  · rename_i heq
    rw [heq, Array.getElem?_eq_none (Nat.le_refl _)]
    rfl
  · rfl

theorem strayListener?_eq_none_iff {netlist : Netlist} {gates node : Nat} :
    netlist.strayListener? gates node = none ↔
      ∀ index, .gate index ∈ netlist.listenersOf node → index < gates := by
  simp only [strayListener?, List.findSome?_eq_none_iff]
  constructor
  · intro h index hm
    simpa using h _ hm
  · rintro h (index | link) hm
    · simpa using h index hm
    · rfl

theorem listenersOf_addListener (netlist : Netlist) (node other : Nat) (listener : Listener)
    (h : node < netlist.listeners.size) :
    (netlist.addListener node listener).listenersOf other =
      if node = other then netlist.listenersOf node ++ [listener]
      else netlist.listenersOf other := by
  simp only [addListener, listenersOf, Array.getD_eq_getD_getElem?,
    Array.getElem?_setIfInBounds]
  split <;> simp_all

end Netlist

/-- A netlist in the making, with the values that the nodes start with. -/
structure Draft where
  netlist : Netlist
  values : Array Word
deriving DecidableEq, Repr

namespace Draft

def empty : Draft := ⟨.empty, #[]⟩

def size (draft : Draft) : Nat := draft.netlist.size

def node (draft : Draft) (index : Nat) : Node :=
  ⟨draft.netlist.width index, draft.values.getD index 0⟩

def addNode (draft : Draft) (width : Nat) : Draft :=
  ⟨draft.netlist.addNode width, draft.values.push 0⟩

/-- Lets a gate listen to a node, once only. -/
def listen (draft : Draft) (node gate : Nat) : Draft :=
  if .gate gate ∈ draft.netlist.listenersOf node then draft
  else { draft with netlist := draft.netlist.addListener node (.gate gate) }

/-- Lets bits of one node follow bits of another; they must be equally many. -/
def link (draft : Draft) (source : Nat) (bits : BitSpan) (target : Nat)
    (targetBits : BitSpan) : Except Fault Draft :=
  if bits.width = targetBits.width then
    .ok { draft with
      netlist := draft.netlist.addListener source (.link { bits, target, targetBits }) }
  else .error (.unevenLink source bits.text target targetBits.text)

def preset (draft : Draft) (node : Nat) (bits : BitSpan) (value : Word) : Draft :=
  { draft with
    values := draft.values.setIfInBounds node (bits.splice (draft.values.getD node 0) value) }

end Draft

end ClockedLogic
