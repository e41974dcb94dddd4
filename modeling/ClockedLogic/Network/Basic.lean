import ClockedLogic.Network.Signals

/-!
A network is a netlist with its signals, to be driven from outside. A listener may name a gate
that the network does not have; the first change that would mark it is a fault.
-/

namespace ClockedLogic

structure Network where
  netlist : Netlist
  signals : Signals

namespace Network

def ofDraft (draft : Draft) (gates : Nat) : Except Fault Network := do
  let signals := Signals.ofDraft draft gates
  let cascade ← signals.cascadeAll.finishWithin draft.netlist gates
  return ⟨draft.netlist, signals.absorb cascade⟩

def size (network : Network) : Nat := network.netlist.size

def value (network : Network) (node : Nat) : Word := network.signals.value node

def values (network : Network) : List Word := network.signals.values.toList

def node (network : Network) (index : Nat) : Node :=
  ⟨network.netlist.width index, network.value index⟩

def set (network : Network) (node : Nat) (value : Word) : Except Fault (Bool × Network) :=
  if network.value node = value then .ok (false, network)
  else do
    let cascade ← (network.signals.cascadeFrom node value).finishWithin network.netlist
      network.signals.dirty.size
    return (true, { network with signals := network.signals.absorb cascade })

def isDirty (network : Network) (gate : Nat) : Except Fault Bool :=
  network.signals.dirty.read gate

def markDirty (network : Network) (gate : Nat) : Except Fault (Bool × Network) := do
  let (wasClean, dirty) ← network.signals.dirty.mark gate
  return (wasClean, { network with signals := { network.signals with dirty } })

def dirtyGates (network : Network) : List Nat := network.signals.dirty.toList

def probe (network : Network) (node : Nat) (name : String) : Network :=
  { network with signals := network.signals.probe node name }

def log (network : Network) : List Record := network.signals.log.reverse

end Network

end ClockedLogic
