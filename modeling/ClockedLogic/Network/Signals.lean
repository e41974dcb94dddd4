import ClockedLogic.FlagSet
import ClockedLogic.Network.Cascade
import ClockedLogic.Record

/-!
Signals are what changes in a network: the values of the nodes, the gates that have to be
evaluated again, and the log of the probed nodes. All writing goes through `set`, which marks
the gates that listen to any changed node.
-/

namespace ClockedLogic

structure Signals where
  values : Array Word
  /-- The gates that have to be evaluated again. -/
  dirty : FlagSet
  /-- The names under which nodes are probed, newest first. -/
  probes : List (Nat × String)
  /-- What has been logged, newest first. -/
  log : List Record

namespace Signals

def value (signals : Signals) (node : Nat) : Word := signals.values.getD node 0

def probeName? (signals : Signals) (node : Nat) : Option String := signals.probes.lookup node

def note (signals : Signals) (record : Record) : Signals :=
  { signals with log := record :: signals.log }

def probe (signals : Signals) (node : Nat) (name : String) : Signals :=
  { signals with probes := (node, name) :: signals.probes.filter fun entry => entry.1 != node }

def probeRecord (name : String) (value : Word) : Record :=
  let number := value.toInt
  ⟨.debug, s!"{name}:{number}"⟩

/-- Takes note of one event: a gate becomes dirty, the new value of a probed node is logged. -/
def observe (signals : Signals) : Event → Signals
  | .mark gate => { signals with dirty := signals.dirty.insert gate }
  | .change node value =>
    match signals.probeName? node with
    | some name => signals.note (probeRecord name value)
    | none => signals

def absorb (signals : Signals) (cascade : Cascade) : Signals :=
  { cascade.eventList.foldl observe signals with values := cascade.values }

def cascadeFrom (signals : Signals) (node : Nat) (value : Word) : Cascade where
  values := signals.values.setIfInBounds node value
  pending := [node]
  events := [.change node value]

/-- The cascade that starts when all nodes that are not 0 are new; the last goes first. -/
def cascadeAll (signals : Signals) : Cascade where
  values := signals.values
  pending :=
    ((List.range signals.values.size).filter fun node => signals.value node != 0).reverse
  events := []

def set (netlist : Netlist) (signals : Signals) (node : Nat) (value : Word) : Signals :=
  if signals.value node = value then signals
  else signals.absorb ((signals.cascadeFrom node value).finish netlist)

def setAll (netlist : Netlist) (signals : Signals) (nodes : List Nat) (values : List Word) :
    Signals :=
  (nodes.zip values).foldl (fun signals (node, value) => signals.set netlist node value) signals

/-- The signals that a draft starts with, where all gates are dirty. -/
def ofDraft (draft : Draft) (gates : Nat) : Signals where
  values := draft.values
  dirty := .full gates
  probes := []
  log := []

/-- The signals that a draft starts with, after all links have been followed. -/
def start (draft : Draft) (gates : Nat) : Signals :=
  let signals := ofDraft draft gates
  signals.absorb (signals.cascadeAll.finish draft.netlist)

@[simp] theorem values_absorb (signals : Signals) (cascade : Cascade) :
    (signals.absorb cascade).values = cascade.values := rfl

theorem set_value (netlist : Netlist) (signals : Signals) (node : Nat) :
    signals.set netlist node (signals.value node) = signals := by
  simp [set]

end Signals

end ClockedLogic
