import ClockedLogic.Gate.Basic
import ClockedLogic.Network.Signals

/-!
The state of a circuit: the signals of its network and the chips of its built in gates, by the
index of the gate. Chips read their inputs from the nodes and write their outputs to them.
-/

namespace ClockedLogic

structure State where
  signals : Signals
  /-- The chip of each gate; composite gates have none. -/
  chips : Array (Option Chip)

namespace State

def read (state : State) (nodes : List Nat) : List Word := nodes.map state.signals.value

def chip? (state : State) (gate : Nat) : Option Chip := (state.chips[gate]?).join

def isDirty (state : State) (gate : Nat) : Bool := state.signals.dirty.contains gate

def clean (state : State) (gate : Nat) : State :=
  { state with signals := { state.signals with dirty := state.signals.dirty.erase gate } }

def soil (state : State) (gate : Nat) : State :=
  { state with signals := { state.signals with dirty := state.signals.dirty.insert gate } }

def write (netlist : Netlist) (state : State) (nodes : List Nat) (values : List Word) : State :=
  { state with signals := state.signals.setAll netlist nodes values }

def respond (netlist : Netlist) (state : State) (site : Site) : State :=
  match state.chip? site.index with
  | some chip =>
    state.write netlist site.outputs
      (chip.respond (state.read site.inputs) (state.read site.outputs))
  | none => state

def latch (state : State) (site : Site) : State :=
  match state.chip? site.index with
  | some chip =>
    { state with
      chips := state.chips.setIfInBounds site.index (some (chip.rise (state.read site.inputs))) }
  | none => state

/-- Gives the chip of a gate a falling edge. The gate becomes dirty, since what it has committed
may show without a change of any input. -/
def commit (netlist : Netlist) (state : State) (site : Site) : State :=
  match state.chip? site.index with
  | some chip =>
    let outputs := chip.showFallen (state.read site.outputs)
    let fallen :=
      { state with chips := state.chips.setIfInBounds site.index (some chip.fall) }
    (fallen.write netlist site.outputs outputs).soil site.index
  | none => state

end State

end ClockedLogic
