import ClockedLogic.Circuit.Evaluation
import ClockedLogic.Gate.Placement

/-!
A circuit is a component placed on its own and ready to be simulated. Setting an input only
marks the gates that read it; evaluation brings them up to date. A clock pulse is a rising edge,
on which every clocked chip prepares its next state, and a falling edge, on which it shows it.
-/

namespace ClockedLogic

structure Circuit where
  root : Gate
  netlist : Netlist
  state : State

namespace Circuit

/-- How many sweeps over its parts a composite gate may take. Each sweep but the last settles more
nodes; the rest is room to spare. -/
def sweepLimit (circuit : Circuit) : Nat := (1 <<< 40) * (circuit.netlist.size + 1)

def makeChips : List Gate → Except Fault (List (Option Chip))
  | [] => .ok []
  | gate :: gates => do
    let chip ← match gate with
      | .builtIn _ spec => spec.make.map some
      | .composite _ _ _ => pure none
    let chips ← makeChips gates
    return chip :: chips

def ofPlaced (placed : Placed Gate) : Except Fault Circuit := do
  let draft ← Draft.empty.executeAll placed.statements
  let chips ← makeChips placed.result.all
  return {
    root := placed.result
    netlist := draft.netlist
    state := ⟨.start draft placed.cursor.gates, chips.toArray⟩ }

def component (circuit : Circuit) : Component := circuit.root.component

def gateCount (circuit : Circuit) : Nat := circuit.state.chips.size

def nodeCount (circuit : Circuit) : Nat := circuit.netlist.size

def update (circuit : Circuit) (f : State → State) : Circuit :=
  { circuit with state := f circuit.state }

def note (circuit : Circuit) (record : Record) : Circuit :=
  circuit.update fun state => { state with signals := state.signals.note record }

def eval (circuit : Circuit) : Circuit :=
  circuit.update (circuit.root.eval circuit.netlist circuit.sweepLimit)

def placeRecord (circuit : Circuit) : Record :=
  let name := circuit.component.name
  let gates := circuit.gateCount
  let nodes := circuit.nodeCount
  ⟨.debug, s!"Instantiated {name} with {gates} gates and {nodes} nodes"⟩

/-- The circuit of a component, evaluated. Without sharing every pin of a part has a node of
its own. -/
def place (sharing : Bool) (component : Component) : Except Fault Circuit := do
  let circuit ← ofPlaced (component.placeRoot sharing)
  let settled := circuit.eval
  return settled.note settled.placeRecord

def ofComponent (component : Component) : Except Fault Circuit := place true component

def gate? (circuit : Circuit) (path : List Nat) : Option Gate := circuit.root.descend? path

def evalGate (circuit : Circuit) (gate : Gate) : Circuit :=
  circuit.update (gate.eval circuit.netlist circuit.sweepLimit)

def tickGate (circuit : Circuit) (gate : Gate) : Circuit :=
  circuit.update (gate.tick circuit.netlist circuit.sweepLimit)

def tockGate (circuit : Circuit) (gate : Gate) : Circuit :=
  circuit.update (gate.tock circuit.netlist circuit.sweepLimit)

def tick (circuit : Circuit) : Circuit :=
  (circuit.note ⟨.trace, s!"tick {circuit.component.name}"⟩).tickGate circuit.root

def tock (circuit : Circuit) : Circuit :=
  (circuit.note ⟨.trace, s!"tock {circuit.component.name}"⟩).tockGate circuit.root

/-- A rising edge before which the circuit is not brought up to date. -/
def rise (circuit : Circuit) : Circuit :=
  circuit.update (circuit.root.rise circuit.netlist circuit.sweepLimit)

/-- A falling edge after which the circuit is not brought up to date. -/
def fall (circuit : Circuit) : Circuit :=
  circuit.update (circuit.root.fall circuit.netlist circuit.sweepLimit)

def pulse (circuit : Circuit) : Circuit := circuit.tick.tock

def pulses : Nat → Circuit → Circuit
  | 0, circuit => circuit
  | times + 1, circuit => pulses times circuit.pulse

def isDirty (circuit : Circuit) (gate : Gate) : Bool := circuit.state.isDirty gate.index

def dirtyGates (circuit : Circuit) : List Nat := circuit.state.signals.dirty.toList

def log (circuit : Circuit) : List Record := circuit.state.signals.log.reverse

end Circuit

end ClockedLogic
