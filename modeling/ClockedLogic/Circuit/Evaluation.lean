import ClockedLogic.Circuit.State

/-!
Evaluation brings dirty gates up to date. A built in gate asks its chip. A composite gate sweeps
over its parts in the order of evaluation, and sweeps again while a part is dirty: a part may
come before the part whose clocked input it feeds from inside. On clock edges every part is
brought up to date before it latches and after it commits.
-/

namespace ClockedLogic

/-- Sweeps once and then again for as long as something is left to do, at most so many times
in all. -/
def sweepUntil (sweep : State → State) (isDone : State → Bool) : Nat → State → State
  | 0, state => state
  | limit + 1, state =>
    let swept := sweep state
    if isDone swept then swept else sweepUntil sweep isDone limit swept

namespace Gate

def allClean (gates : List Gate) (state : State) : Bool :=
  gates.all fun gate => !state.isDirty gate.index

mutual

/-- Makes the gate clean and computes it anew. -/
def refresh (netlist : Netlist) (limit : Nat) : Gate → State → State
  | builtIn site _, state => (state.clean site.index).respond netlist site
  | composite site _ parts, state =>
    sweepUntil (evalAll netlist limit parts) (allClean parts) limit (state.clean site.index)

def evalAll (netlist : Netlist) (limit : Nat) : List Gate → State → State
  | [], state => state
  | gate :: gates, state =>
    evalAll netlist limit gates
      (if state.isDirty gate.index then refresh netlist limit gate state else state)

end

def eval (netlist : Netlist) (limit : Nat) (gate : Gate) (state : State) : State :=
  if state.isDirty gate.index then gate.refresh netlist limit state else state

mutual

def rise (netlist : Netlist) (limit : Nat) : Gate → State → State
  | builtIn site _, state => if site.component.isClocked then state.latch site else state
  | composite site _ parts, state =>
    if site.component.isClocked then tickAll netlist limit parts state else state

def tickAll (netlist : Netlist) (limit : Nat) : List Gate → State → State
  | [], state => state
  | gate :: gates, state =>
    tickAll netlist limit gates (rise netlist limit gate (refresh netlist limit gate state))

end

/-- A rising edge: the gate is refreshed, then its clocked chips latch. -/
def tick (netlist : Netlist) (limit : Nat) (gate : Gate) (state : State) : State :=
  gate.rise netlist limit (gate.refresh netlist limit state)

mutual

/-- A falling edge that does not bring the gate itself up to date. A composite gate is left
dirty, as a built in one is. -/
def fall (netlist : Netlist) (limit : Nat) : Gate → State → State
  | builtIn site _, state =>
    if site.component.isClocked then state.commit netlist site else state
  | composite site _ parts, state =>
    if site.component.isClocked then (tockAll netlist limit parts state).soil site.index
    else state

def tockAll (netlist : Netlist) (limit : Nat) : List Gate → State → State
  | [], state => state
  | gate :: gates, state =>
    tockAll netlist limit gates (refresh netlist limit gate (fall netlist limit gate state))

end

/-- A falling edge: the clocked chips commit, then the gate is refreshed. -/
def tock (netlist : Netlist) (limit : Nat) (gate : Gate) (state : State) : State :=
  gate.refresh netlist limit (gate.fall netlist limit state)

end Gate

end ClockedLogic
