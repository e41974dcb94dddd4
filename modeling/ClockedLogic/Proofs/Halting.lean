import ClockedLogic.Circuit.Evaluation

/-!
Evaluation and clock edges without a bound on the number of steps. Each relation joins a state with
the state in which an operation ends, if it ends at all: a cascade ends when no node waits, and
sweeps end when no part is dirty.
-/

namespace ClockedLogic

def Cascade.EndsIn (netlist : Netlist) (cascade last : Cascade) : Prop :=
  last.pending = [] ∧ ∃ steps, cascade.run netlist steps = last

inductive Signals.Takes (netlist : Netlist) : Signals → List (Nat × Word) → Signals → Prop where
  | nil {signals : Signals} : Takes netlist signals [] signals
  | same {signals after : Signals} {node : Nat} {value : Word} {rest : List (Nat × Word)}
    (hvalue : signals.value node = value) (hrest : Takes netlist signals rest after) :
    Takes netlist signals ((node, value) :: rest) after
  | change {signals after : Signals} {node : Nat} {value : Word} {rest : List (Nat × Word)}
    {last : Cascade} (hvalue : signals.value node ≠ value)
    (hends : (signals.cascadeFrom node value).EndsIn netlist last)
    (hrest : Takes netlist (signals.absorb last) rest after) :
    Takes netlist signals ((node, value) :: rest) after

mutual

inductive Refreshes (netlist : Netlist) : Gate → State → State → Prop where
  | builtIn {site : Site} {spec : ChipSpec} {chip : Chip} {before : State} {signals : Signals}
    (hchip : before.chip? site.index = some chip)
    (htakes : (before.clean site.index).signals.Takes netlist
      (site.outputs.zip (chip.respond (before.read site.inputs) (before.read site.outputs)))
      signals) :
    Refreshes netlist (.builtIn site spec) before ⟨signals, before.chips⟩
  | composite {site : Site} {internals : List Nat} {parts : List Gate} {before after : State}
    (hsweeps : Sweeps netlist parts (before.clean site.index) after) :
    Refreshes netlist (.composite site internals parts) before after

/-- Gates are swept over until none is dirty. -/
inductive Sweeps (netlist : Netlist) : List Gate → State → State → Prop where
  | last {gates : List Gate} {before after : State} (hall : EvaluatesAll netlist gates before after)
    (hclean : Gate.allClean gates after = true) : Sweeps netlist gates before after
  | again {gates : List Gate} {before middle after : State}
    (hall : EvaluatesAll netlist gates before middle)
    (hdirty : Gate.allClean gates middle = false) (hrest : Sweeps netlist gates middle after) :
    Sweeps netlist gates before after

inductive EvaluatesAll (netlist : Netlist) : List Gate → State → State → Prop where
  | nil {state : State} : EvaluatesAll netlist [] state state
  | clean {gate : Gate} {gates : List Gate} {before after : State}
    (hclean : before.isDirty gate.index = false) (hrest : EvaluatesAll netlist gates before after) :
    EvaluatesAll netlist (gate :: gates) before after
  | dirty {gate : Gate} {gates : List Gate} {before middle after : State}
    (hdirty : before.isDirty gate.index = true) (hfirst : Refreshes netlist gate before middle)
    (hrest : EvaluatesAll netlist gates middle after) :
    EvaluatesAll netlist (gate :: gates) before after

end

def Evaluates (netlist : Netlist) (gate : Gate) (before after : State) : Prop :=
  EvaluatesAll netlist [gate] before after

mutual

inductive Rises (netlist : Netlist) : Gate → State → State → Prop where
  | still {gate : Gate} {state : State} (hclocked : gate.component.isClocked = false) :
    Rises netlist gate state state
  | builtIn {site : Site} {spec : ChipSpec} {state : State}
    (hclocked : site.component.isClocked = true) :
    Rises netlist (.builtIn site spec) state (state.latch site)
  | composite {site : Site} {internals : List Nat} {parts : List Gate} {before after : State}
    (hclocked : site.component.isClocked = true) (hall : RisesAll netlist parts before after) :
    Rises netlist (.composite site internals parts) before after

inductive RisesAll (netlist : Netlist) : List Gate → State → State → Prop where
  | nil {state : State} : RisesAll netlist [] state state
  | cons {gate : Gate} {gates : List Gate} {before middle risen after : State}
    (hrefreshes : Refreshes netlist gate before middle) (hrises : Rises netlist gate middle risen)
    (hrest : RisesAll netlist gates risen after) : RisesAll netlist (gate :: gates) before after

end

mutual

inductive Falls (netlist : Netlist) : Gate → State → State → Prop where
  | still {gate : Gate} {state : State} (hclocked : gate.component.isClocked = false) :
    Falls netlist gate state state
  | builtIn {site : Site} {spec : ChipSpec} {chip : Chip} {before : State} {signals : Signals}
    (hclocked : site.component.isClocked = true) (hchip : before.chip? site.index = some chip)
    (htakes : before.signals.Takes netlist
      (site.outputs.zip (chip.showFallen (before.read site.outputs))) signals) :
    Falls netlist (.builtIn site spec) before
      (State.soil ⟨signals, before.chips.setIfInBounds site.index (some chip.fall)⟩ site.index)
  | composite {site : Site} {internals : List Nat} {parts : List Gate} {before after : State}
    (hclocked : site.component.isClocked = true) (hall : FallsAll netlist parts before after) :
    Falls netlist (.composite site internals parts) before (after.soil site.index)

inductive FallsAll (netlist : Netlist) : List Gate → State → State → Prop where
  | nil {state : State} : FallsAll netlist [] state state
  | cons {gate : Gate} {gates : List Gate} {before fallen middle after : State}
    (hfalls : Falls netlist gate before fallen) (hrefreshes : Refreshes netlist gate fallen middle)
    (hrest : FallsAll netlist gates middle after) : FallsAll netlist (gate :: gates) before after

end

def Ticks (netlist : Netlist) (gate : Gate) (before after : State) : Prop :=
  ∃ middle, Refreshes netlist gate before middle ∧ Rises netlist gate middle after

def Tocks (netlist : Netlist) (gate : Gate) (before after : State) : Prop :=
  ∃ middle, Falls netlist gate before middle ∧ Refreshes netlist gate middle after

end ClockedLogic
