import ClockedLogic.Proofs.Commands
import ClockedLogic.Proofs.CycleCheck

/-!
Which pins of a component are clocked only matters to an owner that it is a part of. In a circuit of
its own nothing looks at these flags, so the circuit without them runs alike. It keeps its promises
even where the component declares pins as clocked that are not.
-/

namespace ClockedLogic

/-- The component without any clocked pins. If it takes part in clock edges it still does. -/
def Component.unflagged : Component → Component
  | builtIn interface chip =>
    builtIn { interface with clockedInputs := [], clockedOutputs := [] } chip
  | composite interface internals parts dependencies =>
    composite { interface with clockedInputs := [], clockedOutputs := [] } internals parts
      dependencies

def Gate.unflagged : Gate → Gate
  | builtIn site chip => builtIn { site with component := site.component.unflagged } chip
  | composite site internals parts =>
    composite { site with component := site.component.unflagged } internals parts

def Circuit.unflagged (circuit : Circuit) : Circuit :=
  { circuit with root := circuit.root.unflagged }

namespace Component

variable (component : Component)

@[simp] theorem name_unflagged : component.unflagged.name = component.name := by
  cases component <;> rfl

@[simp] theorem isClocked_unflagged : component.unflagged.isClocked = component.isClocked := by
  cases component <;> rfl

@[simp] theorem pin?_unflagged : component.unflagged.pin? = component.pin? := by
  cases component <;> rfl

theorem placeRoot_unflagged (sharing : Bool) :
    component.unflagged.placeRoot sharing =
      { component.placeRoot sharing with
        result := (component.placeRoot sharing).result.unflagged } := by
  cases component <;> rfl

end Component

namespace Gate

variable (gate : Gate) (netlist : Netlist) (limit : Nat)

@[simp] theorem index_unflagged : gate.unflagged.index = gate.index := by cases gate <;> rfl

@[simp] theorem component_unflagged : gate.unflagged.component = gate.component.unflagged := by
  cases gate <;> rfl

@[simp] theorem nodesOf_unflagged : gate.unflagged.nodesOf = gate.nodesOf := by
  funext role
  cases gate <;> cases role <;> rfl

@[simp] theorem refresh_unflagged :
    gate.unflagged.refresh netlist limit = gate.refresh netlist limit := by
  funext state
  cases gate with
  | builtIn => simp only [unflagged, refresh, State.respond]
  | composite => simp only [unflagged, refresh]

@[simp] theorem rise_unflagged : gate.unflagged.rise netlist limit = gate.rise netlist limit := by
  funext state
  cases gate with
  | builtIn => simp only [unflagged, rise, State.latch, Component.isClocked_unflagged]
  | composite => simp only [unflagged, rise, Component.isClocked_unflagged]

@[simp] theorem fall_unflagged : gate.unflagged.fall netlist limit = gate.fall netlist limit := by
  funext state
  cases gate with
  | builtIn => simp only [unflagged, fall, State.commit, Component.isClocked_unflagged]
  | composite => simp only [unflagged, fall, Component.isClocked_unflagged]

end Gate

namespace Circuit

/-- The chips of gates depend on those of the first and of the last ones. -/
theorem makeChips_append_congr {gates last last' : List Gate}
    (h : makeChips last = makeChips last') :
    makeChips (gates ++ last) = makeChips (gates ++ last') := by
  induction gates with
  | nil => exact h
  | cons gate gates ih => simp only [List.cons_append, makeChips, ih]

theorem makeChips_unflagged (gate : Gate) : makeChips gate.unflagged.all = makeChips gate.all := by
  cases gate with
  | builtIn => rfl
  | composite => exact makeChips_append_congr rfl

theorem ofPlaced_unflagged (placed : Placed Gate) :
    ofPlaced { placed with result := placed.result.unflagged } =
      (ofPlaced placed).map unflagged := by
  simp only [ofPlaced, makeChips_unflagged]
  cases Draft.empty.executeAll placed.statements with
  | error => rfl
  | ok draft => cases hchips : makeChips placed.result.all <;> rfl

variable (circuit : Circuit)

theorem note_unflagged (record : Record) :
    (circuit.note record).unflagged = circuit.unflagged.note record := rfl

theorem eval_unflagged : circuit.eval.unflagged = circuit.unflagged.eval := by
  simp only [eval, update, unflagged, Gate.eval, Gate.index_unflagged, Gate.refresh_unflagged,
    sweepLimit]

theorem placeRecord_unflagged : circuit.unflagged.placeRecord = circuit.placeRecord := by
  simp only [placeRecord, component, unflagged, Gate.component_unflagged, Component.name_unflagged,
    gateCount, nodeCount]

/-- The circuit without clocked pins is that of the component without them. -/
theorem place_unflagged (sharing : Bool) (component : Component) :
    place sharing component.unflagged = (place sharing component).map unflagged := by
  rw [place, component.placeRoot_unflagged, ofPlaced_unflagged, place]
  cases ofPlaced (component.placeRoot sharing) with
  | error => rfl
  | ok circuit =>
    refine congrArg Except.ok ?_
    rw [← eval_unflagged, placeRecord_unflagged, ← note_unflagged]

theorem get?_unflagged (name : String) : circuit.unflagged.get? name = circuit.get? name := by
  simp only [get?, node?, Gate.node?, Gate.nodeAt?, unflagged, Gate.component_unflagged,
    Component.pin?_unflagged, Gate.nodesOf_unflagged]
  rfl

theorem inputNode_unflagged (name : String) :
    circuit.unflagged.inputNode name = circuit.inputNode name := by
  simp only [inputNode, component, Gate.nodeAt?, unflagged, Gate.component_unflagged,
    Component.pin?_unflagged, Component.name_unflagged, Gate.nodesOf_unflagged]

theorem tick_unflagged : circuit.tick.unflagged = circuit.unflagged.tick := by
  simp only [tick, tickGate, update, note, unflagged, component, Gate.component_unflagged,
    Component.name_unflagged, Gate.tick, Gate.refresh_unflagged, Gate.rise_unflagged, sweepLimit]

theorem tock_unflagged : circuit.tock.unflagged = circuit.unflagged.tock := by
  simp only [tock, tockGate, update, note, unflagged, component, Gate.component_unflagged,
    Component.name_unflagged, Gate.tock, Gate.refresh_unflagged, Gate.fall_unflagged, sweepLimit]

theorem drive_unflagged (stimulus : Stimulus) :
    (circuit.drive stimulus).unflagged = circuit.unflagged.drive stimulus := by
  cases stimulus with
  | set name value =>
    simp only [drive, set, inputNode_unflagged]
    cases circuit.inputNode name <;> rfl
  | eval => exact circuit.eval_unflagged
  | tick => exact circuit.tick_unflagged
  | tock => exact circuit.tock_unflagged
  | pulse => exact circuit.tick.tock_unflagged.trans (congrArg tock circuit.tick_unflagged)

theorem driveAll_unflagged (stimuli : List Stimulus) :
    (circuit.driveAll stimuli).unflagged = circuit.unflagged.driveAll stimuli := by
  induction stimuli generalizing circuit with
  | nil => rfl
  | cons stimulus stimuli ih =>
    exact (ih (circuit.drive stimulus)).trans
      (congrArg (driveAll · stimuli) (circuit.drive_unflagged stimulus))

theorem get?_driveAll_unflagged (stimuli : List Stimulus) (name : String) :
    (circuit.unflagged.driveAll stimuli).get? name = (circuit.driveAll stimuli).get? name := by
  rw [← driveAll_unflagged, get?_unflagged]

end Circuit

/-- Without clocked pins, what is built of components that keep their promises does so, whichever of
its pins it declares as clocked. -/
theorem Blueprint.Joinery.wellWired_unflagged {blueprint : Blueprint} {internals : List Pin}
    {joints : List Joint} (h : blueprint.Joinery internals joints)
    (hparts : ∀ part ∈ blueprint.parts, WellWired part.1)
    (hcircle : ((blueprint.dependencies joints).traverse .root).circle = none) :
    WellWired (blueprint.laidOut internals joints
      ((blueprint.dependencies joints).traverse .root).order).unflagged := by
  refine .composite (fun part hpart => ?_) ?_
  · obtain ⟨⟨_, hget⟩, -⟩ := Joinery.mem_sortedParts hpart
    exact hparts _ (List.mem_of_getElem? hget)
  · exact {
      toFitting := { h.fitting (blueprint.laidOut internals joints
        ((blueprint.dependencies joints).traverse .root).order).isClocked (fun _ => false) with }
      ranked := exists_rank h hcircle
      cutOff := fun _ hflag => by cases hflag
      outputs_cutOff := fun _ hflag => by cases hflag
      clocked := fun part hpart hclocked =>
        Bool.or_eq_true_iff.mpr (.inr (List.any_eq_true.mpr ⟨part, hpart, hclocked⟩)) }

end ClockedLogic
