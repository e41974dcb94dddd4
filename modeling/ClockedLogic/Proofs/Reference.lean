import ClockedLogic.Proofs.Settling
import Mathlib.Logic.Function.Basic

/-!
The synchronous reference machine of a circuit. It knows what the inputs carry, what all primitives
hold and what they will hold next; on a rising edge all of them latch at once from the settled
assignment, and on a falling edge all of them take over at once what they have latched. A circuit
follows its machine under all stimuli, and shows the settled assignment whenever it has been
evaluated.
-/

namespace ClockedLogic

/-- A state of the reference machine: the values at inputs by node, and what primitives hold now and
next by the index of the gate. -/
structure Machine where
  inputs : Nat → Word
  held : Nat → Store
  next : Nat → Store

namespace Machine

def set (machine : Machine) (node : Nat) (value : Word) : Machine :=
  { machine with inputs := Function.update machine.inputs node value }

/-- A falling edge: all primitives take over what they have latched. -/
def tock (machine : Machine) : Machine := { machine with held := machine.next }

end Machine

namespace Design

def primitive? (design : Design) (index : Nat) : Option (Site × Primitive) :=
  match design.root.all[index]? with
  | some (.builtIn site (.primitive kind)) => some (site, kind)
  | _ => none

def inputNode? (design : Design) (name : String) : Option Nat :=
  match design.root.component.pin? name with
  | some pin => if pin.role = .input then design.root.nodeAt? .input pin.index else none
  | none => none

def clear (design : Design) (index : Nat) : Store :=
  match design.primitive? index with
  | some (_, kind) => kind.clear
  | none => .nothing

def start (design : Design) : Machine := ⟨fun _ => 0, design.clear, design.clear⟩

noncomputable def settle (design : Design) (machine : Machine) : Nat → Word :=
  Classical.epsilon (design.Settles machine.inputs machine.held)

/-- A rising edge: all primitives latch what follows from the settled assignment. -/
noncomputable def tick (design : Design) (machine : Machine) : Machine :=
  { machine with
    next := fun index =>
      match design.primitive? index with
      | some (site, kind) =>
        kind.next (machine.held index) (site.inputs.map (design.settle machine))
      | none => .nothing }

noncomputable def drive (design : Design) (machine : Machine) : Stimulus → Machine
  | .set name value =>
    match design.inputNode? name with
    | some node => machine.set node value
    | none => machine
  | .eval => machine
  | .tick => design.tick machine
  | .tock => machine.tock
  | .pulse => (design.tick machine).tock

noncomputable def driveAll (design : Design) (stimuli : List Stimulus) : Machine :=
  stimuli.foldl design.drive design.start

/-- Whether the inputs and the primitives of a circuit are as those of the machine. -/
structure Agrees (design : Design) (circuit : Circuit) (machine : Machine) : Prop where
  entries : ∀ node ∈ design.root.inputs, circuit.value node = machine.inputs node
  held : ∀ site kind, .builtIn site (.primitive kind) ∈ design.root.all →
    circuit.state.held site.index = machine.held site.index
  next : ∀ site kind, .builtIn site (.primitive kind) ∈ design.root.all →
    circuit.state.latched site.index = machine.next site.index

variable {design : Design} {draft : Draft} {circuit changed : Circuit} {machine : Machine}

theorem IsPlaced.primitive?_eq (hplaced : design.IsPlaced draft) {site : Site} {kind : Primitive}
    (hgate : .builtIn site (.primitive kind) ∈ design.root.all) :
    design.primitive? site.index = some (site, kind) := by
  have hfound := hplaced.fabric.getElem?_all hgate
  rw [Gate.index, Gate.site] at hfound
  rw [primitive?, hfound]

namespace Agrees

theorem congr (h : design.Agrees circuit machine)
    (hchips : changed.state.chips = circuit.state.chips)
    (hentries : ∀ node ∈ design.root.inputs, changed.value node = circuit.value node) :
    design.Agrees changed machine := by
  have hchip : ∀ index, changed.state.chip? index = circuit.state.chip? index := by
    intro index
    rw [State.chip?, hchips, State.chip?]
  refine ⟨fun node hnode => (hentries node hnode).trans (h.entries node hnode), ?_, ?_⟩
  · intro site kind hgate
    rw [State.held, hchip]
    exact h.held site kind hgate
  · intro site kind hgate
    rw [State.latched, hchip]
    exact h.next site kind hgate

theorem existsUnique_atRest (hplaced : design.IsPlaced draft)
    (hsound : Sound design.root draft circuit.state)
    (h : design.Agrees circuit machine) (hrest : circuit.state.AtRest design.root) :
    (∃! valuation, design.Settles machine.inputs machine.held valuation) ∧
      circuit.value = design.settle machine := by
  have hshown := hplaced.settles hsound.sane hrest
  have hsettles : design.Settles machine.inputs machine.held circuit.value := by
    refine ⟨h.entries, hshown.links, hshown.ones, hshown.zeros, fun site kind hgate => ?_⟩
    rw [← h.held site kind hgate]
    exact hshown.answers site kind hgate
  have hunique : ∀ valuation, design.Settles machine.inputs machine.held valuation →
      valuation = circuit.value := by
    intro valuation hvaluation
    refine (hshown.unique hplaced hvaluation h.entries fun site kind hgate => ?_).symm
    exact ⟨h.held site kind hgate, exists_realizes hsound.sane hgate⟩
  exact ⟨⟨_, hsettles, hunique⟩, (hunique _ (Classical.epsilon_spec ⟨_, hsettles⟩)).symm⟩

theorem rested (h : design.Agrees circuit machine)
    (hrested : Rested design.root draft circuit.state changed.state) :
    design.Agrees changed machine :=
  h.congr hrested.chips hrested.entries

theorem rise (hplaced : design.IsPlaced draft) (hready : circuit.Ready design.root draft)
    (h : design.Agrees circuit machine) (hrest : circuit.state.AtRest design.root) :
    design.Agrees circuit.rise (design.tick machine) := by
  have hvalue := (h.existsUnique_atRest hplaced hready.sound hrest).2
  refine ⟨fun node hnode => ?_, fun site kind hgate => ?_, fun site kind hgate => ?_⟩
  · refine Eq.trans ?_ (h.entries node hnode)
    rw [Circuit.value, Circuit.value, (hready.latched_rise hrest).signals]
  · exact (hready.stored_rise hrest hgate).1.trans (h.held site kind hgate)
  · rw [(hready.stored_rise hrest hgate).2, h.held site kind hgate, hvalue]
    simp only [tick, hplaced.primitive?_eq hgate]

theorem fall (hready : circuit.Ready design.root draft) (h : design.Agrees circuit machine) :
    design.Agrees circuit.fall machine.tock := by
  refine ⟨fun node hnode => ?_, fun site kind hgate => ?_, fun site kind hgate => ?_⟩
  · exact (hready.fallen_fall.entries node hnode).trans (h.entries node hnode)
  · exact (hready.stored_fall hgate).1.trans (h.next site kind hgate)
  · exact (hready.stored_fall hgate).2.trans (h.next site kind hgate)

theorem store (hplaced : design.IsPlaced draft) (hready : circuit.Ready design.root draft)
    (h : design.Agrees circuit machine) {node : Nat} (hnode : node ∈ design.root.inputs)
    (value : Word) :
    design.Agrees (circuit.store node value) (machine.set node value) := by
  obtain ⟨hchanges, hvalue, -⟩ :=
    changes_set hplaced.fabric hready.sound.sane (.inl hnode : design.root.Sets node) value
  refine ⟨fun other hother => ?_, h.held, h.next⟩
  show (circuit.store node value).state.value other =
    Function.update machine.inputs node value other
  rw [hready.state_store]
  by_cases hsame : other = node
  · rw [hsame, hvalue, Function.update_self]
  · rw [hchanges.value_eq hplaced.fabric (.inl hother) hsame, Function.update_of_ne hsame]
    exact h.entries other hother

end Agrees

/-- A circuit refuses to set just the names to which the machine knows no node. -/
theorem inputNode?_eq (hready : circuit.Ready design.root draft) (name : String) :
    design.inputNode? name = (circuit.inputNode name).toOption := by
  simp only [inputNode?, Circuit.inputNode, Circuit.component, hready.root_eq]
  cases design.root.component.pin? name with
  | none => rfl
  | some pin =>
    by_cases hrole : pin.role = .input
    · simp only [hrole, if_true]
      cases design.root.nodeAt? .input pin.index <;> rfl
    · simp only [hrole, if_false]
      rfl

namespace Agrees

theorem drive (hplaced : design.IsPlaced draft) (hready : circuit.Ready design.root draft)
    (h : design.Agrees circuit machine) (stimulus : Stimulus) :
    design.Agrees (circuit.drive stimulus) (design.drive machine stimulus) := by
  have htick : design.Agrees circuit.tick (design.tick machine) := by
    have hnoted :
        design.Agrees (circuit.note ⟨.trace, s!"tick {circuit.component.name}"⟩) machine :=
      h.congr rfl fun _ _ => rfl
    have hrested := (hready.note ⟨.trace, s!"tick {circuit.component.name}"⟩).rested_refreshed
    exact (hnoted.rested hrested).rise hplaced (hready.note _).refreshed hrested.atRest
  have htock : ∀ {before : Circuit} {earlier : Machine}, before.Ready design.root draft →
      design.Agrees before earlier → design.Agrees before.tock earlier.tock := by
    intro before earlier hbefore hagrees
    have hnoted : design.Agrees (before.note ⟨.trace, s!"tock {before.component.name}"⟩) earlier :=
      hagrees.congr rfl fun _ _ => rfl
    exact (hnoted.fall (hbefore.note _)).rested (hbefore.note _).fall.rested_refreshed
  cases stimulus with
  | set name value =>
    rw [Circuit.drive, Design.drive, inputNode?_eq hready, Circuit.set]
    cases hnode : circuit.inputNode name with
    | error error => exact h
    | ok node =>
      have hmem := Circuit.inputNode_mem hnode
      rw [hready.root_eq] at hmem
      exact h.store hplaced hready hmem value
  | eval => exact h.rested hready.rested_eval
  | tick => exact htick
  | tock => exact htock hready h
  | pulse => exact htock hready.tick htick

theorem start (hplaced : design.IsPlaced draft) (hfresh : Fresh design.root draft circuit.state) :
    design.Agrees circuit design.start := by
  have hclear : ∀ site kind, .builtIn site (.primitive kind) ∈ design.root.all →
      design.clear site.index = kind.clear := by
    intro site kind hgate
    simp only [clear, hplaced.primitive?_eq hgate]
  refine ⟨hfresh.entries, fun site kind hgate => ?_, fun site kind hgate => ?_⟩
  · exact (hfresh.held site kind hgate).1.trans (hclear site kind hgate).symm
  · exact (hfresh.held site kind hgate).2.trans (hclear site kind hgate).symm

theorem driveAll (hplaced : design.IsPlaced draft) (hready : circuit.Ready design.root draft)
    (h : design.Agrees circuit design.start) (hrest : circuit.state.AtRest design.root)
    (stimuli : List Stimulus) :
    (circuit.driveAll stimuli).Ready design.root draft ∧
      design.Agrees (circuit.driveAll stimuli) (design.driveAll stimuli) ∧
      (stimuli.getLast?.all Stimulus.settles = true →
        (circuit.driveAll stimuli).state.AtRest design.root) := by
  induction stimuli using List.reverseRecOn with
  | nil => exact ⟨hready, h, fun _ => hrest⟩
  | append_singleton stimuli stimulus ih =>
    obtain ⟨hready, hagrees, -⟩ := ih
    simp only [Circuit.driveAll, Design.driveAll, List.foldl_append, List.foldl_cons,
      List.foldl_nil, List.getLast?_append, List.getLast?_singleton, Option.some_or,
      Option.all_some]
    exact ⟨hready.drive stimulus, hagrees.drive hplaced hready stimulus, hready.atRest_drive⟩

end Agrees

end Design

/-- The circuit of a standard component behaves as its reference machine, whatever its parts are and
in whatever order they come: after any stimuli it has the inputs and the stores of the machine, for
which there is just one settled assignment, and after anything but an edit all its nodes show this
assignment. -/
theorem Circuit.follows_machine {component : Component} (h : Standard component) :
    ∃ circuit, Circuit.ofComponent component = .ok circuit ∧ ∀ stimuli : List Stimulus,
      let design := circuit.design true component
      (∃! valuation, design.Settles (design.driveAll stimuli).inputs (design.driveAll stimuli).held
        valuation) ∧
      design.Agrees (circuit.driveAll stimuli) (design.driveAll stimuli) ∧
      (stimuli.getLast?.all Stimulus.settles = true →
        (circuit.driveAll stimuli).value = design.settle (design.driveAll stimuli)) := by
  obtain ⟨draft, initial, circuit, hstarted⟩ := Circuit.exists_started h
  have hplaced := hstarted.isPlaced
  have hagrees := (Design.Agrees.start hplaced hstarted.fresh).rested hstarted.rested
  refine ⟨circuit, hstarted.ofComponent_eq, fun stimuli => ?_⟩
  obtain ⟨hready, hnow, hrest⟩ :=
    hagrees.driveAll hplaced hstarted.ready hstarted.rested.atRest stimuli
  have hevaluated := hready.rested_eval
  have hunique := (hnow.rested hevaluated).existsUnique_atRest hplaced hevaluated.sound
    hevaluated.atRest
  exact ⟨hunique.1, hnow, fun hsettles =>
    (hnow.existsUnique_atRest hplaced hready.sound (hrest hsettles)).2⟩

/-- For example, a toggler agrees with its machine after a pulse. -/
theorem Circuit.follows_machine_toggler :
    ∃ component circuit, Blueprint.toggler.build = .ok component ∧
    Circuit.ofComponent component = .ok circuit ∧
    (circuit.driveAll [.pulse]).value = (circuit.design true component).settle
      ((circuit.design true component).driveAll [.pulse]) := by
  obtain ⟨component, hbuild, hstandard⟩ := Blueprint.exists_toggler
  obtain ⟨circuit, hcircuit, hfollows⟩ := Circuit.follows_machine hstandard
  exact ⟨component, circuit, hbuild, hcircuit, (hfollows [.pulse]).2.2 rfl⟩

end ClockedLogic
