import ClockedLogic.Proofs.PinRuns

/-!
Circuits that are driven side by side. Of one of them the component looks like that of the other
one, with the same inputs; both get the same stimuli, up to what an edit may write differently. If
inputs that may differ are still alike as far as they are wide, both hold the same all along, and
whatever gates drive carries the same in both whenever they have been brought up to date.
-/

namespace ClockedLogic

open Component Word

theorem Fitted.getElem?_pinsOf {component : Component} (h : Fitted component) {name : String}
    {pin : Pin} (hname : component.pin? name = some pin) :
    (component.pinsOf pin.role)[pin.index]? = some pin :=
  (mem_pins_iff_getElem? h.pinsInOrder).mp (List.mem_of_find?_eq_some hname)

theorem Fitted.getElem?_inputs {component : Component} (h : Fitted component) {name : String}
    {pin : Pin} (hname : component.pin? name = some pin) (hrole : pin.role = .input) :
    component.inputs[pin.index]? = some pin := by
  have hplace := h.getElem?_pinsOf hname
  rwa [hrole] at hplace

/-- Whether a component looks like another one that has the same inputs, by the same names. -/
structure Component.Mirrors (component other : Component) (view : View) : Prop
    extends component.Shows other view where
  inputs : component.inputs = other.inputs
  named : ∀ (name : String) (pin : Pin), pin.role = .input →
    (component.pin? name = some pin ↔ other.pin? name = some pin)
  entries : ∀ values : PinValues, view.values values [] .input = values [] .input

theorem Component.Mirrors.refl (component : Component) :
    component.Mirrors component (.beyond []) where
  toShows := .beyond rfl
  inputs := rfl
  named _ _ _ := .rfl
  entries _ := rfl

/-- Whether two stimuli differ at most in what they write to an input, and there so far only as
inputs may differ. -/
inductive Stimulus.Agree (agree : Nat → Word → Word → Prop) (component : Component) :
    Stimulus → Stimulus → Prop where
  | set {name : String} {value value' : Word}
    (h : ∀ pin, component.pin? name = some pin → agree pin.width value value') :
    Agree agree component (.set name value) (.set name value')
  | same {stimulus : Stimulus} (h : stimulus.settles = true) :
    Agree agree component stimulus stimulus

/-- Of stimuli that agree, both last ones settle or neither does. -/
theorem Stimulus.all_settles_eq {agree : Nat → Word → Word → Prop} {component : Component}
    {stimuli stimuli' : List Stimulus}
    (h : List.Forall₂ (Stimulus.Agree agree component) stimuli stimuli') :
    stimuli.getLast?.all settles = stimuli'.getLast?.all settles := by
  have hmap : stimuli.map settles = stimuli'.map settles := by
    induction h with
    | nil => rfl
    | cons hstimulus _ ih =>
      rw [List.map_cons, List.map_cons, ih]
      cases hstimulus <;> rfl
  have hlast := congrArg (fun flags => flags.getLast?.all id) hmap
  simpa [List.getLast?_map, Option.all_map] using hlast

namespace Circuit.Intact

variable {sharing : Bool} {component : Component} {draft : Draft} {circuit : Circuit}

/-- An input is set by its name, all other names are refused. -/
theorem inputNode_eq_ok_iff (h : Intact sharing component draft circuit) {name : String}
    {node : Nat} : circuit.inputNode name = .ok node ↔
      ∃ pin, component.pin? name = some pin ∧ pin.role = .input ∧ pin.index = node := by
  obtain ⟨width, hdrafted⟩ := h.drafted
  rw [inputNode, h.component_eq]
  cases hpin : component.pin? name with
  | none => simp
  | some pin =>
    by_cases hrole : pin.role = .input
    · have hlt := (List.getElem?_eq_some_iff.mp
        (hdrafted.wellWired.fitted.getElem?_inputs hpin hrole)).1
      simp [hrole, Gate.nodeAt?, Gate.nodesOf, h.inputs_eq, hlt]
    · simp [hrole]

theorem get?_eq (h : Intact sharing component draft circuit) (name : String) :
    circuit.get? name =
      (component.pin? name).map fun pin => circuit.pinValues.pin [] pin.role pin.index := by
  obtain ⟨width, hdrafted⟩ := h.drafted
  have hcomponent : circuit.root.component = component := h.component_eq
  rw [get?, node?, Gate.node?, hcomponent]
  cases hpin : component.pin? name with
  | none => rfl
  | some pin =>
    have hlt := (List.getElem?_eq_some_iff.mp
      (hdrafted.wellWired.fitted.getElem?_pinsOf hpin)).1
    have hhouse := hdrafted.housed _ (Gate.mem_all_self _) pin.role
    rw [← h.ready.root_eq, hcomponent] at hhouse
    have hnode := List.getElem?_eq_getElem (hhouse.length_eq ▸ hlt)
    rw [Option.map_some, pinValues, Gate.pin_pinValues rfl hnode]
    exact congrArg (Option.map circuit.value) hnode

end Circuit.Intact

open Circuit

structure Companions (agree : Nat → Word → Word → Prop) (sharing sharing' : Bool)
    (component other : Component) (view : View) (draft draft' : Draft) (circuit beside : Circuit) :
    Prop extends Abreast sharing sharing' component other view draft draft' circuit beside where
  mirrors : component.Mirrors other view
  inputs : ∀ (index : Nat) (pin : Pin), other.inputs[index]? = some pin →
    agree pin.width (circuit.value index) (beside.value index)

namespace Companions

variable {agree : Nat → Word → Word → Prop} {sharing sharing' : Bool} {component other : Component}
  {view : View} {draft draft' : Draft} {circuit beside changed changed' : Circuit}

theorem of_begun (hmirrors : component.Mirrors other view) (hclear : ∀ width, agree width 0 0)
    (h : Begun sharing component draft circuit) (h' : Begun sharing' other draft' beside) :
    Companions agree sharing sharing' component other view draft draft' circuit beside where
  toAbreast := .of_shows hmirrors.toShows h h'
  mirrors := hmirrors
  inputs index pin hpin := by
    have hlt := (List.getElem?_eq_some_iff.mp hpin).1
    rw [h.inputs index (hmirrors.inputs ▸ hlt), h'.inputs index hlt]
    exact hclear pin.width

variable (h : Companions agree sharing sharing' component other view draft draft' circuit beside)

include h

theorem keep
    (habreast : Abreast sharing sharing' component other view draft draft' changed changed')
    (hinputs : ∀ index ∈ (component.rootPlaced sharing).result.inputs,
      changed.value index = circuit.value index)
    (hinputs' : ∀ index ∈ (other.rootPlaced sharing').result.inputs,
      changed'.value index = beside.value index) :
    Companions agree sharing sharing' component other view draft draft' changed changed' := by
  refine ⟨habreast, h.mirrors, fun index pin hpin => ?_⟩
  have hlt := (List.getElem?_eq_some_iff.mp hpin).1
  have hmem : index ∈ (component.rootPlaced sharing).result.inputs := by
    rw [← h.intact.ready.root_eq, h.intact.mem_inputs, h.mirrors.inputs]
    exact hlt
  have hmem' : index ∈ (other.rootPlaced sharing').result.inputs := by
    rw [← h.intact'.ready.root_eq, h.intact'.mem_inputs]
    exact hlt
  rw [hinputs index hmem, hinputs' index hmem']
  exact h.inputs index pin hpin

theorem note (record record' : Record) :
    Companions agree sharing sharing' component other view draft draft' (circuit.note record)
      (beside.note record') :=
  h.keep (h.toAbreast.note record record') (fun _ _ => rfl) (fun _ _ => rfl)

theorem refreshed :
    Companions agree sharing sharing' component other view draft draft' circuit.refreshed
      beside.refreshed :=
  h.keep h.toAbreast.refreshed h.intact.ready.rested_refreshed.entries
    h.intact'.ready.rested_refreshed.entries

theorem eval :
    Companions agree sharing sharing' component other view draft draft' circuit.eval beside.eval :=
  h.keep h.toAbreast.eval h.intact.ready.rested_eval.entries h.intact'.ready.rested_eval.entries

theorem fall :
    Companions agree sharing sharing' component other view draft draft' circuit.fall beside.fall :=
  h.keep h.toAbreast.fall h.intact.ready.fallen_fall.entries h.intact'.ready.fallen_fall.entries

theorem tock :
    Companions agree sharing sharing' component other view draft draft' circuit.tock beside.tock :=
  (h.note _ _).fall.refreshed

theorem store {index : Nat} {pin : Pin} (hpin : other.inputs[index]? = some pin)
    {value value' : Word} (hagree : agree pin.width value value') :
    Companions agree sharing sharing' component other view draft draft' (circuit.store index value)
      (beside.store index value') := by
  have hmem : ∀ {index : Nat} {pin : Pin}, other.inputs[index]? = some pin →
      index ∈ circuit.root.inputs ∧ index ∈ beside.root.inputs := by
    intro index pin hpin
    have hlt := (List.getElem?_eq_some_iff.mp hpin).1
    exact ⟨h.intact.mem_inputs.mpr (h.mirrors.inputs ▸ hlt), h.intact'.mem_inputs.mpr hlt⟩
  obtain ⟨hnode, hnode'⟩ := hmem hpin
  refine ⟨h.toAbreast.keep (h.intact.store hnode value) rfl (h.intact'.store hnode' value') rfl,
    h.mirrors, fun place far hfar => ?_⟩
  obtain ⟨hplace, hplace'⟩ := hmem hfar
  rw [h.intact.value_store hnode hplace, h.intact'.value_store hnode' hplace']
  split
  · rename_i hsame
    obtain rfl : far = pin := Option.some.inj (hfar.symm.trans (hsame ▸ hpin))
    exact hagree
  · exact h.inputs place far hfar

theorem inputNode_iff {name : String} {node : Nat} :
    circuit.inputNode name = .ok node ↔ beside.inputNode name = .ok node := by
  rw [h.intact.inputNode_eq_ok_iff, h.intact'.inputNode_eq_ok_iff]
  exact exists_congr fun pin => ⟨fun ⟨hpin, hrole, hindex⟩ =>
    ⟨(h.mirrors.named name pin hrole).mp hpin, hrole, hindex⟩, fun ⟨hpin, hrole, hindex⟩ =>
    ⟨(h.mirrors.named name pin hrole).mpr hpin, hrole, hindex⟩⟩

section Alike

variable (halike : ∀ {width : Nat} {a b : Word}, agree width a b → Alike width a b)

include halike

theorem sameInputs : SameInputs other view circuit beside := by
  intro index pin hpin
  have hlt := (List.getElem?_eq_some_iff.mp hpin).1
  rw [PinValues.pin, h.mirrors.entries, ← PinValues.pin,
    h.intact.pin_input (h.mirrors.inputs ▸ hlt), h.intact'.pin_input hlt]
  exact halike (h.inputs index pin hpin)

theorem rise (hrest : circuit.state.AtRest (component.rootPlaced sharing).result)
    (hrest' : beside.state.AtRest (other.rootPlaced sharing').result) :
    Companions agree sharing sharing' component other view draft draft' circuit.rise
      beside.rise := by
  refine h.keep (h.toAbreast.rise hrest hrest' (h.sameInputs halike)) (fun index _ => ?_)
    (fun index _ => ?_)
  · rw [Circuit.value, (h.intact.ready.latched_rise hrest).signals, Circuit.value]
  · rw [Circuit.value, (h.intact'.ready.latched_rise hrest').signals, Circuit.value]

theorem tick :
    Companions agree sharing sharing' component other view draft draft' circuit.tick
      beside.tick := by
  have hnoted := h.note ⟨.trace, s!"tick {circuit.component.name}"⟩
    ⟨.trace, s!"tick {beside.component.name}"⟩
  exact hnoted.refreshed.rise halike hnoted.intact.ready.rested_refreshed.atRest
    hnoted.intact'.ready.rested_refreshed.atRest

theorem drive {stimulus stimulus' : Stimulus} (hstimuli : stimulus.Agree agree other stimulus') :
    Companions agree sharing sharing' component other view draft draft' (circuit.drive stimulus)
      (beside.drive stimulus') := by
  cases hstimuli with
  | @set name value value' hagree =>
    simp only [Circuit.drive, Circuit.set]
    cases hnode : circuit.inputNode name with
    | error error =>
      cases hnode' : beside.inputNode name with
      | error error' => exact h
      | ok node => cases hnode.symm.trans (h.inputNode_iff.mpr hnode')
    | ok node =>
      have hnode' := h.inputNode_iff.mp hnode
      rw [hnode']
      obtain ⟨pin, hpin, hrole, rfl⟩ := h.intact'.inputNode_eq_ok_iff.mp hnode'
      obtain ⟨width, hdrafted⟩ := h.intact'.drafted
      exact h.store (hdrafted.wellWired.fitted.getElem?_inputs hpin hrole) (hagree pin hpin)
  | same hsettles =>
    cases stimulus with
    | set => cases hsettles
    | eval => exact h.eval
    | tick => exact h.tick halike
    | tock => exact h.tock
    | pulse => exact (h.tick halike).tock

theorem driveAll {stimuli stimuli' : List Stimulus}
    (hstimuli : List.Forall₂ (Stimulus.Agree agree other) stimuli stimuli') :
    Companions agree sharing sharing' component other view draft draft' (circuit.driveAll stimuli)
      (beside.driveAll stimuli') := by
  induction hstimuli generalizing circuit beside with
  | nil => exact h
  | cons hstimulus _ ih => exact ih (h.drive halike hstimulus)

/-- If both have started at rest, gates drive all pins alike after anything but an edit. -/
theorem driven_driveAll (hrest : circuit.state.AtRest (component.rootPlaced sharing).result)
    (hrest' : beside.state.AtRest (other.rootPlaced sharing').result)
    {stimuli stimuli' : List Stimulus}
    (hstimuli : List.Forall₂ (Stimulus.Agree agree other) stimuli stimuli')
    (hsettles : stimuli.getLast?.all Stimulus.settles = true) {path : List Nat} {inner : Component}
    (hinner : other.descend? path = some inner) {role : PinRole} (hrole : role ≠ .input) :
    view.values (circuit.driveAll stimuli).pinValues path role =
      (beside.driveAll stimuli').pinValues path role := by
  have hafter := h.driveAll halike hstimuli
  have hsame := hafter.toAbreast.sameValues (h.intact.atRest_driveAll hrest hsettles)
    (h.intact'.atRest_driveAll hrest' (Stimulus.all_settles_eq hstimuli ▸ hsettles))
    (hafter.sameInputs halike)
  exact hsame.driven path inner hinner role hrole

end Alike
end Companions
end ClockedLogic
