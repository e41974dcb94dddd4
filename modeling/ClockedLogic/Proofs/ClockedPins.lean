import ClockedLogic.Proofs.Acceptance
import ClockedLogic.Proofs.PinRuns

/-!
Pins that are found to be clocked are clocked. While nothing is clocked, whatever an input does that
is clocked shows at no output, and whatever the inputs do shows at no output that is clocked. This
is a statement about two settled states of one circuit in which all primitives hold the same.
-/

namespace ClockedLogic

open Component Word

/-- The name of an input means this input. -/
theorem Component.IsOrderly.pin?_eq {component : Component} (h : component.IsOrderly) {index : Nat}
    {pin : Pin} (hpin : component.inputs[index]? = some pin) :
    component.pin? pin.name = some pin := by
  have hfind : Pin.find? (component.inputs ++ component.outputs) pin.name = some pin :=
    (Pin.find?_eq_some_iff h.names).mpr ⟨List.mem_append_left _ (List.mem_of_getElem? hpin), rfl⟩
  rw [Component.pin?, Component.pins, Pin.find?, List.find?_append]
  rw [Pin.find?] at hfind
  rw [hfind, Option.some_or]

namespace Circuit

variable {sharing : Bool} {component : Component} {draft : Draft} {circuit changed : Circuit}

namespace Intact

theorem set_eq (h : Intact sharing component draft circuit) (horderly : component.IsOrderly)
    {index : Nat} {pin : Pin} (hpin : component.inputs[index]? = some pin) (value : Word) :
    circuit.set pin.name value = .ok (circuit.store index value) := by
  obtain ⟨hrole, hindex, -⟩ := horderly.inputs index pin hpin
  have hlt := (List.getElem?_eq_some_iff.mp hpin).1
  rw [Circuit.set, inputNode, h.component_eq, horderly.pin?_eq hpin]
  simp only [hrole, hindex, if_true, Gate.nodeAt?, Gate.nodesOf, h.inputs_eq,
    List.getElem?_range hlt]
  rfl

theorem setMany (h : Intact sharing component draft circuit) (edits : List (String × Word)) :
    Intact sharing component draft (circuit.setMany edits).1 ∧
      (circuit.setMany edits).1.state.chips = circuit.state.chips := by
  induction edits generalizing circuit with
  | nil => exact ⟨h, rfl⟩
  | cons edit edits ih =>
    obtain ⟨name, value⟩ := edit
    rw [Circuit.setMany]
    cases hset : circuit.set name value with
    | error error => exact ⟨h, rfl⟩
    | ok changed =>
      obtain ⟨node, hnode, rfl⟩ := exists_of_set_eq_ok hset
      obtain ⟨hintact, hchips⟩ := ih (h.store hnode value)
      exact ⟨hintact, hchips.trans rfl⟩

section Rest

variable (h : Intact sharing component draft circuit)
  (hrest : circuit.state.AtRest (component.rootPlaced sharing).result)
  (hchanged : Intact sharing component draft changed)
  (hchips : changed.state.chips = circuit.state.chips)

include h hrest hchanged hchips

/-- An evaluation shows nothing new at the outputs if those inputs that are not clocked are what
they were. -/
theorem outputs_eval (hinputs : ∀ index < component.inputs.length,
      component.isInputClocked index = false → changed.value index = circuit.value index) :
    changed.eval.valuesOf .output = circuit.valuesOf .output := by
  obtain ⟨width, hdrafted⟩ := h.drafted
  have hrested := hchanged.ready.rested_eval
  obtain ⟨hstores, -⟩ := stores_congr (hchanged.eval.ready.root_eq.trans h.ready.root_eq.symm)
    (hrested.chips.trans hchips)
  refine hdrafted.wellWired.outputsFollow (hchanged.eval.settled hrested.atRest) (h.settled hrest)
    (fun path kind _ => by rw [hstores]) hchanged.eval.held fun index pin hpin hclocked => ?_
  have hlt := (List.getElem?_eq_some_iff.mp hpin).1
  have hentry := hrested.entries index (hchanged.ready.root_eq ▸ hchanged.mem_inputs.mpr hlt)
  rw [hchanged.eval.pin_input hlt, h.pin_input hlt]
  exact .of_eq (hentry.trans (hinputs index hlt hclocked))

theorem clocked_output_eval {index : Nat} (hclocked : component.isOutputClocked index = true) :
    changed.eval.getAt? .output index = circuit.getAt? .output index := by
  obtain ⟨width, hdrafted⟩ := h.drafted
  have hrested := hchanged.ready.rested_eval
  have hroot := hchanged.eval.ready.root_eq.trans h.ready.root_eq.symm
  obtain ⟨hstores, -⟩ := stores_congr hroot (hrested.chips.trans hchips)
  have hsame := hdrafted.wellWired.clocked_output_eq (hchanged.eval.settled hrested.atRest)
    (h.settled hrest) (fun path kind _ => by rw [hstores]) hchanged.eval.held hclocked
  rw [getAt?, getAt?, hroot, Gate.nodeAt?]
  cases hnode : (circuit.root.nodesOf .output)[index]? with
  | none => rfl
  | some node =>
    rw [pinValues, pinValues, Gate.pin_pinValues rfl (hroot ▸ hnode), Gate.pin_pinValues rfl hnode]
      at hsame
    rw [Option.map_some, Option.map_some, hsame]

end Rest
end Intact

/-- A standard component is settled after any stimuli but edits. In every settled state, a new value
at an input that is clocked changes no output when it is evaluated, and new values at any inputs
change no output that is clocked. -/
theorem clocked_pins_hold (h : Standard component) :
    ∃ circuit, Circuit.ofComponent component = .ok circuit ∧ ∀ stimuli : List Stimulus,
      let now := circuit.driveAll stimuli
      (stimuli.getLast?.all Stimulus.settles = true → now.isDirty now.root = false) ∧
      (now.isDirty now.root = false →
        (∀ (index : Nat) (pin : Pin), component.inputs[index]? = some pin →
          component.isInputClocked index = true → ∀ value, ∃ changed,
            now.set pin.name value = .ok changed ∧
              changed.eval.valuesOf .output = now.valuesOf .output) ∧
        ∀ index, component.isOutputClocked index = true → ∀ edits : List (String × Word),
          (now.setMany edits).1.eval.getAt? .output index = now.getAt? .output index) := by
  obtain ⟨draft, circuit, hbegun⟩ := exists_begun true h.wellWired
  refine ⟨circuit, hbegun.place_eq, fun stimuli => ?_⟩
  intro now
  have hintact : Intact true component draft now := hbegun.intact.driveAll stimuli
  rw [Circuit.isDirty, hintact.ready.root_eq]
  refine ⟨fun hsettles => ?_, fun hclean => ?_⟩
  · exact (hbegun.intact.atRest_driveAll hbegun.atRest hsettles _ (Gate.mem_all_self _)).1
  have hrest := hintact.ready.sound.atRest (Gate.mem_all_self _) hclean
  refine ⟨fun index pin hpin hclocked value => ?_, fun index hclocked edits => ?_⟩
  · have hmem := hintact.mem_inputs.mpr (List.getElem?_eq_some_iff.mp hpin).1
    refine ⟨_, hintact.set_eq h.isOrderly hpin value, ?_⟩
    refine hintact.outputs_eval hrest (hintact.store hmem value) rfl
      fun other hlt hunclocked => ?_
    rw [hintact.value_store hmem (hintact.mem_inputs.mpr hlt), if_neg]
    rintro rfl
    rw [hclocked] at hunclocked
    cases hunclocked
  · obtain ⟨hchanged, hchips⟩ := hintact.setMany edits
    exact hintact.clocked_output_eval hrest hchanged hchips hclocked

/-- For example, those of a register behind an inverter that has been clocked. -/
theorem clocked_pins_hold_delay : ∃ component circuit, Blueprint.delay.build = .ok component ∧
    Circuit.ofComponent component = .ok circuit ∧
      let now := circuit.driveAll [.set "in" 1, .pulse]
      now.isDirty now.root = false ∧
        (∃ changed, now.set "in" 0 = .ok changed ∧
          changed.eval.valuesOf .output = now.valuesOf .output) ∧
        (now.setMany [("in", 0)]).1.eval.getAt? .output 0 = now.getAt? .output 0 := by
  obtain ⟨component, hbuild, hstandard, hpins, -, hinput, houtput⟩ := Blueprint.exists_delay
  obtain ⟨circuit, hcircuit, hholds⟩ := clocked_pins_hold hstandard
  obtain ⟨hsettled, hclocked⟩ := hholds [.set "in" 1, .pulse]
  obtain ⟨hinputs, houtputs⟩ := hclocked (hsettled rfl)
  exact ⟨component, circuit, hbuild, hcircuit, hsettled rfl,
    hinputs 0 ⟨"in", 1, .input, 0⟩ (by rw [hpins]; rfl) hinput 0, houtputs 0 houtput _⟩

end Circuit
end ClockedLogic
