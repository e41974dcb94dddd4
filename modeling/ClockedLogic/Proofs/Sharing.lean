import ClockedLogic.Proofs.Companions

/-!
Sharing nodes shows nowhere. The pins of a part can share nodes with those pins of its owner that
they are joined to as a whole, or they can all have nodes of their own. This changes who listens to
whom and so the order of everything that happens. But as long as the inputs get values that fit,
both circuits hold the same and are settled for the same inputs, so all their pins carry the same
whenever they have been brought up to date.
-/

namespace ClockedLogic

open Component Word

namespace Circuit

/-- The circuit after a stimulus, where values that do not fit are refused. -/
def driveChecked (circuit : Circuit) : Stimulus → Circuit
  | .set name value => circuit.edited (circuit.setChecked name value)
  | stimulus => circuit.drive stimulus

def driveAllChecked (circuit : Circuit) (stimuli : List Stimulus) : Circuit :=
  stimuli.foldl driveChecked circuit

theorem driveChecked_eq {circuit : Circuit} {stimulus : Stimulus}
    (hsettles : stimulus.settles = true) :
    circuit.driveChecked stimulus = circuit.drive stimulus := by
  cases stimulus with
  | set => cases hsettles
  | _ => rfl

end Circuit

open Circuit

def Word.SameFitting (width : Nat) (a b : Word) : Prop := a = b ∧ Word.fits width a = true

/-- Two circuits of one component that hold the same and have the same inputs, all of which fit. -/
abbrev Twins (sharing sharing' : Bool) (component : Component) (draft draft' : Draft)
    (circuit other : Circuit) : Prop :=
  Companions SameFitting sharing sharing' component component (.beyond []) draft draft' circuit
    other

namespace Twins

variable {sharing sharing' : Bool} {component : Component} {draft draft' : Draft}
  {circuit other : Circuit}

theorem of_begun (h : Begun sharing component draft circuit)
    (h' : Begun sharing' component draft' other) :
    Twins sharing sharing' component draft draft' circuit other :=
  Companions.of_begun (.refl component)
    (fun _ => ⟨rfl, fits_iff.mpr fun bit _ => getLsbD_zero bit⟩) h h'

theorem alike {width : Nat} {a b : Word} (h : SameFitting width a b) : Alike width a b := .of_eq h.1

theorem setChecked (h : Twins sharing sharing' component draft draft' circuit other)
    (name : String) (value : Word) :
    Twins sharing sharing' component draft draft' (circuit.edited (circuit.setChecked name value))
      (other.edited (other.setChecked name value)) := by
  rw [Circuit.setChecked, Circuit.setChecked, ← h.intact.inputNode_eq h.intact' name]
  cases hnode : circuit.inputNode name with
  | error error => exact h
  | ok index =>
    have hlt := h.intact.mem_inputs.mp (inputNode_mem hnode)
    have hpin := List.getElem?_eq_getElem hlt
    simp only [bind, Except.bind, h.intact.width_eq hpin, h.intact'.width_eq hpin]
    split
    · rename_i hfits
      exact h.store hpin ⟨rfl, hfits⟩
    · exact h

theorem pinValues_eq (h : Twins sharing sharing' component draft draft' circuit other)
    (hrest : circuit.state.AtRest (component.rootPlaced sharing).result)
    (hrest' : other.state.AtRest (component.rootPlaced sharing').result) :
    circuit.pinValues = other.pinValues := by
  have hsame := h.toAbreast.sameValues hrest hrest' (h.sameInputs alike)
  have hfits : ∀ (index : Nat) (pin : Pin), component.inputs[index]? = some pin →
      Word.fits pin.width (other.value index) = true := by
    intro index pin hpin
    rw [← (h.inputs index pin hpin).1]
    exact (h.inputs index pin hpin).2
  funext path role
  cases hinner : component.descend? path with
  | none => rw [h.intact.pinValues_eq_nil hinner, h.intact'.pinValues_eq_nil hinner]
  | some inner =>
    by_cases hrole : role = .input
    · subst hrole
      have hsettled := (h.intact.settled hrest).descend hinner
      have hinputs : beyond path circuit.pinValues [] .input =
          beyond path other.pinValues [] .input := by
        refine hsettled.values_eq ((h.intact'.settled hrest').descend hinner)
          fun index pin hpin => ?_
        rw [PinValues.pin, PinValues.pin, beyond_nil, beyond_nil]
        exact (hsame.inputs path inner hinner index pin hpin).eq_of_fits
          (h.intact.fits_inputs hrest (fun index pin hpin => (h.inputs index pin hpin).2) hinner
            hpin)
          (h.intact'.fits_inputs hrest' hfits hinner hpin)
      rwa [beyond_nil, beyond_nil] at hinputs
    · exact hsame.driven path inner hinner role hrole

theorem driveChecked (h : Twins sharing sharing' component draft draft' circuit other)
    (stimulus : Stimulus) : Twins sharing sharing' component draft draft'
      (circuit.driveChecked stimulus) (other.driveChecked stimulus) := by
  cases stimulus with
  | set name value => exact h.setChecked name value
  | eval => exact h.eval
  | tick => exact h.tick alike
  | tock => exact h.tock
  | pulse => exact (h.tick alike).tock

theorem driveAllChecked (h : Twins sharing sharing' component draft draft' circuit other)
    (hrest : circuit.state.AtRest (component.rootPlaced sharing).result)
    (hrest' : other.state.AtRest (component.rootPlaced sharing').result)
    (stimuli : List Stimulus) : Twins sharing sharing' component draft draft'
        (circuit.driveAllChecked stimuli) (other.driveAllChecked stimuli) ∧
      (stimuli.getLast?.all Stimulus.settles = true →
        (circuit.driveAllChecked stimuli).pinValues =
          (other.driveAllChecked stimuli).pinValues) := by
  induction stimuli using List.reverseRecOn with
  | nil => exact ⟨h, fun _ => h.pinValues_eq hrest hrest'⟩
  | append_singleton stimuli stimulus ih =>
    obtain ⟨hbefore, -⟩ := ih
    simp only [Circuit.driveAllChecked, List.foldl_append, List.foldl_cons, List.foldl_nil,
      List.getLast?_append, List.getLast?_singleton, Option.some_or, Option.all_some]
    have hafter := hbefore.driveChecked stimulus
    refine ⟨hafter, fun hsettles => hafter.pinValues_eq ?_ ?_⟩
    · rw [driveChecked_eq hsettles]
      exact hbefore.intact.ready.atRest_drive hsettles
    · rw [driveChecked_eq hsettles]
      exact hbefore.intact'.ready.atRest_drive hsettles

end Twins

/-- After any stimuli whose last one is no edit, all pins at all depths of the circuit of a standard
component carry the same whether pins share nodes or each of them has a node of its own. -/
theorem Circuit.pinValues_sharing {component : Component} (h : Standard component) :
    ∃ shared plain, Circuit.place true component = .ok shared ∧
      Circuit.place false component = .ok plain ∧ ∀ stimuli : List Stimulus,
        stimuli.getLast?.all Stimulus.settles = true →
        (shared.driveAllChecked stimuli).pinValues = (plain.driveAllChecked stimuli).pinValues := by
  obtain ⟨draft, shared, hshared⟩ := exists_begun true h.wellWired
  obtain ⟨draft', plain, hplain⟩ := exists_begun false h.wellWired
  have htwins := Twins.of_begun hshared hplain
  exact ⟨shared, plain, hshared.place_eq, hplain.place_eq, fun stimuli =>
    (htwins.driveAllChecked hshared.atRest hplain.atRest stimuli).2⟩

/-- For example, in a register behind an inverter that has stored a bit. -/
theorem Circuit.pinValues_sharing_delay : ∃ component shared plain,
    Blueprint.delay.build = .ok component ∧ Circuit.place true component = .ok shared ∧
      Circuit.place false component = .ok plain ∧
      let stimuli : List Stimulus := [.set "in" 1, .tick, .set "in" 0, .tock]
      (shared.driveAllChecked stimuli).pinValues = (plain.driveAllChecked stimuli).pinValues := by
  obtain ⟨component, hbuild, hstandard, -⟩ := Blueprint.exists_delay
  obtain ⟨shared, plain, hshared, hplain, hsame⟩ := pinValues_sharing hstandard
  exact ⟨component, shared, plain, hbuild, hshared, hplain, hsame _ rfl⟩

end ClockedLogic
