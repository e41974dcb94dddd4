import ClockedLogic.Proofs.Settling

/-!
Evaluating only what is dirty is as good as evaluating everything. Whatever has been done to a
circuit, its nodes have the same values after an evaluation as if all gates had been dirty before;
the values follow from the inputs and from what the primitives hold, and no history matters.
-/

namespace ClockedLogic

namespace Circuit

def soilAll (circuit : Circuit) : Circuit :=
  circuit.update fun state =>
    { state with signals := { state.signals with dirty := state.signals.dirty.setAll } }

variable {root : Gate} {draft : Draft} {circuit other : Circuit}

theorem Ready.soilAll (h : Ready root draft circuit) : Ready root draft circuit.soilAll := by
  refine h.update ⟨⟨h.sound.sane.values_size, h.sound.sane.dirty_size, h.sound.sane.chips,
    h.sound.sane.holds, h.sound.sane.rest⟩, fun gate hgate _ hclean => ?_⟩
  rw [State.isDirty, FlagSet.setAll, FlagSet.contains_full, h.sound.sane.dirty_size,
    decide_eq_true (h.fabric.index_lt hgate)] at hclean
  cases hclean

/-- Two circuits of one design show the same after an evaluation if they have the same values at
their inputs and hold the same. -/
theorem value_eval_eq {design : Design} (hplaced : design.IsPlaced draft)
    (hready : circuit.Ready design.root draft) (hother : other.Ready design.root draft)
    (hentries : ∀ node ∈ design.root.inputs, circuit.value node = other.value node)
    (hheld : ∀ site kind, .builtIn site (.primitive kind) ∈ design.root.all →
      circuit.state.held site.index = other.state.held site.index) :
    circuit.eval.value = other.eval.value := by
  have hrested := hready.rested_eval
  have hrestedOther := hother.rested_eval
  have hkept : ∀ {before after : State}, Rested design.root draft before after → ∀ index,
      after.held index = before.held index := by
    intro before after hrested index
    rw [State.held, State.chip?, hrested.chips]
    rfl
  refine (hplaced.settles hrested.sound.sane hrested.atRest).unique hplaced
    (hplaced.settles hrestedOther.sound.sane hrestedOther.atRest) (fun node hnode => ?_)
    fun site kind hgate => ⟨?_, Design.exists_realizes hrested.sound.sane hgate⟩
  · rw [hrested.entries node hnode, hrestedOther.entries node hnode]
    exact hentries node hnode
  · rw [hkept hrested, hkept hrestedOther]
    exact hheld site kind hgate

/-- In the circuit of a standard component evaluating the dirty gates comes to the same as
evaluating all gates, whatever has been done before; and so it does after other commands that have
led to the same values at the inputs and the same contents of the primitives. -/
theorem eval_eq_eval_soilAll {component : Component} (h : Standard component) :
    ∃ circuit, Circuit.ofComponent component = .ok circuit ∧ ∀ commands : List Command,
      let now := circuit.performAll commands
      now.eval.value = now.soilAll.eval.value ∧ ∀ others : List Command,
        let later := circuit.performAll others
        (∀ node ∈ circuit.root.inputs, now.value node = later.value node) →
        (∀ site kind, .builtIn site (.primitive kind) ∈ circuit.root.all →
          now.state.held site.index = later.state.held site.index) →
        now.eval.value = later.eval.value := by
  obtain ⟨draft, _, circuit, hstarted⟩ := exists_started h
  refine ⟨circuit, hstarted.ofComponent_eq, fun commands => ?_⟩
  have hready := hstarted.ready.performAll commands
  refine ⟨?_, fun others hentries hheld => ?_⟩
  · exact value_eval_eq hstarted.isPlaced hready hready.soilAll (fun _ _ => rfl) fun _ _ _ => rfl
  · exact value_eval_eq hstarted.isPlaced hready (hstarted.ready.performAll others) hentries hheld

/-- For example, evaluating a toggler after both edges of a pulse, and after a whole pulse. -/
theorem eval_eq_eval_soilAll_toggler :
    ∃ component circuit, Blueprint.toggler.build = .ok component ∧
    Circuit.ofComponent component = .ok circuit ∧
    (circuit.performAll [.rise, .fall]).eval.value =
      (circuit.performAll [.rise, .fall]).soilAll.eval.value ∧
    (circuit.performAll [.drive .tick, .drive .tock]).eval.value =
      (circuit.performAll [.drive .pulse]).eval.value := by
  obtain ⟨component, hbuild, hstandard⟩ := Blueprint.exists_toggler
  obtain ⟨circuit, hcircuit, hsame⟩ := eval_eq_eval_soilAll hstandard
  exact ⟨component, circuit, hbuild, hcircuit, (hsame [.rise, .fall]).1,
    (hsame [.drive .tick, .drive .tock]).2 [.drive .pulse] (fun _ _ => rfl) fun _ _ _ => rfl⟩

end Circuit

end ClockedLogic
