import ClockedLogic.Proofs.Settling

/-!
Dirty flags can be trusted. Whatever has been done to a circuit, a gate that is not dirty has
nothing to do inside, at any depth. Making a circuit, evaluating it and clocking it come to their
end without any bound on cascades and sweeps, and leave no gate dirty.
-/

namespace ClockedLogic

namespace Circuit

/-- Whether a stimulus ends, where nothing bounds the number of steps, and with which circuit. -/
inductive EndsIn : Circuit → Stimulus → Circuit → Prop where
  | set {circuit : Circuit} {name : String} {value : Word} {node : Nat} {signals : Signals}
    (hnode : circuit.inputNode name = .ok node)
    (htakes : circuit.state.signals.Takes circuit.netlist [(node, value)] signals) :
    EndsIn circuit (.set name value) { circuit with state := { circuit.state with signals } }
  | refused {circuit : Circuit} {name : String} {value : Word} {error : DesignError}
    (hnode : circuit.inputNode name = .error error) : EndsIn circuit (.set name value) circuit
  | eval {circuit : Circuit} {state : State}
    (hevaluates : Evaluates circuit.netlist circuit.root circuit.state state) :
    EndsIn circuit .eval { circuit with state }
  | tick {circuit : Circuit} {record : Record} {state : State}
    (hticks : Ticks circuit.netlist circuit.root (circuit.note record).state state) :
    EndsIn circuit .tick { circuit with state }
  | tock {circuit : Circuit} {record : Record} {state : State}
    (htocks : Tocks circuit.netlist circuit.root (circuit.note record).state state) :
    EndsIn circuit .tock { circuit with state }
  | pulse {circuit risen fallen : Circuit} (htick : EndsIn circuit .tick risen)
    (htock : EndsIn risen .tock fallen) : EndsIn circuit .pulse fallen

/-- Whether making the circuit of a component ends, where nothing bounds the number of steps, and
with which circuit. -/
inductive MadeOf (component : Component) : Circuit → Prop where
  | intro {draft : Draft} {chips : List (Option Chip)} {last : Cascade} {state : State}
    {record : Record}
    (hdraft : Draft.empty.executeAll (component.placeRoot true).statements = .ok draft)
    (hchips : makeChips (component.placeRoot true).result.all = .ok chips)
    (hends : (Signals.ofDraft draft (component.placeRoot true).cursor.gates).cascadeAll.EndsIn
      draft.netlist last)
    (hevaluates : Evaluates draft.netlist (component.placeRoot true).result
      ⟨(Signals.ofDraft draft (component.placeRoot true).cursor.gates).absorb last, chips.toArray⟩
      state) :
    MadeOf component
      (Circuit.note ⟨(component.placeRoot true).result, draft.netlist, state⟩ record)

variable {root : Gate} {draft : Draft} {circuit : Circuit}

namespace Ready

theorem evaluates (h : Ready root draft circuit) :
    Evaluates circuit.netlist circuit.root circuit.state circuit.eval.state := by
  obtain ⟨level, hlevel⟩ := h.fabric.levels
  rw [h.state_eval, h.netlist_eq, h.root_eq]
  exact (h.sound.eval h.fabric hlevel h.sweepBound_le root.mem_all_self).2

theorem refreshes (h : Ready root draft circuit) :
    Refreshes circuit.netlist circuit.root circuit.state circuit.refreshed.state := by
  rw [h.state_refreshed, h.netlist_eq, h.root_eq]
  exact (h.sound.rested_refresh h.fabric h.sweepBound_le).2

theorem rises (h : Ready root draft circuit) :
    Rises circuit.netlist circuit.root circuit.state circuit.rise.state := by
  rw [h.state_rise, h.netlist_eq, h.root_eq]
  exact (h.sound.rise h.fabric h.sweepBound_le root.mem_all_self).2

theorem falls (h : Ready root draft circuit) :
    Falls circuit.netlist circuit.root circuit.state circuit.fall.state := by
  rw [h.state_fall, h.netlist_eq, h.root_eq]
  exact (h.sound.fall h.fabric h.sweepBound_le).2

theorem takes (h : Ready root draft circuit) {node : Nat} (hnode : node ∈ circuit.root.inputs)
    (value : Word) : circuit.state.signals.Takes circuit.netlist [(node, value)]
      (circuit.store node value).state.signals := by
  rw [h.root_eq] at hnode
  obtain ⟨-, -, htakes⟩ :=
    changes_set h.fabric h.sound.sane (.inl hnode : root.Sets node) value
  rw [← h.netlist_eq] at htakes
  exact htakes [] _ .nil

theorem ends_tick (h : Ready root draft circuit) : circuit.EndsIn .tick circuit.tick :=
  .tick ⟨_, (h.note _).refreshes, (h.note _).refreshed.rises⟩

theorem ends_tock (h : Ready root draft circuit) : circuit.EndsIn .tock circuit.tock :=
  .tock ⟨_, (h.note _).falls, (h.note _).fall.refreshes⟩

theorem ends (h : Ready root draft circuit) (stimulus : Stimulus) :
    circuit.EndsIn stimulus (circuit.drive stimulus) := by
  cases stimulus with
  | set name value =>
    rw [Circuit.drive, Circuit.set]
    cases hnode : circuit.inputNode name with
    | error error => exact .refused hnode
    | ok node => exact .set hnode (h.takes (inputNode_mem hnode) value)
  | eval => exact .eval h.evaluates
  | tick => exact h.ends_tick
  | tock => exact h.ends_tock
  | pulse => exact .pulse h.ends_tick h.tick.ends_tock

theorem dirtyGates_eq_nil (h : Ready root draft circuit) (hrest : circuit.state.AtRest root) :
    circuit.dirtyGates = [] := by
  rw [dirtyGates, FlagSet.toList, List.filter_eq_nil_iff]
  intro index hindex
  rw [List.mem_range, h.sound.sane.dirty_size] at hindex
  have hmem : index ∈ root.all.map Gate.index := by
    rw [h.fabric.indices]
    exact List.mem_range.mpr hindex
  obtain ⟨gate, hgate, rfl⟩ := List.mem_map.mp hmem
  rw [Bool.not_eq_true]
  exact (hrest gate hgate).1

end Ready

theorem Made.madeOf {component : Component} {initial : Circuit}
    (h : Made true component draft initial) :
    MadeOf component (initial.eval.note initial.eval.placeRecord) := by
  obtain ⟨chips, hchips, hstate⟩ := h.state_eq
  have hevaluates := h.ready.evaluates
  rw [h.ready.root_eq, h.ready.netlist_eq, hstate] at hevaluates
  have hends : (Signals.ofDraft draft (component.placeRoot true).cursor.gates).cascadeAll.EndsIn
      draft.netlist _ := ⟨(h.ready.fabric.spread_start _).ended, _, rfl⟩
  have heval : initial.eval =
    ⟨(component.placeRoot true).result, draft.netlist, initial.eval.state⟩ := by
    rw [← h.ready.root_eq, ← h.ready.netlist_eq]
    rfl
  generalize initial.eval.placeRecord = record
  rw [heval]
  exact .intro h.drafted hchips hends hevaluates

/-- Dirty flags are honest in the circuit of every standard component, whatever has been done to it,
and each stimulus ends, with no gate left dirty unless it was an edit. -/
theorem flags_honest {component : Component} (h : Standard component) :
    ∃ circuit, Circuit.ofComponent component = .ok circuit ∧ MadeOf component circuit ∧
      circuit.dirtyGates = [] ∧ ∀ commands : List Command,
        let now := circuit.performAll commands
        (∀ gate ∈ now.root.all, now.isDirty gate = false →
          ∀ inner ∈ gate.all, now.isDirty inner = false ∧ now.state.Calm inner) ∧
        (∀ site spec, .builtIn site spec ∈ now.root.all →
          ∃ chip, now.state.chip? site.index = some chip) ∧
        ∀ stimulus : Stimulus, now.EndsIn stimulus (now.drive stimulus) ∧
          (stimulus.settles = true → (now.drive stimulus).dirtyGates = []) := by
  obtain ⟨draft, initial, hmade⟩ := exists_made true h.wellWired
  refine ⟨_, hmade.place_eq, hmade.madeOf, ?_, fun commands => ?_⟩
  · exact hmade.ready_place.dirtyGates_eq_nil (hmade.ready.rested_eval.atRest.congr rfl rfl rfl)
  · have hready := hmade.ready_place.performAll commands
    generalize ((initial.eval.note initial.eval.placeRecord).performAll commands) = now at hready
    refine ⟨fun gate hgate hclean => ?_, fun site spec hgate => ?_,
      fun stimulus => ⟨hready.ends stimulus, fun hsettles => ?_⟩⟩
    · rw [hready.root_eq] at hgate
      exact hready.sound.atRest hgate hclean
    · rw [hready.root_eq] at hgate
      obtain ⟨kind, rfl, -⟩ := hready.fabric.builtIns site spec hgate
      obtain ⟨chip, hchip, -⟩ := hready.sound.sane.chips site kind hgate
      exact ⟨chip, hchip⟩
    · exact (hready.drive stimulus).dirtyGates_eq_nil (hready.atRest_drive hsettles)

/-- For example, a toggler that has been given a rising edge only has honest flags. -/
theorem flags_honest_toggler : ∃ component circuit, Blueprint.toggler.build = .ok component ∧
    Circuit.ofComponent component = .ok circuit ∧ MadeOf component circuit ∧
    (circuit.performAll [.rise]).EndsIn .tock ((circuit.performAll [.rise]).drive .tock) := by
  obtain ⟨component, hbuild, hstandard⟩ := Blueprint.exists_toggler
  obtain ⟨circuit, hcircuit, hmade, -, hhonest⟩ := flags_honest hstandard
  exact ⟨component, circuit, hbuild, hcircuit, hmade, ((hhonest [.rise]).2.2 .tock).1⟩

end Circuit

end ClockedLogic
