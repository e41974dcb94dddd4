import ClockedLogic.Proofs.Logging
import ClockedLogic.Proofs.Settling

/-!
The algebra of clock edges. Bringing up to date what is at rest changes nothing at all, at any
depth. A rising edge therefore comes to an evaluation followed by a bare edge, and a second one
finds chips that have latched the same before; a second falling edge finds chips that have nothing
left to commit. What the circuit shows is never changed by a rising edge.
-/

namespace ClockedLogic

variable {root : Gate} {draft : Draft} {state : State} {gate : Gate} {limit : Nat}

theorem State.install_eq_self {index : Nat} {chip : Chip} (h : state.chip? index = some chip) :
    state.install index chip = state := by
  rw [chip?, Option.join_eq_some_iff] at h
  have hchips : state.chips.setIfInBounds index (some chip) = state.chips := by
    refine Array.ext (Array.size_setIfInBounds ..) fun other hother hlt => ?_
    rw [Array.getElem_setIfInBounds]
    split
    · rename_i hindex
      subst hindex
      rw [Array.getElem?_eq_getElem hlt, Option.some.injEq] at h
      exact h.symm
    · rfl
  rw [install, hchips]

/-- Bringing a gate up to date does not depend on whether it was dirty. -/
theorem Gate.refresh_soil (fabric : Fabric root draft) (hsane : Sane root draft state)
    (hgate : gate ∈ root.all) (limit : Nat) :
    gate.refresh draft.netlist limit (state.soil gate.index) =
      gate.refresh draft.netlist limit state := by
  have hclean : (state.soil gate.index).clean gate.index = state.clean gate.index := by
    have hflags : (state.signals.dirty.insert gate.index).erase gate.index =
        state.signals.dirty.erase gate.index := by
      refine FlagSet.eq_of_contains (by simp only [FlagSet.size_erase, FlagSet.size_insert])
        fun other => ?_
      rw [FlagSet.contains_erase, FlagSet.contains_erase, FlagSet.contains_insert _ _ _
        (by rw [hsane.dirty_size]; exact fabric.index_lt hgate)]
      by_cases hsame : other = gate.index <;> simp [hsame]
    simp only [State.clean, State.soil, hflags]
  cases gate with
  | builtIn site spec =>
    simp only [index, Gate.site] at hclean
    simp only [refresh, index, Gate.site, hclean]
  | composite site internals parts =>
    simp only [index, Gate.site] at hclean
    simp only [refresh, index, Gate.site, hclean]

theorem Gate.foldl_eq_self {gates : List Gate} {step : State → Gate → State}
    (h : ∀ gate ∈ gates, step state gate = state) : gates.foldl step state = state := by
  induction gates with
  | nil => rfl
  | cons gate gates ih =>
    rw [List.foldl_cons, h gate List.mem_cons_self]
    exact ih fun other hother => h other (List.mem_cons_of_mem _ hother)

section AtRest

variable (fabric : Fabric root draft) (hsane : Sane root draft state) (hlimit : 1 ≤ limit)
  (hgate : gate ∈ root.all) (hrest : state.AtRest gate)
include fabric hsane hlimit hgate hrest

/-- A rising edge changes nothing where all chips have latched what they read. -/
theorem rise_eq_self
    (hlatched : ∀ site spec chip, .builtIn site spec ∈ gate.all →
      state.chip? site.index = some chip → chip.rise (state.read site.inputs) = chip) :
    gate.rise draft.netlist limit state = state := by
  induction gate using Gate.inductionOn with
  | builtIn site spec =>
    obtain ⟨kind, rfl, -⟩ := fabric.builtIns _ _ hgate
    obtain ⟨chip, hchip, -⟩ := hsane.chips _ _ hgate
    have hlatch : state.latch site = state.install site.index chip := by
      simp only [State.latch, hchip, State.install, hlatched _ _ chip (Gate.mem_all_self _) hchip]
    rw [Gate.rise, hlatch, State.install_eq_self hchip, ite_self]
  | composite site internals parts ih =>
    have hparts : Gate.tickAll draft.netlist limit parts state = state := by
      rw [Gate.tickAll_eq_foldl]
      refine Gate.foldl_eq_self fun part hpart => ?_
      have hmem := @Gate.mem_all_of_part (.composite site internals parts) part hpart
      have hpartMem := Gate.mem_all_trans hmem hgate
      rw [Gate.tick, (refresh_atRest fabric hsane hlimit hpartMem (hrest.inside hmem)).1]
      exact ih part hpart hpartMem (hrest.inside hmem) fun site' spec chip hinner =>
        hlatched site' spec chip (Gate.mem_all_trans hinner hmem)
    rw [Gate.rise, hparts, ite_self]

/-- A falling edge changes nothing that an evaluation does not take back, where no chip has anything
to commit. -/
theorem refresh_fall_eq_self
    (hfallen : ∀ site spec chip, .builtIn site spec ∈ gate.all →
      state.chip? site.index = some chip → chip.fall = chip) :
    gate.refresh draft.netlist limit (gate.fall draft.netlist limit state) = state := by
  have hsame := (refresh_atRest fabric hsane hlimit hgate hrest).1
  have hsoiled := (Gate.refresh_soil fabric hsane hgate limit).trans hsame
  induction gate using Gate.inductionOn with
  | builtIn site spec =>
    obtain ⟨kind, rfl, -⟩ := fabric.builtIns _ _ hgate
    obtain ⟨chip, hchip, -⟩ := hsane.chips _ _ hgate
    have hfall := hfallen _ _ chip (Gate.mem_all_self _) hchip
    have hshown := Chip.showFallen_eq_self hfall ((hrest _ (Gate.mem_all_self _)).2 chip hchip)
    have hcommit : state.commit draft.netlist site =
        ((state.install site.index chip).write draft.netlist site.outputs
          (state.read site.outputs)).soil site.index := by
      simp only [State.commit, hchip, hshown, hfall, State.install]
    rw [State.install_eq_self hchip, State.write_read] at hcommit
    rw [Gate.fall, hcommit]
    split
    · exact hsoiled
    · exact hsame
  | composite site internals parts ih =>
    have hparts : Gate.tockAll draft.netlist limit parts state = state := by
      rw [Gate.tockAll_eq_foldl]
      refine Gate.foldl_eq_self fun part hpart => ?_
      have hmem := @Gate.mem_all_of_part (.composite site internals parts) part hpart
      have hpartMem := Gate.mem_all_trans hmem hgate
      have hpartSame := (refresh_atRest fabric hsane hlimit hpartMem (hrest.inside hmem)).1
      exact ih part hpart hpartMem (hrest.inside hmem)
        (fun site' spec chip hinner => hfallen site' spec chip (Gate.mem_all_trans hinner hmem))
        hpartSame ((Gate.refresh_soil fabric hsane hpartMem limit).trans hpartSame)
    rw [Gate.fall, hparts]
    split
    · exact hsoiled
    · exact hsame

end AtRest

namespace Circuit

variable {circuit : Circuit}

theorem update_congr {f g : State → State} (h : f circuit.state = g circuit.state) :
    circuit.update f = circuit.update g := by
  rw [update, update, h]

theorem one_le_sweepLimit (circuit : Circuit) : 1 ≤ circuit.sweepLimit := by
  unfold sweepLimit
  omega

namespace Ready

variable (h : Ready root draft circuit)
include h

/-- Bringing a circuit up to date does no more than bringing it up to date if it is dirty. -/
theorem refreshed_eq_eval : circuit.refreshed = circuit.eval := by
  refine update_congr ?_
  rw [h.root_eq, h.netlist_eq]
  unfold Gate.eval
  split
  · rfl
  · rename_i hdirty
    exact (refresh_atRest h.fabric h.sound.sane circuit.one_le_sweepLimit root.mem_all_self
      (h.sound.atRest root.mem_all_self (Bool.eq_false_iff.mpr hdirty))).1

theorem eval_eq_self (hrest : circuit.state.AtRest root) : circuit.eval = circuit := by
  rw [← h.refreshed_eq_eval]
  refine update_congr (g := id) ?_
  rw [h.root_eq, h.netlist_eq]
  exact (refresh_atRest h.fabric h.sound.sane circuit.one_le_sweepLimit root.mem_all_self hrest).1

/-- Chips that have latched what they read latch the same again. -/
theorem rise_rise (hrest : circuit.state.AtRest root) : circuit.rise.rise = circuit.rise := by
  have hlatched := h.latched_rise hrest
  refine update_congr (g := id) ?_
  rw [h.rise.root_eq, h.rise.netlist_eq]
  refine rise_eq_self h.fabric h.rise.sound.sane circuit.rise.one_le_sweepLimit root.mem_all_self
    (hlatched.atRest h.fabric h.sound.sane root.mem_all_self hrest)
    fun site spec chip hgate hchip => ?_
  rw [hlatched.latched site spec hgate hgate, Option.map_eq_some_iff] at hchip
  obtain ⟨earlier, -, rfl⟩ := hchip
  rw [hlatched.read_eq, Chip.rise_rise]

theorem refreshed_fall_refreshed_fall :
    circuit.fall.refreshed.fall.refreshed = circuit.fall.refreshed := by
  have hrested := h.fall.rested_refreshed
  have hready := h.fall.refreshed
  generalize circuit.fall.refreshed = now at hrested hready
  change now.update (fun state => now.root.refresh now.netlist now.sweepLimit
    (now.root.fall now.netlist now.sweepLimit state)) = now.update id
  refine update_congr ?_
  rw [hready.root_eq, hready.netlist_eq]
  refine refresh_fall_eq_self h.fabric hready.sound.sane now.one_le_sweepLimit root.mem_all_self
    hrested.atRest fun site spec chip hgate hchip => ?_
  have hfallen := h.fallen_fall.fallen site spec hgate hgate
  rw [State.chip?, hrested.chips] at hchip
  rw [State.chip?, hchip] at hfallen
  obtain ⟨earlier, -, rfl⟩ := Option.map_eq_some_iff.mp hfallen.symm
  exact earlier.fall_fall

theorem sameState_tick : circuit.eval.rise.SameState circuit.tick := by
  have hnoted := h.note ⟨.trace, s!"tick {circuit.component.name}"⟩
  rw [← h.refreshed_eq_eval]
  exact ((SameState.note circuit _).symm.refreshed h hnoted).rise h.refreshed hnoted.refreshed

theorem sameState_tock : circuit.fall.eval.SameState circuit.tock := by
  have hnoted := h.note ⟨.trace, s!"tock {circuit.component.name}"⟩
  rw [← h.fall.refreshed_eq_eval]
  exact ((SameState.note circuit _).symm.fall h hnoted).refreshed h.fall hnoted.fall

theorem values_tick : circuit.tick.state.signals.values = circuit.eval.state.signals.values := by
  rw [← h.sameState_tick.values, (h.eval.latched_rise h.rested_eval.atRest).signals]

theorem sameState_tick_tick : circuit.tick.tick.SameState circuit.tick := by
  refine h.tick.sameState_tick.symm.trans ?_
  rw [h.tick.eval_eq_self h.atRest_tick]
  exact .of_eq ((h.note _).refreshed.rise_rise (h.note _).rested_refreshed.atRest)

theorem sameState_tock_tock : circuit.tock.tock.SameState circuit.tock := by
  refine h.tock.sameState_tock.symm.trans ?_
  rw [← h.tock.fall.refreshed_eq_eval]
  exact .of_eq (h.note _).refreshed_fall_refreshed_fall

end Ready

/-- In the circuit of a standard component, whatever has been done to it: an evaluation and a bare
rising edge come to a tick, a bare falling edge and an evaluation to a tock; a tick gives every node
the value that an evaluation gives it; and a second tick, a second tock and a second evaluation
change no value, no flag and no chip. -/
theorem edge_algebra {component : Component} (h : Standard component) :
    ∃ circuit, Circuit.ofComponent component = .ok circuit ∧ ∀ commands : List Command,
      let now := circuit.performAll commands
      now.eval.rise.SameState now.tick ∧ now.fall.eval.SameState now.tock ∧
      now.tick.state.signals.values = now.eval.state.signals.values ∧
      now.tick.tick.SameState now.tick ∧ now.tock.tock.SameState now.tock ∧
      now.eval.eval.SameState now.eval := by
  obtain ⟨draft, _, circuit, hstarted⟩ := exists_started h
  refine ⟨circuit, hstarted.ofComponent_eq, fun commands => ?_⟩
  have hready := hstarted.ready.performAll commands
  exact ⟨hready.sameState_tick, hready.sameState_tock, hready.values_tick,
    hready.sameState_tick_tick, hready.sameState_tock_tock,
    .of_eq (hready.eval.eval_eq_self hready.rested_eval.atRest)⟩

/-- For example, the edges of a toggler that has been clocked once and has latched again. -/
theorem edge_algebra_toggler :
    ∃ component circuit, Blueprint.toggler.build = .ok component ∧
      Circuit.ofComponent component = .ok circuit ∧
      (circuit.performAll [.drive .pulse, .rise]).tick.tick.SameState
        (circuit.performAll [.drive .pulse, .rise]).tick ∧
      (circuit.performAll [.drive .pulse, .rise]).fall.eval.SameState
        (circuit.performAll [.drive .pulse, .rise]).tock := by
  obtain ⟨component, hbuild, hstandard⟩ := Blueprint.exists_toggler
  obtain ⟨circuit, hcircuit, hall⟩ := edge_algebra hstandard
  obtain ⟨-, htock, -, htick, -⟩ := hall [.drive .pulse, .rise]
  exact ⟨component, circuit, hbuild, hcircuit, htick, htock⟩

end Circuit

end ClockedLogic
