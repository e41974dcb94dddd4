import ClockedLogic.Proofs.SingleEdges

/-!
What is logged makes no difference. A state without probes and without a log goes through an
evaluation or a clock edge as the state itself does, so circuits that differ only in what they have
logged have the same values, the same dirty gates and the same chips after every step.
-/

namespace ClockedLogic

def Signals.mute (signals : Signals) : Signals := { signals with probes := [], log := [] }

def State.mute (state : State) : State := { state with signals := state.signals.mute }

namespace Signals

theorem mute_observe (signals : Signals) (event : Event) :
    (signals.observe event).mute = signals.mute.observe event := by
  cases event with
  | mark gate => rfl
  | change node value =>
    simp only [observe]
    split <;> rfl

theorem mute_foldl {α : Type} {step : Signals → α → Signals}
    (hstep : ∀ signals item, (step signals item).mute = step signals.mute item) (items : List α)
    (signals : Signals) : (items.foldl step signals).mute = items.foldl step signals.mute :=
  (List.foldl_hom mute fun signals item => (hstep signals item).symm).symm

theorem mute_absorb (signals : Signals) (cascade : Cascade) :
    (signals.absorb cascade).mute = signals.mute.absorb cascade := by
  have hevents := mute_foldl mute_observe cascade.eventList signals
  simp only [absorb, ← hevents]
  rfl

theorem mute_set (netlist : Netlist) (signals : Signals) (node : Nat) (value : Word) :
    (signals.set netlist node value).mute = signals.mute.set netlist node value := by
  have hvalue : signals.mute.value node = signals.value node := rfl
  simp only [set, hvalue]
  split
  · rfl
  · exact signals.mute_absorb _

theorem mute_setAll (netlist : Netlist) (signals : Signals) (nodes : List Nat)
    (values : List Word) :
    (signals.setAll netlist nodes values).mute = signals.mute.setAll netlist nodes values :=
  mute_foldl (fun signals entry => mute_set netlist signals entry.1 entry.2) _ signals

end Signals

namespace State

variable (netlist : Netlist) (state : State) (site : Site)

theorem mute_respond : (state.respond netlist site).mute = state.mute.respond netlist site := by
  have hchip : state.mute.chip? site.index = state.chip? site.index := rfl
  simp only [respond, hchip]
  split
  · exact congrArg (mk · state.chips) (state.signals.mute_setAll netlist _ _)
  · rfl

theorem mute_latch : (state.latch site).mute = state.mute.latch site := by
  have hchip : state.mute.chip? site.index = state.chip? site.index := rfl
  simp only [latch, hchip]
  split <;> rfl

theorem mute_commit : (state.commit netlist site).mute = state.mute.commit netlist site := by
  have hchip : state.mute.chip? site.index = state.chip? site.index := rfl
  simp only [commit, hchip]
  split
  · exact congrArg (fun signals => (mk signals _).soil site.index)
      (state.signals.mute_setAll netlist _ _)
  · rfl

end State

section

variable {step : State → State} {isDone : State → Bool}

theorem mute_sweepUntil (hstep : ∀ state, (step state).mute = step state.mute)
    (hdone : ∀ state : State, isDone state.mute = isDone state) (limit : Nat) (state : State) :
    (sweepUntil step isDone limit state).mute = sweepUntil step isDone limit state.mute := by
  induction limit generalizing state with
  | zero => rfl
  | succ limit ih =>
    simp only [sweepUntil, ← hstep, hdone]
    split
    · rfl
    · exact ih _

end

namespace Gate

variable (netlist : Netlist) (limit : Nat)

theorem mute_foldl {gates : List Gate} {step : State → Gate → State}
    (hstep : ∀ gate ∈ gates, ∀ state : State, (step state gate).mute = step state.mute gate)
    (state : State) : (gates.foldl step state).mute = gates.foldl step state.mute := by
  induction gates generalizing state with
  | nil => rfl
  | cons gate gates ih =>
    rw [List.foldl_cons, List.foldl_cons, ← hstep gate List.mem_cons_self]
    exact ih (fun other hother => hstep other (List.mem_cons_of_mem _ hother)) _

theorem mute_refresh (gate : Gate) (state : State) :
    (gate.refresh netlist limit state).mute = gate.refresh netlist limit state.mute := by
  induction gate using Gate.inductionOn generalizing state with
  | builtIn site spec =>
    rw [refresh, refresh]
    exact State.mute_respond netlist (state.clean site.index) site
  | composite site internals parts ih =>
    rw [refresh, refresh]
    refine mute_sweepUntil (fun state => ?_) (fun _ => rfl) limit _
    rw [evalAll_eq_foldl, evalAll_eq_foldl]
    refine mute_foldl (fun part hpart state => ?_) state
    have hdirty : state.mute.isDirty part.index = state.isDirty part.index := rfl
    rw [Gate.eval, Gate.eval, hdirty]
    split
    · exact ih part hpart state
    · rfl

theorem mute_rise (gate : Gate) (state : State) :
    (gate.rise netlist limit state).mute = gate.rise netlist limit state.mute := by
  induction gate using Gate.inductionOn generalizing state with
  | builtIn site spec =>
    rw [rise, rise]
    split
    · exact State.mute_latch state site
    · rfl
  | composite site internals parts ih =>
    rw [rise, rise]
    split
    · rw [tickAll_eq_foldl, tickAll_eq_foldl]
      refine mute_foldl (fun part hpart state => ?_) state
      rw [Gate.tick, Gate.tick, ih part hpart, mute_refresh]
    · rfl

theorem mute_fall (gate : Gate) (state : State) :
    (gate.fall netlist limit state).mute = gate.fall netlist limit state.mute := by
  induction gate using Gate.inductionOn generalizing state with
  | builtIn site spec =>
    rw [fall, fall]
    split
    · exact State.mute_commit netlist state site
    · rfl
  | composite site internals parts ih =>
    rw [fall, fall]
    split
    · rw [tockAll_eq_foldl, tockAll_eq_foldl]
      refine congrArg (State.soil · site.index) (mute_foldl (fun part hpart state => ?_) state)
      rw [Gate.tock, Gate.tock, mute_refresh, ih part hpart]
    · rfl

end Gate

namespace Circuit

/-- Whether two circuits agree in the values of all nodes, in which gates are dirty and in all
chips, whatever they have logged. -/
structure SameState (circuit other : Circuit) : Prop where
  values : circuit.state.signals.values = other.state.signals.values
  dirty : circuit.state.signals.dirty = other.state.signals.dirty
  chips : circuit.state.chips = other.state.chips

variable {root : Gate} {draft : Draft} {circuit other third : Circuit}

theorem sameState_iff_mute_eq :
    circuit.SameState other ↔ circuit.state.mute = other.state.mute := by
  constructor
  · intro h
    rw [State.mute, State.mute, Signals.mute, Signals.mute, h.values, h.dirty, h.chips]
  · intro h
    simp only [State.mute, Signals.mute, State.mk.injEq, Signals.mk.injEq, and_true] at h
    exact ⟨h.1.1, h.1.2, h.2⟩

namespace SameState

theorem refl (circuit : Circuit) : circuit.SameState circuit := ⟨rfl, rfl, rfl⟩

theorem of_eq (h : circuit = other) : circuit.SameState other := h ▸ refl circuit

theorem symm (h : circuit.SameState other) : other.SameState circuit :=
  ⟨h.values.symm, h.dirty.symm, h.chips.symm⟩

theorem trans (h : circuit.SameState other) (h' : other.SameState third) :
    circuit.SameState third :=
  ⟨h.values.trans h'.values, h.dirty.trans h'.dirty, h.chips.trans h'.chips⟩

theorem note (circuit : Circuit) (record : Record) : (circuit.note record).SameState circuit :=
  ⟨rfl, rfl, rfl⟩

/-- What a function of the state does to circuits that differ in their logs only. -/
theorem update (h : circuit.SameState other) {f : State → State}
    (hf : ∀ state, (f state).mute = f state.mute) :
    (circuit.update f).SameState (other.update f) := by
  rw [sameState_iff_mute_eq] at h ⊢
  simp only [Circuit.update, hf, h]

variable (hready : Ready root draft circuit) (hother : Ready root draft other)
include hready hother

theorem refreshed (h : circuit.SameState other) : circuit.refreshed.SameState other.refreshed := by
  simp only [Circuit.refreshed, sweepLimit, hready.root_eq, hready.netlist_eq, hother.root_eq,
    hother.netlist_eq]
  exact h.update (Gate.mute_refresh _ _ root)

theorem rise (h : circuit.SameState other) : circuit.rise.SameState other.rise := by
  simp only [Circuit.rise, sweepLimit, hready.root_eq, hready.netlist_eq, hother.root_eq,
    hother.netlist_eq]
  exact h.update (Gate.mute_rise _ _ root)

theorem fall (h : circuit.SameState other) : circuit.fall.SameState other.fall := by
  simp only [Circuit.fall, sweepLimit, hready.root_eq, hready.netlist_eq, hother.root_eq,
    hother.netlist_eq]
  exact h.update (Gate.mute_fall _ _ root)

end SameState

end Circuit

end ClockedLogic
