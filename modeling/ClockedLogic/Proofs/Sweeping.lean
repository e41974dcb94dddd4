import ClockedLogic.Proofs.Refreshing

/-!
Sweeping over the parts of a gate. Every refreshed gate is calm afterwards, whatever order its
parts come in, and as many sweeps as there are nodes are always enough: the number of sweeps that
is allowed does not matter beyond that.
-/

namespace ClockedLogic

/-- How many sweeps over its parts a gate can need at most. -/
def Draft.sweepBound (draft : Draft) : Nat := draft.netlist.size + 2

/-- What becomes of a state when nothing that is evaluated gives a node a new value. -/
structure Quiet (before after : State) : Prop where
  values : after.signals.values = before.signals.values
  chips : after.chips = before.chips
  flags : ∀ index, after.isDirty index = true → before.isDirty index = true

namespace Quiet

variable {before middle after : State}

theorem refl (state : State) : Quiet state state := ⟨rfl, rfl, fun _ h => h⟩

theorem trans (h : Quiet before middle) (h' : Quiet middle after) : Quiet before after :=
  ⟨h'.values.trans h.values, h'.chips.trans h.chips,
    fun index hdirty => h.flags index (h'.flags index hdirty)⟩

theorem clean (state : State) (index : Nat) : Quiet state (state.clean index) where
  values := rfl
  chips := rfl
  flags gate h := by
    rw [State.isDirty_clean, Bool.and_eq_true] at h
    exact h.1

theorem isDirty_eq_false (h : Quiet before after) {index : Nat}
    (hclean : before.isDirty index = false) :
    after.isDirty index = false := by
  rw [Bool.eq_false_iff]
  intro hdirty
  rw [h.flags index hdirty] at hclean
  cases hclean

theorem settled (h : Quiet before after) {site : Site} (hsettled : before.Settled site) :
    after.Settled site := by
  intro chip hchip
  have hvalue : ∀ node, after.value node = before.value node := by
    intro node
    rw [State.value, Signals.value, h.values]
    rfl
  rw [State.read_congr fun node _ => hvalue node, State.read_congr fun node _ => hvalue node]
  apply hsettled chip
  rw [State.chip?, ← h.chips]
  exact hchip

end Quiet

theorem State.write_read (netlist : Netlist) (state : State) (nodes : List Nat) :
    state.write netlist nodes (state.read nodes) = state := by
  induction nodes with
  | nil => simp [write, Signals.setAll]
  | cons node nodes ih =>
    rw [read, List.map_cons, write_cons, ← value, put_value]
    exact ih

/-- A settled gate has nothing to say. -/
theorem State.Settled.respond_eq {state : State} {site : Site} (h : state.Settled site)
    (netlist : Netlist) : state.respond netlist site = state := by
  unfold State.respond
  split
  · rename_i chip hchip
    rw [h chip hchip, State.write_read]
  · rfl

theorem State.isDirty_clean_self (state : State) (index : Nat) :
    (state.clean index).isDirty index = false := by
  rw [isDirty_clean, decide_eq_false (by simp), Bool.and_false]

/-- Whether bringing a gate up to date is quiet once all built in gates inside are settled. -/
def Gate.RestsWhenSettled (netlist : Netlist) (limit : Nat) (gate : Gate) : Prop :=
  ∀ state : State, (∀ site chip, .builtIn site chip ∈ gate.all → state.Settled site) →
    Quiet state (gate.refresh netlist limit state) ∧
      (gate.refresh netlist limit state).isDirty gate.index = false

/-- One sweep over gates that rest leaves them clean. -/
theorem quiet_evalAll {netlist : Netlist} {limit : Nat} {gates : List Gate}
    (hrests : ∀ gate ∈ gates, gate.RestsWhenSettled netlist limit) {state : State}
    (hsettled : ∀ site chip, .builtIn site chip ∈ Gate.allOf gates → state.Settled site) :
    Quiet state (Gate.evalAll netlist limit gates state) ∧
      ∀ gate ∈ gates, (Gate.evalAll netlist limit gates state).isDirty gate.index = false := by
  induction gates generalizing state with
  | nil =>
    unfold Gate.evalAll
    exact ⟨.refl state, fun _ h => by cases h⟩
  | cons gate gates ih =>
    unfold Gate.evalAll
    have hfirst : Quiet state (if state.isDirty gate.index then gate.refresh netlist limit state
          else state) ∧
        (if state.isDirty gate.index then gate.refresh netlist limit state
          else state).isDirty gate.index = false := by
      split
      · exact hrests gate List.mem_cons_self state fun site chip hgate =>
          hsettled site chip (List.mem_append_left _ hgate)
      · rename_i hclean
        exact ⟨.refl state, Bool.eq_false_iff.mpr hclean⟩
    generalize (if state.isDirty gate.index then gate.refresh netlist limit state else state) = next
      at hfirst
    obtain ⟨hquiet, hclean⟩ := hfirst
    obtain ⟨hrest, hrestClean⟩ :=
      @ih (fun other hother => hrests other (List.mem_cons_of_mem _ hother))
      next fun site chip hgate =>
        hquiet.settled (hsettled site chip (List.mem_append_right _ hgate))
    refine ⟨hquiet.trans hrest, fun other hother => ?_⟩
    rcases List.mem_cons.mp hother with rfl | hother
    · exact hrest.isDirty_eq_false hclean
    · exact hrestClean other hother

/-- Bringing a gate up to date in which all built in gates are settled changes no value. -/
theorem quiet_refresh (netlist : Netlist) {limit : Nat} (hlimit : 1 ≤ limit) (gate : Gate) :
    gate.RestsWhenSettled netlist limit := by
  induction gate using Gate.inductionOn with
  | builtIn site chip =>
    intro state hsettled
    have hthis := (Quiet.clean state site.index).settled (hsettled site chip (Gate.mem_all_self _))
    rw [Gate.refresh, hthis.respond_eq]
    exact ⟨.clean _ _, state.isDirty_clean_self site.index⟩
  | composite site internals parts ih =>
    intro state hsettled
    obtain ⟨room, rfl⟩ := Nat.exists_eq_add_of_le' hlimit
    obtain ⟨hquiet, hclean⟩ := @quiet_evalAll _ _ _ ih (state.clean site.index)
      fun site' chip hgate => (Quiet.clean state site.index).settled
        (hsettled site' chip (List.mem_append_left _ hgate))
    have hdone : Gate.allClean parts (Gate.evalAll netlist (room + 1) parts
        (state.clean site.index)) = true := by
      simp only [Gate.allClean, List.all_eq_true, Bool.not_eq_true']
      exact hclean
    unfold Gate.refresh sweepUntil
    simp only [hdone, if_true]
    exact ⟨(Quiet.clean _ _).trans hquiet, hquiet.isDirty_eq_false (state.isDirty_clean_self _)⟩

/-- Sweeps that are done after a bound come to their end. -/
theorem sweeps_sweepUntil {netlist : Netlist} {gates : List Gate} {sweep : State → State}
    {inv : Nat → State → Prop} {bound : Nat}
    (hstep : ∀ swept state, inv swept state →
      inv (swept + 1) (sweep state) ∧ EvaluatesAll netlist gates state (sweep state))
    (hdone : ∀ swept state, bound ≤ swept → inv swept state →
      Gate.allClean gates (sweep state) = true)
    {swept limit : Nat} {state : State} (h : inv swept state) (hle : swept ≤ bound)
    (hlimit : bound < limit + swept) :
    Sweeps netlist gates state (sweepUntil sweep (Gate.allClean gates) limit state) ∧
      Gate.allClean gates (sweepUntil sweep (Gate.allClean gates) limit state) = true ∧
      ∃ swept, inv (swept + 1) (sweepUntil sweep (Gate.allClean gates) limit state) := by
  induction limit generalizing swept state with
  | zero => omega
  | succ limit ih =>
    obtain ⟨hnext, hall⟩ := hstep swept state h
    unfold sweepUntil
    by_cases hend : Gate.allClean gates (sweep state) = true
    · simp only [hend, if_true]
      exact ⟨.last hall hend, trivial, swept, hnext⟩
    · have hlt : swept < bound := by
        by_contra hge
        exact hend (hdone swept state (Nat.le_of_not_lt hge) h)
      simp only [hend, Bool.false_eq_true, if_false]
      obtain ⟨hsweeps, hclean, hlast⟩ := ih hnext hlt (by omega)
      exact ⟨.again hall (Bool.eq_false_iff.mpr hend) hsweeps, hclean, hlast⟩

end ClockedLogic
