import ClockedLogic.Proofs.Evaluating

/-!
Between commands a circuit is sound: its state is sane, and every gate that is not dirty is calm.
In a sound state any gate can be brought up to date, for a gate around a dirty one is dirty too. A
gate at rest, with nothing dirty inside, does not change when it is brought up to date.
-/

namespace ClockedLogic

/-- What holds of the state of a circuit between any two commands. -/
structure Sound (root : Gate) (draft : Draft) (state : State) : Prop where
  sane : Sane root draft state
  honest : Honest root (fun _ => False) state

/-- Whether no gate inside a gate is dirty, and all are calm. -/
def State.AtRest (state : State) (gate : Gate) : Prop :=
  ∀ inner ∈ gate.all, state.isDirty inner.index = false ∧ state.Calm inner

variable {root : Gate} {draft : Draft} {level : Nat → Nat} {state : State} {gate : Gate}

theorem State.clean_eq_self {index : Nat} (h : state.isDirty index = false) :
    state.clean index = state := by
  rw [clean, FlagSet.erase_eq_self h]

theorem State.AtRest.inside (h : state.AtRest gate) {inner : Gate} (hinner : inner ∈ gate.all) :
    state.AtRest inner := fun _ hfound => h _ (Gate.mem_all_trans hfound hinner)

/-- In a sound state a gate that is not dirty is at rest. -/
theorem Sound.atRest (h : Sound root draft state) (hgate : gate ∈ root.all)
    (hclean : state.isDirty gate.index = false) : state.AtRest gate :=
  h.honest.calm_inside hgate (fun _ _ => id) hclean

theorem Sound.around (h : Sound root draft state) (hdirty : state.isDirty gate.index = true) :
    Around root (fun _ => False) state gate := by
  intro outer houter hinner
  refine .inr (.inr ?_)
  rw [← Bool.not_eq_false]
  intro hclean
  rw [(h.atRest houter hclean gate hinner).1] at hdirty
  cases hdirty

theorem Signals.takes_read (netlist : Netlist) (state : State) (nodes : List Nat) :
    state.signals.Takes netlist (nodes.zip (state.read nodes)) state.signals := by
  induction nodes with
  | nil => exact .nil
  | cons node nodes ih => exact .same rfl ih

/-- Sweeping over gates at rest changes nothing. -/
theorem evalAll_atRest (netlist : Netlist) (limit : Nat) {gates : List Gate}
    (hrest : ∀ gate ∈ gates, state.isDirty gate.index = false) :
    Gate.evalAll netlist limit gates state = state ∧ EvaluatesAll netlist gates state state := by
  induction gates with
  | nil => exact ⟨by rw [Gate.evalAll], .nil⟩
  | cons gate gates ih =>
    have hclean := hrest gate List.mem_cons_self
    obtain ⟨hsame, hall⟩ := ih fun other hother => hrest other (List.mem_cons_of_mem _ hother)
    rw [Gate.evalAll, hclean, if_neg Bool.false_ne_true, hsame]
    exact ⟨rfl, .clean hclean hall⟩

/-- Bringing a gate at rest up to date changes nothing. -/
theorem refresh_atRest (fabric : Fabric root draft) (hsane : Sane root draft state) {limit : Nat}
    (hlimit : 1 ≤ limit) (hgate : gate ∈ root.all) (hrest : state.AtRest gate) :
    gate.refresh draft.netlist limit state = state ∧ Refreshes draft.netlist gate state state := by
  obtain ⟨hclean, hcalm⟩ := hrest gate gate.mem_all_self
  cases gate with
  | builtIn site spec =>
    obtain ⟨kind, rfl, -⟩ := fabric.builtIns _ _ hgate
    obtain ⟨chip, hchip, -⟩ := hsane.chips _ _ hgate
    have hcleaned : state.clean site.index = state := State.clean_eq_self hclean
    have htakes := Signals.takes_read draft.netlist state site.outputs
    rw [← hcalm chip hchip] at htakes
    rw [Gate.refresh, hcleaned, State.Settled.respond_eq hcalm]
    refine ⟨rfl, .builtIn hchip ?_⟩
    rw [hcleaned]
    exact htakes
  | composite site internals parts =>
    have hcleaned : state.clean site.index = state := State.clean_eq_self hclean
    obtain ⟨hsame, hall⟩ := evalAll_atRest draft.netlist limit hcalm
    have hdone : Gate.allClean parts state = true := by
      simp only [Gate.allClean, List.all_eq_true, Bool.not_eq_true']
      exact hcalm
    obtain ⟨room, rfl⟩ := Nat.exists_eq_add_of_le' hlimit
    rw [Gate.refresh, hcleaned, sweepUntil]
    simp only [hsame, hdone, if_true]
    refine ⟨trivial, .composite ?_⟩
    rw [hcleaned]
    exact .last hall hdone

theorem Sound.refresh (h : Sound root draft state) (fabric : Fabric root draft)
    (hlevel : Leveled root draft.netlist level) {limit : Nat} (hlimit : draft.sweepBound ≤ limit)
    (hgate : gate ∈ root.all) :
    Refreshed root draft level (fun _ => False) (· ∈ gate.all) 1 state
        (gate.refresh draft.netlist limit state) ∧
      ((gate.refresh draft.netlist limit state).isDirty root.index = true →
        (state.clean gate.index).isDirty root.index = true) ∧
      Refreshes draft.netlist gate state (gate.refresh draft.netlist limit state) := by
  cases hdirty : state.isDirty gate.index with
  | true =>
    exact canRefresh fabric hlevel hlimit hgate _ state h.sane h.honest (fun _ _ => id)
      (h.around hdirty)
  | false =>
    have hpositive : 1 ≤ limit := by
      unfold Draft.sweepBound at hlimit
      omega
    obtain ⟨hsame, hrefreshes⟩ :=
      refresh_atRest fabric h.sane hpositive hgate (h.atRest hgate hdirty)
    rw [hsame]
    refine ⟨.of_clean fabric h.sane h.honest hgate (fun _ _ => id) hdirty, fun hroot => ?_,
      hrefreshes⟩
    rwa [State.clean_eq_self hdirty]

theorem Refreshed.sound {inside : Gate → Prop} {times : Nat} {after : State}
    (h : Refreshed root draft level (fun _ => False) inside times state after) :
    Sound root draft after := ⟨h.moves.sane, h.honest⟩

/-- Nothing that is evaluated gives values to the inputs of the circuit. -/
theorem Moves.entries (fabric : Fabric root draft) {inside : Gate → Prop} {after : State}
    (hinside : ∀ gate, inside gate → gate ∈ root.all)
    (h : Moves root draft level inside state after) {node : Nat} (hnode : node ∈ root.inputs) :
    after.value node = state.value node :=
  h.frame node (.inl hnode) fun site spec hgate hout =>
    fabric.entries_apart site spec node (hinside _ hgate) hout hnode

structure Rested (root : Gate) (draft : Draft) (before after : State) : Prop where
  sound : Sound root draft after
  atRest : after.AtRest root
  chips : after.chips = before.chips
  entries : ∀ node ∈ root.inputs, after.value node = before.value node

/-- Bringing the whole circuit up to date leaves it at rest. -/
theorem Sound.rested_refresh (h : Sound root draft state) (fabric : Fabric root draft) {limit : Nat}
    (hlimit : draft.sweepBound ≤ limit) :
    Rested root draft state (root.refresh draft.netlist limit state) ∧
      Refreshes draft.netlist root state (root.refresh draft.netlist limit state) := by
  obtain ⟨level, hlevel⟩ := fabric.levels
  obtain ⟨hrefreshed, hroot, hrefreshes⟩ := h.refresh fabric hlevel hlimit root.mem_all_self
  refine ⟨⟨hrefreshed.sound, ?_, hrefreshed.moves.chips, fun node hnode => ?_⟩, hrefreshes⟩
  · refine hrefreshed.sound.atRest root.mem_all_self (Bool.eq_false_iff.mpr fun hdirty => ?_)
    have hcleaned := hroot hdirty
    rw [state.isDirty_clean_self] at hcleaned
    cases hcleaned
  · exact hrefreshed.moves.entries fabric (fun _ hgate => hgate) hnode

theorem Sound.eval (h : Sound root draft state) (fabric : Fabric root draft)
    (hlevel : Leveled root draft.netlist level) {limit : Nat} (hlimit : draft.sweepBound ≤ limit)
    (hgate : gate ∈ root.all) :
    Refreshed root draft level (fun _ => False) (· ∈ gate.all) 1 state
        (gate.eval draft.netlist limit state) ∧
      Evaluates draft.netlist gate state (gate.eval draft.netlist limit state) := by
  unfold Gate.eval
  split
  · rename_i hdirty
    obtain ⟨hrefreshed, -, hrefreshes⟩ := h.refresh fabric hlevel hlimit hgate
    exact ⟨hrefreshed, .dirty hdirty hrefreshes .nil⟩
  · rename_i hdirty
    have hclean := Bool.eq_false_iff.mpr hdirty
    exact ⟨.of_clean fabric h.sane h.honest hgate (fun _ _ => id) hclean, .clean hclean .nil⟩

theorem Sound.rested_eval (h : Sound root draft state) (fabric : Fabric root draft) {limit : Nat}
    (hlimit : draft.sweepBound ≤ limit) :
    Rested root draft state (root.eval draft.netlist limit state) := by
  unfold Gate.eval
  split
  · exact (h.rested_refresh fabric hlimit).1
  · rename_i hdirty
    exact ⟨h, h.atRest root.mem_all_self (Bool.eq_false_iff.mpr hdirty), rfl, fun _ _ => rfl⟩

/-- Giving an input of the circuit a value keeps a state honest, whatever gates are open: no built in
gate drives an input. -/
theorem Sane.put_input (h : Sane root draft state) (fabric : Fabric root draft)
    {opened : Nat → Prop} (hhonest : Honest root opened state) {node : Nat}
    (hnode : node ∈ root.inputs) (value : Word) :
    Sane root draft (state.put draft.netlist node value) ∧
      Honest root opened (state.put draft.netlist node value) := by
  obtain ⟨hchanges, -⟩ := changes_set fabric h (.inl hnode) value
  exact ⟨hchanges.sane, hhonest.changes fabric (.inl hnode) hchanges fun site spec hgate hout =>
    absurd hnode (fabric.entries_apart site spec node hgate hout)⟩

section Log

variable {after : State}

theorem State.Calm.congr (h : state.Calm gate)
    (hvalues : after.signals.values = state.signals.values)
    (hdirty : after.signals.dirty = state.signals.dirty) (hchips : after.chips = state.chips) :
    after.Calm gate := by
  obtain ⟨⟨values, dirty, probes, log⟩, chips⟩ := state
  obtain ⟨⟨_, _, probes', log'⟩, _⟩ := after
  cases hvalues
  cases hdirty
  cases hchips
  cases gate <;> exact h

/-- A gate is at rest whatever has been logged. -/
theorem State.AtRest.congr (h : state.AtRest gate)
    (hvalues : after.signals.values = state.signals.values)
    (hdirty : after.signals.dirty = state.signals.dirty) (hchips : after.chips = state.chips) :
    after.AtRest gate := by
  intro inner hinner
  obtain ⟨hclean, hcalm⟩ := h inner hinner
  refine ⟨?_, hcalm.congr hvalues hdirty hchips⟩
  rw [isDirty, hdirty]
  exact hclean

theorem Sane.congr (h : Sane root draft state)
    (hvalues : after.signals.values = state.signals.values)
    (hdirty : after.signals.dirty = state.signals.dirty) (hchips : after.chips = state.chips) :
    Sane root draft after where
  values_size := by rw [hvalues]; exact h.values_size
  dirty_size := by rw [hdirty]; exact h.dirty_size
  chips site kind hgate := by
    rw [State.chip?, hchips]
    exact h.chips site kind hgate
  holds := by rw [hvalues]; exact h.holds
  rest := by rw [hvalues]; exact h.rest

theorem Honest.congr {opened : Nat → Prop} (h : Honest root opened state)
    (hvalues : after.signals.values = state.signals.values)
    (hdirty : after.signals.dirty = state.signals.dirty) (hchips : after.chips = state.chips) :
    Honest root opened after := by
  intro inner hinner hopened hclean
  rw [State.isDirty, hdirty] at hclean
  exact (h inner hinner hopened hclean).congr hvalues hdirty hchips

end Log

end ClockedLogic
