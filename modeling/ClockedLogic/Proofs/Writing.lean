import ClockedLogic.Circuit.State
import ClockedLogic.Proofs.CascadeRun
import ClockedLogic.Proofs.Fabric
import ClockedLogic.Proofs.Halting
import ClockedLogic.Proofs.Storing

/-!
Giving a node a value. In a sane state all links hold, nodes that nothing sets have kept the bits
they started with, and every built in gate has a chip of its primitive. Giving a value to a node
that may be set leaves the state sane; the change spreads along links, and just the gates that
listen to a changed node become dirty.
-/

namespace ClockedLogic

def State.value (state : State) (node : Nat) : Word := state.signals.value node

def State.put (netlist : Netlist) (state : State) (node : Nat) (value : Word) : State :=
  { state with signals := state.signals.set netlist node value }

theorem State.put_value (netlist : Netlist) (state : State) (node : Nat) :
    state.put netlist node (state.value node) = state :=
  congrArg (fun signals => ({ state with signals := signals } : State)) (Signals.set_value _ _ _)

/-- What holds between any two events in a circuit. -/
structure Sane (root : Gate) (draft : Draft) (state : State) : Prop where
  values_size : state.signals.values.size = draft.netlist.size
  dirty_size : state.signals.dirty.size = root.all.length
  chips : ∀ site kind, .builtIn site (.primitive kind) ∈ root.all →
    ∃ chip, state.chip? site.index = some chip ∧ chip.Realizes kind
  holds : ∀ source link, draft.netlist.Leads source link → link.Holds source state.signals.values
  /-- Constants and unconnected bits. -/
  rest : ∀ node bit, ¬ draft.netlist.IsCopied node bit → ¬ root.Sets node →
    bitOf state.signals.values node bit = bitOf draft.values node bit

/-- What becomes of a state when one node is given a value. -/
structure Changes (root : Gate) (draft : Draft) (origin : Nat) (before after : State) : Prop where
  sane : Sane root draft after
  chips : after.chips = before.chips
  spread : ∀ node, after.value node ≠ before.value node → node = origin ∨ ∃ source link,
    draft.netlist.Leads source link ∧ link.target = node ∧ after.value source ≠ before.value source
  flags : ∀ index, after.isDirty index = true ↔ before.isDirty index = true ∨
    ∃ node, .gate index ∈ draft.netlist.listenersOf node ∧ after.value node ≠ before.value node

namespace Signals

theorem dirty_foldl_observe (events : List Event) (signals : Signals)
    (hmarks : ∀ gate, .mark gate ∈ events → gate < signals.dirty.size) :
    (events.foldl observe signals).dirty.size = signals.dirty.size ∧
      ∀ index, (events.foldl observe signals).dirty.contains index = true ↔
        signals.dirty.contains index = true ∨ .mark index ∈ events := by
  induction events generalizing signals with
  | nil => simp
  | cons event events ih =>
    rw [List.foldl_cons]
    cases event with
    | mark gate =>
      have hgate := hmarks gate List.mem_cons_self
      obtain ⟨hsize, hcontains⟩ := ih (observe signals (.mark gate)) fun other hother => by
        rw [observe, FlagSet.size_insert]
        exact hmarks other (List.mem_cons_of_mem _ hother)
      refine ⟨by rw [hsize, observe, FlagSet.size_insert], fun index => ?_⟩
      rw [hcontains, observe, FlagSet.contains_insert _ _ _ hgate]
      simp only [Bool.or_eq_true, decide_eq_true_eq, List.mem_cons, Event.mark.injEq, or_assoc]
    | change node value =>
      have hdirty : (observe signals (.change node value)).dirty = signals.dirty := by
        rw [observe]
        cases signals.probeName? node <;> rfl
      obtain ⟨hsize, hcontains⟩ := ih (observe signals (.change node value)) fun other hother => by
        rw [hdirty]
        exact hmarks other (List.mem_cons_of_mem _ hother)
      refine ⟨by rw [hsize, hdirty], fun index => ?_⟩
      rw [hcontains, hdirty]
      simp

theorem dirty_absorb {signals : Signals} {cascade : Cascade}
    (hmarks : ∀ gate, .mark gate ∈ cascade.events → gate < signals.dirty.size) :
    (signals.absorb cascade).dirty.size = signals.dirty.size ∧
      ∀ index, (signals.absorb cascade).dirty.contains index = true ↔
        signals.dirty.contains index = true ∨ .mark index ∈ cascade.events := by
  have h := dirty_foldl_observe cascade.eventList signals fun gate hgate =>
    hmarks gate (List.mem_reverse.mp hgate)
  simp only [Cascade.eventList, List.mem_reverse] at h
  exact h

/-- At the start just the nodes that are not 0 wait. -/
theorem mem_pending_cascadeAll {signals : Signals} {node : Nat} :
    node ∈ signals.cascadeAll.pending ↔ signals.values.getD node 0 ≠ 0 := by
  simp only [cascadeAll, List.mem_reverse, List.mem_filter, List.mem_range, bne_iff_ne]
  refine ⟨And.right, fun hne => ⟨?_, hne⟩⟩
  by_contra hge
  rw [Array.getD_eq_getD_getElem?, Array.getElem?_eq_none (Nat.le_of_not_lt hge)] at hne
  exact hne rfl

end Signals

variable {root : Gate} {draft : Draft} {state : State}

theorem Fabric.index_lt (fabric : Fabric root draft) {gate : Gate} (hgate : gate ∈ root.all) :
    gate.index < root.all.length := by
  have hmem : gate.index ∈ root.all.map Gate.index := List.mem_map_of_mem hgate
  rw [fabric.indices] at hmem
  exact List.mem_range.mp hmem

theorem Fabric.sets_lt (fabric : Fabric root draft) {node : Nat} (h : root.Sets node) :
    node < draft.netlist.size := by
  rcases h with hentry | ⟨site, chip, hgate, hout⟩
  · exact fabric.pins_lt root root.mem_all_self .input node hentry
  · exact fabric.pins_lt _ hgate .output node hout

theorem Changes.refl (hsane : Sane root draft state) (origin : Nat) :
    Changes root draft origin state state :=
  ⟨hsane, rfl, fun _ h => absurd rfl h, by simp⟩

theorem inStepNow_cascadeFrom (fabric : Fabric root draft) (hsane : Sane root draft state)
    {node : Nat} (hsets : root.Sets node) {value : Word} (hne : state.value node ≠ value) :
    Cascade.InStepNow draft.netlist state.signals.values
      (state.signals.values.setIfInBounds node value) (state.signals.cascadeFrom node value) :=
  Cascade.inStepNow_change hsane.values_size hsane.holds (fabric.sets_lt hsets)
    (fun bit => fabric.sets_not_copied node bit hsets) hne (by simp)

/-- A new value spreads along links until they all hold. -/
theorem spread_put (fabric : Fabric root draft) (hsane : Sane root draft state) {node : Nat}
    (hsets : root.Sets node) {value : Word} (hne : state.value node ≠ value) :
    ∃ last, (state.signals.cascadeFrom node value).EndsIn draft.netlist last ∧
      Cascade.Spread draft.netlist state.signals.values
        (state.signals.values.setIfInBounds node value) last ∧
      state.put draft.netlist node value = { state with signals := state.signals.absorb last } := by
  have hspread := Cascade.spread_finish fabric.tidy hsane.holds
    (inStepNow_cascadeFrom fabric hsane hsets hne) (by simp [Signals.cascadeFrom])
  refine ⟨_, ⟨hspread.ended, _, rfl⟩, hspread, ?_⟩
  rw [State.put, Signals.set, if_neg (show ¬ state.signals.value node = value from hne)]

theorem changes_absorb (fabric : Fabric root draft) (hsane : Sane root draft state) {node : Nat}
    (hsets : root.Sets node) {value : Word} {last : Cascade}
    (hspread : Cascade.Spread draft.netlist state.signals.values
      (state.signals.values.setIfInBounds node value) last) :
    Changes root draft node state { state with signals := state.signals.absorb last } := by
  have hbound : node < state.signals.values.size := by
    rw [hsane.values_size]
    exact fabric.sets_lt hsets
  have hvalues : (state.signals.absorb last).values = last.values := Signals.values_absorb _ _
  obtain ⟨hsize, hflags⟩ := @Signals.dirty_absorb state.signals last fun gate hmark => by
    obtain ⟨listened, hgate, -⟩ := (hspread.marks gate).mp hmark
    obtain ⟨found, hfound, rfl, -⟩ := (fabric.listens listened gate).mp hgate
    rw [hsane.dirty_size]
    exact fabric.index_lt hfound
  refine ⟨⟨?_, hsize.trans hsane.dirty_size, hsane.chips, ?_, ?_⟩, rfl, ?_, ?_⟩
  · exact (congrArg Array.size hvalues).trans hspread.size
  · intro source link hlink
    simp only [hvalues]
    exact hspread.holds source link hlink
  · intro other bit hcopied hother
    have hdiffers : node ≠ other := by
      intro hsame
      subst hsame
      exact hother hsets
    simp only [hvalues]
    rw [hspread.others other bit hcopied, bitOf, getD_setIfInBounds hbound, if_neg hdiffers]
    exact hsane.rest other bit hcopied hother
  · intro other hchanged
    simp only [State.value, Signals.value, hvalues] at hchanged ⊢
    rcases hspread.back hsane.holds hchanged with hstart | hback
    · left
      by_contra hne
      apply hstart
      rw [getD_setIfInBounds hbound, if_neg (Ne.symm hne)]
    · exact .inr hback
  · intro index
    simp only [State.isDirty, State.value, Signals.value, hvalues]
    rw [hflags, hspread.marks]

theorem changes_set (fabric : Fabric root draft) (hsane : Sane root draft state) {node : Nat}
    (hsets : root.Sets node) (value : Word) :
    Changes root draft node state (state.put draft.netlist node value) ∧
      (state.put draft.netlist node value).value node = value ∧
      ∀ rest after, (state.put draft.netlist node value).signals.Takes draft.netlist rest after →
        state.signals.Takes draft.netlist ((node, value) :: rest) after := by
  by_cases hsame : state.value node = value
  · have hput : state.put draft.netlist node value = state := by
      rw [← hsame]
      exact state.put_value _ _
    rw [hput]
    exact ⟨.refl hsane node, hsame, fun rest after hrest => .same hsame hrest⟩
  · obtain ⟨last, hends, hspread, hput⟩ := spread_put fabric hsane hsets hsame
    rw [hput]
    refine ⟨changes_absorb fabric hsane hsets hspread, ?_,
      fun rest after hrest => .change hsame hends hrest⟩
    show (state.signals.absorb last).values.getD node 0 = value
    rw [Signals.values_absorb]
    refine BitVec.eq_of_getLsbD_eq fun bit _ => ?_
    have hbit := hspread.others node bit (fabric.sets_not_copied node bit hsets)
    have hbound : node < state.signals.values.size := by
      rw [hsane.values_size]
      exact fabric.sets_lt hsets
    rw [bitOf, bitOf, getD_setIfInBounds hbound, if_pos rfl] at hbit
    exact hbit

/-- A change of one node leaves all other nodes that may be set as they are. -/
theorem Changes.value_eq (fabric : Fabric root draft) {origin : Nat} {after : State}
    (h : Changes root draft origin state after) {node : Nat} (hsets : root.Sets node)
    (hne : node ≠ origin) : after.value node = state.value node := by
  by_contra hchanged
  rcases h.spread node hchanged with hsame | ⟨source, link, hlink, rfl, -⟩
  · exact hne hsame
  · exact fabric.sets_not_copied _ link.targetBits.low hsets
      ⟨source, link, hlink, rfl, Nat.le_refl _, link.targetBits.low_le_high⟩

end ClockedLogic
