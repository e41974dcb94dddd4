import ClockedLogic.Proofs.Fabric
import ClockedLogic.Proofs.Halting
import ClockedLogic.Proofs.WireEnds

/-!
Links cannot run in circles, whatever has been placed and whichever of its pins are clocked. What
comes out of a component follows what comes out of its parts and nothing else, so a link into an
output or an internal pin comes from inside; and what goes into a part only goes further in. So the
nodes have levels that all links raise, and a cascade ends whatever values the nodes have: a node
that is taken leaves only nodes of higher levels on the stack.
-/

namespace ClockedLogic

open Component

def Copies (drivers : Driver → Prop) (source target : Nat) : Prop :=
  ∃ bits targetBits, drivers (.statement (.link source bits target targetBits))

/-- Whether all links that lead to a node start somewhere. -/
abbrev Rooted (drivers : Driver → Prop) (node : Nat) : Prop := Acc (Copies drivers) node

section

variable {drivers : Driver → Prop} {entries : Nat → Prop} {sharing : Bool} {component : Component}
  {inputs outputs : List Nat} {cursor : Cursor}

theorem Follows.rooted {node : Nat} (h : Follows drivers entries node (Rooted drivers)) :
    Rooted drivers node := by
  rcases h with hroot | ⟨-, hdrivers⟩
  · exact hroot
  · refine .intro node fun source hcopies => ?_
    obtain ⟨bits, targetBits, hlink⟩ := hcopies
    exact hdrivers _ hlink rfl

/-- What comes out of a component has no links into it that do not start inside. -/
theorem Spot.rooted_driven (h : Spot drivers entries sharing component inputs outputs cursor)
    {role : PinRole} (hrole : role ≠ .input) :
    ∀ node ∈ (place sharing component inputs outputs cursor).result.nodesOf role,
      Rooted drivers node := by
  induction component using Component.inductionOn generalizing inputs outputs cursor role with
  | builtIn interface chip =>
    intro node hnode
    have hout : node ∈ outputs := by
      rw [place] at hnode
      cases role with
      | input => exact absurd rfl hrole
      | output => exact hnode
      | internal => cases hnode
    refine .intro node fun source hcopies => ?_
    obtain ⟨bits, targetBits, hlink⟩ := hcopies
    have hhas := h.owned.has _ node hlink rfl (.inr (by rwa [(isPlaced _ _ _ _ _).outputs_eq]))
    cases (has_builtIn hhas rfl).1
  | composite interface internals parts dependencies ih =>
    intro node hnode
    obtain ⟨index, hindex⟩ := List.mem_iff_getElem?.mp hnode
    rw [nodesOf_place_composite, ← Scope.node?_pin] at hindex
    refine (follows_pin h.fitted_parts h.fitting h.seat h.owned hrole hindex ?_).rooted
    intro placed hplaced wire _ _ _ other hother
    obtain ⟨hmem, hmade, -⟩ := mem_placeEach hplaced
    apply ih placed.part hmem (h.part hplaced) (show PinRole.output ≠ .input by simp)
    rw [← hmade.gate_eq, Gate.nodesOf, hmade.isPlaced.outputs_eq]
    exact List.mem_of_getElem? hother

/-- If the inputs of a component start somewhere, so do all pins inside. -/
theorem Spot.rooted_pins (h : Spot drivers entries sharing component inputs outputs cursor)
    (hinputs : ∀ node ∈ inputs, Rooted drivers node) :
    ∀ gate ∈ (place sharing component inputs outputs cursor).result.all,
      ∀ role, ∀ node ∈ gate.nodesOf role, Rooted drivers node := by
  have hself : ∀ role, ∀ node ∈ (place sharing component inputs outputs cursor).result.nodesOf role,
      Rooted drivers node := by
    intro role node hnode
    by_cases hrole : role = .input
    · subst hrole
      rw [Gate.nodesOf, (isPlaced _ _ _ _ _).inputs_eq] at hnode
      exact hinputs node hnode
    · exact h.rooted_driven hrole node hnode
  induction component using Component.inductionOn generalizing inputs outputs cursor with
  | builtIn interface chip =>
    intro gate hgate
    rw [place] at hself hgate
    rw [Gate.all, List.mem_singleton] at hgate
    rw [hgate]
    exact hself
  | composite interface internals parts dependencies ih =>
    intro gate hgate
    rcases mem_all_place_composite.mp hgate with rfl | ⟨placed, hplaced, hinner⟩
    · exact hself
    · obtain ⟨hmem, hmade, -⟩ := mem_placeEach hplaced
      have hspot := h.part hplaced
      have hpartInputs : ∀ node ∈ placed.inputs.result, Rooted drivers node := by
        intro node hnode
        obtain ⟨position, hposition⟩ := List.mem_iff_getElem?.mp hnode
        refine (follows_input h.fitted_parts h.fitting h.seat h.owned hplaced hposition ?_).rooted
        intro wire hwire hwireRole _ other hother
        obtain ⟨role, index, -, howner⟩ :=
          (h.fitting.fits _ hmem _ hwire).reads hwireRole hother
        rw [howner, Scope.node?_pin, ← nodesOf_place_composite] at hother
        exact hself role other (List.mem_of_getElem? hother)
      rw [hmade.gate_eq] at hinner
      refine ih placed.part hmem hspot hpartInputs (fun role node hnode => ?_) gate hinner
      by_cases hrole : role = .input
      · subst hrole
        rw [Gate.nodesOf, (isPlaced _ _ _ _ _).inputs_eq] at hnode
        exact hpartInputs node hnode
      · exact hspot.rooted_driven hrole node hnode

end

namespace Component

variable {sharing : Bool} {component : Component}

/-- A component that is placed on its own is at its place. -/
theorem spot_rootPlaced (sharing : Bool) (h : Fitted component) :
    Spot (component.rootPlaced sharing).Has (· ∈ (component.rootPlaced sharing).result.inputs)
      sharing component (List.range component.inputs.length)
      ((List.range component.outputs.length).map (component.inputs.length + ·))
      ⟨component.inputs.length + component.outputs.length, 0⟩ :=
  ⟨h, root_seat, root_owned, fun _ _ hdriver _ => hdriver⟩

theorem rooted (sharing : Bool) (h : Fitted component) (node : Nat) :
    Rooted (component.rootPlaced sharing).Has node := by
  have hentries : ∀ entry ∈ List.range component.inputs.length,
      Rooted (component.rootPlaced sharing).Has entry := by
    intro entry hentry
    refine .intro entry fun source hcopies => ?_
    obtain ⟨bits, targetBits, hlink⟩ := hcopies
    have hnot := not_entry h hlink rfl
    rw [root_isPlaced.inputs_eq] at hnot
    exact absurd hentry hnot
  have hpins := (spot_rootPlaced sharing h).rooted_pins hentries
  refine .intro node fun source hcopies => ?_
  obtain ⟨bits, targetBits, hlink⟩ := hcopies
  obtain ⟨gate, hgate, role, hnode⟩ := pin_of_driver h root_seat hlink rfl
  exact (hpins gate hgate role node hnode).inv ⟨bits, targetBits, hlink⟩

theorem Rendered.exists_level {width : Nat → Nat} {draft : Draft}
    (h : Rendered sharing component width draft) :
    ∃ level : Nat → Nat, (∀ node, level node ≤ draft.netlist.size) ∧
      ∀ source link, draft.netlist.Leads source link → level source < level link.target := by
  obtain ⟨level, hbound, hlevel⟩ := ClockedLogic.exists_level draft.netlist.size
    (rooted sharing h.fitted) fun source node hcopies => by
      obtain ⟨bits, targetBits, hlink⟩ := hcopies
      exact h.source_lt (.link hlink)
  refine ⟨level, hbound, fun source link hlink => ?_⟩
  obtain ⟨bits, target, targetBits, hhas, rfl⟩ := h.leads_iff.mp hlink
  exact hlevel source target ⟨bits, targetBits, hhas⟩

end Component

namespace Cascade

variable {netlist : Netlist} {cascade next : Cascade}

def Reaches (netlist : Netlist) : Cascade → Cascade → Prop :=
  Relation.ReflTransGen fun before after => before.pending ≠ [] ∧ after = step netlist before

theorem Reaches.endsIn {last : Cascade} (h : Reaches netlist cascade last)
    (hdone : last.pending = []) : cascade.EndsIn netlist last := by
  refine ⟨hdone, ?_⟩
  induction h using Relation.ReflTransGen.head_induction_on with
  | refl => exact ⟨0, rfl⟩
  | head hstep _ ih =>
    obtain ⟨hpending, rfl⟩ := hstep
    obtain ⟨steps, hrun⟩ := ih
    refine ⟨steps + 1, ?_⟩
    rw [run, List.isEmpty_eq_false_iff.mpr hpending]
    exact hrun

/-- Notifying listeners leaves targets of their links on the stack, and what has waited before. -/
theorem pending_foldl_notify (value : Word) (listeners : List Listener) (cascade : Cascade) :
    ∃ targets : List Nat,
      (listeners.foldl (notify value) cascade).pending = targets ++ cascade.pending ∧
      ∀ target ∈ targets, ∃ link, .link link ∈ listeners ∧ link.target = target := by
  induction listeners generalizing cascade with
  | nil => exact ⟨[], rfl, by simp⟩
  | cons listener rest ih =>
    obtain ⟨targets, hpending, htargets⟩ := ih (notify value cascade listener)
    have hlater : ∀ target ∈ targets, ∃ link, .link link ∈ listener :: rest ∧
        link.target = target := by
      intro target htarget
      obtain ⟨link, hlink, hsame⟩ := htargets target htarget
      exact ⟨link, List.mem_cons_of_mem _ hlink, hsame⟩
    rw [List.foldl_cons, hpending]
    cases listener with
    | gate index => exact ⟨targets, rfl, hlater⟩
    | link link =>
      simp only [notify]
      split
      · exact ⟨targets, rfl, hlater⟩
      · refine ⟨targets ++ [link.target], by simp, fun target htarget => ?_⟩
        rcases List.mem_append.mp htarget with hmem | hmem
        · exact hlater target hmem
        · exact ⟨link, List.mem_cons_self, (List.mem_singleton.mp hmem).symm⟩

section

variable {level : Nat → Nat} {bound : Nat} (hbound : ∀ node, level node ≤ bound)
  (hlevel : ∀ source link, netlist.Leads source link → level source < level link.target)

include hbound hlevel

/-- The newest waiting node and all that it leads to are done with after some steps. -/
theorem exists_reaches_rest {node : Nat} {rest : List Nat}
    (hpending : cascade.pending = node :: rest) :
    ∃ last, Reaches netlist cascade last ∧ last.pending = rest := by
  induction hn : bound - level node using Nat.strongRecOn generalizing node rest cascade with
  | ind n ih =>
    subst hn
    have hstep : Reaches netlist cascade (step netlist cascade) :=
      .single ⟨by rw [hpending]; exact List.cons_ne_nil _ _, rfl⟩
    obtain ⟨targets, htargets, hlinks⟩ := pending_foldl_notify (cascade.values.getD node 0)
      (netlist.listenersOf node) { cascade with pending := rest }
    have hnow : (step netlist cascade).pending = targets ++ rest := by
      rw [step, hpending]
      exact htargets
    have hhigher : ∀ target ∈ targets, level node < level target := by
      intro target htarget
      obtain ⟨link, hlink, rfl⟩ := hlinks target htarget
      exact hlevel node link hlink
    -- the nodes that the step has put on the stack go one after the other
    have hdrop : ∀ (targets : List Nat) (now : Cascade), now.pending = targets ++ rest →
        (∀ target ∈ targets, level node < level target) →
        ∃ last, Reaches netlist now last ∧ last.pending = rest := by
      intro targets
      induction targets with
      | nil => exact fun now hnow _ => ⟨now, .refl, hnow⟩
      | cons target later ihTargets =>
        intro now hnow hhigher
        have hlt := hhigher target List.mem_cons_self
        have hle := hbound target
        obtain ⟨middle, hreaches, hmiddle⟩ := ih (bound - level target) (by omega) hnow rfl
        obtain ⟨last, hrest, hlast⟩ := ihTargets middle hmiddle
          fun other hother => hhigher other (List.mem_cons_of_mem _ hother)
        exact ⟨last, hreaches.trans hrest, hlast⟩
    obtain ⟨last, hrest, hlast⟩ := hdrop targets _ hnow hhigher
    exact ⟨last, hstep.trans hrest, hlast⟩

/-- Where links raise levels, every cascade ends. -/
theorem exists_endsIn (cascade : Cascade) : ∃ last, cascade.EndsIn netlist last := by
  have hreaches : ∀ (pending : List Nat) (now : Cascade), now.pending = pending →
      ∃ last, Reaches netlist now last ∧ last.pending = [] := by
    intro pending
    induction pending with
    | nil => exact fun now hnow => ⟨now, .refl, hnow⟩
    | cons node rest ih =>
      intro now hnow
      obtain ⟨middle, hreaches, hmiddle⟩ := exists_reaches_rest hbound hlevel hnow
      obtain ⟨last, hrest, hlast⟩ := ih middle hmiddle
      exact ⟨last, hreaches.trans hrest, hlast⟩
  obtain ⟨last, hlast, hdone⟩ := hreaches cascade.pending cascade rfl
  exact ⟨last, hlast.endsIn hdone⟩

end

end Cascade

end ClockedLogic
