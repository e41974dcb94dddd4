import ClockedLogic.Proofs.CascadeRun
import ClockedLogic.Proofs.Halting
import Mathlib.Logic.Relation

/-!
How far a cascade gets, whatever values the nodes have. A cascade from one node changes nodes that
links lead to from there, and of these only bits that links take. So where links do not lead back
to the node, the links into it play no part and can be severed; then the node may be given any
value, and the cascade is exact.
-/

namespace ClockedLogic

namespace Netlist

def Joins (netlist : Netlist) (source target : Nat) : Prop :=
  ∃ link, netlist.Leads source link ∧ link.target = target

def sever (netlist : Netlist) (node : Nat) : Netlist :=
  { netlist with
    listeners := netlist.listeners.map fun listeners => listeners.filter fun
      | .gate _ => true
      | .link link => link.target != node }

variable {netlist : Netlist} {node other : Nat}

theorem mem_listenersOf_sever {listener : Listener} :
    listener ∈ (netlist.sever node).listenersOf other ↔
      listener ∈ netlist.listenersOf other ∧
        ∀ link, listener = .link link → link.target ≠ node := by
  simp only [sever, listenersOf, Array.getD_eq_getD_getElem?, Array.getElem?_map]
  cases netlist.listeners[other]? with
  | none => simp
  | some listeners =>
    simp only [Option.map_some, Option.getD_some, List.mem_filter]
    cases listener with
    | gate index => simp
    | link link => simp

theorem leads_sever {link : Link} :
    (netlist.sever node).Leads other link ↔ netlist.Leads other link ∧ link.target ≠ node := by
  rw [Leads, mem_listenersOf_sever]
  simp [Leads]

theorem gate_mem_listenersOf_sever {gate : Nat} :
    .gate gate ∈ (netlist.sever node).listenersOf other ↔
      .gate gate ∈ netlist.listenersOf other := by
  rw [mem_listenersOf_sever]
  simp

theorem listenersOf_sever (h : ∀ link, netlist.Leads other link → link.target ≠ node) :
    (netlist.sever node).listenersOf other = netlist.listenersOf other := by
  have hself : (netlist.listenersOf other).filter (fun
      | .gate _ => true
      | .link link => link.target != node) = netlist.listenersOf other := by
    refine List.filter_eq_self.mpr fun listener hlistener => ?_
    cases listener with
    | gate index => rfl
    | link link => simpa using h link hlistener
  rw [← hself]
  simp only [sever, listenersOf, Array.getD_eq_getD_getElem?, Array.getElem?_map]
  cases netlist.listeners[other]? <;> rfl

theorem IsTidy.sever (h : netlist.IsTidy) (node : Nat) : (netlist.sever node).IsTidy where
  target_lt source link hlink := h.target_lt source link (leads_sever.mp hlink).1
  even source link hlink := h.even source link (leads_sever.mp hlink).1
  no_loop source link hlink := h.no_loop source link (leads_sever.mp hlink).1
  apart source source' link link' bit hlink hlink' :=
    h.apart source source' link link' bit (leads_sever.mp hlink).1 (leads_sever.mp hlink').1

theorem not_isCopied_sever (bit : Nat) : ¬ (netlist.sever node).IsCopied node bit := by
  rintro ⟨source, link, hlink, htarget, -⟩
  exact (leads_sever.mp hlink).2 htarget

end Netlist

namespace Cascade

variable {netlist : Netlist} {origin : Nat} {start : Array Word} {cascade : Cascade}

/-- A cascade that has come from a node along links. -/
structure ComesFrom (netlist : Netlist) (origin : Nat) (start : Array Word) (cascade : Cascade) :
    Prop where
  size : cascade.values.size = netlist.size
  bits : ∀ node bit, bitOf cascade.values node bit ≠ bitOf start node bit →
    ∃ source link, Relation.ReflTransGen netlist.Joins origin source ∧
      netlist.Leads source link ∧ link.target = node ∧ link.targetBits.Covers bit
  pending : ∀ node ∈ cascade.pending, Relation.ReflTransGen netlist.Joins origin node
  marks : ∀ gate, .mark gate ∈ cascade.events → ∃ node, .gate gate ∈ netlist.listenersOf node

theorem ComesFrom.notify (htidy : netlist.IsTidy) {node : Nat} {value : Word}
    {listener : Listener} (hnode : Relation.ReflTransGen netlist.Joins origin node)
    (hlistener : listener ∈ netlist.listenersOf node)
    (h : ComesFrom netlist origin start cascade) :
    ComesFrom netlist origin start (notify value cascade listener) := by
  cases listener with
  | gate index =>
    refine ⟨h.size, h.bits, h.pending, fun gate hmark => ?_⟩
    rcases List.mem_cons.mp hmark with heq | hbefore
    · rw [Event.mark.inj heq]
      exact ⟨node, hlistener⟩
    · exact h.marks gate hbefore
  | link link =>
    have hleads : netlist.Leads node link := hlistener
    simp only [Cascade.notify]
    split
    · exact h
    · have hbound : link.target < cascade.values.size := by
        rw [h.size]
        exact htidy.target_lt node link hleads
      refine ⟨by rw [Array.size_setIfInBounds]; exact h.size, fun other bit hne => ?_,
        fun other hother => ?_, fun gate hmark => ?_⟩
      · rw [bitOf, getD_setIfInBounds hbound] at hne
        by_cases hsame : link.target = other
        · subst hsame
          rw [if_pos rfl, getLsbD_follow (htidy.even node link hleads)] at hne
          by_cases hcovers : link.targetBits.Covers bit
          · exact ⟨node, link, hnode, hleads, rfl, hcovers⟩
          · rw [if_neg hcovers] at hne
            exact h.bits link.target bit hne
        · rw [if_neg hsame] at hne
          exact h.bits other bit hne
      · rcases List.mem_cons.mp hother with rfl | hwaiting
        · exact hnode.tail ⟨link, hleads, rfl⟩
        · exact h.pending other hwaiting
      · exact h.marks gate ((List.mem_cons.mp hmark).resolve_left (by simp))

theorem ComesFrom.foldl_notify (htidy : netlist.IsTidy) {node : Nat} {value : Word}
    {listeners : List Listener} (hnode : Relation.ReflTransGen netlist.Joins origin node)
    (hlisteners : ∀ listener ∈ listeners, listener ∈ netlist.listenersOf node)
    (h : ComesFrom netlist origin start cascade) :
    ComesFrom netlist origin start (listeners.foldl (Cascade.notify value) cascade) := by
  induction listeners generalizing cascade with
  | nil => exact h
  | cons listener rest ih =>
    obtain ⟨hfirst, hrest⟩ := List.forall_mem_cons.mp hlisteners
    exact ih hrest (h.notify htidy hnode hfirst)

theorem ComesFrom.step (htidy : netlist.IsTidy) (h : ComesFrom netlist origin start cascade) :
    ComesFrom netlist origin start (step netlist cascade) := by
  unfold Cascade.step
  split
  · exact h
  · rename_i node rest hpending
    have hnode := h.pending node (hpending ▸ List.mem_cons_self)
    refine ComesFrom.foldl_notify htidy hnode (fun _ hlistener => hlistener)
      ⟨h.size, h.bits, fun other hother => ?_, h.marks⟩
    exact h.pending other (hpending ▸ List.mem_cons_of_mem _ hother)

theorem ComesFrom.run (htidy : netlist.IsTidy) (h : ComesFrom netlist origin start cascade)
    (steps : Nat) : ComesFrom netlist origin start (run netlist steps cascade) := by
  induction steps generalizing cascade with
  | zero => exact h
  | succ steps ih =>
    unfold Cascade.run
    split
    · exact h
    · exact ih (h.step htidy)

/-- The cascade from a node that has just taken a value. -/
theorem comesFrom_change {old : Array Word} {value : Word} {events : List Event}
    (hsize : old.size = netlist.size) (hmarks : ∀ gate, .mark gate ∉ events) :
    ComesFrom netlist origin (old.setIfInBounds origin value)
      ⟨old.setIfInBounds origin value, [origin], events⟩ where
  size := by rw [Array.size_setIfInBounds, hsize]
  bits _ _ hne := absurd rfl hne
  pending node hnode := by
    rw [List.mem_singleton.mp hnode]
  marks gate hmark := absurd hmark (hmarks gate)

/-- Where links do not lead back to the origin, the links into it make no difference. -/
theorem ComesFrom.run_sever (htidy : netlist.IsTidy)
    (hacyclic : ¬ Relation.TransGen netlist.Joins origin origin)
    (h : ComesFrom netlist origin start cascade) (steps : Nat) :
    Cascade.run (netlist.sever origin) steps cascade = Cascade.run netlist steps cascade := by
  induction steps generalizing cascade with
  | zero => rfl
  | succ steps ih =>
    have hstep : Cascade.step (netlist.sever origin) cascade = Cascade.step netlist cascade := by
      unfold Cascade.step
      split
      · rfl
      · rename_i node rest hpending
        have hnode := h.pending node (hpending ▸ List.mem_cons_self)
        rw [Netlist.listenersOf_sever fun link hlink htarget =>
          hacyclic (.tail' hnode ⟨link, hlink, htarget⟩)]
    unfold Cascade.run
    rw [hstep, ih (h.step htidy)]

theorem run_of_ended (hended : cascade.pending = []) (steps : Nat) :
    run netlist steps cascade = cascade := by
  cases steps with
  | zero => rfl
  | succ steps => rw [run, hended]; rfl

theorem run_add (first rest : Nat) (cascade : Cascade) :
    run netlist (first + rest) cascade = run netlist rest (run netlist first cascade) := by
  induction first generalizing cascade with
  | zero => rw [Nat.zero_add, run]
  | succ first ih =>
    rw [Nat.succ_add]
    cases hpending : cascade.pending with
    | nil => rw [run_of_ended hpending, run_of_ended hpending, run_of_ended hpending]
    | cons node waiting =>
      simp only [run, hpending, List.isEmpty_cons, Bool.false_eq_true, if_false]
      exact ih _

theorem endsIn_finish (h : (cascade.finish netlist).pending = []) :
    cascade.EndsIn netlist (cascade.finish netlist) := ⟨h, limit netlist, rfl⟩

theorem EndsIn.unique {last last' : Cascade} (h : cascade.EndsIn netlist last)
    (h' : cascade.EndsIn netlist last') : last = last' := by
  obtain ⟨hended, steps, rfl⟩ := h
  obtain ⟨hended', steps', rfl⟩ := h'
  rw [← run_of_ended hended steps', ← run_add, Nat.add_comm, run_add, run_of_ended hended']

/-- Giving a new value to any node of a netlist whose links hold. By the end the links that do not
lead to the node hold again, and just the listeners of changed nodes have been told. -/
theorem spread_change (htidy : netlist.IsTidy)
    (hacyclic : ¬ Relation.TransGen netlist.Joins origin origin) {old : Array Word}
    (hsize : old.size = netlist.size)
    (hold : ∀ source link, netlist.Leads source link → link.Holds source old)
    (horigin : origin < netlist.size) {value : Word} (hne : old.getD origin 0 ≠ value)
    {events : List Event} (hmarks : ∀ gate, .mark gate ∉ events) :
    Spread (netlist.sever origin) old (old.setIfInBounds origin value)
      (finish netlist ⟨old.setIfInBounds origin value, [origin], events⟩) := by
  have hhold : ∀ source link, (netlist.sever origin).Leads source link →
      link.Holds source old :=
    fun source link hlink => hold source link (Netlist.leads_sever.mp hlink).1
  have hspread := spread_finish (htidy.sever origin) hhold
    (inStepNow_change hsize hhold horigin Netlist.not_isCopied_sever hne hmarks) (by simp)
  have hcomes := @comesFrom_change netlist origin old value events hsize hmarks
  have hrun := hcomes.run_sever htidy hacyclic (limit netlist)
  rwa [finish, show limit (netlist.sever origin) = limit netlist from rfl, hrun] at hspread

end Cascade

end ClockedLogic
