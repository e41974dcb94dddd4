import ClockedLogic.Network.Basic
import ClockedLogic.Proofs.Assignments
import ClockedLogic.Proofs.CascadeReach
import ClockedLogic.Proofs.DraftSteps
import ClockedLogic.Proofs.LinkOrder
import ClockedLogic.Proofs.Writing

/-!
Networks of any draft whose links have no circles. Building such a network and giving its nodes
values always comes to an end. A node that takes a value changes only nodes that links lead to,
and of these only bits that links take. As long as no target of a link is given a value from
outside, all links hold, and just the gates that listen to a changed node become dirty.
-/

namespace ClockedLogic

namespace Network

/-- Gives a node a value, without a bound on the steps of the cascade, and tells whether it is a
new one. No gate may be marked that the network does not have. -/
inductive SetsTo (network : Network) (node : Nat) (value : Word) : Bool × Network → Prop where
  | same (hvalue : network.value node = value) : SetsTo network node value (false, network)
  | change {last : Cascade} (hvalue : network.value node ≠ value)
    (hends : (network.signals.cascadeFrom node value).EndsIn network.netlist last)
    (hmarks : ∀ gate, .mark gate ∈ last.events → gate < network.signals.dirty.size) :
    SetsTo network node value (true, { network with signals := network.signals.absorb last })

inductive Becomes (allowed : Nat → Prop) (network : Network) : Network → Prop where
  | refl : Becomes allowed network network
  | set {now after : Network} {node : Nat} {value : Word} {changed : Bool}
    (h : Becomes allowed network now) (hnode : node < now.size) (hallowed : allowed node)
    (hset : now.SetsTo node value (changed, after)) : Becomes allowed network after

def flagged (network : Network) (dirty : FlagSet) : Network :=
  { network with signals := { network.signals with dirty } }

def Consistent (steps : List DraftStep) (network : Network) : Prop :=
  ∀ source bits target targetBits, .link source bits target targetBits ∈ steps →
    targetBits.extract (network.value target) = bits.extract (network.value source)

/-- Just the gates become dirty that listen to a node which has changed. -/
def Marks (steps : List DraftStep) (before after : Network) : Prop :=
  ∀ gate, gate ∈ after.dirtyGates ↔ gate ∈ before.dirtyGates ∨
    ∃ node, .listen node gate ∈ steps ∧ after.value node ≠ before.value node

structure Outcome (steps : List DraftStep) (node : Nat) (value : Word) (before : Network)
    (changed : Bool) (after : Network) : Prop where
  changed_iff : changed = true ↔ before.value node ≠ value
  same : changed = false → after = before
  value_eq : after.value node = value
  reached : ∀ other, other ≠ node → after.value other ≠ before.value other →
    Relation.TransGen (DraftStep.Linked steps) node other
  bits : ∀ other bit, other ≠ node →
    (after.value other).getLsbD bit ≠ (before.value other).getLsbD bit →
    ∃ source bits targetBits, .link source bits other targetBits ∈ steps ∧ targetBits.Covers bit

structure Belongs (draft : Draft) (gates : Nat) (network : Network) : Prop where
  netlist : network.netlist = draft.netlist
  values_size : network.signals.values.size = draft.netlist.size
  dirty_size : network.signals.dirty.size = gates

theorem mem_dirtyGates {network : Network} {gate : Nat} :
    gate ∈ network.dirtyGates ↔ network.signals.dirty.contains gate = true := by
  rw [dirtyGates, FlagSet.toList, List.mem_filter, List.mem_range, and_iff_right_iff_imp]
  intro hset
  by_contra hge
  have hclear := network.signals.dirty.storedFlag_eq_false gate (Nat.le_of_not_lt hge)
  rw [FlagSet.contains, hclear] at hset
  cases hset

end Network

theorem Link.holds_iff {link : Link} (heven : link.bits.width = link.targetBits.width)
    {source : Nat} {values : Array Word} :
    link.Holds source values ↔ link.targetBits.extract (values.getD link.target 0) =
      link.bits.extract (values.getD source 0) := by
  have hwidth := link.targetBits.low_add_width
  constructor
  · intro hholds
    refine BitVec.eq_of_getLsbD_eq fun bit _ => ?_
    rw [BitSpan.getLsbD_extract, BitSpan.getLsbD_extract, heven]
    by_cases hlt : bit < link.targetBits.width
    · have hbit := hholds (link.targetBits.low + bit) ⟨by omega, by omega⟩
      rw [Link.sourceBit, Nat.add_sub_cancel_left] at hbit
      rw [decide_eq_true hlt, Bool.true_and, Bool.true_and]
      exact hbit
    · rw [decide_eq_false hlt, Bool.false_and, Bool.false_and]
  · intro hextract bit hcovers
    obtain ⟨hlow, hhigh⟩ := hcovers
    have hlt : bit - link.targetBits.low < link.targetBits.width := by omega
    have hbit := congrArg (·.getLsbD (bit - link.targetBits.low)) hextract
    simp only [BitSpan.getLsbD_extract, heven, hlt, decide_true, Bool.true_and] at hbit
    rw [Nat.add_sub_cancel' hlow] at hbit
    exact hbit

namespace Network

variable {steps : List DraftStep} {draft : Draft} {gates : Nat} {now after : Network} {node : Nat}
  {value : Word} {changed : Bool}

theorem consistent_iff (hrecords : draft.Records steps) :
    now.Consistent steps ↔
      ∀ source link, draft.netlist.Leads source link → link.Holds source now.signals.values := by
  constructor
  · intro hconsistent source link hlink
    have hmem := (hrecords.leads source link).mp hlink
    exact (Link.holds_iff (hrecords.even _ _ _ _ hmem)).mpr (hconsistent _ _ _ _ hmem)
  · intro hholds source bits target targetBits hmem
    have hholds := hholds source ⟨bits, target, targetBits⟩ ((hrecords.leads _ _).mpr hmem)
    exact (Link.holds_iff (hrecords.even _ _ _ _ hmem)).mp hholds

theorem linked_of_joins (hrecords : draft.Records steps) {source target : Nat}
    (h : draft.netlist.Joins source target) : DraftStep.Linked steps source target := by
  obtain ⟨link, hlink, rfl⟩ := h
  exact hrecords.linked hlink

theorem not_joins_self (hrecords : draft.Records steps)
    (horderly : DraftStep.Orderly steps gates) (node : Nat) :
    ¬ Relation.TransGen draft.netlist.Joins node node :=
  fun hloop => horderly.acyclic node (hloop.lift id fun _ _ => linked_of_joins hrecords)

theorem listens_lt (hrecords : draft.Records steps)
    (hgates : ∀ node gate, .listen node gate ∈ steps → gate < gates) {gate : Nat}
    (h : .gate gate ∈ draft.netlist.listenersOf node) : gate < gates :=
  hgates node gate ((hrecords.listens node gate).mp h)

/-- No gate listens that the network has no flag for. -/
theorem strayListener?_eq_none (hrecords : draft.Records steps)
    (hgates : ∀ node gate, .listen node gate ∈ steps → gate < gates) (listened : Nat) :
    draft.netlist.strayListener? gates listened = none := by
  rw [Netlist.strayListener?_eq_none_iff]
  exact fun gate hgate => listens_lt hrecords hgates hgate

theorem target_lt (hrecords : draft.Records steps) {source : Nat} {link : Link}
    (hlink : draft.netlist.Leads source link) : link.target < draft.netlist.size :=
  (hrecords.link_lt _ _ _ _ ((hrecords.leads source link).mp hlink)).2

/-- A cascade marks gates that listen, and no node comes or goes. -/
theorem keeps_of_endsIn (hrecords : draft.Records steps) {cascade last : Cascade}
    (hsize : cascade.values.size = draft.netlist.size)
    (hmarks : ∀ gate, .mark gate ∉ cascade.events) (hends : cascade.EndsIn draft.netlist last) :
    last.values.size = draft.netlist.size ∧
      ∀ gate, .mark gate ∈ last.events → ∃ listened, .listen listened gate ∈ steps := by
  obtain ⟨-, count, rfl⟩ := hends
  have hpasses := Cascade.passes_run
    (fun source link hlink => hsize ▸ target_lt hrecords hlink) count
  refine ⟨hpasses.size.trans hsize, fun gate hmark => ?_⟩
  obtain ⟨listened, hgate⟩ := (hpasses.marks gate hmark).resolve_left (hmarks gate)
  exact ⟨listened, (hrecords.listens listened gate).mp hgate⟩

theorem Belongs.keeps (h : now.Belongs draft gates) (hrecords : draft.Records steps)
    {last : Cascade} (hends : (now.signals.cascadeFrom node value).EndsIn now.netlist last) :
    last.values.size = draft.netlist.size ∧
      ∀ gate, .mark gate ∈ last.events → ∃ listened, .listen listened gate ∈ steps := by
  refine keeps_of_endsIn hrecords (Array.size_setIfInBounds.trans h.values_size) ?_
    (h.netlist ▸ hends)
  exact fun gate hmark => by cases List.mem_singleton.mp hmark

/-- Where a cascade has come from the node that took the value. -/
theorem Belongs.comesFrom (h : now.Belongs draft gates) (htidy : draft.netlist.IsTidy)
    {last : Cascade} (hends : (now.signals.cascadeFrom node value).EndsIn now.netlist last) :
    Cascade.ComesFrom draft.netlist node (now.signals.values.setIfInBounds node value) last := by
  obtain ⟨-, count, rfl⟩ := hends
  rw [h.netlist]
  exact (Cascade.comesFrom_change h.values_size (by simp)).run htidy count

theorem SetsTo.belongs (hset : now.SetsTo node value (changed, after))
    (hrecords : draft.Records steps) (h : now.Belongs draft gates) :
    after.Belongs draft gates := by
  cases hset with
  | same => exact h
  | change _ hends hmarks =>
    exact ⟨h.netlist, (h.keeps hrecords hends).1,
      (Signals.dirty_absorb hmarks).1.trans h.dirty_size⟩

/-- Giving a node a value comes to an end. -/
theorem Belongs.exists_setsTo (h : now.Belongs draft gates) (hrecords : draft.Records steps)
    (hacyclic : ∀ node, ¬ Relation.TransGen (DraftStep.Linked steps) node node)
    (hgates : ∀ node gate, .listen node gate ∈ steps → gate < gates) (node : Nat) (value : Word) :
    ∃ result, now.SetsTo node value result := by
  by_cases hsame : now.value node = value
  · exact ⟨_, .same hsame⟩
  · obtain ⟨level, hbound, hlevel⟩ := hrecords.exists_level hacyclic
    obtain ⟨last, hends⟩ := Cascade.exists_endsIn hbound hlevel
      (now.signals.cascadeFrom node value)
    rw [← h.netlist] at hends
    refine ⟨_, .change hsame hends fun gate hmark => ?_⟩
    obtain ⟨listened, hlisten⟩ := (h.keeps hrecords hends).2 gate hmark
    exact h.dirty_size ▸ hgates listened gate hlisten

/-- What it comes to, whatever values the nodes have had. -/
theorem Belongs.outcome (h : now.Belongs draft gates) (hrecords : draft.Records steps)
    (horderly : DraftStep.Orderly steps gates) (hnode : node < draft.size)
    (hset : now.SetsTo node value (changed, after)) :
    Outcome steps node value now changed after := by
  cases hset with
  | same hvalue =>
    exact ⟨by simp [hvalue], fun _ => rfl, hvalue, fun _ _ hne => absurd rfl hne,
      fun _ _ _ hne => absurd rfl hne⟩
  | @change last hvalue hends hmarks =>
    have hcomes := h.comesFrom (horderly.tidy hrecords) hends
    have hbound : node < now.signals.values.size := h.values_size ▸ hnode
    have hstart : ∀ other, other ≠ node →
        (now.signals.values.setIfInBounds node value).getD other 0 = now.value other := by
      intro other hne
      rw [getD_setIfInBounds hbound, if_neg (Ne.symm hne)]
      rfl
    refine ⟨by simp [hvalue], by simp, ?_, fun other hother hne => ?_,
      fun other bit hother hne => ?_⟩
    · -- links do not lead back, so the node keeps what it has been given
      have hkept : last.values.getD node 0 =
          (now.signals.values.setIfInBounds node value).getD node 0 := by
        by_contra hne
        obtain ⟨bit, -, hbit⟩ := exists_bit_of_ne hne
        obtain ⟨source, link, hpath, hlink, htarget, -⟩ := hcomes.bits node bit hbit
        exact not_joins_self hrecords horderly node (.tail' hpath ⟨link, hlink, htarget⟩)
      rw [getD_setIfInBounds hbound, if_pos rfl] at hkept
      exact hkept
    · have hdiffers : last.values.getD other 0 ≠
          (now.signals.values.setIfInBounds node value).getD other 0 := by
        rw [hstart other hother]
        exact hne
      obtain ⟨bit, -, hbit⟩ := exists_bit_of_ne hdiffers
      obtain ⟨source, link, hpath, hlink, htarget, -⟩ := hcomes.bits other bit hbit
      exact (Relation.TransGen.tail' hpath ⟨link, hlink, htarget⟩).lift id
        fun _ _ => linked_of_joins hrecords
    · have hbit : bitOf last.values other bit ≠
          bitOf (now.signals.values.setIfInBounds node value) other bit := by
        rw [bitOf, bitOf, hstart other hother]
        exact hne
      obtain ⟨source, link, -, hlink, rfl, hcovers⟩ := hcomes.bits other bit hbit
      exact ⟨source, link.bits, link.targetBits, (hrecords.leads source link).mp hlink, hcovers⟩

/-- In a consistent network the cascade of a new value is the bounded one and spreads exactly. -/
theorem Belongs.spread (h : now.Belongs draft gates) (hrecords : draft.Records steps)
    (horderly : DraftStep.Orderly steps gates) (hconsistent : now.Consistent steps)
    (hnode : node < draft.size) (hvalue : now.value node ≠ value) {last : Cascade}
    (hends : (now.signals.cascadeFrom node value).EndsIn now.netlist last) :
    (now.signals.cascadeFrom node value).finish now.netlist = last ∧
      Cascade.Spread (draft.netlist.sever node) now.signals.values
        (now.signals.values.setIfInBounds node value) last := by
  have hspread : Cascade.Spread (draft.netlist.sever node) now.signals.values
      (now.signals.values.setIfInBounds node value)
      ((now.signals.cascadeFrom node value).finish now.netlist) := by
    rw [h.netlist]
    exact Cascade.spread_change (horderly.tidy hrecords) (not_joins_self hrecords horderly node)
      h.values_size ((consistent_iff hrecords).mp hconsistent) hnode hvalue (by simp)
  have hlast : (now.signals.cascadeFrom node value).finish now.netlist = last :=
    (Cascade.endsIn_finish hspread.ended).unique hends
  exact ⟨hlast, hlast ▸ hspread⟩

/-- A consistent network comes to what the bounded cascade comes to, and marks what it has to. -/
theorem Belongs.set_eq (h : now.Belongs draft gates) (hrecords : draft.Records steps)
    (horderly : DraftStep.Orderly steps gates) (hconsistent : now.Consistent steps)
    (hnode : node < draft.size) (hset : now.SetsTo node value (changed, after)) :
    now.set node value = .ok (changed, after) ∧ Marks steps now after := by
  cases hset with
  | same hvalue =>
    refine ⟨by rw [Network.set, if_pos hvalue], fun gate => ?_⟩
    simp
  | @change last hvalue hends hmarks =>
    obtain ⟨hlast, hspread⟩ := h.spread hrecords horderly hconsistent hnode hvalue hends
    have hheard : ∀ listened,
        now.netlist.strayListener? now.signals.dirty.size listened = none := by
      rw [h.netlist, h.dirty_size]
      exact strayListener?_eq_none hrecords horderly.gates
    refine ⟨?_, fun gate => ?_⟩
    · rw [Network.set, if_neg hvalue, Cascade.finishWithin_eq_ok_finish hheard, hlast]
      rfl
    · rw [mem_dirtyGates, mem_dirtyGates]
      refine ((Signals.dirty_absorb hmarks).2 gate).trans (or_congr_right ?_)
      rw [hspread.marks]
      refine exists_congr fun listened => and_congr_left' ?_
      rw [Netlist.gate_mem_listenersOf_sever, hrecords.listens]

/-- A consistent network stays so if the node is no target of a link. -/
theorem Belongs.consistent (h : now.Belongs draft gates) (hrecords : draft.Records steps)
    (horderly : DraftStep.Orderly steps gates) (hconsistent : now.Consistent steps)
    (hnode : node < draft.size) (hfree : ∀ source, ¬ DraftStep.Linked steps source node)
    (hset : now.SetsTo node value (changed, after)) : after.Consistent steps := by
  have hafter := hset.belongs hrecords h
  cases hset with
  | same => exact hconsistent
  | @change last hvalue hends hmarks =>
    obtain ⟨-, hspread⟩ := h.spread hrecords horderly hconsistent hnode hvalue hends
    refine (consistent_iff hrecords).mpr fun source link hlink => ?_
    refine hspread.holds source link (Netlist.leads_sever.mpr ⟨hlink, fun htarget => ?_⟩)
    exact hfree source (htarget ▸ hrecords.linked hlink)

theorem spread_ofDraft (hrecords : draft.Records steps) (horderly : DraftStep.Orderly steps gates) :
    Cascade.Spread draft.netlist (Array.replicate draft.netlist.size 0) draft.values
      ((Signals.ofDraft draft gates).cascadeAll.finish draft.netlist) := by
  refine Cascade.spread_finish (horderly.tidy hrecords) (fun source link _ bit _ => ?_)
    (Cascade.inStepNow_all hrecords.values_size
      (fun node bit hone => horderly.not_copied hrecords hone)
      fun _ => Signals.mem_pending_cascadeAll) ?_
  · rw [bitOf_replicate_zero, bitOf_replicate_zero]
  · have hsize : draft.values.size = draft.netlist.size := hrecords.values_size
    rw [Signals.cascadeAll, List.length_reverse, ← hsize]
    refine Nat.le_succ_of_le (Nat.le_trans (List.length_filter_le _ _) ?_)
    rw [List.length_range]
    exact Nat.le_refl _

theorem exists_ofDraft (hrecords : draft.Records steps) (horderly : DraftStep.Orderly steps gates) :
    ∃ network last, ofDraft draft gates = .ok network ∧
      (Signals.ofDraft draft gates).cascadeAll.EndsIn draft.netlist last ∧
      network = ⟨draft.netlist, (Signals.ofDraft draft gates).absorb last⟩ ∧
      network.Belongs draft gates ∧ network.Consistent steps ∧
      ∀ gate < gates, network.signals.dirty.contains gate = true := by
  have hspread := spread_ofDraft hrecords horderly
  have hfull : (Signals.ofDraft draft gates).dirty.size = gates := FlagSet.size_full gates
  have hends := Cascade.endsIn_finish hspread.ended
  have hbuild : ofDraft draft gates = .ok ⟨draft.netlist, (Signals.ofDraft draft gates).absorb
      ((Signals.ofDraft draft gates).cascadeAll.finish draft.netlist)⟩ := by
    rw [ofDraft, Cascade.finishWithin_eq_ok_finish (strayListener?_eq_none hrecords horderly.gates)]
    simp only [bind, Except.bind, pure, Except.pure]
  generalize (Signals.ofDraft draft gates).cascadeAll.finish draft.netlist = last
    at hspread hends hbuild
  obtain ⟨hsize, hflags⟩ := @Signals.dirty_absorb (Signals.ofDraft draft gates) last
    fun gate hmark => by
      obtain ⟨listened, hgate, -⟩ := (hspread.marks gate).mp hmark
      exact hfull ▸ listens_lt hrecords horderly.gates hgate
  have hbelongs : Belongs draft gates
      ⟨draft.netlist, (Signals.ofDraft draft gates).absorb last⟩ := by
    refine ⟨rfl, ?_, hsize.trans hfull⟩
    rw [Signals.values_absorb]
    exact hspread.size
  refine ⟨_, last, hbuild, hends, rfl, hbelongs, ?_, fun gate hgate => ?_⟩
  · refine (consistent_iff hrecords).mpr fun source link hlink => ?_
    rw [Signals.values_absorb]
    exact hspread.holds source link hlink
  · refine (hflags gate).mpr (.inl ?_)
    rw [Signals.ofDraft, FlagSet.contains_full]
    exact decide_eq_true hgate

/-- What all networks have in common that one becomes when its nodes are given values. -/
theorem Becomes.belongs {allowed : Nat → Prop} {network : Network}
    (hbecomes : network.Becomes allowed now) (hrecords : draft.Records steps)
    (h : network.Belongs draft gates) : now.Belongs draft gates := by
  induction hbecomes with
  | refl => exact h
  | set _ _ _ hset ih => exact hset.belongs hrecords ih

theorem SetsTo.dirty_mono (hset : now.SetsTo node value (changed, after)) {gate : Nat}
    (h : now.signals.dirty.contains gate = true) :
    after.signals.dirty.contains gate = true := by
  cases hset with
  | same => exact h
  | change _ _ hmarks => exact ((Signals.dirty_absorb hmarks).2 gate).mpr (.inl h)

theorem Becomes.dirty {allowed : Nat → Prop} {network : Network}
    (hbecomes : network.Becomes allowed now) {gate : Nat}
    (h : network.signals.dirty.contains gate = true) : now.signals.dirty.contains gate = true := by
  induction hbecomes with
  | refl => exact h
  | set _ _ _ hset ih => exact hset.dirty_mono ih

/-- Links hold as long as no target of a link is given a value. -/
theorem Becomes.consistent {network : Network}
    (hbecomes : network.Becomes (fun node => ∀ source, ¬ DraftStep.Linked steps source node) now)
    (hrecords : draft.Records steps) (horderly : DraftStep.Orderly steps gates)
    (h : network.Belongs draft gates) (hconsistent : network.Consistent steps) :
    now.Consistent steps := by
  induction hbecomes with
  | refl => exact hconsistent
  | @set now after node value changed hbefore hnode hfree hset ih =>
    have hnow := hbefore.belongs hrecords h
    have hlt : node < draft.size := by
      rw [size, hnow.netlist] at hnode
      exact hnode
    exact hnow.consistent hrecords horderly ih hlt hfree hset

/-- Building a network from an orderly draft ends, and so does giving any node any value, whatever
has been set before: only what links lead to changes, and only in bits that links take. As long as
no target of a link has been set, all links hold, and whatever gates are dirty, just those become
dirty that listen to a node which has changed. -/
theorem cascade_exact (hgrown : draft.Grown steps) (horderly : DraftStep.Orderly steps gates) :
    ∃ network last, ofDraft draft gates = .ok network ∧
      (Signals.ofDraft draft gates).cascadeAll.EndsIn draft.netlist last ∧
      network = ⟨draft.netlist, (Signals.ofDraft draft gates).absorb last⟩ ∧
      (∀ now, network.Becomes (fun _ => True) now → ∀ node < now.size, ∀ value,
        (∃ result, now.SetsTo node value result) ∧
        ∀ changed after, now.SetsTo node value (changed, after) →
          Outcome steps node value now changed after ∧ Marks steps now after) ∧
      ∀ now, network.Becomes (fun node => ∀ source, ¬ DraftStep.Linked steps source node) now →
        now.Consistent steps ∧
        ∀ dirty : FlagSet, dirty.size = gates → ∀ node < now.size, ∀ value changed after,
          (now.flagged dirty).SetsTo node value (changed, after) →
            (now.flagged dirty).set node value = .ok (changed, after) ∧
              Marks steps (now.flagged dirty) after := by
  have hrecords := hgrown.records
  obtain ⟨network, last, hbuild, hends, hnetwork, hbelongs, hconsistent, hdirty⟩ :=
    exists_ofDraft hrecords horderly
  refine ⟨network, last, hbuild, hends, hnetwork, fun now hbecomes node hnode value => ?_,
    fun now hbecomes => ?_⟩
  · have hnow := hbecomes.belongs hrecords hbelongs
    have hlt : node < draft.size := by
      rw [size, hnow.netlist] at hnode
      exact hnode
    refine ⟨hnow.exists_setsTo hrecords horderly.acyclic horderly.gates node value,
      fun changed after hset => ⟨hnow.outcome hrecords horderly hlt hset, fun gate => ?_⟩⟩
    -- no gate has become clean since all were dirty
    rw [mem_dirtyGates, mem_dirtyGates]
    refine ⟨fun hafter => .inl (hbecomes.dirty (hdirty gate ?_)), fun hcases => ?_⟩
    · by_contra hge
      have hafterBelongs := hset.belongs hrecords hnow
      have hclear := after.signals.dirty.storedFlag_eq_false gate
        (hafterBelongs.dirty_size ▸ Nat.le_of_not_lt hge)
      rw [FlagSet.contains, hclear] at hafter
      cases hafter
    · refine hset.dirty_mono ?_
      rcases hcases with hbefore | ⟨listened, hlisten, -⟩
      · exact hbefore
      · exact hbecomes.dirty (hdirty gate (horderly.gates listened gate hlisten))
  · have hnow := hbecomes.belongs hrecords hbelongs
    have hholds := hbecomes.consistent hrecords horderly hbelongs hconsistent
    refine ⟨hholds, fun dirty hsize node hnode value changed after hset => ?_⟩
    have hflagged : (now.flagged dirty).Belongs draft gates :=
      ⟨hnow.netlist, hnow.values_size, hsize⟩
    have hlt : node < draft.size := by
      rw [size, hnow.netlist] at hnode
      exact hnode
    exact hflagged.set_eq hrecords horderly hholds hlt hset

/-- A bus whose bits reach a node along two ways, and a gate that listens on one of them. -/
def joined : List DraftStep :=
  [.addNode 16, .addNode 4, .addNode 1, .addNode 16,
    .link 0 ⟨4, 7, by decide, by decide⟩ 1 ⟨0, 3, by decide, by decide⟩,
    .link 1 ⟨3, 3, by decide, by decide⟩ 2 ⟨0, 0, by decide, by decide⟩,
    .link 2 ⟨0, 0, by decide, by decide⟩ 3 ⟨15, 15, by decide, by decide⟩,
    .link 1 ⟨0, 3, by decide, by decide⟩ 3 ⟨0, 3, by decide, by decide⟩,
    .listen 2 0, .preset 0 ⟨4, 5, by decide, by decide⟩ 3]

theorem exists_grown_joined : ∃ draft, Draft.Grown joined draft := by
  refine ⟨_, .preset (.listen (.link (.link (.link (.link (.addNode (.addNode (.addNode
    (.addNode .empty 16) 4) 1) 16) ?_ ?_ rfl) ?_ ?_ rfl) ?_ ?_ rfl) ?_ ?_ rfl) ?_ 0) ?_ _ 3⟩ <;>
    decide

theorem orderly_joined : DraftStep.Orderly joined 1 where
  acyclic node hloop := by
    have hlt : ∀ source target, DraftStep.Linked joined source target → source < target := by
      rintro source target ⟨bits, targetBits, hmem⟩
      simp [joined] at hmem
      omega
    have hrise : ∀ target, Relation.TransGen (DraftStep.Linked joined) node target →
        node < target := by
      intro target hway
      induction hway with
      | single h => exact hlt _ _ h
      | tail _ h ih => exact Nat.lt_trans ih (hlt _ _ h)
    exact Nat.lt_irrefl node (hrise node hloop)
  apart source source' bits bits' target targetBits targetBits' hlink hlink' hne := by
    simp only [joined, List.mem_cons, reduceCtorEq, DraftStep.link.injEq, List.not_mem_nil,
      or_false, false_or] at hlink hlink'
    rcases hlink with ⟨rfl, rfl, rfl, rfl⟩ | ⟨rfl, rfl, rfl, rfl⟩ | ⟨rfl, rfl, rfl, rfl⟩ |
      ⟨rfl, rfl, rfl, rfl⟩ <;> rcases hlink' with ⟨rfl, rfl, h, rfl⟩ | ⟨rfl, rfl, h, rfl⟩ |
      ⟨rfl, rfl, h, rfl⟩ | ⟨rfl, rfl, h, rfl⟩ <;>
      first | exact absurd rfl hne | rfl | cases h
  presets node span value source bits targetBits hpreset hlink := by
    simp only [joined, List.mem_cons, reduceCtorEq, DraftStep.link.injEq,
      DraftStep.preset.injEq, List.not_mem_nil, or_false, false_or] at hpreset hlink
    omega
  gates node gate hlisten := by
    simp only [joined, List.mem_cons, reduceCtorEq, DraftStep.listen.injEq, List.not_mem_nil,
      or_false, false_or] at hlisten
    omega

theorem cascade_exact_joined : ∃ draft network last, Draft.Grown joined draft ∧
    DraftStep.Orderly joined 1 ∧ ofDraft draft 1 = .ok network ∧
    (Signals.ofDraft draft 1).cascadeAll.EndsIn draft.netlist last ∧
    network = ⟨draft.netlist, (Signals.ofDraft draft 1).absorb last⟩ ∧
    (∀ value, 0 < network.size → ∃ result, network.SetsTo 0 value result) ∧
    network.Consistent joined := by
  obtain ⟨draft, hgrown⟩ := exists_grown_joined
  obtain ⟨network, last, hbuild, hends, hnetwork, hany, hfree⟩ :=
    cascade_exact hgrown orderly_joined
  exact ⟨draft, network, last, hgrown, orderly_joined, hbuild, hends, hnetwork,
    fun value hsize => (hany network .refl 0 hsize value).1, (hfree network .refl).1⟩

end Network

end ClockedLogic
