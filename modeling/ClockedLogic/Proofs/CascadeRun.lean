import ClockedLogic.Proofs.Links
import Mathlib.Data.Finset.Card

/-!
What a cascade comes to. Before it all links hold, then some nodes are given new values. While the
cascade runs, a bit that does not agree with the bit it is copied from still has its old value,
and the node that it is copied from is waiting. So every bit changes once at most and the cascade
ends; by then all links hold again and just the gates that listen to a changed node are marked.
-/

namespace ClockedLogic

namespace Cascade

/-- How far a cascade has come since the nodes had their old values. What is still to be notified
is given by the listeners that are owed. -/
structure InStep (netlist : Netlist) (old start : Array Word) (owed : Nat → Listener → Prop)
    (cascade : Cascade) : Prop where
  size : cascade.values.size = netlist.size
  links : ∀ source link, netlist.Leads source link → ∀ bit, link.targetBits.Covers bit →
    bitOf cascade.values link.target bit = bitOf cascade.values source (link.sourceBit bit) ∨
      owed source (.link link) ∧
        bitOf cascade.values link.target bit = bitOf old link.target bit
  /-- Bits that are not copied are as they were at the start. -/
  others : ∀ node bit, ¬ netlist.IsCopied node bit →
    bitOf cascade.values node bit = bitOf start node bit
  pending : ∀ node ∈ cascade.pending, cascade.values.getD node 0 ≠ old.getD node 0
  heard : ∀ node gate, .gate gate ∈ netlist.listenersOf node →
    cascade.values.getD node 0 ≠ old.getD node 0 →
    owed node (.gate gate) ∨ .mark gate ∈ cascade.events
  marks : ∀ gate, .mark gate ∈ cascade.events →
    ∃ node, .gate gate ∈ netlist.listenersOf node ∧
      cascade.values.getD node 0 ≠ old.getD node 0

/-- The listeners of waiting nodes, and the rest of the listeners of a node that is being taken. -/
def Owed (pending : List Nat) (node : Nat) (rest : List Listener) (source : Nat)
    (listener : Listener) : Prop := source ∈ pending ∨ source = node ∧ listener ∈ rest

def kept (netlist : Netlist) (old values : Array Word) : Finset (Nat × Nat) :=
  (Finset.range netlist.size ×ˢ Finset.range 16).filter fun place =>
    bitOf values place.1 place.2 = bitOf old place.1 place.2

/-- A bound on the nodes that are still to be taken. -/
def potential (netlist : Netlist) (old : Array Word) (cascade : Cascade) : Nat :=
  cascade.pending.length + (kept netlist old cascade.values).card

variable {netlist : Netlist} {old start : Array Word} {owed : Nat → Listener → Prop}
  {cascade : Cascade}

theorem InStep.imp (h : InStep netlist old start owed cascade) {owed' : Nat → Listener → Prop}
    (himp : ∀ source listener, listener ∈ netlist.listenersOf source → owed source listener →
      owed' source listener) : InStep netlist old start owed' cascade where
  size := h.size
  links source link hlink bit hbit :=
    (h.links source link hlink bit hbit).imp_right fun howed => ⟨himp _ _ hlink howed.1, howed.2⟩
  others := h.others
  pending := h.pending
  heard node gate hgate hchanged := (h.heard node gate hgate hchanged).imp_left (himp _ _ hgate)
  marks := h.marks

theorem InStep.notify_gate {node gate : Nat} {rest : List Listener} {value : Word}
    (h : InStep netlist old start (Owed cascade.pending node (.gate gate :: rest)) cascade)
    (hlistens : .gate gate ∈ netlist.listenersOf node)
    (hchanged : cascade.values.getD node 0 ≠ old.getD node 0) :
    InStep netlist old start (Owed (notify value cascade (.gate gate)).pending node rest)
      (notify value cascade (.gate gate)) where
  size := h.size
  links source link hlink bit hbit := by
    refine (h.links source link hlink bit hbit).imp_right fun ⟨howed, hold⟩ => ⟨?_, hold⟩
    rcases howed with hwaiting | ⟨hsame, hmem⟩
    · exact .inl hwaiting
    · exact .inr ⟨hsame, (List.mem_cons.mp hmem).resolve_left (by simp)⟩
  others := h.others
  pending := h.pending
  heard other heardGate hgate hother := by
    rcases h.heard other heardGate hgate hother with (hwaiting | ⟨hsame, hmem⟩) | hmark
    · exact .inl (.inl hwaiting)
    · rcases List.mem_cons.mp hmem with heq | hmem
      · rw [Listener.gate.inj heq]
        exact .inr List.mem_cons_self
      · exact .inl (.inr ⟨hsame, hmem⟩)
    · exact .inr (List.mem_cons_of_mem _ hmark)
  marks marked hmark := by
    rcases List.mem_cons.mp hmark with heq | hmark
    · rw [Event.mark.inj heq]
      exact ⟨node, hlistens, hchanged⟩
    · exact h.marks marked hmark

/-- A link that has nothing to do is no longer owed. -/
theorem InStep.drop_link {node : Nat} {link : Link} {rest : List Listener}
    (h : InStep netlist old start (Owed cascade.pending node (.link link :: rest)) cascade)
    (hholds : link.Holds node cascade.values) :
    InStep netlist old start (Owed cascade.pending node rest) cascade where
  size := h.size
  links source other hother bit hbit := by
    rcases h.links source other hother bit hbit with hsame | ⟨howed, hold⟩
    · exact .inl hsame
    · rcases howed with hwaiting | ⟨rfl, hmem⟩
      · exact .inr ⟨.inl hwaiting, hold⟩
      · rcases List.mem_cons.mp hmem with heq | hmem
        · obtain rfl := Listener.link.inj heq
          exact .inl (hholds bit hbit)
        · exact .inr ⟨.inr ⟨rfl, hmem⟩, hold⟩
  others := h.others
  pending := h.pending
  heard other gate hgate hchanged := by
    refine (h.heard other gate hgate hchanged).imp_left fun howed => ?_
    rcases howed with hwaiting | ⟨hsame, hmem⟩
    · exact .inl hwaiting
    · exact .inr ⟨hsame, (List.mem_cons.mp hmem).resolve_left (by simp)⟩
  marks := h.marks

section Flip

variable {node : Nat} {link : Link} {rest : List Listener}

def flip (cascade : Cascade) (link : Link) (value : Word) : Cascade :=
  let new := link.targetBits.splice (cascade.values.getD link.target 0) (link.bits.extract value)
  ⟨cascade.values.setIfInBounds link.target new, link.target :: cascade.pending,
    .change link.target new :: cascade.events⟩

theorem bitOf_flip (htidy : netlist.IsTidy) (hleads : netlist.Leads node link)
    (hsize : cascade.values.size = netlist.size) (other bit : Nat) :
    bitOf (flip cascade link (cascade.values.getD node 0)).values other bit =
      if link.target = other ∧ link.targetBits.Covers bit then
        bitOf cascade.values node (link.sourceBit bit)
      else bitOf cascade.values other bit := by
  have htarget : link.target < cascade.values.size := by
    rw [hsize]
    exact htidy.target_lt node link hleads
  rw [bitOf, flip, getD_setIfInBounds htarget]
  by_cases hsame : link.target = other
  · subst hsame
    rw [if_pos rfl, getLsbD_follow (htidy.even node link hleads)]
    simp only [true_and]
    rfl
  · rw [if_neg hsame, if_neg fun h => hsame h.1]
    rfl

/-- A bit that a link changes had its old value before. -/
theorem InStep.old_of_flipped (htidy : netlist.IsTidy) (hleads : netlist.Leads node link)
    (h : InStep netlist old start (Owed cascade.pending node (.link link :: rest)) cascade)
    {other bit : Nat}
    (hne : bitOf (flip cascade link (cascade.values.getD node 0)).values other bit ≠
      bitOf cascade.values other bit) :
    link.target = other ∧ link.targetBits.Covers bit ∧
      bitOf cascade.values other bit = bitOf old other bit := by
  rw [bitOf_flip htidy hleads h.size] at hne
  split at hne
  · rename_i hcovers
    obtain ⟨rfl, hcovers⟩ := hcovers
    rcases h.links node link hleads bit hcovers with hsame | ⟨-, hold⟩
    · exact absurd hsame.symm hne
    · exact ⟨rfl, hcovers, hold⟩
  · exact absurd rfl hne

/-- A node that had changed before a link was followed has still changed. -/
theorem InStep.changed_flip (htidy : netlist.IsTidy) (hleads : netlist.Leads node link)
    (h : InStep netlist old start (Owed cascade.pending node (.link link :: rest)) cascade)
    {other : Nat} (hchanged : cascade.values.getD other 0 ≠ old.getD other 0) :
    (flip cascade link (cascade.values.getD node 0)).values.getD other 0 ≠ old.getD other 0 := by
  obtain ⟨bit, -, hbit⟩ := exists_bit_of_ne hchanged
  apply @getD_ne_of_bit _ _ _ bit
  by_cases hsame : bitOf (flip cascade link (cascade.values.getD node 0)).values other bit =
      bitOf cascade.values other bit
  · rwa [hsame]
  · exact absurd (h.old_of_flipped htidy hleads hsame).2.2 hbit

/-- The target of a link that is followed has changed. -/
theorem InStep.target_flip (htidy : netlist.IsTidy) (hleads : netlist.Leads node link)
    (h : InStep netlist old start (Owed cascade.pending node (.link link :: rest)) cascade)
    (hflips : (flip cascade link (cascade.values.getD node 0)).values.getD link.target 0 ≠
      cascade.values.getD link.target 0) :
    ∃ bit < 16, bitOf cascade.values link.target bit = bitOf old link.target bit ∧
      bitOf (flip cascade link (cascade.values.getD node 0)).values link.target bit ≠
        bitOf old link.target bit := by
  obtain ⟨bit, hlt, hbit⟩ := exists_bit_of_ne hflips
  obtain ⟨-, -, hold⟩ := h.old_of_flipped htidy hleads hbit
  exact ⟨bit, hlt, hold, by rwa [← hold]⟩

/-- Once a link is followed, each bit of a link either agrees or waits to be followed. -/
theorem InStep.links_flip (htidy : netlist.IsTidy)
    (hold : ∀ source link, netlist.Leads source link → link.Holds source old)
    (hleads : netlist.Leads node link)
    (h : InStep netlist old start (Owed cascade.pending node (.link link :: rest)) cascade)
    {source : Nat} {other : Link} (hother : netlist.Leads source other) {bit : Nat}
    (hcovers : other.targetBits.Covers bit) :
    let values := (Cascade.flip cascade link (cascade.values.getD node 0)).values
    bitOf values other.target bit = bitOf values source (other.sourceBit bit) ∨
      Owed (link.target :: cascade.pending) node rest source (.link other) ∧
        bitOf values other.target bit = bitOf old other.target bit := by
  have hbits := bitOf_flip htidy hleads h.size
  by_cases hthis : link.target = other.target ∧ link.targetBits.Covers bit
  · -- the bit that the link copies now agrees
    obtain ⟨rfl, rfl⟩ := htidy.apart _ _ _ _ bit hleads hother hthis.1 hthis.2 hcovers
    left
    rw [hbits link.target, if_pos hthis, hbits node,
      if_neg fun hsame => htidy.no_loop node link hleads hsame.1]
  · simp only
    rw [hbits other.target, if_neg hthis]
    by_cases hsource : bitOf (Cascade.flip cascade link (cascade.values.getD node 0)).values source
        (other.sourceBit bit) = bitOf cascade.values source (other.sourceBit bit)
    · rw [hsource]
      rcases h.links source other hother bit hcovers with hsame | ⟨howed, hwas⟩
      · exact .inl hsame
      · rcases howed with hwaiting | ⟨rfl, hmem⟩
        · exact .inr ⟨.inl (List.mem_cons_of_mem _ hwaiting), hwas⟩
        · rcases List.mem_cons.mp hmem with heq | hmem
          · obtain rfl := Listener.link.inj heq
            exact absurd ⟨rfl, hcovers⟩ hthis
          · exact .inr ⟨.inr ⟨rfl, hmem⟩, hwas⟩
    · -- the bit that is copied from has just changed, so it waits to be followed
      obtain ⟨rfl, -, hsourceOld⟩ := h.old_of_flipped htidy hleads hsource
      refine .inr ⟨.inl List.mem_cons_self, ?_⟩
      rcases h.links _ other hother bit hcovers with hsame | ⟨-, hwas⟩
      · rw [hsame, hsourceOld, hold _ other hother bit hcovers]
      · exact hwas

/-- Following a link that changes its target keeps the cascade in step. -/
theorem InStep.flip (htidy : netlist.IsTidy)
    (hold : ∀ source link, netlist.Leads source link → link.Holds source old)
    (hleads : netlist.Leads node link)
    (h : InStep netlist old start (Owed cascade.pending node (.link link :: rest)) cascade)
    (hflips : (Cascade.flip cascade link (cascade.values.getD node 0)).values.getD link.target 0 ≠
      cascade.values.getD link.target 0) :
    InStep netlist old start
      (Owed (Cascade.flip cascade link (cascade.values.getD node 0)).pending node rest)
      (Cascade.flip cascade link (cascade.values.getD node 0)) := by
  have htarget :
      (Cascade.flip cascade link (cascade.values.getD node 0)).values.getD link.target 0 ≠
        old.getD link.target 0 := by
    obtain ⟨bit, -, -, hne⟩ := h.target_flip htidy hleads hflips
    exact getD_ne_of_bit hne
  refine ⟨?_, fun source other hother bit => h.links_flip htidy hold hleads hother, ?_, ?_, ?_, ?_⟩
  · rw [Cascade.flip, Array.size_setIfInBounds]
    exact h.size
  · intro other bit hcopied
    rw [bitOf_flip htidy hleads h.size, if_neg, h.others other bit hcopied]
    intro hboth
    obtain ⟨rfl, hcovers⟩ := hboth
    exact hcopied ⟨node, link, hleads, rfl, hcovers⟩
  · intro other hother
    rcases List.mem_cons.mp hother with rfl | hother
    · exact htarget
    · exact h.changed_flip htidy hleads (h.pending other hother)
  · intro other gate hgate hchanged
    by_cases hbefore : cascade.values.getD other 0 = old.getD other 0
    · left
      left
      have hne : (Cascade.flip cascade link (cascade.values.getD node 0)).values.getD other 0 ≠
          cascade.values.getD other 0 := by rwa [hbefore]
      obtain ⟨bit, -, hbit⟩ := exists_bit_of_ne hne
      rw [(h.old_of_flipped htidy hleads hbit).1.symm]
      exact List.mem_cons_self
    · rcases h.heard other gate hgate hbefore with howed | hmark
      · left
        rcases howed with hwaiting | ⟨hsame, hmem⟩
        · exact .inl (List.mem_cons_of_mem _ hwaiting)
        · exact .inr ⟨hsame, (List.mem_cons.mp hmem).resolve_left (by simp)⟩
      · exact .inr (List.mem_cons_of_mem _ hmark)
  · intro gate hmark
    obtain ⟨other, hgate, hchanged⟩ := h.marks gate
      ((List.mem_cons.mp hmark).resolve_left (by simp))
    exact ⟨other, hgate, h.changed_flip htidy hleads hchanged⟩

/-- A node more waits, but a bit less has its old value. -/
theorem InStep.potential_flip (htidy : netlist.IsTidy) (hleads : netlist.Leads node link)
    (h : InStep netlist old start (Owed cascade.pending node (.link link :: rest)) cascade)
    (hflips : (Cascade.flip cascade link (cascade.values.getD node 0)).values.getD link.target 0 ≠
      cascade.values.getD link.target 0) :
    potential netlist old (Cascade.flip cascade link (cascade.values.getD node 0)) ≤
      potential netlist old cascade := by
  obtain ⟨bit, hlt, hwas, hne⟩ := h.target_flip htidy hleads hflips
  have hkept : kept netlist old (Cascade.flip cascade link (cascade.values.getD node 0)).values ⊂
      kept netlist old cascade.values := by
    refine Finset.ssubset_iff_subset_ne.mpr ⟨fun place hplace => ?_, fun heq => ?_⟩
    · simp only [kept, Finset.mem_filter] at hplace ⊢
      refine ⟨hplace.1, ?_⟩
      by_cases hsame : bitOf (Cascade.flip cascade link (cascade.values.getD node 0)).values place.1
          place.2 = bitOf cascade.values place.1 place.2
      · rw [← hsame]
        exact hplace.2
      · exact (h.old_of_flipped htidy hleads hsame).2.2
    · have hmem : (link.target, bit) ∈ kept netlist old cascade.values := by
        simp only [kept, Finset.mem_filter, Finset.mem_product, Finset.mem_range]
        exact ⟨⟨htidy.target_lt node link hleads, hlt⟩, hwas⟩
      rw [← heq] at hmem
      simp only [kept, Finset.mem_filter] at hmem
      exact hne hmem.2
  have hcard := Finset.card_lt_card hkept
  have hlength : (Cascade.flip cascade link (cascade.values.getD node 0)).pending.length =
      cascade.pending.length + 1 := rfl
  unfold potential
  omega

end Flip

/-- Notifying one listener keeps the cascade in step and does not put off its end. -/
theorem InStep.notify (htidy : netlist.IsTidy)
    (hold : ∀ source link, netlist.Leads source link → link.Holds source old) {node : Nat}
    {listener : Listener} {rest : List Listener} (hlistener : listener ∈ netlist.listenersOf node)
    (h : InStep netlist old start (Owed cascade.pending node (listener :: rest)) cascade)
    (hchanged : cascade.values.getD node 0 ≠ old.getD node 0) :
    InStep netlist old start
        (Owed (Cascade.notify (cascade.values.getD node 0) cascade listener).pending node rest)
        (Cascade.notify (cascade.values.getD node 0) cascade listener) ∧
      (Cascade.notify (cascade.values.getD node 0) cascade listener).values.getD node 0 =
        cascade.values.getD node 0 ∧
      potential netlist old (Cascade.notify (cascade.values.getD node 0) cascade listener) ≤
        potential netlist old cascade := by
  cases listener with
  | gate gate => exact ⟨h.notify_gate hlistener hchanged, rfl, Nat.le_refl _⟩
  | link link =>
    have htarget : link.target < cascade.values.size := by
      rw [h.size]
      exact htidy.target_lt node link hlistener
    have hvalue :
        (Cascade.flip cascade link (cascade.values.getD node 0)).values.getD link.target 0 =
          link.targetBits.splice (cascade.values.getD link.target 0)
            (link.bits.extract (cascade.values.getD node 0)) := by
      rw [Cascade.flip, getD_setIfInBounds htarget, if_pos rfl]
    by_cases hsame : link.targetBits.splice (cascade.values.getD link.target 0)
        (link.bits.extract (cascade.values.getD node 0)) = cascade.values.getD link.target 0
    · have hnotify : Cascade.notify (cascade.values.getD node 0) cascade (.link link) =
        cascade := by
        simp only [Cascade.notify, hsame, if_true]
      rw [hnotify]
      refine ⟨h.drop_link fun bit hcovers => ?_, rfl, Nat.le_refl _⟩
      have hbit := bitOf_flip htidy hlistener h.size link.target bit
      rw [if_pos ⟨rfl, hcovers⟩, bitOf, hvalue, hsame] at hbit
      exact hbit
    · have hnotify : Cascade.notify (cascade.values.getD node 0) cascade (.link link) =
          Cascade.flip cascade link (cascade.values.getD node 0) := by
        simp only [Cascade.notify, hsame, if_false, Cascade.flip]
      have hflips :
          (Cascade.flip cascade link (cascade.values.getD node 0)).values.getD link.target 0 ≠
            cascade.values.getD link.target 0 := by rwa [hvalue]
      rw [hnotify]
      refine ⟨h.flip htidy hold hlistener hflips, ?_, h.potential_flip htidy hlistener hflips⟩
      rw [Cascade.flip, getD_setIfInBounds htarget, if_neg (htidy.no_loop node link hlistener)]

theorem InStep.foldl_notify (htidy : netlist.IsTidy)
    (hold : ∀ source link, netlist.Leads source link → link.Holds source old) {node : Nat}
    {listeners : List Listener} (hlisteners : ∀ listener ∈ listeners,
      listener ∈ netlist.listenersOf node)
    (h : InStep netlist old start (Owed cascade.pending node listeners) cascade)
    (hchanged : cascade.values.getD node 0 ≠ old.getD node 0) :
    let last := listeners.foldl (Cascade.notify (cascade.values.getD node 0)) cascade
    InStep netlist old start (Owed last.pending node []) last ∧
      potential netlist old last ≤ potential netlist old cascade := by
  induction listeners generalizing cascade with
  | nil => exact ⟨h, Nat.le_refl _⟩
  | cons listener rest ih =>
    obtain ⟨hnext, hvalue, hle⟩ := h.notify htidy hold (hlisteners listener List.mem_cons_self)
      hchanged
    have hrest := ih (fun other hother => hlisteners other (List.mem_cons_of_mem _ hother)) hnext
      (by rwa [hvalue])
    rw [hvalue] at hrest
    exact ⟨hrest.1, Nat.le_trans hrest.2 hle⟩

def InStepNow (netlist : Netlist) (old start : Array Word) (cascade : Cascade) : Prop :=
  InStep netlist old start (fun node _ => node ∈ cascade.pending) cascade

/-- A node that no link leads to has just been given a new value. -/
theorem inStepNow_change {node : Nat} {value : Word} {events : List Event}
    (hsize : old.size = netlist.size)
    (hold : ∀ source link, netlist.Leads source link → link.Holds source old)
    (hnode : node < netlist.size) (hfree : ∀ bit, ¬ netlist.IsCopied node bit)
    (hne : old.getD node 0 ≠ value) (hmarks : ∀ gate, .mark gate ∉ events) :
    InStepNow netlist old (old.setIfInBounds node value)
      ⟨old.setIfInBounds node value, [node], events⟩ := by
  have hbound : node < old.size := hsize ▸ hnode
  have hother : ∀ other, node ≠ other → ∀ bit,
      bitOf (old.setIfInBounds node value) other bit = bitOf old other bit := by
    intro other hdiffers bit
    rw [bitOf, getD_setIfInBounds hbound, if_neg hdiffers, bitOf]
  refine ⟨?_, fun source link hlink bit hcovers => ?_, fun _ _ _ => rfl, ?_, ?_, ?_⟩
  · rw [Array.size_setIfInBounds]
    exact hsize
  · have htarget : node ≠ link.target := by
      intro hsame
      subst hsame
      exact hfree bit ⟨source, link, hlink, rfl, hcovers⟩
    by_cases hsource : node = source
    · exact .inr ⟨List.mem_singleton.mpr hsource.symm, hother _ htarget bit⟩
    · left
      exact (hother _ htarget bit).trans
        ((hold source link hlink bit hcovers).trans (hother _ hsource _).symm)
  · intro waiting hwaiting
    rw [List.mem_singleton.mp hwaiting, getD_setIfInBounds hbound, if_pos rfl]
    exact Ne.symm hne
  · intro listened gate _ hdiffers
    left
    by_contra hnot
    apply hdiffers
    rw [getD_setIfInBounds hbound, if_neg fun hsame => hnot (List.mem_singleton.mpr hsame.symm)]
  · intro gate hmark
    exact absurd hmark (hmarks gate)

/-- All nodes that are not 0 are new, and no bit that is copied is set yet. -/
theorem inStepNow_all {pending : List Nat} (hsize : start.size = netlist.size)
    (hones : ∀ node bit, bitOf start node bit = true → ¬ netlist.IsCopied node bit)
    (hpending : ∀ node, node ∈ pending ↔ start.getD node 0 ≠ 0) :
    InStepNow netlist (Array.replicate netlist.size 0) start ⟨start, pending, []⟩ := by
  refine ⟨hsize, fun source link hlink bit hcovers => ?_, fun _ _ _ => rfl,
    fun node hnode => ?_, fun node gate _ hchanged => ?_, fun gate hmark => by cases hmark⟩
  · have htarget : bitOf start link.target bit = false := by
      rw [Bool.eq_false_iff]
      intro hone
      exact hones _ _ hone ⟨source, link, hlink, rfl, hcovers⟩
    by_cases hsource : start.getD source 0 = 0
    · left
      show bitOf start link.target bit = bitOf start source (link.sourceBit bit)
      rw [htarget, bitOf, hsource, getLsbD_zero]
    · exact .inr ⟨(hpending source).mpr hsource,
        htarget.trans (bitOf_replicate_zero _ _ _).symm⟩
  · rw [getD_replicate_zero]
    exact (hpending node).mp hnode
  · rw [getD_replicate_zero] at hchanged
    exact .inl ((hpending node).mpr hchanged)

/-- A step keeps the cascade in step and takes it nearer to its end. -/
theorem InStepNow.step (htidy : netlist.IsTidy)
    (hold : ∀ source link, netlist.Leads source link → link.Holds source old)
    (h : InStepNow netlist old start cascade) (hpending : cascade.pending ≠ []) :
    InStepNow netlist old start (Cascade.step netlist cascade) ∧
      potential netlist old (Cascade.step netlist cascade) + 1 ≤ potential netlist old cascade := by
  obtain ⟨values, pending, events⟩ := cascade
  cases pending with
  | nil => exact absurd rfl hpending
  | cons node rest =>
    have hchanged : values.getD node 0 ≠ old.getD node 0 := h.pending node List.mem_cons_self
    have htaken : InStep netlist old start (Owed rest node (netlist.listenersOf node))
        ⟨values, rest, events⟩ := by
      have himp : InStep netlist old start (Owed rest node (netlist.listenersOf node))
          ⟨values, node :: rest, events⟩ := InStep.imp h (by
        intro source listener hlistener howed
        rcases List.mem_cons.mp howed with rfl | howed
        · exact .inr ⟨rfl, hlistener⟩
        · exact .inl howed)
      exact ⟨himp.size, himp.links, himp.others,
        fun other hother => himp.pending other (List.mem_cons_of_mem _ hother), himp.heard,
        himp.marks⟩
    obtain ⟨hlast, hle⟩ := @InStep.foldl_notify _ _ _ ⟨values, rest, events⟩ htidy hold node
      (netlist.listenersOf node) (fun _ hlistener => hlistener) htaken hchanged
    refine ⟨hlast.imp fun source listener _ howed => ?_, ?_⟩
    · exact howed.resolve_right (by simp)
    · have hstep : potential netlist old ⟨values, rest, events⟩ + 1 =
          potential netlist old ⟨values, node :: rest, events⟩ := by
        simp only [potential, List.length_cons]
        omega
      rw [← hstep]
      exact Nat.succ_le_succ hle

/-- A cascade stays in step, and ends within as many steps as its potential tells. -/
theorem InStepNow.run (htidy : netlist.IsTidy)
    (hold : ∀ source link, netlist.Leads source link → link.Holds source old)
    (h : InStepNow netlist old start cascade) {steps : Nat}
    (hsteps : potential netlist old cascade ≤ steps) :
    InStepNow netlist old start (Cascade.run netlist steps cascade) ∧
      (Cascade.run netlist steps cascade).pending = [] := by
  induction steps generalizing cascade with
  | zero =>
    refine ⟨h, ?_⟩
    have hzero : cascade.pending.length = 0 := by
      unfold potential at hsteps
      omega
    exact List.length_eq_zero_iff.mp hzero
  | succ steps ih =>
    unfold Cascade.run
    split
    · rename_i hempty
      exact ⟨h, List.isEmpty_iff.mp hempty⟩
    · rename_i hempty
      obtain ⟨hstep, hle⟩ := h.step htidy hold fun hnil => hempty (List.isEmpty_iff.mpr hnil)
      exact ih hstep (by omega)

/-- What a cascade comes to that started from old values for which all links hold. -/
structure Spread (netlist : Netlist) (old start : Array Word) (last : Cascade) : Prop where
  ended : last.pending = []
  size : last.values.size = netlist.size
  holds : ∀ source link, netlist.Leads source link → link.Holds source last.values
  others : ∀ node bit, ¬ netlist.IsCopied node bit →
    bitOf last.values node bit = bitOf start node bit
  marks : ∀ gate, .mark gate ∈ last.events ↔
    ∃ node, .gate gate ∈ netlist.listenersOf node ∧ last.values.getD node 0 ≠ old.getD node 0

theorem spread_finish (htidy : netlist.IsTidy)
    (hold : ∀ source link, netlist.Leads source link → link.Holds source old)
    (h : InStepNow netlist old start cascade)
    (hpending : cascade.pending.length ≤ netlist.size + 1) :
    Spread netlist old start (cascade.finish netlist) := by
  have hsteps : potential netlist old cascade ≤ limit netlist := by
    have hcard : (kept netlist old cascade.values).card ≤ netlist.size * 16 := by
      apply Nat.le_trans (Finset.card_filter_le _ _)
      rw [Finset.card_product, Finset.card_range, Finset.card_range]
    unfold potential limit
    omega
  obtain ⟨hlast, hempty⟩ := h.run htidy hold hsteps
  have hnone : ∀ node, node ∉ (cascade.finish netlist).pending := by
    intro node hnode
    rw [finish, hempty] at hnode
    cases hnode
  refine ⟨hempty, hlast.size, fun source link hlink bit hcovers => ?_, hlast.others,
    fun gate => ⟨?_, ?_⟩⟩
  · exact (hlast.links source link hlink bit hcovers).resolve_right
      fun howed => hnone source howed.1
  · exact hlast.marks gate
  · intro hexists
    obtain ⟨node, hgate, hchanged⟩ := hexists
    exact (hlast.heard node gate hgate hchanged).resolve_left (hnone node)

/-- Once all links hold, a node has changed only where it was given a value or a link led to it
from a node that has changed. -/
theorem Spread.back {last : Cascade} (h : Spread netlist old start last)
    (hold : ∀ source link, netlist.Leads source link → link.Holds source old) {node : Nat}
    (hchanged : last.values.getD node 0 ≠ old.getD node 0) :
    start.getD node 0 ≠ old.getD node 0 ∨ ∃ source link, netlist.Leads source link ∧
      link.target = node ∧ last.values.getD source 0 ≠ old.getD source 0 := by
  obtain ⟨bit, -, hbit⟩ := exists_bit_of_ne hchanged
  by_cases hcopied : netlist.IsCopied node bit
  · obtain ⟨source, link, hlink, rfl, hcovers⟩ := hcopied
    rw [h.holds source link hlink bit hcovers, hold source link hlink bit hcovers] at hbit
    exact .inr ⟨source, link, hlink, rfl, getD_ne_of_bit hbit⟩
  · rw [h.others node bit hcopied] at hbit
    exact .inl (getD_ne_of_bit hbit)

end Cascade

end ClockedLogic
