import ClockedLogic.Proofs.Links

/-!
The assignments of a cascade, read off what the nodes hold from one notified listener to the next. A
listener changes one node at most, and the events of a cascade tell of these changes in their order
and of no others.
-/

namespace ClockedLogic

def changes (before after : Array Word) : List (Nat × Word) :=
  ((List.range (max before.size after.size)).filter fun node =>
    after.getD node 0 != before.getD node 0).map fun node => (node, after.getD node 0)

def assignments (before : Array Word) : List (Array Word) → List (Nat × Word)
  | [] => []
  | after :: rest => changes before after ++ assignments after rest

section

variable {before after : Array Word}

theorem filter_range_beq {node size : Nat} (h : node < size) :
    (List.range size).filter (· == node) = [node] := by
  rw [List.filter_beq, List.count_eq_one_of_mem List.nodup_range (List.mem_range.mpr h)]
  rfl

@[simp] theorem changes_self (values : Array Word) : changes values values = [] := by
  simp [changes]

/-- Giving one node a new value changes this node only. -/
theorem changes_setIfInBounds {values : Array Word} {node : Nat} {value : Word}
    (hnode : node < values.size) (hne : value ≠ values.getD node 0) :
    changes values (values.setIfInBounds node value) = [(node, value)] := by
  have hcongr : ∀ other ∈ List.range values.size,
      ((values.setIfInBounds node value).getD other 0 != values.getD other 0) =
        (other == node) := by
    intro other _
    rw [getD_setIfInBounds hnode, Bool.eq_iff_iff, bne_iff_ne, beq_iff_eq]
    split
    · rename_i hsame
      exact ⟨fun _ => hsame.symm, fun _ => hsame ▸ hne⟩
    · rename_i hother
      exact ⟨fun h => absurd rfl h, fun h => absurd h.symm hother⟩
  rw [changes, Array.size_setIfInBounds, Nat.max_self, List.filter_congr hcongr,
    filter_range_beq hnode, List.map_singleton, getD_setIfInBounds hnode, if_pos rfl]

/-- A node changes once or not at all. -/
theorem filter_changes (node : Nat) : (changes before after).filter (·.1 == node) =
    if after.getD node 0 = before.getD node 0 then [] else [(node, after.getD node 0)] := by
  have hsame : ((fun change : Nat × Word => change.1 == node) ∘
      fun other => (other, after.getD other 0)) = (· == node) := rfl
  rw [changes, List.filter_map, hsame, List.filter_filter]
  split
  · rename_i hkept
    rw [List.map_eq_nil_iff, List.filter_eq_nil_iff]
    rintro other - hboth
    rw [Bool.and_eq_true, beq_iff_eq, bne_iff_ne] at hboth
    exact hboth.2 (hboth.1 ▸ hkept)
  · rename_i hchanged
    have hmem : node < max before.size after.size := by
      by_contra hge
      have hbefore := Array.getElem?_eq_none (show before.size ≤ node by omega)
      have hafter := Array.getElem?_eq_none (show after.size ≤ node by omega)
      simp [Array.getD_eq_getD_getElem?, hbefore, hafter] at hchanged
    have hcongr : ∀ other ∈ List.range (max before.size after.size),
        (other == node && after.getD other 0 != before.getD other 0) = (other == node) := by
      intro other _
      rw [Bool.and_eq_left_iff_imp, beq_iff_eq]
      rintro rfl
      exact bne_iff_ne.mpr hchanged
    rw [List.filter_congr hcongr, filter_range_beq hmem, List.map_singleton]

theorem getLastD_append {α : Type} (before : α) (first rest : List α) :
    (first ++ rest).getLastD before = rest.getLastD (first.getLastD before) := by
  induction first generalizing before with
  | nil => rfl
  | cons after first ih => rw [List.cons_append, List.getLastD_cons, List.getLastD_cons, ih]

theorem isChain_cons_append {α : Type} {R : α → α → Prop} {before : α} {first rest : List α}
    (hfirst : List.IsChain R (before :: first))
    (hrest : List.IsChain R (first.getLastD before :: rest)) :
    List.IsChain R (before :: (first ++ rest)) := by
  induction first generalizing before with
  | nil => exact hrest
  | cons after first ih =>
    obtain ⟨hstep, hfirst⟩ := List.isChain_cons_cons.mp hfirst
    rw [List.getLastD_cons] at hrest
    exact List.isChain_cons_cons.mpr ⟨hstep, ih hfirst hrest⟩

theorem assignments_append (before : Array Word) (first rest : List (Array Word)) :
    assignments before (first ++ rest) =
      assignments before first ++ assignments (first.getLastD before) rest := by
  induction first generalizing before with
  | nil => rfl
  | cons after first ih =>
    rw [List.cons_append, assignments, assignments, ih, List.append_assoc, List.getLastD_cons]

end

def Event.change? : Event → Option (Nat × Word)
  | .mark _ => none
  | .change node value => some (node, value)

namespace Cascade

def told (cascade : Cascade) : List (Nat × Word) := cascade.eventList.filterMap Event.change?

/-- What the nodes hold each time one more listener has been notified. -/
def noticed (value : Word) : List Listener → Cascade → List (Array Word)
  | [], _ => []
  | listener :: rest, cascade =>
    (notify value cascade listener).values :: noticed value rest (notify value cascade listener)

def stepTimeline (netlist : Netlist) (cascade : Cascade) : List (Array Word) :=
  match cascade.pending with
  | [] => []
  | node :: rest =>
    noticed (cascade.values.getD node 0) (netlist.listenersOf node) { cascade with pending := rest }

def timeline (netlist : Netlist) : Nat → Cascade → List (Array Word)
  | 0, _ => []
  | steps + 1, cascade =>
    if cascade.pending.isEmpty then []
    else stepTimeline netlist cascade ++ timeline netlist steps (step netlist cascade)

structure Passes (netlist : Netlist) (cascade : Cascade) (course : List (Array Word))
    (after : Cascade) : Prop where
  told : after.told = cascade.told ++ assignments cascade.values course
  last : course.getLastD cascade.values = after.values
  /-- One node changes at a time. -/
  single : List.IsChain (fun before after => (changes before after).length ≤ 1)
    (cascade.values :: course)
  size : after.values.size = cascade.values.size
  marks : ∀ gate, .mark gate ∈ after.events →
    .mark gate ∈ cascade.events ∨ ∃ node, .gate gate ∈ netlist.listenersOf node

variable {netlist : Netlist} {cascade middle after : Cascade} {course rest : List (Array Word)}

theorem Passes.refl (cascade : Cascade) : Passes netlist cascade [] cascade :=
  ⟨(List.append_nil _).symm, rfl, List.isChain_singleton _, rfl, fun _ hmark => .inl hmark⟩

theorem Passes.trans (h : Passes netlist cascade course middle)
    (hrest : Passes netlist middle rest after) :
    Passes netlist cascade (course ++ rest) after where
  told := by
    rw [hrest.told, h.told, assignments_append, h.last, List.append_assoc]
  last := by
    rw [getLastD_append, h.last, hrest.last]
  single := isChain_cons_append h.single (h.last ▸ hrest.single)
  size := hrest.size.trans h.size
  marks gate hmark := (hrest.marks gate hmark).elim (h.marks gate) .inr

/-- Nothing of this depends on which nodes wait. -/
theorem Passes.of_pending {pending : List Nat}
    (h : Passes netlist { cascade with pending } course after) :
    Passes netlist cascade course after :=
  ⟨h.told, h.last, h.single, h.size, h.marks⟩

theorem told_cons {values : Array Word} {pending : List Nat} (cascade : Cascade) (event : Event) :
    told ⟨values, pending, event :: cascade.events⟩ = cascade.told ++ event.change?.toList := by
  simp only [told, eventList, List.reverse_cons, List.filterMap_append]
  cases event <;> rfl

theorem passes_self (cascade : Cascade) : Passes netlist cascade [cascade.values] cascade :=
  ⟨by simp [assignments], rfl, by simp, rfl, fun _ hmark => .inl hmark⟩

theorem passes_change {node : Nat} {value : Word} (hnode : node < cascade.values.size)
    (hne : value ≠ cascade.values.getD node 0) (pending : List Nat) :
    Passes netlist cascade [cascade.values.setIfInBounds node value]
      ⟨cascade.values.setIfInBounds node value, pending, .change node value :: cascade.events⟩ := by
  have hchanges := changes_setIfInBounds hnode hne
  refine ⟨?_, rfl, ?_, Array.size_setIfInBounds, fun gate hmark => .inl ?_⟩
  · rw [told_cons, assignments, assignments, hchanges]
    rfl
  · rw [List.isChain_pair, hchanges]
    exact Nat.le_refl 1
  · exact (List.mem_cons.mp hmark).resolve_left (by simp)

/-- A listener that is notified changes one node or none. -/
theorem passes_notify (htarget : ∀ source link, netlist.Leads source link →
      link.target < cascade.values.size) {node : Nat} {listener : Listener}
    (hlistens : listener ∈ netlist.listenersOf node) (value : Word) :
    Passes netlist cascade [(notify value cascade listener).values]
      (notify value cascade listener) := by
  cases listener with
  | gate index =>
    have hself := @passes_self netlist cascade
    refine ⟨?_, hself.last, hself.single, rfl, fun gate hmark => ?_⟩
    · rw [notify, told_cons, hself.told]
      simp [assignments, Event.change?]
    · rcases List.mem_cons.mp hmark with heq | hbefore
      · exact .inr ⟨node, Event.mark.inj heq ▸ hlistens⟩
      · exact .inl hbefore
  | link link =>
    by_cases hsame : link.targetBits.splice (cascade.values.getD link.target 0)
        (link.bits.extract value) = cascade.values.getD link.target 0
    · -- the target agrees already
      have hnotify : notify value cascade (.link link) = cascade := by
        simp only [notify, hsame, if_true]
      rw [hnotify]
      exact passes_self cascade
    · simp only [notify, if_neg hsame]
      exact passes_change (htarget node link hlistens) hsame _

theorem passes_foldl (htarget : ∀ source link, netlist.Leads source link →
      link.target < cascade.values.size) {node : Nat} {listeners : List Listener}
    (hlisten : ∀ listener ∈ listeners, listener ∈ netlist.listenersOf node) (value : Word) :
    Passes netlist cascade (noticed value listeners cascade)
      (listeners.foldl (notify value) cascade) := by
  induction listeners generalizing cascade with
  | nil => exact .refl cascade
  | cons listener listeners ih =>
    obtain ⟨hfirst, hrest⟩ := List.forall_mem_cons.mp hlisten
    have hnotified := passes_notify htarget hfirst value
    exact hnotified.trans
      (ih (fun source link hlink => hnotified.size ▸ htarget source link hlink) hrest)

theorem passes_step (htarget : ∀ source link, netlist.Leads source link →
      link.target < cascade.values.size) :
    Passes netlist cascade (stepTimeline netlist cascade) (step netlist cascade) := by
  rw [stepTimeline, step]
  cases cascade.pending with
  | nil => exact .refl cascade
  | cons node rest =>
    exact .of_pending (@passes_foldl netlist { cascade with pending := rest } htarget node _
      (fun _ hmem => hmem) _)

/-- A cascade tells of what changes in its course, from one notified listener to the next. -/
theorem passes_run (htarget : ∀ source link, netlist.Leads source link →
      link.target < cascade.values.size) (steps : Nat) :
    Passes netlist cascade (timeline netlist steps cascade) (run netlist steps cascade) := by
  induction steps generalizing cascade with
  | zero => exact .refl cascade
  | succ steps ih =>
    unfold timeline run
    split
    · exact .refl cascade
    · have hstep := passes_step htarget
      exact hstep.trans (ih fun source link hlink => hstep.size ▸ htarget source link hlink)

end Cascade

end ClockedLogic
