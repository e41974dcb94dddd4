import ClockedLogic.Gate.Placement
import ClockedLogic.Proofs.Wiring

/-!
Carrying out statements. Statements that only mention nodes which exist by then, and whose links
join equally many bits, are carried out without a fault. The netlist they make has just the
listeners that they ask for, and a bit starts as one just where a statement raises it.
-/

namespace ClockedLogic

def spanAt (width : Nat → Nat) (node : Nat) (bits : Option BitSpan) : BitSpan :=
  bits.getD (.whole (width node))

theorem spanAt_eq {width : Nat → Nat} {node : Nat} {pin : Pin} (h : width node = pin.width)
    (bits : Option BitSpan) : spanAt width node bits = pin.spanOf bits := by
  rw [spanAt, h, Pin.spanOf]

namespace Netlist

/-- All links into a node, each as often as it has been added. -/
def linksInto (netlist : Netlist) (node : Nat) : List Link :=
  netlist.listeners.toList.flatten.filterMap fun
    | .link link => if link.target = node then some link else none
    | .gate _ => none

theorem flatten_set_append {α : Type} {lists : List (List α)} {position : Nat} {list : List α}
    (h : lists[position]? = some list) (added : α) :
    (lists.set position (list ++ [added])).flatten.Perm (lists.flatten ++ [added]) := by
  induction lists generalizing position with
  | nil => simp at h
  | cons first rest ih =>
    cases position with
    | zero =>
      obtain rfl := Option.some.inj h
      simp only [List.set_cons_zero, List.flatten_cons, List.append_assoc]
      exact List.perm_append_comm.append_left first
    | succ position =>
      simp only [List.set_cons_succ, List.flatten_cons, List.append_assoc]
      exact (ih h).append_left first

/-- A listener that is added is added to the links into its target, if it is a link. -/
theorem linksInto_addListener {netlist : Netlist} {source : Nat}
    (hsource : source < netlist.listeners.size) (listener : Listener) (node : Nat) :
    ((netlist.addListener source listener).linksInto node).Perm
      (netlist.linksInto node ++ [listener].filterMap fun
        | .link link => if link.target = node then some link else none
        | .gate _ => none) := by
  have hfound : netlist.listeners.toList[source]? = some (netlist.listenersOf source) := by
    simp [listenersOf, Array.getD_eq_getD_getElem?, hsource]
  simp only [linksInto, addListener, Array.toList_setIfInBounds]
  rw [← List.filterMap_append]
  exact (flatten_set_append hfound listener).filterMap _

end Netlist

namespace Statement

def added : Statement → Nat
  | .node _ => 1
  | _ => 0

def nodeCount : List Statement → Nat
  | [] => 0
  | statement :: rest => statement.added + nodeCount rest

/-- Whether each of some statements is as it should be, given the number of nodes before it. -/
def Throughout (good : Nat → Statement → Prop) : Nat → List Statement → Prop
  | _, [] => True
  | size, statement :: rest =>
    good size statement ∧ Throughout good (size + statement.added) rest

def HasWidth (width : Nat → Nat) (size : Nat) : Statement → Prop
  | .node added => width size = added
  | _ => True

def IsFeasible (width : Nat → Nat) (size : Nat) : Statement → Prop
  | .node added => added ≤ 16
  | .listen source _ => source < size
  | .link source bits target targetBits =>
    source < size ∧ target < size ∧
      (spanAt width source bits).width = (spanAt width target targetBits).width
  | .raise target _ => target < size

def Adds (width : Nat → Nat) (node : Nat) (listener : Listener) : Statement → Prop
  | .listen listened gate => node = listened ∧ listener = .gate gate
  | .link source bits target targetBits =>
    node = source ∧
      listener = .link ⟨spanAt width source bits, target, spanAt width target targetBits⟩
  | _ => False

def Raises (width : Nat → Nat) (node bit : Nat) : Statement → Prop
  | .raise raised bits => node = raised ∧ (spanAt width raised bits).Covers bit
  | _ => False

def linkInto? (width : Nat → Nat) (node : Nat) : Statement → Option Link
  | .link source bits target targetBits =>
    if target = node then
      some ⟨spanAt width source bits, target, spanAt width target targetBits⟩
    else none
  | _ => none

@[simp] theorem nodeCount_nil : nodeCount [] = 0 := rfl

@[simp] theorem nodeCount_cons (statement : Statement) (rest : List Statement) :
    nodeCount (statement :: rest) = statement.added + nodeCount rest := rfl

@[simp] theorem nodeCount_append (first second : List Statement) :
    nodeCount (first ++ second) = nodeCount first + nodeCount second := by
  induction first with
  | nil => simp
  | cons statement rest ih =>
    rw [List.cons_append, nodeCount_cons, nodeCount_cons, ih, Nat.add_assoc]

theorem nodeCount_nodes (pins : List Pin) :
    nodeCount (pins.map fun pin => .node pin.width) = pins.length := by
  induction pins with
  | nil => rfl
  | cons pin rest ih =>
    rw [List.map_cons, nodeCount_cons, ih, added, List.length_cons, Nat.add_comm]

theorem nodeCount_eq_zero {statements : List Statement}
    (h : ∀ statement ∈ statements, statement.added = 0) : nodeCount statements = 0 := by
  induction statements with
  | nil => rfl
  | cons statement rest ih =>
    rw [nodeCount_cons, h statement List.mem_cons_self, Nat.zero_add]
    exact ih fun other hother => h other (List.mem_cons_of_mem _ hother)

variable {good : Nat → Statement → Prop}

theorem throughout_append (size : Nat) (first second : List Statement) :
    Throughout good size (first ++ second) ↔
      Throughout good size first ∧ Throughout good (size + nodeCount first) second := by
  induction first generalizing size with
  | nil => simp [Throughout]
  | cons statement rest ih =>
    rw [List.cons_append, Throughout, Throughout, ih, nodeCount_cons, and_assoc, Nat.add_assoc]

/-- Statements that add no nodes can be looked at one by one. -/
theorem throughout_of_forall {size : Nat} {statements : List Statement}
    (h : ∀ statement ∈ statements, statement.added = 0 ∧ good size statement) :
    Throughout good size statements := by
  induction statements with
  | nil => trivial
  | cons statement rest ih =>
    obtain ⟨hadded, hgood⟩ := h statement List.mem_cons_self
    rw [Throughout, hadded]
    exact ⟨hgood, ih fun other hother => h other (List.mem_cons_of_mem _ hother)⟩

theorem Throughout.exists_of_mem {size : Nat} {statements : List Statement}
    (h : Throughout good size statements) {statement : Statement} (hmem : statement ∈ statements) :
    ∃ now, good now statement := by
  induction statements generalizing size with
  | nil => cases hmem
  | cons first rest ih =>
    rcases List.mem_cons.mp hmem with rfl | hmem
    · exact ⟨size, h.1⟩
    · exact ih h.2 hmem

/-- So can statements that are as they should be at any time. -/
theorem throughout_of_always {statements : List Statement}
    (h : ∀ statement ∈ statements, ∀ size, good size statement) (size : Nat) :
    Throughout good size statements := by
  induction statements generalizing size with
  | nil => trivial
  | cons statement rest ih =>
    exact ⟨h statement List.mem_cons_self size,
      ih (fun other hother => h other (List.mem_cons_of_mem _ hother)) _⟩

end Statement

namespace Draft

variable {width : Nat → Nat} {draft : Draft}

structure HasWidths (width : Nat → Nat) (draft : Draft) : Prop where
  listeners_size : draft.netlist.listeners.size = draft.size
  values_size : draft.values.size = draft.size
  width_eq : ∀ node < draft.size, draft.netlist.width node = width node
  width_le : ∀ node < draft.size, width node ≤ 16

theorem hasWidths_empty (width : Nat → Nat) : HasWidths width empty :=
  ⟨rfl, rfl, fun _ h => absurd h (Nat.not_lt_zero _), fun _ h => absurd h (Nat.not_lt_zero _)⟩

theorem spanOf_eq_ok (h : HasWidths width draft) {node : Nat} (hnode : node < draft.size)
    (bits : Option BitSpan) : draft.spanOf node bits = .ok (spanAt width node bits) := by
  cases bits with
  | some span => rfl
  | none =>
    have hle := h.width_le node hnode
    have hmax : max (width node) 1 - 1 < 16 := by omega
    simp only [spanOf, h.width_eq node hnode, BitSpan.ofWidth, BitSpan.ofBounds,
      BitSpan.ofBounds?, hmax, Nat.zero_le, and_self, dite_true, spanAt, Option.getD_none,
      BitSpan.whole]
    congr
    omega

structure Executed (width : Nat → Nat) (draft : Draft) (statements : List Statement)
    (result : Draft) : Prop where
  hasWidths : HasWidths width result
  size : result.size = draft.size + Statement.nodeCount statements
  listeners : ∀ node listener, listener ∈ result.netlist.listenersOf node ↔
    listener ∈ draft.netlist.listenersOf node ∨
      ∃ statement ∈ statements, statement.Adds width node listener
  links : ∀ node, (result.netlist.linksInto node).Perm
    (draft.netlist.linksInto node ++ statements.filterMap (·.linkInto? width node))
  values : ∀ node bit, (result.values.getD node 0).getLsbD bit = true ↔
    (draft.values.getD node 0).getLsbD bit = true ∨
      ∃ statement ∈ statements, statement.Raises width node bit

theorem Executed.refl (h : HasWidths width draft) : Executed width draft [] draft :=
  ⟨h, rfl, by simp, by simp, by simp⟩

theorem Executed.trans {first second : List Statement} {middle last : Draft}
    (h : Executed width draft first middle) (h' : Executed width middle second last) :
    Executed width draft (first ++ second) last where
  hasWidths := h'.hasWidths
  size := by rw [h'.size, h.size, Statement.nodeCount_append, Nat.add_assoc]
  listeners node listener := by
    rw [h'.listeners, h.listeners, or_assoc]
    simp only [List.mem_append, or_and_right, exists_or]
  links node := by
    rw [List.filterMap_append, ← List.append_assoc]
    exact (h'.links node).trans ((h.links node).append_right _)
  values node bit := by
    rw [h'.values, h.values, or_assoc]
    simp only [List.mem_append, or_and_right, exists_or]

theorem executed_node (h : HasWidths width draft) {added : Nat} (hwidth : width draft.size = added)
    (hle : added ≤ 16) : Executed width draft [.node added] (draft.addNode added) where
  hasWidths := by
    have hsize : (draft.addNode added).size = draft.size + 1 := by simp [size, addNode]
    refine ⟨?_, ?_, fun node hnode => ?_, fun node hnode => ?_⟩
    · simp [addNode, Netlist.addNode, h.listeners_size, size, Netlist.size]
    · rw [hsize]
      simp [addNode, h.values_size]
    · rcases Nat.lt_or_ge node draft.size with hlt | hge
      · have hold := h.width_eq node hlt
        unfold size Netlist.size at hlt
        simp only [Netlist.width, addNode, Netlist.addNode, Array.getD_eq_getD_getElem?] at hold ⊢
        rw [Array.getElem?_push_lt hlt]
        rwa [Array.getElem?_eq_getElem hlt] at hold
      · have heq : node = draft.size := by omega
        subst heq
        rw [hwidth]
        simp [Netlist.width, addNode, Netlist.addNode, size, Netlist.size]
    · rcases Nat.lt_or_ge node draft.size with hlt | hge
      · exact h.width_le node hlt
      · have heq : node = draft.size := by omega
        rw [heq, hwidth]
        exact hle
  size := by simp [size, addNode, Statement.added]
  listeners node listener := by
    simp [addNode, Netlist.listenersOf_addNode, Statement.Adds]
  links node := by
    simp [Netlist.linksInto, addNode, Netlist.addNode, Statement.linkInto?]
  values node bit := by
    have hsame : (draft.addNode added).values.getD node 0 = draft.values.getD node 0 := by
      simp only [addNode, Array.getD_eq_getD_getElem?, Array.getElem?_push]
      split
      · rename_i heq
        simp [heq]
      · rfl
    rw [hsame]
    simp [Statement.Raises]

/-- A draft that differs in its listeners only has the same widths. -/
theorem HasWidths.addListener (h : HasWidths width draft) (source : Nat) (listener : Listener) :
    HasWidths width { draft with netlist := draft.netlist.addListener source listener } where
  listeners_size := by
    simp only [Netlist.addListener, Array.size_setIfInBounds]
    exact h.listeners_size
  values_size := h.values_size
  width_eq := h.width_eq
  width_le := h.width_le

theorem mem_listenersOf_addListener (h : HasWidths width draft) {source : Nat}
    (hsource : source < draft.size) (added : Listener) (node : Nat) (listener : Listener) :
    listener ∈ (draft.netlist.addListener source added).listenersOf node ↔
      listener ∈ draft.netlist.listenersOf node ∨ node = source ∧ listener = added := by
  rw [Netlist.listenersOf_addListener _ _ _ _ (by rw [h.listeners_size]; exact hsource)]
  split
  · rename_i heq
    subst heq
    simp
  · rename_i hne
    simp [Ne.symm hne]

theorem executed_listen (h : HasWidths width draft) {source : Nat} (hsource : source < draft.size)
    (gate : Nat) : Executed width draft [.listen source gate] (draft.listen source gate) := by
  unfold listen
  split
  · rename_i hknown
    refine ⟨h, rfl, fun node listener => ?_, by simp [Statement.linkInto?],
      by simp [Statement.Raises]⟩
    simp only [List.mem_singleton, exists_eq_left, Statement.Adds, iff_self_or]
    intro hboth
    obtain ⟨rfl, rfl⟩ := hboth
    exact hknown
  · have hbound : source < draft.netlist.listeners.size := by rwa [h.listeners_size]
    refine ⟨h.addListener source _, rfl, fun node listener => ?_, fun node => ?_,
      by simp [Statement.Raises]⟩
    · simp [mem_listenersOf_addListener h hsource, Statement.Adds]
    · simpa [Statement.linkInto?] using
        Netlist.linksInto_addListener hbound (.gate gate) node

theorem executed_link (h : HasWidths width draft) {source target : Nat}
    (hsource : source < draft.size) {bits targetBits : Option BitSpan} :
    Executed width draft [.link source bits target targetBits]
      { draft with
        netlist := draft.netlist.addListener source
          (.link ⟨spanAt width source bits, target, spanAt width target targetBits⟩) } where
  hasWidths := h.addListener source _
  size := rfl
  listeners node listener := by
    simp [mem_listenersOf_addListener h hsource, Statement.Adds]
  links node := by
    have hbound : source < draft.netlist.listeners.size := by rwa [h.listeners_size]
    exact Netlist.linksInto_addListener hbound _ node
  values := by simp [Statement.Raises]

theorem executed_raise (h : HasWidths width draft) {target : Nat} (htarget : target < draft.size)
    (bits : Option BitSpan) : Executed width draft [.raise target bits]
      (draft.preset target (spanAt width target bits) (BitVec.allOnes 16)) where
  hasWidths :=
    ⟨h.listeners_size, by rw [preset, Array.size_setIfInBounds]; exact h.values_size,
      h.width_eq, h.width_le⟩
  size := rfl
  listeners := by simp [preset, Statement.Adds]
  links := by simp [preset, Statement.linkInto?]
  values node bit := by
    have hbound : target < draft.values.size := by rw [h.values_size]; exact htarget
    simp only [preset, Array.getD_eq_getD_getElem?, Array.getElem?_setIfInBounds,
      List.mem_singleton, exists_eq_left, Statement.Raises, BitSpan.Covers]
    split
    · rename_i heq
      subst heq
      have hhigh := (spanAt width target bits).high_lt
      rw [Option.getD_some, BitSpan.getLsbD_splice]
      split
      · rename_i hcovers
        have hset : (BitVec.allOnes 16).getLsbD
            (bit - (spanAt width target bits).low) = true := by
          rw [BitVec.getLsbD_allOnes, decide_eq_true_eq]
          omega
        simp only [hset, hcovers, and_self, or_true]
      · rename_i hcovers
        simp [hcovers]
    · rename_i hne
      simp [Ne.symm hne]

theorem executeAll_eq_ok {statements : List Statement} (h : HasWidths width draft)
    (hwidths : Statement.Throughout (Statement.HasWidth width) draft.size statements)
    (hfeasible : Statement.Throughout (Statement.IsFeasible width) draft.size statements) :
    ∃ result, draft.executeAll statements = .ok result ∧
      Executed width draft statements result := by
  induction statements generalizing draft with
  | nil => exact ⟨draft, rfl, .refl h⟩
  | cons statement rest ih =>
    obtain ⟨hwidth, hwidths⟩ := hwidths
    obtain ⟨hthis, hfeasible⟩ := hfeasible
    have hstep : ∃ next, draft.execute statement = .ok next ∧
        Executed width draft [statement] next := by
      cases statement with
      | node added => exact ⟨_, rfl, executed_node h hwidth hthis⟩
      | listen source gate => exact ⟨_, rfl, executed_listen h hthis gate⟩
      | link source bits target targetBits =>
        obtain ⟨hsource, htarget, heven⟩ := hthis
        refine ⟨_, ?_, executed_link h hsource⟩
        simp only [execute, spanOf_eq_ok h hsource, spanOf_eq_ok h htarget, bind, Except.bind, link,
          if_pos heven]
      | raise target bits =>
        refine ⟨_, ?_, executed_raise h hthis bits⟩
        simp only [execute, spanOf_eq_ok h hthis, bind, Except.bind, pure, Except.pure]
    obtain ⟨next, hnext, hexecuted⟩ := hstep
    have hsize : next.size = draft.size + statement.added := by simp [hexecuted.size]
    rw [← hsize] at hwidths hfeasible
    obtain ⟨result, hresult, hexecuted'⟩ := ih hexecuted.hasWidths hwidths hfeasible
    refine ⟨result, ?_, hexecuted.trans hexecuted'⟩
    simp only [executeAll, hnext, bind, Except.bind, hresult]

end Draft

end ClockedLogic
