import ClockedLogic.Proofs.BlueprintReading
import ClockedLogic.Proofs.Drafting

/-!
Which gates listen where, and how often. No statement makes a gate listen to a node twice, so once
the statements for some gates have been carried out, each gate is listed once at each of its input
nodes and nowhere else.
-/

namespace ClockedLogic

namespace Netlist

/-- How often a listener is listed: once more if it has just been added. -/
theorem count_addListener_le (netlist : Netlist) (source node : Nat) (added listener : Listener) :
    ((netlist.addListener source added).listenersOf node).count listener ≤
      (netlist.listenersOf node).count listener +
        if source = node ∧ added = listener then 1 else 0 := by
  by_cases hbound : source < netlist.listeners.size
  · rw [listenersOf_addListener _ _ _ _ hbound]
    split
    · rename_i heq
      subst heq
      rw [List.count_append, List.count_singleton]
      simp
    · exact Nat.le_add_right _ _
  · have hsame : netlist.addListener source added = netlist := by
      rw [addListener, Array.setIfInBounds_eq_of_size_le (Nat.le_of_not_lt hbound)]
    rw [hsame]
    exact Nat.le_add_right _ _

end Netlist

namespace Draft

variable {draft next : Draft}

theorem HasWidths.self {width : Nat → Nat} (h : HasWidths width draft) :
    HasWidths draft.netlist.width draft where
  listeners_size := h.listeners_size
  values_size := h.values_size
  width_eq _ _ := rfl
  width_le node hnode := by
    rw [h.width_eq node hnode]
    exact h.width_le node hnode

def ListensOnce (draft : Draft) : Prop :=
  ∀ node index, (draft.netlist.listenersOf node).count (.gate index) ≤ 1

theorem ListensOnce.listen (h : draft.ListensOnce) (source gate : Nat) :
    (draft.listen source gate).ListensOnce := by
  unfold Draft.listen
  split
  · exact h
  · rename_i hnew
    intro node index
    refine Nat.le_trans (Netlist.count_addListener_le _ _ _ _ _) ?_
    split
    · rename_i hsame
      obtain ⟨rfl, hgate⟩ := hsame
      exact Nat.le_of_eq (by rw [← hgate, List.count_eq_zero.mpr hnew])
    · exact h node index

theorem ListensOnce.execute (h : draft.ListensOnce) {statement : Statement}
    (hexecute : draft.execute statement = .ok next) : next.ListensOnce := by
  cases statement with
  | node width =>
    cases hexecute
    intro node index
    rw [addNode, Netlist.listenersOf_addNode]
    exact h node index
  | listen source gate =>
    cases hexecute
    exact h.listen source gate
  | link source bits target targetBits =>
    obtain ⟨span, -, hexecute⟩ := except_bind_eq_ok.mp hexecute
    obtain ⟨targetSpan, -, hexecute⟩ := except_bind_eq_ok.mp hexecute
    unfold Draft.link at hexecute
    split at hexecute
    · cases hexecute
      intro node index
      refine Nat.le_trans (Netlist.count_addListener_le _ _ _ _ _) ?_
      rw [if_neg fun hsame => Listener.noConfusion hsame.2]
      exact h node index
    · cases hexecute
  | raise target bits =>
    obtain ⟨span, -, hexecute⟩ := except_bind_eq_ok.mp hexecute
    cases hexecute
    exact h

theorem ListensOnce.executeAll {statements : List Statement} (h : draft.ListensOnce)
    (hexecute : draft.executeAll statements = .ok next) : next.ListensOnce := by
  induction statements generalizing draft with
  | nil =>
    cases hexecute
    exact h
  | cons statement rest ih =>
    obtain ⟨middle, hfirst, hrest⟩ := except_bind_eq_ok.mp hexecute
    exact ih (h.execute hfirst) hrest

/-- Gates whose indices are their places in a list are told apart by them. -/
theorem eq_of_index_eq {gates : List Gate}
    (hindex : ∀ (position : Nat) (gate : Gate), gates[position]? = some gate →
      gate.index = position) {gate other : Gate} (hgate : gate ∈ gates) (hother : other ∈ gates)
    (hsame : gate.index = other.index) : gate = other := by
  obtain ⟨position, hposition⟩ := List.mem_iff_getElem?.mp hgate
  obtain ⟨position', hposition'⟩ := List.mem_iff_getElem?.mp hother
  rw [hindex _ _ hposition, hindex _ _ hposition'] at hsame
  rw [hsame, hposition'] at hposition
  exact (Option.some.inj hposition).symm

/-- A draft in which the gates of a list listen to their inputs, once to each node, and no other
gates listen. -/
structure Hears (draft : Draft) (gates : List Gate) : Prop where
  /-- The index of a gate is its place in the list. -/
  index_eq : ∀ (position : Nat) (gate : Gate), gates[position]? = some gate →
    gate.index = position
  count_eq : ∀ gate ∈ gates, ∀ node, (draft.netlist.listenersOf node).count (.gate gate.index) =
    if node ∈ gate.inputs then 1 else 0
  index_lt : ∀ node index, .gate index ∈ draft.netlist.listenersOf node → index < gates.length

namespace Hears

variable {gates : List Gate}

theorem exists_gate (h : draft.Hears gates) {node index : Nat}
    (hlistens : .gate index ∈ draft.netlist.listenersOf node) :
    ∃ gate ∈ gates, gate.index = index := by
  have hlt := h.index_lt node index hlistens
  exact ⟨gates[index], List.getElem_mem hlt, h.index_eq _ _ (List.getElem?_eq_getElem hlt)⟩

theorem mem_listenersOf_iff (h : draft.Hears gates) {node index : Nat} :
    .gate index ∈ draft.netlist.listenersOf node ↔
      ∃ gate ∈ gates, gate.index = index ∧ node ∈ gate.inputs := by
  constructor
  · intro hlistens
    obtain ⟨gate, hgate, rfl⟩ := h.exists_gate hlistens
    refine ⟨gate, hgate, rfl, ?_⟩
    by_contra hnot
    have hcount := h.count_eq gate hgate node
    rw [if_neg hnot] at hcount
    exact List.count_eq_zero.mp hcount hlistens
  · rintro ⟨gate, hgate, rfl, hinput⟩
    have hcount := h.count_eq gate hgate node
    rw [if_pos hinput] at hcount
    exact List.count_pos_iff.mp (hcount ▸ Nat.one_pos)

theorem listensOnce (h : draft.Hears gates) : draft.ListensOnce := by
  intro node index
  by_cases hlistens : .gate index ∈ draft.netlist.listenersOf node
  · obtain ⟨gate, hgate, rfl⟩ := h.exists_gate hlistens
    rw [h.count_eq gate hgate node]
    split <;> omega
  · rw [List.count_eq_zero.mpr hlistens]
    exact Nat.zero_le 1

/-- It is enough to know who listens at all, if nobody listens twice. -/
theorem of_mem_iff (honce : draft.ListensOnce)
    (hindex : ∀ (position : Nat) (gate : Gate), gates[position]? = some gate →
      gate.index = position)
    (hmem : ∀ node index, .gate index ∈ draft.netlist.listenersOf node ↔
      ∃ gate ∈ gates, gate.index = index ∧ node ∈ gate.inputs) : draft.Hears gates where
  index_eq := hindex
  count_eq gate hgate node := by
    split
    · rename_i hinput
      have hlistens := (hmem node gate.index).mpr ⟨gate, hgate, rfl, hinput⟩
      exact Nat.le_antisymm (honce node _) (List.count_pos_iff.mpr hlistens)
    · rename_i hnot
      refine List.count_eq_zero.mpr fun hlistens => hnot ?_
      obtain ⟨other, hother, hsame, hinput⟩ := (hmem node gate.index).mp hlistens
      rwa [eq_of_index_eq hindex hother hgate hsame] at hinput
  index_lt node index hlistens := by
    obtain ⟨gate, hgate, rfl, -⟩ := (hmem node index).mp hlistens
    obtain ⟨position, hposition⟩ := List.mem_iff_getElem?.mp hgate
    rw [hindex _ _ hposition]
    exact (List.getElem?_eq_some_iff.mp hposition).1

/-- Statements that let some gates listen add these gates to those that are heard. -/
theorem executeAll {width : Nat → Nat} {statements : List Statement} {added : List Gate}
    (h : draft.Hears gates) (hexecute : draft.executeAll statements = .ok next)
    (hexecuted : Executed width draft statements next)
    (hindices : added.map Gate.index = List.range' gates.length added.length)
    (hlistens : ∀ node index, .listen node index ∈ statements ↔
      ∃ gate ∈ added, gate.index = index ∧ node ∈ gate.inputs) :
    next.Hears (gates ++ added) := by
  refine of_mem_iff (h.listensOnce.executeAll hexecute) (fun position gate hgate => ?_)
    fun node index => ?_
  · rw [List.getElem?_append] at hgate
    split at hgate
    · exact h.index_eq position gate hgate
    · rename_i hge
      have hlt := (List.getElem?_eq_some_iff.mp hgate).1
      have hget := congrArg (·[position - gates.length]?) hindices
      simp only [List.getElem?_map, hgate, List.getElem?_range' hlt, Option.map_some,
        Option.some.injEq] at hget
      omega
  · have hadds : (∃ statement ∈ statements, statement.Adds width node (.gate index)) ↔
        .listen node index ∈ statements := by
      constructor
      · rintro ⟨statement, hstatement, hadds⟩
        cases statement with
        | listen source gate =>
          obtain ⟨rfl, hgate⟩ := hadds
          cases hgate
          exact hstatement
        | link => exact Listener.noConfusion hadds.2
        | node => exact hadds.elim
        | raise => exact hadds.elim
      · intro hstatement
        exact ⟨_, hstatement, rfl, rfl⟩
    rw [hexecuted.listeners, hadds, hlistens, h.mem_listenersOf_iff]
    simp only [List.mem_append, or_and_right, exists_or]

end Hears

end Draft

end ClockedLogic
