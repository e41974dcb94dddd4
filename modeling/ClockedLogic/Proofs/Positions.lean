import ClockedLogic.Proofs.BlueprintReading
import ClockedLogic.Proofs.InsertionOrder

/-!
Positions in graphs. A node keeps the position that was told when it came, and every position that
is stored is that of a node. So are those that come up in the loops which sort and search: their
work lists hold the start and targets, and nothing else.
-/

namespace ClockedLogic

namespace Quest

variable {targets : Nat → List Nat} {size start goal : Nat} {quest next : Quest}

def Goes (targets : Nat → List Nat) (goal : Nat) (quest next : Quest) : Prop :=
  ∃ node rest, quest.pending = node :: rest ∧ node ≠ goal ∧
    (targets node).foldlM notice ⟨rest, quest.noticed⟩ = .ok next

theorem Stands.goes (h : Stands targets size start goal quest)
    (hlt : ∀ node, ∀ next ∈ targets node, next < size) (hgoes : Goes targets goal quest next) :
    Stands targets size start goal next := by
  obtain ⟨pending, noticed⟩ := quest
  obtain ⟨node, rest, rfl, hnode, hnext⟩ := hgoes
  obtain ⟨after, hafter, hstands, -⟩ := h.exists_turn hlt hnode
  cases hnext.symm.trans hafter
  exact hstands

/-- What the loop looks at is a node that the start leads to. -/
theorem pending_lt (hlt : ∀ node, ∀ next ∈ targets node, next < size) (hstart : start < size)
    {first : Quest} (hfirst : begin size start = .ok first)
    (hruns : Relation.ReflTransGen (Goes targets goal) first quest) :
    ∀ node ∈ quest.pending, node < size := by
  have hstands : Stands targets size start goal quest := by
    induction hruns with
    | refl =>
      obtain ⟨begun, hbegun, hstands⟩ : ∃ begun, begin size start = .ok begun ∧
          Stands targets size start goal begun := exists_begin hstart goal
      cases hfirst.symm.trans hbegun
      exact hstands
    | tail _ hgoes ih => exact ih.goes hlt hgoes
  intro node hnode
  rcases (hstands.led node (hstands.pending node hnode)).cases_tail with rfl | ⟨last, -, hlast⟩
  · exact hstart
  · exact hlt last node hlast

end Quest

namespace Trail

variable {targets : Nat → List Nat} {size : Nat} {trail next : Trail}

/-- A turn of the loop puts nothing on the path but targets. -/
theorem Goes.stack_lt (h : Goes targets trail next)
    (hlt : ∀ node, ∀ next ∈ targets node, next < size)
    (hstack : ∀ entry ∈ trail.stack, entry.1 < size) : ∀ entry ∈ next.stack, entry.1 < size := by
  obtain ⟨stack, visited, onPath, found⟩ := trail
  obtain ⟨hne, hstep⟩ := h
  rcases stack with _ | ⟨⟨node, edge⟩, rest⟩
  · exact absurd rfl hne
  obtain ⟨hnode, hrest⟩ := List.forall_mem_cons.mp hstack
  have hagain : ∀ entry ∈ (node, edge + 1) :: rest, entry.1 < size :=
    List.forall_mem_cons.mpr ⟨hnode, hrest⟩
  simp only [step] at hstep
  split at hstep
  · rename_i target htarget
    have hpushed : ∀ entry ∈ (target, 0) :: (node, edge + 1) :: rest, entry.1 < size :=
      List.forall_mem_cons.mpr ⟨hlt node target (List.mem_of_getElem? htarget), hagain⟩
    obtain ⟨isOn, -, hstep⟩ := except_bind_eq_ok.mp hstep
    split at hstep
    · cases hstep
      exact hagain
    · obtain ⟨⟨fresh, marked⟩, -, hstep⟩ := except_bind_eq_ok.mp hstep
      split at hstep
      · obtain ⟨⟨_, entered⟩, -, hstep⟩ := except_bind_eq_ok.mp hstep
        cases hstep
        exact hpushed
      · cases hstep
        exact hagain
  · obtain ⟨⟨_, left⟩, -, hstep⟩ := except_bind_eq_ok.mp hstep
    cases hstep
    exact hrest

theorem begin_stack {start : Nat} {first : Trail} (h : begin size start = .ok first) :
    first.stack = [(start, 0)] := by
  obtain ⟨⟨_, visited⟩, -, h⟩ := except_bind_eq_ok.mp h
  obtain ⟨⟨_, onPath⟩, -, h⟩ := except_bind_eq_ok.mp h
  cases h
  rfl

/-- The path of the loop stays among the nodes. -/
theorem stack_lt (hlt : ∀ node, ∀ next ∈ targets node, next < size) {start : Nat}
    (hstart : start < size) {first : Trail} (hfirst : begin size start = .ok first)
    (hruns : Relation.ReflTransGen (Goes targets) first trail) :
    ∀ entry ∈ trail.stack, entry.1 < size := by
  induction hruns with
  | refl =>
    rw [begin_stack hfirst]
    exact List.forall_mem_singleton.mpr hstart
  | tail _ hgoes ih => exact hgoes.stack_lt hlt ih

end Trail

namespace Digraph

variable {α : Type} [DecidableEq α] {graph : Digraph α}

/-- The positions whose targets are looked up while nodes are sorted or searched from a position,
by loops that are under way. -/
inductive LooksAt (graph : Digraph α) (start : Nat) : Nat → Prop where
  | sorting {first trail : Trail} {node edge : Nat} {rest : List (Nat × Nat)}
    (hfirst : Trail.begin graph.size start = .ok first)
    (hruns : Relation.ReflTransGen (Trail.Goes graph.targetsAt) first trail)
    (hstack : trail.stack = (node, edge) :: rest) : LooksAt graph start node
  | searching {first quest : Quest} {goal node : Nat} {rest : List Nat}
    (hfirst : Quest.begin graph.size start = .ok first)
    (hruns : Relation.ReflTransGen (Quest.Goes graph.targetsAt goal) first quest)
    (hpending : quest.pending = node :: rest) : LooksAt graph start node

omit [DecidableEq α] in
theorem Coherent.lt_of_looksAt (h : graph.Coherent) {start i : Nat} (hstart : start < graph.size)
    (hlooks : graph.LooksAt start i) : i < graph.size := by
  cases hlooks with
  | sorting hfirst hruns hstack =>
    exact Trail.stack_lt h.target_lt hstart hfirst hruns _ (hstack ▸ List.mem_cons_self)
  | searching hfirst hruns hpending =>
    exact Quest.pending_lt h.target_lt hstart hfirst hruns _ (hpending ▸ List.mem_cons_self)

/-- All positions that are stored or looked up are positions of nodes. -/
structure Unbroken (graph : Digraph α) : Prop where
  target_lt : ∀ row ∈ graph.rows, ∀ target ∈ row.targets, target < graph.size
  /-- No target is left out among the successors of a node. -/
  successors : ∀ source, (graph.successors source).map some =
    (graph.targetsAt (graph.indexOf source)).map (graph.nodes[·]?)
  /-- No target is left out among the edges. -/
  edges : graph.edges.map (Prod.map some some) =
    graph.edgePositions.map (Prod.map (graph.nodes[·]?) (graph.nodes[·]?))
  /-- No search looks for a row that is missing. -/
  looksAt : ∀ node start i, graph.indexOf? node = some start → graph.LooksAt start i →
    ∃ row, graph.rows[i]? = some row

theorem Coherent.unbroken (h : graph.Coherent) : graph.Unbroken where
  target_lt _ hrow := h.target_lt_of_mem hrow
  successors source := by
    rw [successors_eq, map_some_filterMap (h.target_lt _)]
  edges := h.map_some_edges
  looksAt node start i hstart hlooks := by
    have hlt := h.lt_of_looksAt (lt_size_of_nodes (nodes_of_indexOf? hstart)) hlooks
    exact ⟨_, List.getElem?_eq_getElem hlt⟩

/-- A node is told the position at which it stays, whatever is mentioned later. -/
theorem indexOf?_grown (mentions later : List (Mention α)) (node : α) :
    (grown (mentions ++ .node node :: later)).indexOf? node =
      some ((grown mentions).insertNode node).2 := by
  have hgrown : (grown mentions).addNode node = grown (mentions ++ [.node node]) := by
    rw [grown_append]
    rfl
  have hadded : node ∈ (grown (mentions ++ [.node node])).nodes :=
    hgrown ▸ (mem_nodes_addNode ..).mpr (.inr rfl)
  have hkept := nodes_prefix_grown (mentions ++ [.node node]) later
  rw [List.append_assoc, List.singleton_append] at hkept
  obtain ⟨hlt, hnode⟩ := List.getElem?_eq_some_iff.mp (getElem?_indexOf hadded)
  have hlater := List.prefix_iff_getElem?.mp hkept _ hlt
  rw [hnode] at hlater
  rw [insertNode_eq, hgrown]
  exact indexOf?_eq_some (grown_spec _).1 hlater

/-- A graph is an ordered set of nodes and of edges. It has what it has been told of, each once and
in the order of first mention. A node keeps the position that was told when it was added, edges are
stored under these positions, and no position that is stored or looked up lacks its node. -/
theorem ordered_grown (mentions : List (Mention α)) :
    (grown mentions).Remembers mentions ∧ (grown mentions).Unbroken ∧
      (∀ later, (grown mentions).nodes <+: (grown (mentions ++ later)).nodes) ∧
      (∀ node later,
        ((grown mentions).insertNode node).1 = grown (mentions ++ [.node node]) ∧
        (grown (mentions ++ .node node :: later)).indexOf? node =
          some ((grown mentions).insertNode node).2) ∧
      ∀ source target, grown (mentions ++ [.edge source target]) =
        let (known, i) := (grown mentions).insertNode source
        let (full, j) := known.insertNode target
        full.link i j := by
  refine ⟨remembers_grown mentions, (grown_spec mentions).1.unbroken,
    nodes_prefix_grown mentions, fun node later => ⟨?_, indexOf?_grown mentions later node⟩,
    fun source target => ?_⟩
  · rw [insertNode_eq, grown_append]
    rfl
  · exact (grown_append ..).trans (addEdge_eq_link (grown mentions) source target)

end Digraph

end ClockedLogic
