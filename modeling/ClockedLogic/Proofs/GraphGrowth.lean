import ClockedLogic.Proofs.DepthFirst
import ClockedLogic.Blueprint.Build

/-!
Graphs grow by nodes and edges. Growth keeps a graph coherent, loses no node and adds no edge but
the one that is asked for, so the edges of the dependencies of a composite component are those of
its joints and those from the root.
-/

namespace ClockedLogic

namespace Digraph

variable {α : Type} [DecidableEq α] {graph : Digraph α}

omit [DecidableEq α] in
theorem targetsAt_eq_getD (graph : Digraph α) (i : Nat) :
    graph.targetsAt i = ((graph.rows[i]?).map (·.targets)).getD [] := by
  unfold targetsAt
  cases graph.rows[i]? <;> rfl

omit [DecidableEq α] in
/-- A link adds one target to one node, at the end and unless it is there already. -/
theorem targetsAt_link {source : Nat} (hsource : source < graph.size) (target i : Nat) :
    (graph.link source target).targetsAt i =
      if source = i ∧ target ∉ graph.targetsAt i then graph.targetsAt i ++ [target]
      else graph.targetsAt i := by
  simp only [link, targetsAt_eq_getD, List.getElem?_modify]
  rcases eq_or_ne source i with rfl | hne
  · rw [List.getElem?_eq_getElem hsource]
    by_cases hold : target ∈ graph.rows[source].targets <;> simp [hold]
  · simp [hne]

theorem targetsAt_addNode (graph : Digraph α) (node : α) (i : Nat) :
    (graph.addNode node).targetsAt i = graph.targetsAt i := by
  unfold addNode
  split
  · rfl
  · rw [targetsAt_eq_getD, targetsAt_eq_getD]
    rcases Nat.lt_trichotomy i graph.rows.length with hlt | rfl | hgt
    · rw [List.getElem?_append_left hlt]
    · simp
    · rw [List.getElem?_eq_none (by simp; omega), List.getElem?_eq_none (Nat.le_of_lt hgt)]

theorem size_le_addNode (graph : Digraph α) (node : α) :
    graph.size ≤ (graph.addNode node).size := by
  unfold addNode size
  split <;> simp

theorem getElem?_nodes_addNode {node other : α} {i : Nat} (h : graph.nodes[i]? = some other) :
    (graph.addNode node).nodes[i]? = some other := by
  rw [nodes_addNode]
  split
  · exact h
  · rw [List.getElem?_append_left (List.getElem?_eq_some_iff.mp h).1, h]

theorem Coherent.addNode (h : graph.Coherent) (node : α) : (graph.addNode node).Coherent where
  nodup := by
    rw [nodes_addNode]
    split
    · exact h.nodup
    · rename_i hnot
      rw [← List.concat_eq_append]
      exact h.nodup.concat hnot
  target_lt i j hj := by
    rw [targetsAt_addNode] at hj
    exact Nat.lt_of_lt_of_le (h.target_lt i j hj) (graph.size_le_addNode node)

theorem hasEdge_addNode (h : graph.Coherent) (node : α) {a b : α} :
    (graph.addNode node).HasEdge a b ↔ graph.HasEdge a b := by
  refine exists_congr fun i => exists_congr fun j => ?_
  rw [targetsAt_addNode]
  constructor
  · intro hedge
    obtain ⟨hi, hj, hmem⟩ := hedge
    have hback : ∀ {k : Nat} {label : α}, k < graph.size →
        (graph.addNode node).nodes[k]? = some label → graph.nodes[k]? = some label := by
      intro k label hk hlabel
      rw [← length_nodes] at hk
      rw [← hlabel, List.getElem?_eq_getElem hk,
        getElem?_nodes_addNode (List.getElem?_eq_getElem hk)]
    exact ⟨hback (lt_size_of_mem_targetsAt hmem) hi, hback (h.target_lt i j hmem) hj, hmem⟩
  · intro hedge
    obtain ⟨hi, hj, hmem⟩ := hedge
    exact ⟨getElem?_nodes_addNode hi, getElem?_nodes_addNode hj, hmem⟩

theorem getElem?_indexOf {node : α} (h : node ∈ graph.nodes) :
    graph.nodes[graph.indexOf node]? = some node := by
  have hlt : graph.nodes.idxOf node < graph.nodes.length := List.idxOf_lt_length_of_mem h
  rw [indexOf, List.getElem?_eq_getElem hlt, List.getElem_idxOf hlt]

theorem size_addEdge (graph : Digraph α) (source target : α) :
    (graph.addEdge source target).size = ((graph.addNode source).addNode target).size := by
  rw [← length_nodes, ← length_nodes, nodes_addEdge]

theorem mem_targetsAt_addEdge (graph : Digraph α) (source target : α) (i j : Nat) :
    j ∈ (graph.addEdge source target).targetsAt i ↔ j ∈ graph.targetsAt i ∨
      i = ((graph.addNode source).addNode target).indexOf source ∧
        j = ((graph.addNode source).addNode target).indexOf target := by
  have hsource : source ∈ ((graph.addNode source).addNode target).nodes := by
    simp [mem_nodes_addNode]
  have hlt := List.idxOf_lt_length_of_mem hsource
  rw [length_nodes, ← indexOf] at hlt
  have hlink : graph.addEdge source target = ((graph.addNode source).addNode target).link
      (((graph.addNode source).addNode target).indexOf source)
      (((graph.addNode source).addNode target).indexOf target) := rfl
  rw [← targetsAt_addNode graph source, ← targetsAt_addNode (graph.addNode source) target,
    hlink, targetsAt_link hlt]
  split
  · rename_i hnew
    rw [List.mem_append, List.mem_singleton]
    exact or_congr_right ⟨fun hj => ⟨hnew.1.symm, hj⟩, And.right⟩
  · rename_i hold
    rw [not_and_not_right] at hold
    refine ⟨.inl, ?_⟩
    rintro (hj | ⟨hi, rfl⟩)
    · exact hj
    · exact hold hi.symm

theorem Coherent.addEdge (h : graph.Coherent) (source target : α) :
    (graph.addEdge source target).Coherent where
  nodup := by
    rw [nodes_addEdge]
    exact ((h.addNode source).addNode target).nodup
  target_lt i j hj := by
    rw [size_addEdge]
    rcases (mem_targetsAt_addEdge graph source target i j).mp hj with hold | ⟨-, rfl⟩
    · have hle := (graph.addNode source).size_le_addNode target
      refine Nat.lt_of_lt_of_le ((h.addNode source).target_lt i j ?_) hle
      rwa [targetsAt_addNode]
    · rw [← length_nodes, indexOf]
      exact List.idxOf_lt_length_of_mem (by simp [mem_nodes_addNode])

theorem hasEdge_addEdge (h : graph.Coherent) (source target : α) {a b : α} :
    (graph.addEdge source target).HasEdge a b ↔
      graph.HasEdge a b ∨ (a, b) = (source, target) := by
  have hgrown := (h.addNode source).addNode target
  have hsource : ((graph.addNode source).addNode target).nodes[
      ((graph.addNode source).addNode target).indexOf source]? = some source :=
    getElem?_indexOf (by simp [mem_nodes_addNode])
  have htarget : ((graph.addNode source).addNode target).nodes[
      ((graph.addNode source).addNode target).indexOf target]? = some target :=
    getElem?_indexOf (by simp [mem_nodes_addNode])
  rw [← hasEdge_addNode h source, ← hasEdge_addNode (h.addNode source) target]
  constructor
  · intro hedge
    obtain ⟨i, j, hi, hj, hmem⟩ := hedge
    rw [nodes_addEdge] at hi hj
    rcases (mem_targetsAt_addEdge ..).mp hmem with hold | ⟨rfl, rfl⟩
    · rw [← targetsAt_addNode graph source, ← targetsAt_addNode (graph.addNode source) target]
        at hold
      exact .inl ⟨i, j, hi, hj, hold⟩
    · rw [hsource] at hi
      rw [htarget] at hj
      rw [← Option.some.inj hi, ← Option.some.inj hj]
      exact .inr rfl
  · intro hcases
    rcases hcases with ⟨i, j, hi, hj, hmem⟩ | heq
    · rw [targetsAt_addNode, targetsAt_addNode] at hmem
      rw [← nodes_addEdge] at hi hj
      exact ⟨i, j, hi, hj, (mem_targetsAt_addEdge ..).mpr (.inl hmem)⟩
    · obtain ⟨rfl, rfl⟩ := Prod.mk.inj heq
      rw [← nodes_addEdge] at hsource htarget
      exact ⟨_, _, hsource, htarget, (mem_targetsAt_addEdge ..).mpr (.inr ⟨rfl, rfl⟩)⟩

theorem Coherent.addEdges (h : graph.Coherent) (edges : List (α × α)) :
    (graph.addEdges edges).Coherent := by
  induction edges generalizing graph with
  | nil => exact h
  | cons edge edges ih => exact ih (h.addEdge edge.1 edge.2)

theorem hasEdge_addEdges (h : graph.Coherent) {edges : List (α × α)} {a b : α} :
    (graph.addEdges edges).HasEdge a b ↔ graph.HasEdge a b ∨ (a, b) ∈ edges := by
  induction edges generalizing graph with
  | nil => simp [addEdges]
  | cons edge edges ih =>
    have hrest := ih (h.addEdge edge.1 edge.2)
    rw [hasEdge_addEdge h, or_assoc, ← List.mem_cons] at hrest
    exact hrest

theorem Coherent.addNodes (h : graph.Coherent) (nodes : List α) :
    (nodes.foldl Digraph.addNode graph).Coherent := by
  induction nodes generalizing graph with
  | nil => exact h
  | cons node nodes ih => exact ih (h.addNode node)

theorem hasEdge_addNodes (h : graph.Coherent) (nodes : List α) {a b : α} :
    (nodes.foldl Digraph.addNode graph).HasEdge a b ↔ graph.HasEdge a b := by
  induction nodes generalizing graph with
  | nil => rfl
  | cons node nodes ih => exact (ih (h.addNode node)).trans (hasEdge_addNode h node)

theorem mem_nodes_addEdges {node : α} (h : node ∈ graph.nodes) (edges : List (α × α)) :
    node ∈ (graph.addEdges edges).nodes := by
  induction edges generalizing graph with
  | nil => exact h
  | cons edge edges ih =>
    apply ih
    rw [nodes_addEdge]
    simp [mem_nodes_addNode, h]

theorem mem_nodes_addNodes {node : α} (h : node ∈ graph.nodes) (nodes : List α) :
    node ∈ (nodes.foldl Digraph.addNode graph).nodes := by
  induction nodes generalizing graph with
  | nil => exact h
  | cons other nodes ih => exact ih ((mem_nodes_addNode ..).mpr (.inl h))

omit [DecidableEq α] in
theorem HasEdge.mem_target {a b : α} (h : graph.HasEdge a b) : b ∈ graph.nodes := by
  obtain ⟨-, j, -, hj, -⟩ := h
  exact List.mem_iff_getElem?.mpr ⟨j, hj⟩

end Digraph

namespace Blueprint

theorem coherent_dependencies (blueprint : Blueprint) (joints : List Joint) :
    (blueprint.dependencies joints).Coherent :=
  (((Digraph.coherent_empty.addNode Vertex.root).addEdges _).addNodes _).addEdges _

theorem root_mem_dependencies (blueprint : Blueprint) (joints : List Joint) :
    Vertex.root ∈ (blueprint.dependencies joints).nodes :=
  Digraph.mem_nodes_addEdges (Digraph.mem_nodes_addNodes (Digraph.mem_nodes_addEdges
    ((Digraph.mem_nodes_addNode ..).mpr (.inr rfl)) _) _) _

/-- The edges of the dependencies lead from the root to every input and every part, and along
joints. -/
theorem hasEdge_dependencies (blueprint : Blueprint) (joints : List Joint) {a b : Vertex} :
    (blueprint.dependencies joints).HasEdge a b ↔
      (a = .root ∧ ((∃ i < blueprint.inputs.length, b = .input i) ∨
        ∃ p < blueprint.parts.length, b = .part p)) ∨
      ∃ joint ∈ joints, joint.edge = some (a, b) := by
  have hempty : ¬ (Digraph.empty : Digraph Vertex).HasEdge a b := by
    rintro ⟨i, j, hi, -⟩
    simp [Digraph.nodes, Digraph.empty] at hi
  have hbare := Digraph.coherent_empty.addNode Vertex.root
  rw [dependencies, bareGraph,
    Digraph.hasEdge_addEdges ((hbare.addEdges _).addNodes _),
    Digraph.hasEdge_addNodes (hbare.addEdges _), Digraph.hasEdge_addEdges hbare,
    Digraph.hasEdge_addNode Digraph.coherent_empty]
  simp only [hempty, false_or, List.mem_append, List.mem_map, List.mem_range, Prod.mk.injEq,
    List.mem_filterMap]
  refine or_congr_left ⟨?_, ?_⟩
  · rintro (⟨i, hi, rfl, rfl⟩ | ⟨p, hp, rfl, rfl⟩)
    · exact ⟨rfl, .inl ⟨i, hi, rfl⟩⟩
    · exact ⟨rfl, .inr ⟨p, hp, rfl⟩⟩
  · rintro ⟨rfl, ⟨i, hi, rfl⟩ | ⟨p, hp, rfl⟩⟩
    · exact .inl ⟨i, hi, rfl, rfl⟩
    · exact .inr ⟨p, hp, rfl, rfl⟩

/-- The root comes before every part and every input. -/
theorem hasEdge_root (blueprint : Blueprint) (joints : List Joint) {vertex : Vertex}
    (h : (∃ i < blueprint.inputs.length, vertex = .input i) ∨
      ∃ p < blueprint.parts.length, vertex = .part p) :
    (blueprint.dependencies joints).HasEdge .root vertex :=
  (blueprint.hasEdge_dependencies joints).mpr (.inl ⟨rfl, h⟩)

theorem hasEdge_joint (blueprint : Blueprint) {joints : List Joint} {joint : Joint}
    (hjoint : joint ∈ joints) {source target : Vertex}
    (hedge : joint.edge = some (source, target)) :
    (blueprint.dependencies joints).HasEdge source target :=
  (blueprint.hasEdge_dependencies joints).mpr (.inr ⟨joint, hjoint, hedge⟩)

end Blueprint

end ClockedLogic
