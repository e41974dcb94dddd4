import ClockedLogic.Proofs.Reachability

/-!
Graphs as ordered sets. A graph has the nodes that it has been told of, each once and in the order
of first mention, and the successors of each node likewise. Its edges are grouped by their sources,
and no target that is stored is left out where they are listed.
-/

namespace ClockedLogic

/-- A list has the elements of another list, each once and in the order of first occurrence. -/
structure OnceInOrder {α : Type} [DecidableEq α] (mentioned once : List α) : Prop where
  nodup : once.Nodup
  mem_iff : ∀ a, a ∈ once ↔ a ∈ mentioned
  ordered : once.Pairwise fun earlier later => mentioned.idxOf earlier < mentioned.idxOf later

/-- The nodes that are mentioned, the source of an edge before its target. -/
def Mention.nodes {α : Type} : Mention α → List α
  | .node label => [label]
  | .edge source target => [source, target]

def Mention.targetFrom? {α : Type} [DecidableEq α] (source : α) : Mention α → Option α
  | .node _ => none
  | .edge other target => if other = source then some target else none

namespace OnceInOrder

variable {α : Type} [DecidableEq α] {mentioned once : List α}

theorem nil : OnceInOrder ([] : List α) [] := ⟨List.nodup_nil, fun _ => Iff.rfl, .nil⟩

/-- An element that occurs again changes nothing, and a new one goes to the end. -/
theorem append (h : OnceInOrder mentioned once) (a : α) :
    OnceInOrder (mentioned ++ [a]) (if a ∈ once then once else once ++ [a]) := by
  have hold : once.Pairwise fun earlier later =>
      (mentioned ++ [a]).idxOf earlier < (mentioned ++ [a]).idxOf later := by
    refine h.ordered.imp_of_mem fun {b c} hb hc hlt => ?_
    rwa [List.idxOf_append_of_mem ((h.mem_iff b).mp hb),
      List.idxOf_append_of_mem ((h.mem_iff c).mp hc)]
  split
  · rename_i hmem
    refine ⟨h.nodup, fun b => ?_, hold⟩
    rw [h.mem_iff, List.mem_append, List.mem_singleton]
    exact ⟨.inl, fun hb => hb.elim id fun he => he ▸ (h.mem_iff a).mp hmem⟩
  · rename_i hnew
    refine ⟨?_, fun b => ?_, List.pairwise_append.mpr ⟨hold, List.pairwise_singleton .., ?_⟩⟩
    · rw [← List.concat_eq_append]
      exact h.nodup.concat hnew
    · rw [List.mem_append, List.mem_append, h.mem_iff]
    · intro b hb c hc
      obtain rfl := List.mem_singleton.mp hc
      have hbefore := (h.mem_iff b).mp hb
      rw [List.idxOf_append_of_mem hbefore,
        List.idxOf_append_of_notMem fun hin => hnew ((h.mem_iff c).mpr hin)]
      exact Nat.lt_add_right _ (List.idxOf_lt_length_of_mem hbefore)

end OnceInOrder

namespace Digraph

variable {α : Type} {graph : Digraph α}

theorem getElem?_nodes {row : DigraphRow α} {i : Nat} (hi : graph.rows[i]? = some row) :
    graph.nodes[i]? = some row.label := by
  rw [nodes, List.getElem?_map, hi, Option.map_some]

theorem Coherent.target_lt_of_mem (h : graph.Coherent) {row : DigraphRow α}
    (hrow : row ∈ graph.rows) : ∀ target ∈ row.targets, target < graph.size := by
  intro target htarget
  obtain ⟨i, hi⟩ := List.mem_iff_getElem?.mp hrow
  refine h.target_lt i target ?_
  simpa only [targetsAt, hi] using htarget

theorem Coherent.exists_label (h : graph.Coherent) {i target : Nat}
    (htarget : target ∈ graph.targetsAt i) : ∃ label, graph.nodes[target]? = some label := by
  have hlt : target < graph.nodes.length := graph.length_nodes.symm ▸ h.target_lt i target htarget
  exact ⟨_, List.getElem?_eq_getElem hlt⟩

/-- Where all positions have nodes, no position is left out. -/
theorem map_some_filterMap {positions : List Nat}
    (h : ∀ i ∈ positions, i < graph.size) :
    (positions.filterMap (graph.nodes[·]?)).map some = positions.map (graph.nodes[·]?) := by
  rw [List.map_filterMap, ← List.filterMap_eq_map]
  refine List.filterMap_congr fun i hi => ?_
  have hlt : i < graph.nodes.length := graph.length_nodes.symm ▸ h i hi
  simp [List.getElem?_eq_getElem hlt]

theorem targetsAt_of_size_le {i : Nat} (h : graph.size ≤ i) : graph.targetsAt i = [] :=
  List.eq_nil_iff_forall_not_mem.mpr fun _ hj => Nat.not_lt_of_le h (lt_size_of_mem_targetsAt hj)

variable [DecidableEq α]

/-- The successors of a node are the nodes at its targets; a node that is missing has none. -/
theorem successors_eq (graph : Digraph α) (node : α) :
    graph.successors node = (graph.targetsAt (graph.indexOf node)).filterMap (graph.nodes[·]?) := by
  unfold successors indexOf
  rw [List.idxOf_eq_getD_idxOf?]
  rcases hindex : graph.indexOf? node with _ | position
  · rw [indexOf?] at hindex
    rw [hindex, Option.getD_none, length_nodes, targetsAt_of_size_le (Nat.le_refl _),
      List.filterMap_nil]
  · rw [indexOf?] at hindex
    rw [hindex, Option.getD_some]

theorem indexOf_addNode {node : α} (hnode : node ∈ graph.nodes) (other : α) :
    (graph.addNode other).indexOf node = graph.indexOf node := by
  rw [indexOf, nodes_addNode]
  split
  · rfl
  · rw [List.idxOf_append_of_mem hnode, indexOf]

/-- The position that is told when a node is added is its index from then on. -/
theorem insertNode_eq (graph : Digraph α) (node : α) :
    graph.insertNode node = (graph.addNode node, (graph.addNode node).indexOf node) := by
  unfold insertNode
  rcases hindex : graph.indexOf? node with _ | position
  · have hnew : node ∉ graph.nodes := List.idxOf?_eq_none_iff.mp hindex
    have hsize : (graph.addNode node).indexOf node = graph.size := by
      rw [indexOf, nodes_addNode, if_neg hnew, List.idxOf_append_of_notMem hnew,
        List.idxOf_cons_self, Nat.add_zero, length_nodes]
    rw [hsize, addNode, if_neg hnew]
  · have hold : node ∈ graph.nodes := List.mem_of_getElem? (nodes_of_indexOf? hindex)
    have hposition : graph.indexOf node = position := by
      rw [indexOf, List.idxOf_eq_getD_idxOf?, ← indexOf?, hindex, Option.getD_some]
    rw [indexOf_addNode hold, hposition, addNode, if_pos hold]

/-- An edge is stored under the positions that are told when its nodes are added. -/
theorem addEdge_eq_link (graph : Digraph α) (source target : α) :
    graph.addEdge source target =
      let (known, i) := graph.insertNode source
      let (grown, j) := known.insertNode target
      grown.link i j := by
  simp only [insertNode_eq]
  rw [← indexOf_addNode ((mem_nodes_addNode graph source source).mpr (.inr rfl)) target]
  rfl

theorem Coherent.successors_addNode (h : graph.Coherent) (node source : α) :
    (graph.addNode node).successors source = graph.successors source := by
  have hkept : (graph.targetsAt ((graph.addNode node).indexOf source)).filterMap
      ((graph.addNode node).nodes[·]?) =
        (graph.targetsAt ((graph.addNode node).indexOf source)).filterMap (graph.nodes[·]?) := by
    refine List.filterMap_congr fun target htarget => ?_
    obtain ⟨label, hlabel⟩ := h.exists_label htarget
    rw [hlabel, getElem?_nodes_addNode hlabel]
  rw [successors_eq, successors_eq, targetsAt_addNode, hkept]
  by_cases hsource : source ∈ graph.nodes
  · rw [indexOf_addNode hsource]
  -- A source that is missing has its index beyond the last node, before and after.
  · have hindex : graph.indexOf source = graph.size := by
      rw [indexOf, List.idxOf_of_notMem hsource, length_nodes]
    have hindex' : graph.size ≤ (graph.addNode node).indexOf source := by
      rw [indexOf, nodes_addNode]
      split
      · exact Nat.le_of_eq hindex.symm
      · rw [List.idxOf_append_of_notMem hsource, length_nodes]
        exact Nat.le_add_right _ _
    rw [targetsAt_of_size_le (Nat.le_of_eq hindex.symm), targetsAt_of_size_le hindex']

theorem Coherent.mem_successors (h : graph.Coherent) {source target : α} {j : Nat}
    (hj : graph.nodes[j]? = some target) :
    target ∈ graph.successors source ↔ j ∈ graph.targetsAt (graph.indexOf source) := by
  rw [successors_eq, List.mem_filterMap]
  constructor
  · rintro ⟨i, hi, htarget⟩
    rwa [← h.indexOf_eq hj, h.indexOf_eq htarget]
  · exact fun hmem => ⟨j, hmem, hj⟩

theorem Coherent.successors_link (h : graph.Coherent) {source target : α}
    (hsource : source ∈ graph.nodes) (htarget : target ∈ graph.nodes) (other : α) :
    (graph.link (graph.indexOf source) (graph.indexOf target)).successors other =
      if source = other ∧ target ∉ graph.successors other
      then graph.successors other ++ [target] else graph.successors other := by
  have hlt : graph.indexOf source < graph.size := by
    rw [← length_nodes]
    exact List.idxOf_lt_length_of_mem hsource
  have hsame : graph.indexOf source = graph.indexOf other ↔ source = other :=
    List.idxOf_inj hsource
  have hindex : (graph.link (graph.indexOf source) (graph.indexOf target)).indexOf other =
      graph.indexOf other := by
    rw [indexOf, nodes_link, indexOf]
  rw [successors_eq, nodes_link, hindex, targetsAt_link hlt]
  simp only [hsame, ← h.mem_successors (getElem?_indexOf htarget)]
  split
  · rw [List.filterMap_append, List.filterMap_cons_some (getElem?_indexOf htarget),
      List.filterMap_nil, ← successors_eq]
  · rw [← successors_eq]

/-- An edge adds one successor at the end, unless it is there already. -/
theorem Coherent.successors_addEdge (h : graph.Coherent) (source target other : α) :
    (graph.addEdge source target).successors other =
      if source = other ∧ target ∉ graph.successors other
      then graph.successors other ++ [target] else graph.successors other := by
  have hsource : source ∈ ((graph.addNode source).addNode target).nodes := by
    simp [mem_nodes_addNode]
  have htarget : target ∈ ((graph.addNode source).addNode target).nodes := by
    simp [mem_nodes_addNode]
  have hlinked := ((h.addNode source).addNode target).successors_link hsource htarget other
  rwa [(h.addNode source).successors_addNode, h.successors_addNode] at hlinked

theorem nodes_prefix_mention (graph : Digraph α) (entry : Mention α) :
    graph.nodes <+: (graph.mention entry).nodes := by
  have hadd : ∀ (graph : Digraph α) (node : α), graph.nodes <+: (graph.addNode node).nodes := by
    intro graph node
    rw [nodes_addNode]
    split
    · exact List.prefix_rfl
    · exact List.prefix_append ..
  cases entry with
  | node node => exact hadd graph node
  | edge source target =>
    rw [mention, nodes_addEdge]
    exact (hadd graph source).trans (hadd _ target)

theorem grown_append (mentions later : List (Mention α)) :
    grown (mentions ++ later) = later.foldl mention (grown mentions) := List.foldl_append

/-- Nodes keep their positions, whatever is mentioned later. -/
theorem nodes_prefix_grown (mentions later : List (Mention α)) :
    (grown mentions).nodes <+: (grown (mentions ++ later)).nodes := by
  rw [grown_append]
  generalize grown mentions = graph
  induction later generalizing graph with
  | nil => exact List.prefix_rfl
  | cons entry later ih => exact (graph.nodes_prefix_mention entry).trans (ih _)

theorem onceInOrder_nodes (mentions : List (Mention α)) :
    OnceInOrder (mentions.flatMap Mention.nodes) (grown mentions).nodes := by
  induction mentions using List.reverseRecOn with
  | nil => exact .nil
  | append_singleton mentions entry ih =>
    rw [grown_append, List.flatMap_append, List.flatMap_singleton, List.foldl_cons, List.foldl_nil]
    cases entry with
    | node node =>
      rw [mention, nodes_addNode]
      exact ih.append node
    | edge source target =>
      rw [mention, nodes_addEdge, nodes_addNode, nodes_addNode, Mention.nodes,
        ← List.singleton_append, ← List.append_assoc]
      exact (ih.append source).append target

theorem onceInOrder_successors (mentions : List (Mention α)) (source : α) :
    OnceInOrder (mentions.filterMap (Mention.targetFrom? source))
      ((grown mentions).successors source) := by
  induction mentions using List.reverseRecOn with
  | nil => exact .nil
  | append_singleton mentions entry ih =>
    obtain ⟨hcoherent, -, -⟩ := grown_spec mentions
    rw [grown_append, List.filterMap_append, List.foldl_cons, List.foldl_nil]
    cases entry with
    | node node =>
      rw [mention, hcoherent.successors_addNode, List.filterMap_cons_none rfl, List.filterMap_nil,
        List.append_nil]
      exact ih
    | edge other target =>
      rw [mention, hcoherent.successors_addEdge]
      by_cases hother : other = source
      · have htarget : Mention.targetFrom? source (.edge other target) = some target := if_pos hother
        rw [List.filterMap_cons_some htarget, List.filterMap_nil]
        have hadded := ih.append target
        split at hadded
        · rename_i hold
          rwa [if_neg fun hnew => hnew.2 hold]
        · rename_i hnew
          rwa [if_pos ⟨hother, hnew⟩]
      · have hnone : Mention.targetFrom? source (.edge other target) = none := if_neg hother
        rw [List.filterMap_cons_none hnone, List.filterMap_nil, List.append_nil,
          if_neg fun hnew => hother hnew.1]
        exact ih

/-- The edges of a graph are grouped by their sources. -/
theorem Coherent.edges_eq (h : graph.Coherent) : graph.edges =
    graph.nodes.flatMap fun source => (graph.successors source).map (source, ·) := by
  rw [edges, nodes, List.flatMap_map]
  refine List.flatMap_congr fun row hrow => ?_
  obtain ⟨i, hi⟩ := List.mem_iff_getElem?.mp hrow
  have hlabel := getElem?_nodes hi
  rw [successors_eq, h.indexOf_eq hlabel, List.map_filterMap]
  simp only [targetsAt, hi]
  rfl

omit [DecidableEq α] in
/-- Listing the edges leaves out no position. -/
theorem Coherent.map_some_edges (h : graph.Coherent) :
    graph.edges.map (Prod.map some some) =
      graph.edgePositions.map (Prod.map (graph.nodes[·]?) (graph.nodes[·]?)) := by
  rw [edges, edgePositions, List.map_flatMap, List.map_flatMap]
  conv_lhs => rw [← List.zipIdx_map_fst 0 graph.rows, List.flatMap_map]
  refine List.flatMap_congr fun entry hentry => ?_
  have hi := List.mk_mem_zipIdx_iff_getElem?.mp hentry
  have hlabel := getElem?_nodes hi
  have hall := map_some_filterMap (h.target_lt_of_mem (List.mem_of_getElem? hi))
  calc (entry.1.targets.filterMap fun j => (graph.nodes[j]?).map (entry.1.label, ·)).map
          (Prod.map some some)
      = ((entry.1.targets.filterMap (graph.nodes[·]?)).map some).map (some entry.1.label, ·) := by
        rw [← List.map_filterMap, List.map_map, List.map_map]; rfl
    _ = (entry.1.targets.map (entry.2, ·)).map
          (Prod.map (graph.nodes[·]?) (graph.nodes[·]?)) := by
        rw [hall, List.map_map, List.map_map, ← hlabel]; rfl

def edgeIndexes (graph : Digraph α) : List (Nat × Nat) :=
  graph.edges.map (Prod.map graph.indexOf graph.indexOf)

/-- The indexes of the nodes of an edge are the positions under which it is stored. -/
theorem Coherent.edgeIndexes_eq (h : graph.Coherent) :
    graph.edgeIndexes = graph.edgePositions := by
  let back : Option α → Nat := fun node? => node?.elim 0 graph.indexOf
  have hback := congrArg (List.map (Prod.map back back)) h.map_some_edges
  rw [List.map_map, List.map_map] at hback
  refine hback.trans (Eq.trans (List.map_congr_left fun edge hedge => ?_) (List.map_id _))
  obtain ⟨⟨row, i⟩, hrow, hmem⟩ := List.mem_flatMap.mp hedge
  obtain ⟨j, hj, rfl⟩ := List.mem_map.mp hmem
  have hi := List.mk_mem_zipIdx_iff_getElem?.mp hrow
  have hlabel := getElem?_nodes hi
  have hstored : j ∈ graph.targetsAt i := by simpa only [targetsAt, hi] using hj
  obtain ⟨label, htarget⟩ := h.exists_label hstored
  simp only [back, Function.comp_apply, Prod.map, hlabel, htarget, Option.elim_some,
    h.indexOf_eq hlabel, h.indexOf_eq htarget, id_eq]

structure Remembers (graph : Digraph α) (mentions : List (Mention α)) : Prop where
  nodes : OnceInOrder (mentions.flatMap Mention.nodes) graph.nodes
  successors : ∀ source, OnceInOrder (mentions.filterMap (Mention.targetFrom? source))
    (graph.successors source)
  /-- Edges are grouped by their sources, in the order of these. -/
  edges : graph.edges =
    graph.nodes.flatMap fun source => (graph.successors source).map (source, ·)
  nodup_edges : graph.edges.Nodup
  mem_edges : ∀ source target, (source, target) ∈ graph.edges ↔ .edge source target ∈ mentions

theorem mem_edges_grown (mentions : List (Mention α)) (source target : α) :
    (source, target) ∈ (grown mentions).edges ↔ .edge source target ∈ mentions := by
  have hsuccessor : target ∈ (grown mentions).successors source ↔
      .edge source target ∈ mentions := by
    rw [(onceInOrder_successors mentions source).mem_iff, List.mem_filterMap]
    constructor
    · rintro ⟨_ | ⟨other, found⟩, hentry, hfound⟩
      · cases hfound
      · obtain ⟨rfl, hsame⟩ := Option.ite_none_right_eq_some.mp hfound
        exact Option.some.inj hsame ▸ hentry
    · exact fun hentry => ⟨_, hentry, if_pos rfl⟩
  obtain ⟨hcoherent, -, hnodes⟩ := grown_spec mentions
  rw [hcoherent.edges_eq, List.mem_flatMap, ← hsuccessor]
  constructor
  · rintro ⟨other, -, hmem⟩
    obtain ⟨found, hfound, heq⟩ := List.mem_map.mp hmem
    obtain ⟨rfl, rfl⟩ := Prod.mk.inj heq
    exact hfound
  · intro hmem
    have hsource : source ∈ (grown mentions).nodes :=
      (hnodes source).mpr (.inr ⟨target, .inl (hsuccessor.mp hmem)⟩)
    exact ⟨source, hsource, List.mem_map.mpr ⟨target, hmem, rfl⟩⟩

theorem nodup_edges_grown (mentions : List (Mention α)) : (grown mentions).edges.Nodup := by
  obtain ⟨hcoherent, -, -⟩ := grown_spec mentions
  rw [hcoherent.edges_eq, List.nodup_flatMap]
  refine ⟨fun source _ => ?_, hcoherent.nodup.imp fun {source other} hne => ?_⟩
  · exact (onceInOrder_successors mentions source).nodup.map fun _ _ => congrArg Prod.snd
  · intro edge hsource hother
    obtain ⟨_, -, rfl⟩ := List.mem_map.mp hsource
    obtain ⟨_, -, heq⟩ := List.mem_map.mp hother
    exact hne (congrArg Prod.fst heq).symm

theorem remembers_grown (mentions : List (Mention α)) : (grown mentions).Remembers mentions where
  nodes := onceInOrder_nodes mentions
  successors := onceInOrder_successors mentions
  edges := (grown_spec mentions).1.edges_eq
  nodup_edges := nodup_edges_grown mentions
  mem_edges := mem_edges_grown mentions

end Digraph

end ClockedLogic
