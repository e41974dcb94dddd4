import ClockedLogic.Proofs.GraphGrowth
import ClockedLogic.Proofs.SearchStack
import Mathlib.Data.List.Induction

/-!
Traversals of any graph that grows node by node and edge by edge. A traversal lists what the start
leads to, each node once and the start first. It reports a circle exactly if the start leads to
one, and otherwise every node stands before its targets.
-/

namespace ClockedLogic

/-- A node or an edge that a graph is told of. -/
inductive Mention (α : Type) where
  | node (node : α)
  | edge (source target : α)
deriving DecidableEq, Repr

/-- Whether a node has been mentioned, alone or as an end of an edge. -/
def Mention.Known {α : Type} (mentions : List (Mention α)) (node : α) : Prop :=
  .node node ∈ mentions ∨ ∃ other, .edge node other ∈ mentions ∨ .edge other node ∈ mentions

/-- What a traversal from a node has to be, in a graph with given nodes and edges. -/
structure Traversal.Exact {α : Type} [DecidableEq α] (known : α → Prop) (edge : α → α → Prop)
    (start : α) (sorted : Traversal α) : Prop where
  missing : ¬ known start → sorted.order = []
  head : known start → sorted.order.head? = some start
  mem_order : known start → ∀ node, node ∈ sorted.order ↔ Relation.ReflTransGen edge start node
  nodup : sorted.order.Nodup
  isSome_circle : sorted.circle.isSome = true ↔
    ∃ node, Relation.ReflTransGen edge start node ∧ Relation.TransGen edge node node
  circle : ∀ node ∈ sorted.circle,
    Relation.ReflTransGen edge start node ∧ Relation.TransGen edge node node
  before : sorted.circle = none → ∀ source target, Relation.ReflTransGen edge start source →
    edge source target → sorted.order.idxOf source < sorted.order.idxOf target

section Order

variable {targets : Nat → List Nat} {order : List Nat}

/-- No node has a target before it. -/
theorem TargetsBehind.pairwise (h : TargetsBehind targets order) (hnodup : order.Nodup) :
    order.Pairwise fun earlier later => earlier ∉ targets later := by
  refine List.pairwise_iff_getElem.mpr fun i j hi hj hlt hmem => ?_
  obtain ⟨-, hbefore⟩ := h.idxOf_lt hnodup (List.getElem_mem hj) hmem
  rw [hnodup.idxOf_getElem, hnodup.idxOf_getElem] at hbefore
  omega

/-- Where no element is related to an earlier one or to itself, relations go forward. -/
theorem idxOf_lt_of_pairwise {α : Type} [DecidableEq α] {edge : α → α → Prop} {nodes : List α}
    (hpairwise : nodes.Pairwise fun earlier later => ¬ edge later earlier)
    (hself : ∀ node ∈ nodes, ¬ edge node node) {source target : α} (hsource : source ∈ nodes)
    (htarget : target ∈ nodes) (hedge : edge source target) :
    nodes.idxOf source < nodes.idxOf target := by
  have hsourceLt := List.idxOf_lt_length_of_mem hsource
  have htargetLt := List.idxOf_lt_length_of_mem htarget
  rcases Nat.lt_trichotomy (nodes.idxOf source) (nodes.idxOf target) with hlt | heq | hgt
  · exact hlt
  · rw [List.idxOf_inj hsource] at heq
    subst heq
    exact absurd hedge (hself source hsource)
  · have hnot := List.pairwise_iff_getElem.mp hpairwise _ _ htargetLt hsourceLt hgt
    rw [List.getElem_idxOf, List.getElem_idxOf] at hnot
    exact absurd hedge hnot

end Order

namespace Search

variable {targets : Nat → List Nat} {path : List Nat} {found : Search}

/-- A visit meets only what its node leads to. -/
theorem met_visit (room : Nat) {node met : Nat}
    (hmet : met ∈ (visit targets room path node found).circle) :
    met ∈ found.circle ∨ Relation.ReflTransGen (fun a b => b ∈ targets a) node met := by
  induction room generalizing path node found with
  | zero => exact .inl hmet
  | succ room ih =>
    unfold visit at hmet
    generalize hahead : targets node = ahead at hmet
    have hedges : ∀ next ∈ ahead, next ∈ targets node := fun next hnext => hahead ▸ hnext
    clear hahead
    simp only at hmet
    induction ahead generalizing found with
    | nil => exact .inl hmet
    | cons next rest ihRest =>
      rw [List.foldl_cons] at hmet
      obtain ⟨hnext, hrest⟩ := List.forall_mem_cons.mp hedges
      refine (ihRest hmet hrest).elim (fun hlooked => ?_) .inr
      split at hlooked
      · rcases Option.or_eq_some_iff.mp hlooked with hold | ⟨-, hnew⟩
        · exact .inl hold
        · obtain rfl := Option.some.inj hnew
          exact .inr (.single hnext)
      · split at hlooked
        · exact .inl hlooked
        · exact (ih hlooked).imp_right (.head hnext)

theorem head?_finished_visit (room : Nat) (node : Nat) :
    (visit targets (room + 1) path node found).finished.head? = some node := by
  rw [visit, List.head?_cons]

end Search

namespace Digraph

variable {α : Type} {graph : Digraph α}

theorem reflTransGen_hasEdge {i j : Nat} {source target : α}
    (hpath : Relation.ReflTransGen (fun a b => b ∈ graph.targetsAt a) i j)
    (hi : graph.nodes[i]? = some source) (hj : graph.nodes[j]? = some target) :
    Relation.ReflTransGen graph.HasEdge source target := by
  rcases Relation.reflTransGen_iff_eq_or_transGen.mp hpath with rfl | hpath
  · rw [Option.some.inj (hi.symm.trans hj)]
  · exact (transGen_hasEdge hpath hi hj).to_reflTransGen

theorem HasEdge.mem_source {a b : α} (h : graph.HasEdge a b) : a ∈ graph.nodes := by
  obtain ⟨i, -, hi, -⟩ := h
  exact List.mem_iff_getElem?.mpr ⟨i, hi⟩

variable [DecidableEq α]

/-- A traversal from a node of the graph is what a search from its position finds. -/
theorem traverse_eq (h : graph.Coherent) {start : α} {i : Nat}
    (hi : graph.nodes[i]? = some start) :
    graph.traverse start = ⟨(graph.searchFrom i).finished.filterMap (graph.nodes[·]?),
      (graph.searchFrom i).circle.bind (graph.nodes[·]?)⟩ := by
  simp only [traverse, indexOf?_eq_some h hi]

theorem traverse_of_not_mem {start : α} (h : start ∉ graph.nodes) :
    graph.traverse start = ⟨[], none⟩ := by
  have hnone : graph.indexOf? start = none := List.idxOf?_eq_none_iff.mpr h
  simp only [traverse, hnone]

theorem head?_traverse (h : graph.Coherent) {start : α} (hstart : start ∈ graph.nodes) :
    (graph.traverse start).order.head? = some start := by
  obtain ⟨i, hi⟩ := List.mem_iff_getElem?.mp hstart
  have hlt := lt_size_of_nodes hi
  obtain ⟨room, hroom⟩ : ∃ room, graph.size = room + 1 := ⟨graph.size - 1, by omega⟩
  have hhead : (graph.searchFrom i).finished.head? = some i := by
    rw [searchFrom, hroom, Search.head?_finished_visit]
  obtain ⟨rest, hrest⟩ := List.head?_eq_some_iff.mp hhead
  rw [traverse_eq h hi, hrest, List.filterMap_cons_some hi, List.head?_cons]

/-- A traversal lists only what the start leads to. -/
theorem path_of_mem_traverse (h : graph.Coherent) {start node : α}
    (hnode : node ∈ (graph.traverse start).order) :
    Relation.ReflTransGen graph.HasEdge start node := by
  by_cases hstart : start ∈ graph.nodes
  · obtain ⟨i, hi⟩ := List.mem_iff_getElem?.mp hstart
    rw [traverse_eq h hi] at hnode
    obtain ⟨j, hfinished, hj⟩ := List.mem_filterMap.mp hnode
    rcases Search.finished_visit _ hfinished with hbefore | hpath
    · cases hbefore
    · exact reflTransGen_hasEdge hpath hi hj
  · rw [traverse_of_not_mem hstart] at hnode
    cases hnode

/-- A traversal reports only what the start leads to. -/
theorem path_of_circle_traverse (h : graph.Coherent) {start node : α}
    (hnode : (graph.traverse start).circle = some node) :
    Relation.ReflTransGen graph.HasEdge start node := by
  by_cases hstart : start ∈ graph.nodes
  · obtain ⟨i, hi⟩ := List.mem_iff_getElem?.mp hstart
    rw [traverse_eq h hi] at hnode
    obtain ⟨j, hmet, hj⟩ := Option.bind_eq_some_iff.mp hnode
    rcases Search.met_visit _ hmet with hbefore | hpath
    · cases hbefore
    · exact reflTransGen_hasEdge hpath hi hj
  · rw [traverse_of_not_mem hstart] at hnode
    cases hnode

/-- Where a traversal meets no circle, no node that it lists has an edge to an earlier one. -/
theorem pairwise_traverse (h : graph.Coherent) {start : α} (hstart : start ∈ graph.nodes)
    (hcircle : (graph.traverse start).circle = none) :
    (graph.traverse start).order.Pairwise fun earlier later => ¬ graph.HasEdge later earlier := by
  obtain ⟨i, hi⟩ := List.mem_iff_getElem?.mp hstart
  obtain ⟨hex, -⟩ := h.explored_searchFrom hi
  have hbehind := hex.behind (circle_searchFrom h hi hcircle)
  rw [traverse_eq h hi, List.pairwise_filterMap]
  refine (hbehind.pairwise hex.nodup).imp fun {j k} hnot earlier hj later hk hedge => hnot ?_
  obtain ⟨k', j', hk', hj', hmem⟩ := hedge
  obtain rfl := h.position_unique hk' hk
  obtain rfl := h.position_unique hj' hj
  exact hmem

/-- The start leads to a circle exactly if a traversal from it reports one. -/
theorem not_circle_of_traverse (h : graph.Coherent) {start node : α}
    (hcircle : (graph.traverse start).circle = none)
    (hpath : Relation.ReflTransGen graph.HasEdge start node) :
    ¬ Relation.TransGen graph.HasEdge node node := by
  intro hloop
  have hstart : start ∈ graph.nodes := by
    obtain ⟨next, hfirst, -⟩ := Relation.TransGen.head'_iff.mp (hloop.trans_right hpath)
    exact hfirst.mem_source
  obtain ⟨rank, hrank⟩ := exists_rank_of_traverse h hstart hcircle
  -- The rank grows along every path that leaves a node the start leads to.
  have hgrows : ∀ {last}, Relation.TransGen graph.HasEdge node last → rank node < rank last := by
    intro last hlast
    induction hlast with
    | single hedge => exact hrank _ _ hedge (hpath.tail hedge)
    | tail hbefore hedge ih =>
      exact Nat.lt_trans ih (hrank _ _ hedge ((hpath.trans hbefore.to_reflTransGen).tail hedge))
  exact Nat.lt_irrefl _ (hgrows hloop)

theorem Coherent.exact_traverse (h : graph.Coherent) (start : α) :
    (graph.traverse start).Exact (· ∈ graph.nodes) graph.HasEdge start where
  missing hstart := by rw [traverse_of_not_mem hstart]
  head := head?_traverse h
  mem_order hstart node := ⟨path_of_mem_traverse h, mem_order_traverse h hstart⟩
  nodup := nodup_order_traverse h start
  isSome_circle := by
    constructor
    · intro hsome
      obtain ⟨node, hnode⟩ := Option.isSome_iff_exists.mp hsome
      exact ⟨node, path_of_circle_traverse h hnode, transGen_of_traverse hnode⟩
    · rintro ⟨node, hpath, hloop⟩
      by_contra hnone
      exact not_circle_of_traverse h (Option.not_isSome_iff_eq_none.mp hnone) hpath hloop
  circle node hnode := ⟨path_of_circle_traverse h hnode, transGen_of_traverse hnode⟩
  before hcircle source target hpath hedge := by
    have hstart : start ∈ graph.nodes := by
      obtain ⟨next, hfirst, -⟩ := Relation.TransGen.head'_iff.mp
        (Relation.TransGen.tail' hpath hedge)
      exact hfirst.mem_source
    refine idxOf_lt_of_pairwise (pairwise_traverse h hstart hcircle) (fun node hnode hself => ?_)
      (mem_order_traverse h hstart hpath) (mem_order_traverse h hstart (hpath.tail hedge)) hedge
    exact not_circle_of_traverse h hcircle (path_of_mem_traverse h hnode) (.single hself)

def mention (graph : Digraph α) : Mention α → Digraph α
  | .node node => graph.addNode node
  | .edge source target => graph.addEdge source target

def grown (mentions : List (Mention α)) : Digraph α := mentions.foldl mention empty

theorem Coherent.mention (h : graph.Coherent) (entry : Mention α) :
    (graph.mention entry).Coherent := by
  cases entry with
  | node node => exact h.addNode node
  | edge source target => exact h.addEdge source target

theorem hasEdge_mention (h : graph.Coherent) (entry : Mention α) {a b : α} :
    (graph.mention entry).HasEdge a b ↔ graph.HasEdge a b ∨ entry = .edge a b := by
  cases entry with
  | node node => simp [mention, hasEdge_addNode h]
  | edge source target => simp [mention, hasEdge_addEdge h, eq_comm]

theorem mem_nodes_mention (graph : Digraph α) (entry : Mention α) (node : α) :
    node ∈ (graph.mention entry).nodes ↔ node ∈ graph.nodes ∨ Mention.Known [entry] node := by
  cases entry with
  | node other => simp [mention, mem_nodes_addNode, Mention.Known]
  | edge source target =>
    simp only [mention, nodes_addEdge, mem_nodes_addNode, Mention.Known, List.mem_singleton,
      reduceCtorEq, false_or, Mention.edge.injEq]
    constructor
    · rintro ((hold | rfl) | rfl)
      · exact .inl hold
      · exact .inr ⟨target, .inl ⟨rfl, rfl⟩⟩
      · exact .inr ⟨source, .inr ⟨rfl, rfl⟩⟩
    · rintro (hold | ⟨other, ⟨rfl, -⟩ | ⟨-, rfl⟩⟩)
      · exact .inl (.inl hold)
      · exact .inl (.inr rfl)
      · exact .inr rfl

/-- A graph is coherent and has the edges and the nodes that it has been told of. -/
theorem grown_spec (mentions : List (Mention α)) :
    (grown mentions).Coherent ∧
      (∀ a b, (grown mentions).HasEdge a b ↔ .edge a b ∈ mentions) ∧
      ∀ node, node ∈ (grown mentions).nodes ↔ Mention.Known mentions node := by
  induction mentions using List.reverseRecOn with
  | nil =>
    refine ⟨coherent_empty, fun a b => iff_of_false ?_ List.not_mem_nil, fun node => ?_⟩
    · exact fun hedge => List.not_mem_nil hedge.mem_source
    · simp [grown, empty, nodes, Mention.Known]
  | append_singleton mentions entry ih =>
    obtain ⟨hcoherent, hedges, hnodes⟩ := ih
    have hgrown : grown (mentions ++ [entry]) = (grown mentions).mention entry := by
      rw [grown, List.foldl_append]
      rfl
    rw [hgrown]
    refine ⟨hcoherent.mention entry, fun a b => ?_, fun node => ?_⟩
    · rw [hasEdge_mention hcoherent, hedges, List.mem_append, List.mem_singleton, eq_comm]
    · rw [mem_nodes_mention, hnodes]
      simp only [Mention.Known, List.mem_append]
      grind

/-- On every graph and from every node the loop ends, and with an exact traversal: it lists what the
start leads to, reports a circle exactly if the start leads to one, and puts every node before
its targets otherwise. -/
theorem sorted_traverse (mentions : List (Mention α)) (start : α) :
    (grown mentions).SortsTo start ((grown mentions).traverse start) ∧
      ((grown mentions).traverse start).Exact (Mention.Known mentions)
        (fun source target => .edge source target ∈ mentions) start := by
  obtain ⟨hcoherent, hedges, hnodes⟩ := grown_spec mentions
  have hknown : (· ∈ (grown mentions).nodes) = Mention.Known mentions :=
    funext fun node => propext (hnodes node)
  have hedge : (grown mentions).HasEdge = fun source target => .edge source target ∈ mentions :=
    funext fun a => funext fun b => propext (hedges a b)
  refine ⟨hcoherent.sortsTo start, ?_⟩
  rw [← hknown, ← hedge]
  exact hcoherent.exact_traverse start

end Digraph

end ClockedLogic
