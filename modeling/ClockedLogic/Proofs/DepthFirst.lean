import ClockedLogic.Digraph.Search
import Mathlib.Data.List.Nodup
import Mathlib.Data.List.Perm.Subperm
import Mathlib.Logic.Relation

/-!
What depth first search finds. The finished nodes lead to finished nodes or back to the path,
so a search that has come to its end has finished everything that the start leads to. While no
circle has been met every finished node stands before its targets, and the place of a node in
the order then grows along every edge. A node that is met on the path does lie on a circle.
-/

namespace ClockedLogic

def TargetsBehind (targets : Nat → List Nat) : List Nat → Prop
  | [] => True
  | node :: rest => (∀ next ∈ targets node, next ∈ rest) ∧ TargetsBehind targets rest

theorem TargetsBehind.idxOf_lt {targets : Nat → List Nat} {order : List Nat}
    (h : TargetsBehind targets order) (hnodup : order.Nodup) {node next : Nat}
    (hnode : node ∈ order) (hnext : next ∈ targets node) :
    next ∈ order ∧ order.idxOf node < order.idxOf next := by
  induction order with
  | nil => cases hnode
  | cons head rest ih =>
    obtain ⟨hhead, hrest⟩ := h
    rw [List.nodup_cons] at hnodup
    rcases List.mem_cons.mp hnode with rfl | hmem
    · have hbehind : next ∈ rest := hhead next hnext
      have hne : node ≠ next := fun he => hnodup.1 (he ▸ hbehind)
      refine ⟨List.mem_cons_of_mem _ hbehind, ?_⟩
      rw [List.idxOf_cons_self, List.idxOf_cons_ne _ hne]
      exact Nat.succ_pos _
    · obtain ⟨hlater, hlt⟩ := ih hrest hnodup.2 hmem
      have hne : head ≠ node := fun he => hnodup.1 (he ▸ hmem)
      have hne' : head ≠ next := fun he => hnodup.1 (he ▸ hlater)
      refine ⟨List.mem_cons_of_mem _ hlater, ?_⟩
      rw [List.idxOf_cons_ne _ hne, List.idxOf_cons_ne _ hne']
      exact Nat.succ_lt_succ hlt

namespace Search

/-- What holds of a search whose path is given, whatever it has yet to visit. -/
structure Explored (targets : Nat → List Nat) (size : Nat) (path : List Nat)
    (found : Search) : Prop where
  nodup : found.finished.Nodup
  off_path : ∀ node ∈ found.finished, node ∉ path
  lt_size : ∀ node ∈ found.finished, node < size
  closed : ∀ node ∈ found.finished, ∀ next ∈ targets node,
    next ∈ found.finished ∨ next ∈ path
  circle_lt : ∀ node ∈ found.circle, node < size
  behind : found.circle = none → TargetsBehind targets found.finished

structure Continues (found later : Search) : Prop where
  finished : ∀ node ∈ found.finished, node ∈ later.finished
  circle : later.circle = none → found.circle = none

variable {targets : Nat → List Nat} {size : Nat} {path : List Nat} {found : Search}

theorem Continues.refl (found : Search) : Continues found found := ⟨fun _ h => h, id⟩

theorem Continues.trans {a b c : Search} (hab : Continues a b) (hbc : Continues b c) :
    Continues a c :=
  ⟨fun node h => hbc.finished node (hab.finished node h), fun h => hab.circle (hbc.circle h)⟩

theorem Explored.start : Explored targets size [] Search.start where
  nodup := List.nodup_nil
  off_path _ h := by cases h
  lt_size _ h := by cases h
  closed _ h := by cases h
  circle_lt _ h := by cases h
  behind _ := trivial

/-- A node that goes on the path must not have been finished. -/
theorem Explored.enter (h : Explored targets size path found) {node : Nat}
    (hnode : node ∉ found.finished) : Explored targets size (node :: path) found where
  nodup := h.nodup
  off_path other hother := by
    rw [List.mem_cons, not_or]
    exact ⟨fun he => hnode (he ▸ hother), h.off_path other hother⟩
  lt_size := h.lt_size
  closed other hother next hnext :=
    (h.closed other hother next hnext).imp id (List.mem_cons_of_mem _)
  circle_lt := h.circle_lt
  behind := h.behind

/-- An edge back to the path shows a circle. -/
theorem Explored.meet (h : Explored targets size path found) {next : Nat} (hnext : next < size) :
    Explored targets size path { found with circle := found.circle.or (some next) } where
  nodup := h.nodup
  off_path := h.off_path
  lt_size := h.lt_size
  closed := h.closed
  circle_lt other hother := by
    rcases hcircle : found.circle with _ | known
    · simp_all
    · exact h.circle_lt other (by simpa [hcircle] using hother)
  behind hnone := by simp at hnone

/-- A node leaves the path for the finished nodes when its targets have been seen. -/
theorem Explored.leave {node : Nat} (h : Explored targets size (node :: path) found)
    (hsize : node < size) (hpath : node ∉ path)
    (hseen : ∀ next ∈ targets node, next ∈ found.finished ∨ next ∈ node :: path)
    (hbehind : found.circle = none → ∀ next ∈ targets node, next ∈ found.finished) :
    Explored targets size path { found with finished := node :: found.finished } where
  nodup := by
    refine List.nodup_cons.mpr ⟨fun hmem => ?_, h.nodup⟩
    exact h.off_path node hmem List.mem_cons_self
  off_path other hother := by
    rcases List.mem_cons.mp hother with rfl | hmem
    · exact hpath
    · exact fun hin => h.off_path other hmem (List.mem_cons_of_mem _ hin)
  lt_size other hother := by
    rcases List.mem_cons.mp hother with rfl | hmem
    · exact hsize
    · exact h.lt_size other hmem
  closed other hother next hnext := by
    have hcases : next ∈ found.finished ∨ next ∈ node :: path := by
      rcases List.mem_cons.mp hother with rfl | hmem
      · exact hseen next hnext
      · exact h.closed other hmem next hnext
    rcases hcases with hdone | hon
    · exact .inl (List.mem_cons_of_mem _ hdone)
    · rcases List.mem_cons.mp hon with rfl | hrest
      · exact .inl List.mem_cons_self
      · exact .inr hrest
  circle_lt := h.circle_lt
  behind hnone := ⟨hbehind hnone, h.behind hnone⟩

/-- A path without repetition stays within the graph. -/
theorem length_lt_of_path {node : Nat} (hnodup : path.Nodup) (hlt : ∀ other ∈ path, other < size)
    (hnode : node < size) (hnot : node ∉ path) : path.length < size := by
  have hsub : node :: path ⊆ List.range size := by
    intro other hother
    rcases List.mem_cons.mp hother with rfl | hmem
    · exact List.mem_range.mpr hnode
    · exact List.mem_range.mpr (hlt other hmem)
  have hle := (List.subperm_of_subset (List.nodup_cons.mpr ⟨hnot, hnodup⟩) hsub).length_le
  rw [List.length_cons, List.length_range] at hle
  omega

/-- Looking at the targets of the newest node of the path one after the other. If each look keeps
the invariant and accounts for its target, all of them together do. -/
theorem explored_foldl (look : Search → Nat → Search) (ahead : List Nat)
    (hlook : ∀ next ∈ ahead, ∀ now, Explored targets size path now →
      Explored targets size path (look now next) ∧ Continues now (look now next) ∧
        (next ∈ (look now next).finished ∨ next ∈ path) ∧
        ((look now next).circle = none → next ∈ (look now next).finished))
    (h : Explored targets size path found) :
    Explored targets size path (ahead.foldl look found) ∧
      Continues found (ahead.foldl look found) ∧
      (∀ next ∈ ahead, next ∈ (ahead.foldl look found).finished ∨ next ∈ path) ∧
      ((ahead.foldl look found).circle = none →
        ∀ next ∈ ahead, next ∈ (ahead.foldl look found).finished) := by
  induction ahead generalizing found with
  | nil => exact ⟨h, .refl found, by simp, by simp⟩
  | cons next rest ih =>
    obtain ⟨hmid, hcont, hseen, hdone⟩ := hlook next List.mem_cons_self found h
    obtain ⟨hlast, hcont', hseen', hdone'⟩ :=
      ih (fun other ho => hlook other (List.mem_cons_of_mem _ ho)) hmid
    rw [List.foldl_cons]
    refine ⟨hlast, hcont.trans hcont', ?_, ?_⟩
    · intro other hother
      rcases List.mem_cons.mp hother with rfl | hm
      · exact hseen.imp (hcont'.finished other) id
      · exact hseen' other hm
    · intro hnone other hother
      rcases List.mem_cons.mp hother with rfl | hm
      · exact hcont'.finished other (hdone (hcont'.circle hnone))
      · exact hdone' hnone other hm

/-- A visit finishes its node and keeps what holds of the search. -/
theorem explored_visit (hlt : ∀ node, ∀ next ∈ targets node, next < size) (room : Nat)
    {node : Nat} (h : Explored targets size path found) (hpath : path.Nodup)
    (hpathLt : ∀ other ∈ path, other < size) (hnode : node < size) (hnot : node ∉ path)
    (hnew : node ∉ found.finished) (hroom : path.length + room = size) :
    Explored targets size path (visit targets room path node found) ∧
      Continues found (visit targets room path node found) ∧
      node ∈ (visit targets room path node found).finished := by
  induction room generalizing path node found with
  | zero =>
    have := length_lt_of_path hpath hpathLt hnode hnot
    omega
  | succ room ih =>
    unfold visit
    obtain ⟨hex, hcont, hseen, hdone⟩ := explored_foldl (fun found next =>
        if next ∈ node :: path then { found with circle := found.circle.or (some next) }
        else if next ∈ found.finished then found
        else visit targets room (node :: path) next found) (targets node)
      (fun next hnext now hnow => by
        split
        · rename_i hon
          refine ⟨hnow.meet (hlt node next hnext), ⟨fun _ hm => hm, fun hnone => ?_⟩, .inr hon,
            fun hnone => ?_⟩ <;> simp at hnone
        · rename_i hoff
          split
          · rename_i hold
            exact ⟨hnow, .refl now, .inl hold, fun _ => hold⟩
          · rename_i hfresh
            obtain ⟨hex, hcont, hmem⟩ := ih hnow (List.nodup_cons.mpr ⟨hnot, hpath⟩)
              (by simpa using ⟨hnode, hpathLt⟩) (hlt node next hnext) hoff hfresh
              (by rw [List.length_cons]; omega)
            exact ⟨hex, hcont, .inl hmem, fun _ => hmem⟩) (h.enter hnew)
    exact ⟨hex.leave hnode hnot hseen hdone,
      hcont.trans ⟨fun other ho => List.mem_cons_of_mem _ ho, id⟩, List.mem_cons_self⟩

/-- A node that is met again while it is on the path lies on a circle. Every node of the path leads
to the newest one, which leads to the node that is met. -/
theorem circle_visit (room : Nat) {node : Nat}
    (hpath : ∀ other ∈ path, Relation.TransGen (fun a b => b ∈ targets a) other node)
    (h : ∀ met ∈ found.circle, Relation.TransGen (fun a b => b ∈ targets a) met met) :
    ∀ met ∈ (visit targets room path node found).circle,
      Relation.TransGen (fun a b => b ∈ targets a) met met := by
  induction room generalizing path node found with
  | zero => exact h
  | succ room ih =>
    unfold visit
    have hpath' : ∀ next ∈ targets node, ∀ other ∈ node :: path,
        Relation.TransGen (fun a b => b ∈ targets a) other next := by
      intro next hnext other hother
      rcases List.mem_cons.mp hother with rfl | hmem
      · exact .single hnext
      · exact (hpath other hmem).tail hnext
    generalize hahead : targets node = ahead at hpath'
    clear hahead
    simp only
    induction ahead generalizing found with
    | nil => exact h
    | cons next rest ihRest =>
      rw [List.foldl_cons]
      refine ihRest ?_ fun other hother => hpath' other (List.mem_cons_of_mem _ hother)
      split
      · rename_i hon
        intro met hmet
        rcases Option.or_eq_some_iff.mp hmet with hold | ⟨-, hnew⟩
        · exact h met hold
        · obtain rfl := Option.some.inj hnew
          exact hpath' next List.mem_cons_self next hon
      · split
        · exact h
        · exact ih (hpath' next List.mem_cons_self) h

theorem finished_visit (room : Nat) {node other : Nat}
    (hother : other ∈ (visit targets room path node found).finished) :
    other ∈ found.finished ∨ Relation.ReflTransGen (fun a b => b ∈ targets a) node other := by
  induction room generalizing path node found with
  | zero => exact .inl hother
  | succ room ih =>
    unfold visit at hother
    rcases List.mem_cons.mp hother with rfl | hbefore
    · exact .inr .refl
    clear hother
    generalize hahead : targets node = ahead at hbefore
    have hedges : ∀ next ∈ ahead, next ∈ targets node := fun next hnext => hahead ▸ hnext
    clear hahead
    induction ahead generalizing found with
    | nil => exact .inl hbefore
    | cons next rest ihRest =>
      rw [List.foldl_cons] at hbefore
      obtain ⟨hnext, hrest⟩ := List.forall_mem_cons.mp hedges
      refine (ihRest hbefore hrest).elim (fun hlooked => ?_) .inr
      split at hlooked
      · exact .inl hlooked
      · split at hlooked
        · exact .inl hlooked
        · exact (ih hlooked).imp_right (.head hnext)

theorem explored_start (hlt : ∀ node, ∀ next ∈ targets node, next < size) {node : Nat}
    (hnode : node < size) :
    Explored targets size [] (visit targets size [] node .start) ∧
      node ∈ (visit targets size [] node .start).finished := by
  obtain ⟨hex, -, hmem⟩ := explored_visit hlt size .start List.nodup_nil (by simp) hnode
    (by simp) (by simp [start]) (by simp)
  exact ⟨hex, hmem⟩

end Search

namespace Digraph

variable {α : Type} {graph : Digraph α}

def HasEdge (graph : Digraph α) (source target : α) : Prop :=
  ∃ i j, graph.nodes[i]? = some source ∧ graph.nodes[j]? = some target ∧ j ∈ graph.targetsAt i

structure Coherent (graph : Digraph α) : Prop where
  nodup : graph.nodes.Nodup
  target_lt : ∀ i, ∀ j ∈ graph.targetsAt i, j < graph.size

theorem length_nodes (graph : Digraph α) : graph.nodes.length = graph.size := List.length_map ..

theorem lt_size_of_nodes {node : α} {i : Nat} (hi : graph.nodes[i]? = some node) :
    i < graph.size :=
  graph.length_nodes ▸ (List.getElem?_eq_some_iff.mp hi).1

theorem lt_size_of_mem_targetsAt {i j : Nat} (h : j ∈ graph.targetsAt i) : i < graph.size := by
  by_contra hge
  rw [targetsAt, List.getElem?_eq_none (Nat.le_of_not_lt hge)] at h
  cases h

theorem coherent_empty : (empty : Digraph α).Coherent :=
  ⟨List.nodup_nil, by simp [targetsAt, empty]⟩

theorem Coherent.explored_searchFrom (h : graph.Coherent) {node : α} {i : Nat}
    (hi : graph.nodes[i]? = some node) :
    Search.Explored graph.targetsAt graph.size [] (graph.searchFrom i) ∧
      i ∈ (graph.searchFrom i).finished :=
  Search.explored_start h.target_lt (lt_size_of_nodes hi)

theorem Coherent.position_unique (h : graph.Coherent) {node : α} {i j : Nat}
    (hi : graph.nodes[i]? = some node) (hj : graph.nodes[j]? = some node) : i = j :=
  (List.getElem?_inj (List.getElem?_eq_some_iff.mp hi).1 h.nodup).mp (hi.trans hj.symm)

variable [DecidableEq α]

theorem nodes_of_indexOf? {node : α} {i : Nat} (hi : graph.indexOf? node = some i) :
    graph.nodes[i]? = some node := by
  obtain ⟨hlt, hsame, -⟩ := List.idxOf?_eq_some_iff.mp hi
  rw [List.getElem?_eq_getElem hlt, hsame]

theorem Coherent.indexOf_eq (h : graph.Coherent) {node : α} {i : Nat}
    (hi : graph.nodes[i]? = some node) : graph.indexOf node = i := by
  obtain ⟨hlt, rfl⟩ := List.getElem?_eq_some_iff.mp hi
  exact h.nodup.idxOf_getElem i hlt

theorem indexOf?_eq_some (h : graph.Coherent) {node : α} {i : Nat}
    (hi : graph.nodes[i]? = some node) : graph.indexOf? node = some i := by
  obtain ⟨hlt, hget⟩ := List.getElem?_eq_some_iff.mp hi
  refine List.idxOf?_eq_some_iff.mpr ⟨hlt, by simpa using hget, fun j hj => ?_⟩
  have hne := (List.nodup_iff_getElem?_ne_getElem?.mp h.nodup) j i hj hlt
  intro heq
  apply hne
  rw [hi, List.getElem?_eq_getElem (by omega)]
  simpa using heq

omit [DecidableEq α] in
/-- All that a node leads to is finished by a search from it. -/
theorem mem_finished_of_path (h : graph.Coherent) {source target : α} {i : Nat}
    (hi : graph.nodes[i]? = some source)
    (hpath : Relation.ReflTransGen graph.HasEdge source target) :
    ∃ j, graph.nodes[j]? = some target ∧ j ∈ (graph.searchFrom i).finished := by
  obtain ⟨hex, hmem⟩ := h.explored_searchFrom hi
  induction hpath with
  | refl => exact ⟨i, hi, hmem⟩
  | tail _ hedge ih =>
    obtain ⟨j, hj, hfinished⟩ := ih
    obtain ⟨j', k, hj', hk, htarget⟩ := hedge
    obtain rfl := h.position_unique hj hj'
    exact ⟨k, hk, (hex.closed j hfinished k htarget).resolve_right (by simp)⟩

theorem reaches_of_path (h : graph.Coherent) {source target : α} (hsource : source ∈ graph.nodes)
    (hpath : Relation.ReflTransGen graph.HasEdge source target) :
    graph.reaches source target = true := by
  obtain ⟨i, hi⟩ := List.mem_iff_getElem?.mp hsource
  obtain ⟨j, hj, hfinished⟩ := mem_finished_of_path h hi hpath
  simp only [reaches, indexOf?_eq_some h hi, indexOf?_eq_some h hj]
  exact decide_eq_true hfinished

theorem mem_order_traverse (h : graph.Coherent) {start node : α} (hstart : start ∈ graph.nodes)
    (hpath : Relation.ReflTransGen graph.HasEdge start node) :
    node ∈ (graph.traverse start).order := by
  obtain ⟨i, hi⟩ := List.mem_iff_getElem?.mp hstart
  obtain ⟨j, hj, hfinished⟩ := mem_finished_of_path h hi hpath
  simp only [traverse, indexOf?_eq_some h hi]
  exact List.mem_filterMap.mpr ⟨j, hfinished, hj⟩

theorem nodup_order_traverse (h : graph.Coherent) (start : α) :
    (graph.traverse start).order.Nodup := by
  unfold traverse
  split
  · rename_i i hi
    obtain ⟨hex, -⟩ := h.explored_searchFrom (nodes_of_indexOf? hi)
    apply hex.nodup.filterMap
    intro a b label ha hb
    exact h.position_unique ha hb
  · exact List.nodup_nil

omit [DecidableEq α] in
theorem transGen_hasEdge {i j : Nat} {source target : α}
    (hpath : Relation.TransGen (fun a b => b ∈ graph.targetsAt a) i j)
    (hi : graph.nodes[i]? = some source) (hj : graph.nodes[j]? = some target) :
    Relation.TransGen graph.HasEdge source target := by
  induction hpath generalizing target with
  | single hedge => exact .single ⟨i, _, hi, hj, hedge⟩
  | @tail k l _ hedge ih =>
    have hlt : k < graph.nodes.length := by
      rw [length_nodes]
      exact lt_size_of_mem_targetsAt hedge
    exact (ih (List.getElem?_eq_getElem hlt)).tail ⟨k, l, List.getElem?_eq_getElem hlt, hj, hedge⟩

/-- What is reached is at the end of a path. -/
theorem path_of_reaches {source target : α} (h : graph.reaches source target = true) :
    Relation.ReflTransGen graph.HasEdge source target := by
  unfold reaches at h
  split at h
  · rename_i i j hi hj
    have hsource := nodes_of_indexOf? hi
    have htarget := nodes_of_indexOf? hj
    rcases Search.finished_visit _ (of_decide_eq_true h) with hstart | hpath
    · cases hstart
    · rcases Relation.reflTransGen_iff_eq_or_transGen.mp hpath with rfl | hpath
      · rw [Option.some.inj (hsource.symm.trans htarget)]
      · exact (transGen_hasEdge hpath hsource htarget).to_reflTransGen
  · cases h

/-- A node that a traversal reports lies on a circle. -/
theorem transGen_of_traverse {start node : α}
    (hcircle : (graph.traverse start).circle = some node) :
    Relation.TransGen graph.HasEdge node node := by
  unfold traverse at hcircle
  split at hcircle
  · obtain ⟨i, hi, hnode⟩ := Option.bind_eq_some_iff.mp hcircle
    refine transGen_hasEdge ?_ hnode hnode
    exact Search.circle_visit _ (by simp) (by simp [Search.start]) i hi
  · cases hcircle

/-- A traversal that reports no circle comes from a search that has met none. -/
theorem circle_searchFrom (h : graph.Coherent) {start : α} {i : Nat}
    (hi : graph.nodes[i]? = some start) (hcircle : (graph.traverse start).circle = none) :
    (graph.searchFrom i).circle = none := by
  obtain ⟨hex, -⟩ := h.explored_searchFrom hi
  rcases hfound : (graph.searchFrom i).circle with _ | node
  · rfl
  · have hnode : node < graph.nodes.length :=
      graph.length_nodes ▸ hex.circle_lt node hfound
    simp [traverse, indexOf?_eq_some h hi, hfound, hnode] at hcircle

/-- Where a traversal meets no circle, a rank grows along all edges to nodes that it meets. -/
theorem exists_rank_of_traverse (h : graph.Coherent) {start : α} (hstart : start ∈ graph.nodes)
    (hcircle : (graph.traverse start).circle = none) :
    ∃ rank : α → Nat, ∀ source target, graph.HasEdge source target →
      Relation.ReflTransGen graph.HasEdge start target → rank source < rank target := by
  obtain ⟨i, hi⟩ := List.mem_iff_getElem?.mp hstart
  obtain ⟨hex, -⟩ := h.explored_searchFrom hi
  have hnone := circle_searchFrom h hi hcircle
  refine ⟨fun node => if graph.indexOf node ∈ (graph.searchFrom i).finished then
    (graph.searchFrom i).finished.idxOf (graph.indexOf node) + 1 else 0, ?_⟩
  intro source target hexists hpath
  obtain ⟨j, k, hj, hk, hedge⟩ := hexists
  obtain ⟨k', hk', hfinished⟩ := mem_finished_of_path h hi hpath
  obtain rfl := h.position_unique hk' hk
  simp only [h.indexOf_eq hj, h.indexOf_eq hk, hfinished, if_true]
  by_cases hsource : j ∈ (graph.searchFrom i).finished
  · rw [if_pos hsource]
    have := (hex.behind hnone).idxOf_lt hex.nodup hsource hedge
    exact Nat.succ_lt_succ this.2
  · rw [if_neg hsource]
    exact Nat.succ_pos _

end Digraph

end ClockedLogic
