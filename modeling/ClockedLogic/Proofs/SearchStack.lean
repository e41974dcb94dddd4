import ClockedLogic.FlagSet
import ClockedLogic.Proofs.DepthFirst

/-!
Depth first search as a loop. A stack holds the nodes of the path, each with the number of the
edge that is to be followed next, and two sets of flags hold the nodes that have been visited and
those that are on the path. The loop comes to its end on every graph, and by then it has finished
the same nodes and met the same circle as the recursive search.
-/

namespace ClockedLogic

structure Trail where
  /-- The nodes of the path with the numbers of their next edges, newest first. -/
  stack : List (Nat × Nat)
  visited : FlagSet
  onPath : FlagSet
  found : Search

namespace Trail

def begin (size node : Nat) : Except Fault Trail := do
  let (_, visited) ← (FlagSet.empty size).mark node
  let (_, onPath) ← (FlagSet.empty size).mark node
  return ⟨[(node, 0)], visited, onPath, .start⟩

/-- Follows the next edge of the newest node of the path, or finishes the node if it has none. -/
def step (targets : Nat → List Nat) (trail : Trail) : Except Fault Trail :=
  match trail.stack with
  | [] => .ok trail
  | (node, edge) :: rest =>
    match (targets node)[edge]? with
    | some next => do
      let stack := (node, edge + 1) :: rest
      if ← trail.onPath.read next then
        let circle := trail.found.circle.or (some next)
        return { trail with stack, found := { trail.found with circle } }
      else
        let (fresh, visited) ← trail.visited.mark next
        if fresh then
          let (_, onPath) ← trail.onPath.mark next
          return { trail with stack := (next, 0) :: stack, visited, onPath }
        else
          return { trail with stack, visited }
    | none => do
      let (_, onPath) ← trail.onPath.unmark node
      let finished := node :: trail.found.finished
      return { trail with stack := rest, onPath, found := { trail.found with finished } }

def Goes (targets : Nat → List Nat) (trail next : Trail) : Prop :=
  trail.stack ≠ [] ∧ trail.step targets = .ok next

def EndsIn (targets : Nat → List Nat) (trail last : Trail) : Prop :=
  last.stack = [] ∧ Relation.ReflTransGen (Goes targets) trail last

/-- The flags of a search agree with its stack and with what it has found. -/
structure Stands (size : Nat) (stack : List (Nat × Nat)) (found : Search) (trail : Trail) :
    Prop where
  stack_eq : trail.stack = stack
  found_eq : trail.found = found
  size_visited : trail.visited.size = size
  size_onPath : trail.onPath.size = size
  visited : ∀ node, trail.visited.contains node = true ↔
    node ∈ found.finished ∨ node ∈ stack.map Prod.fst
  onPath : ∀ node, trail.onPath.contains node = true ↔ node ∈ stack.map Prod.fst

variable {targets : Nat → List Nat} {size node edge next : Nat} {stack : List (Nat × Nat)}
  {found : Search} {trail : Trail}

theorem exists_begin (hnode : node < size) :
    ∃ first, begin size node = .ok first ∧ Stands size [(node, 0)] .start first := by
  have hmark : (FlagSet.empty size).mark node = .ok (true, (FlagSet.empty size).insert node) := by
    simp [FlagSet.mark, FlagSet.check, hnode]
  have hinsert : ∀ other, ((FlagSet.empty size).insert node).contains other = true ↔
      other = node := by
    intro other
    rw [FlagSet.contains_insert _ _ _ hnode]
    simp
  refine ⟨_, by simp only [begin, hmark]; rfl, rfl, rfl, by simp, by simp, fun other => ?_,
    fun other => ?_⟩
  · simp [hinsert, Search.start]
  · simp [hinsert]

/-- An edge back to the path is noted as a circle, unless one has been noted before. -/
theorem Stands.meet (h : Stands size ((node, edge) :: stack) found trail) (hnext : next < size)
    (hedge : (targets node)[edge]? = some next) (hon : next ∈ node :: stack.map Prod.fst) :
    ∃ after, Goes targets trail after ∧ Stands size ((node, edge + 1) :: stack)
      { found with circle := found.circle.or (some next) } after := by
  have hread : trail.onPath.read next = .ok true := by
    simp [FlagSet.read, FlagSet.check, h.size_onPath, hnext, (h.onPath next).mpr hon]
  have hstep : trail.step targets = .ok { trail with
      stack := (node, edge + 1) :: stack
      found := { found with circle := found.circle.or (some next) } } := by
    simp only [step, h.stack_eq, hedge, hread, ← h.found_eq]
    rfl
  exact ⟨_, ⟨by simp [h.stack_eq], hstep⟩, rfl, rfl, h.size_visited, h.size_onPath, h.visited,
    h.onPath⟩

theorem Stands.read_onPath (h : Stands size ((node, edge) :: stack) found trail)
    (hnext : next < size) (hoff : next ∉ node :: stack.map Prod.fst) :
    trail.onPath.read next = .ok false := by
  have hclear : trail.onPath.contains next = false :=
    Bool.eq_false_iff.mpr fun hset => hoff ((h.onPath next).mp hset)
  simp [FlagSet.read, FlagSet.check, h.size_onPath, hnext, hclear]

/-- A node that has been visited before is passed over. -/
theorem Stands.pass (h : Stands size ((node, edge) :: stack) found trail) (hnext : next < size)
    (hedge : (targets node)[edge]? = some next) (hoff : next ∉ node :: stack.map Prod.fst)
    (hold : next ∈ found.finished) :
    ∃ after, Goes targets trail after ∧ Stands size ((node, edge + 1) :: stack) found after := by
  have hset : trail.visited.contains next = true := (h.visited next).mpr (.inl hold)
  have hmark : trail.visited.mark next = .ok (false, trail.visited.insert next) := by
    simp [FlagSet.mark, FlagSet.check, h.size_visited, hnext, hset]
  have hstep : trail.step targets = .ok { trail with
      stack := (node, edge + 1) :: stack
      visited := trail.visited.insert next } := by
    simp only [step, h.stack_eq, hedge, h.read_onPath hnext hoff, hmark]
    rfl
  refine ⟨_, ⟨by simp [h.stack_eq], hstep⟩, rfl, h.found_eq, by simp [h.size_visited],
    h.size_onPath, fun other => ?_, h.onPath⟩
  rw [FlagSet.contains_insert _ _ _ (h.size_visited ▸ hnext), Bool.or_eq_true, h.visited,
    decide_eq_true_iff]
  exact ⟨fun hcases => hcases.elim id fun he => .inl (he ▸ hold), .inl⟩

/-- A node that has not been visited goes on the path. -/
theorem Stands.enter (h : Stands size ((node, edge) :: stack) found trail) (hnext : next < size)
    (hedge : (targets node)[edge]? = some next) (hoff : next ∉ node :: stack.map Prod.fst)
    (hnew : next ∉ found.finished) :
    ∃ after, Goes targets trail after ∧
      Stands size ((next, 0) :: (node, edge + 1) :: stack) found after := by
  have hclear : trail.visited.contains next = false :=
    Bool.eq_false_iff.mpr fun hset => ((h.visited next).mp hset).elim hnew hoff
  have hmark : trail.visited.mark next = .ok (true, trail.visited.insert next) := by
    simp [FlagSet.mark, FlagSet.check, h.size_visited, hnext, hclear]
  have hmark' : trail.onPath.mark next =
      .ok (!trail.onPath.contains next, trail.onPath.insert next) := by
    simp [FlagSet.mark, FlagSet.check, h.size_onPath, hnext]
  have hstep : trail.step targets = .ok { trail with
      stack := (next, 0) :: (node, edge + 1) :: stack
      visited := trail.visited.insert next
      onPath := trail.onPath.insert next } := by
    simp only [step, h.stack_eq, hedge, h.read_onPath hnext hoff, hmark, hmark']
    rfl
  refine ⟨_, ⟨by simp [h.stack_eq], hstep⟩, rfl, h.found_eq, by simp [h.size_visited],
    by simp [h.size_onPath], fun other => ?_, fun other => ?_⟩
  · rw [FlagSet.contains_insert _ _ _ (h.size_visited ▸ hnext), Bool.or_eq_true, h.visited,
      decide_eq_true_iff]
    simp only [List.map_cons, List.mem_cons, or_comm, or_left_comm]
  · rw [FlagSet.contains_insert _ _ _ (h.size_onPath ▸ hnext), Bool.or_eq_true, h.onPath,
      decide_eq_true_iff]
    simp only [List.map_cons, List.mem_cons, or_comm]

/-- A node without further edges leaves the path and is finished. -/
theorem Stands.leave (h : Stands size ((node, edge) :: stack) found trail) (hnode : node < size)
    (hedge : (targets node)[edge]? = none) (hnot : node ∉ stack.map Prod.fst) :
    ∃ after, Goes targets trail after ∧
      Stands size stack { found with finished := node :: found.finished } after := by
  have hunmark : trail.onPath.unmark node =
      .ok (trail.onPath.contains node, trail.onPath.erase node) := by
    simp [FlagSet.unmark, FlagSet.check, h.size_onPath, hnode]
  have hstep : trail.step targets = .ok { trail with
      stack
      onPath := trail.onPath.erase node
      found := { found with finished := node :: found.finished } } := by
    simp only [step, h.stack_eq, hedge, hunmark, ← h.found_eq]
    rfl
  refine ⟨_, ⟨by simp [h.stack_eq], hstep⟩, rfl, rfl, h.size_visited, by simp [h.size_onPath],
    fun other => ?_, fun other => ?_⟩
  · rw [h.visited, List.map_cons, List.mem_cons, List.mem_cons, or_assoc, or_left_comm]
  · rw [FlagSet.contains_erase, Bool.and_eq_true, h.onPath, decide_eq_true_iff, List.map_cons,
      List.mem_cons]
    constructor
    · rintro ⟨rfl | hin, hne⟩
      · exact absurd rfl hne
      · exact hin
    · exact fun hin => ⟨.inr hin, fun he => hnot (he ▸ hin)⟩

/-- Following the edges of a node from some edge on. If the loop does at each target what a look
at it does, then it does what all looks together do. -/
theorem exists_looked (look : Search → Nat → Search)
    (hlook : ∀ edge next found trail, (targets node)[edge]? = some next →
      Stands size ((node, edge) :: stack) found trail →
      ∃ after, Relation.ReflTransGen (Goes targets) trail after ∧
        Stands size ((node, edge + 1) :: stack) (look found next) after)
    {ahead : List Nat} (hahead : (targets node).drop edge = ahead)
    (h : Stands size ((node, edge) :: stack) found trail) :
    ∃ last after, (targets node)[last]? = none ∧
      Relation.ReflTransGen (Goes targets) trail after ∧
      Stands size ((node, last) :: stack) (ahead.foldl look found) after := by
  induction ahead generalizing edge found trail with
  | nil =>
    have hle := List.drop_eq_nil_iff.mp hahead
    exact ⟨edge, trail, List.getElem?_eq_none hle, .refl, h⟩
  | cons next rest ih =>
    have hedge : (targets node)[edge]? = some next := by
      rw [← List.head?_drop, hahead, List.head?_cons]
    have hrest : (targets node).drop (edge + 1) = rest := by
      rw [← List.tail_drop, hahead, List.tail_cons]
    obtain ⟨middle, hfirst, hmiddle⟩ := hlook edge next found trail hedge h
    obtain ⟨last, after, hlast, hothers, hafter⟩ := ih hrest hmiddle
    exact ⟨last, after, hlast, hfirst.trans hothers, hafter⟩

/-- From the first edge of its newest node the loop gets to where it has finished the node, and has
found by then what a visit of the node finds. -/
theorem exists_visited (hlt : ∀ node, ∀ next ∈ targets node, next < size) (room : Nat)
    (h : Stands size ((node, 0) :: stack) found trail) (hnodup : (stack.map Prod.fst).Nodup)
    (hnot : node ∉ stack.map Prod.fst) (hpathLt : ∀ other ∈ stack.map Prod.fst, other < size)
    (hnode : node < size) (hroom : (stack.map Prod.fst).length + room = size) :
    ∃ after, Relation.ReflTransGen (Goes targets) trail after ∧
      Stands size stack (Search.visit targets room (stack.map Prod.fst) node found) after := by
  induction room generalizing node stack found trail with
  | zero =>
    have := Search.length_lt_of_path hnodup hpathLt hnode hnot
    omega
  | succ room ih =>
    obtain ⟨last, middle, hlast, hlooked, hmiddle⟩ := exists_looked (fun found next =>
        if next ∈ node :: stack.map Prod.fst then
          { found with circle := found.circle.or (some next) }
        else if next ∈ found.finished then found
        else Search.visit targets room (node :: stack.map Prod.fst) next found)
      (fun edge next found trail hedge hstands => by
        have hnext := hlt node next (List.mem_of_getElem? hedge)
        split
        · rename_i hon
          obtain ⟨after, hgoes, hafter⟩ := hstands.meet hnext hedge hon
          exact ⟨after, .single hgoes, hafter⟩
        · rename_i hoff
          split
          · rename_i hold
            obtain ⟨after, hgoes, hafter⟩ := hstands.pass hnext hedge hoff hold
            exact ⟨after, .single hgoes, hafter⟩
          · rename_i hnew
            obtain ⟨entered, hgoes, hentered⟩ := hstands.enter hnext hedge hoff hnew
            obtain ⟨after, hruns, hafter⟩ := ih hentered (List.nodup_cons.mpr ⟨hnot, hnodup⟩)
              hoff (List.forall_mem_cons.mpr ⟨hnode, hpathLt⟩) hnext
              (by simp only [List.map_cons, List.length_cons]; omega)
            exact ⟨after, .head hgoes hruns, hafter⟩)
      (List.drop_zero) h
    obtain ⟨after, hgoes, hafter⟩ := hmiddle.leave hnode hlast hnot
    exact ⟨after, hlooked.tail hgoes, hafter⟩

end Trail

namespace Digraph

variable {α : Type} [DecidableEq α]

inductive SortsTo (graph : Digraph α) (start : α) : Traversal α → Prop where
  | missing (hstart : graph.indexOf? start = none) : SortsTo graph start ⟨[], none⟩
  | found {position : Nat} {first last : Trail} (hstart : graph.indexOf? start = some position)
    (hfirst : Trail.begin graph.size position = .ok first)
    (hends : first.EndsIn graph.targetsAt last) :
    SortsTo graph start ⟨last.found.finished.filterMap (graph.nodes[·]?),
      last.found.circle.bind (graph.nodes[·]?)⟩

/-- The loop ends, with the traversal of the recursive search. -/
theorem Coherent.sortsTo {graph : Digraph α} (h : graph.Coherent) (start : α) :
    graph.SortsTo start (graph.traverse start) := by
  rcases hstart : graph.indexOf? start with _ | position
  · simpa only [traverse, hstart] using SortsTo.missing hstart
  · have hlt := lt_size_of_nodes (nodes_of_indexOf? hstart)
    obtain ⟨first, hfirst, hstands⟩ := Trail.exists_begin hlt
    obtain ⟨last, hruns, hlast⟩ := Trail.exists_visited h.target_lt graph.size hstands
      List.nodup_nil List.not_mem_nil (by simp) hlt (by simp)
    have hends := SortsTo.found hstart hfirst ⟨hlast.stack_eq, hruns⟩
    rw [hlast.found_eq] at hends
    simpa only [traverse, hstart, searchFrom, List.map_nil] using hends

end Digraph

end ClockedLogic
