import ClockedLogic.Proofs.Traversing

/-!
Which nodes lead to which. A search for a goal keeps a stack of nodes to look at and a set of flags
for the nodes that have ever been on it. It ends when the goal is on top or the stack is empty. This
happens on every graph, and the goal is found exactly if the start leads to it.
-/

namespace ClockedLogic

def FlagSet.clearFlags (flags : FlagSet) : List Nat :=
  (List.range flags.size).filter fun index => !flags.contains index

/-- A flag that is set is no longer clear. -/
theorem FlagSet.length_clearFlags_insert {flags : FlagSet} {index : Nat}
    (hindex : index < flags.size) (hclear : flags.contains index = false) :
    (flags.insert index).clearFlags.length + 1 = flags.clearFlags.length := by
  have hmem : index ∈ flags.clearFlags := by
    simpa [clearFlags, hclear] using hindex
  have herase : (flags.insert index).clearFlags = flags.clearFlags.erase index := by
    rw [clearFlags, clearFlags, (List.nodup_range.filter _).erase_eq_filter, List.filter_filter,
      size_insert]
    refine List.filter_congr fun other _ => ?_
    rw [contains_insert _ _ _ hindex, Bool.not_or, Bool.and_comm]
    rfl
  rw [herase, List.length_erase_of_mem hmem]
  have := List.length_pos_of_mem hmem
  omega

structure Quest where
  /-- The nodes to look at, newest first. -/
  pending : List Nat
  /-- The nodes that are pending or have been. -/
  noticed : FlagSet

namespace Quest

def begin (size start : Nat) : Except Fault Quest := do
  let (_, noticed) ← (FlagSet.empty size).mark start
  return ⟨[start], noticed⟩

/-- Notices a node, which becomes pending if it has not been noticed before. -/
def notice (quest : Quest) (node : Nat) : Except Fault Quest := do
  let (fresh, noticed) ← quest.noticed.mark node
  return ⟨if fresh then node :: quest.pending else quest.pending, noticed⟩

/-- Whether the loop ends, and with what answer. While the newest node is not the goal it is taken
away and all its targets are noticed. -/
inductive EndsIn (targets : Nat → List Nat) (goal : Nat) : Quest → Bool → Prop where
  | found {rest : List Nat} {noticed : FlagSet} : EndsIn targets goal ⟨goal :: rest, noticed⟩ true
  | lost {noticed : FlagSet} : EndsIn targets goal ⟨[], noticed⟩ false
  | turn {node : Nat} {rest : List Nat} {noticed : FlagSet} {next : Quest} {answer : Bool}
    (hnode : node ≠ goal) (hnext : (targets node).foldlM notice ⟨rest, noticed⟩ = .ok next)
    (hends : EndsIn targets goal next answer) : EndsIn targets goal ⟨node :: rest, noticed⟩ answer

theorem EndsIn.unique {targets : Nat → List Nat} {goal : Nat} {quest : Quest} {answer other : Bool}
    (h : EndsIn targets goal quest answer) (hother : EndsIn targets goal quest other) :
    answer = other := by
  induction h with
  | found =>
    cases hother with
    | found => rfl
    | turn hnode => exact absurd rfl hnode
  | lost =>
    cases hother
    rfl
  | turn hnode hnext _ ih =>
    cases hother with
    | found => exact absurd rfl hnode
    | turn _ hnext' hends =>
      cases hnext.symm.trans hnext'
      exact ih hends

/-- How many more nodes the loop can take away. Each node becomes pending at most once. -/
def owed (quest : Quest) : Nat := quest.pending.length + quest.noticed.clearFlags.length

variable {targets : Nat → List Nat} {size start goal node : Nat} {quest after : Quest}

structure Noticed (quest : Quest) (nodes : List Nat) (after : Quest) : Prop where
  size_eq : after.noticed.size = quest.noticed.size
  noticed : ∀ node, after.noticed.contains node = true ↔
    quest.noticed.contains node = true ∨ node ∈ nodes
  keeps : ∀ node ∈ quest.pending, node ∈ after.pending
  /-- Nothing is pending that has not been noticed. -/
  old : ∀ node ∈ after.pending, node ∈ quest.pending ∨ after.noticed.contains node = true
  /-- What is noticed for the first time becomes pending. -/
  fresh : ∀ node, after.noticed.contains node = true →
    quest.noticed.contains node = true ∨ node ∈ after.pending
  owed_eq : after.owed = quest.owed

theorem Noticed.refl (quest : Quest) : Noticed quest [] quest where
  size_eq := rfl
  noticed := by simp
  keeps _ := id
  old _ := .inl
  fresh _ := .inl
  owed_eq := rfl

theorem Noticed.trans {nodes others : List Nat} {middle : Quest} (h : Noticed quest nodes middle)
    (h' : Noticed middle others after) : Noticed quest (nodes ++ others) after where
  size_eq := h'.size_eq.trans h.size_eq
  noticed node := by rw [h'.noticed, h.noticed, List.mem_append, or_assoc]
  keeps node hnode := h'.keeps node (h.keeps node hnode)
  old node hnode := by
    rcases h'.old node hnode with hmiddle | hset
    · exact (h.old node hmiddle).imp id fun hset => (h'.noticed node).mpr (.inl hset)
    · exact .inr hset
  fresh node hset := by
    rcases h'.fresh node hset with hmiddle | hpending
    · exact (h.fresh node hmiddle).imp id (h'.keeps node)
    · exact .inr hpending
  owed_eq := h'.owed_eq.trans h.owed_eq

theorem exists_notice (hnode : node < quest.noticed.size) :
    ∃ after, quest.notice node = .ok after ∧ Noticed quest [node] after := by
  have hmark : quest.noticed.mark node =
      .ok (!quest.noticed.contains node, quest.noticed.insert node) := by
    simp [FlagSet.mark, FlagSet.check, hnode]
  have hcontains : ∀ other, (quest.noticed.insert node).contains other = true ↔
      quest.noticed.contains other = true ∨ other = node := by
    intro other
    rw [FlagSet.contains_insert _ _ _ hnode, Bool.or_eq_true, decide_eq_true_iff]
  rcases hold : quest.noticed.contains node with _ | _
  · have howed := FlagSet.length_clearFlags_insert hnode hold
    refine ⟨⟨node :: quest.pending, quest.noticed.insert node⟩, by
      simp only [notice, hmark, hold]; rfl, FlagSet.size_insert _ _, by simpa using hcontains,
      fun other hother => List.mem_cons_of_mem _ hother, fun other hother => ?_,
      fun other hset => ?_, ?_⟩
    · rcases List.mem_cons.mp hother with rfl | hother
      · exact .inr ((hcontains _).mpr (.inr rfl))
      · exact .inl hother
    · rcases (hcontains other).mp hset with hset | rfl
      · exact .inl hset
      · exact .inr List.mem_cons_self
    · simp only [owed, List.length_cons]
      omega
  · have hself := FlagSet.insert_eq_self hnode hold
    refine ⟨quest, by simp only [notice, hmark, hold, hself]; rfl, rfl, fun other => ?_,
      fun _ => id, fun _ => .inl, fun _ => .inl, rfl⟩
    rw [List.mem_singleton, ← hcontains, hself]

theorem exists_notices {nodes : List Nat} (hnodes : ∀ node ∈ nodes, node < quest.noticed.size) :
    ∃ after, nodes.foldlM notice quest = .ok after ∧ Noticed quest nodes after := by
  induction nodes generalizing quest with
  | nil => exact ⟨quest, rfl, .refl quest⟩
  | cons node rest ih =>
    obtain ⟨hnode, hrest⟩ := List.forall_mem_cons.mp hnodes
    obtain ⟨middle, hmiddle, hfirst⟩ := exists_notice hnode
    obtain ⟨after, hafter, hothers⟩ := ih (hfirst.size_eq ▸ hrest)
    refine ⟨after, ?_, hfirst.trans hothers⟩
    rw [List.foldlM_cons, hmiddle]
    exact hafter

structure Stands (targets : Nat → List Nat) (size start goal : Nat) (quest : Quest) : Prop where
  size_eq : quest.noticed.size = size
  begun : quest.noticed.contains start = true
  pending : ∀ node ∈ quest.pending, quest.noticed.contains node = true
  led : ∀ node, quest.noticed.contains node = true →
    Relation.ReflTransGen (fun a b => b ∈ targets a) start node
  /-- What is no longer pending is not the goal, and its targets have been noticed. -/
  done : ∀ node, quest.noticed.contains node = true → node ∈ quest.pending ∨
    node ≠ goal ∧ ∀ next ∈ targets node, quest.noticed.contains next = true

theorem exists_begin (hstart : start < size) (goal : Nat) :
    ∃ first, begin size start = .ok first ∧ Stands targets size start goal first := by
  have hmark : (FlagSet.empty size).mark start =
      .ok (true, (FlagSet.empty size).insert start) := by
    simp [FlagSet.mark, FlagSet.check, hstart]
  have hcontains : ∀ node, ((FlagSet.empty size).insert start).contains node = true ↔
      node = start := by
    intro node
    rw [FlagSet.contains_insert _ _ _ hstart]
    simp
  refine ⟨⟨[start], (FlagSet.empty size).insert start⟩, by simp only [begin, hmark]; rfl, ?_⟩
  exact
    { size_eq := by simp
      begun := (hcontains start).mpr rfl
      pending := fun node hnode => (hcontains node).mpr (List.mem_singleton.mp hnode)
      led := fun node hset => by rw [(hcontains node).mp hset]
      done := fun node hset => .inl (List.mem_singleton.mpr ((hcontains node).mp hset)) }

/-- A turn keeps what holds of the search and leaves fewer turns to come. -/
theorem Stands.exists_turn {rest : List Nat} {noticed : FlagSet}
    (h : Stands targets size start goal ⟨node :: rest, noticed⟩)
    (hlt : ∀ node, ∀ next ∈ targets node, next < size) (hnode : node ≠ goal) :
    ∃ next, (targets node).foldlM notice ⟨rest, noticed⟩ = .ok next ∧
      Stands targets size start goal next ∧ next.owed < owed ⟨node :: rest, noticed⟩ := by
  have hbound : ∀ other ∈ targets node, other < (Quest.mk rest noticed).noticed.size :=
    fun other hother => Nat.lt_of_lt_of_eq (hlt node other hother) h.size_eq.symm
  obtain ⟨next, hnext, hnoticed⟩ := exists_notices hbound
  refine ⟨next, hnext, ⟨hnoticed.size_eq.trans h.size_eq, (hnoticed.noticed _).mpr (.inl h.begun),
    fun other hother => ?_, fun other hset => ?_, fun other hset => ?_⟩, ?_⟩
  · rcases hnoticed.old other hother with hrest | hset
    · exact (hnoticed.noticed other).mpr (.inl (h.pending other (List.mem_cons_of_mem _ hrest)))
    · exact hset
  · rcases (hnoticed.noticed other).mp hset with hold | hedge
    · exact h.led other hold
    · exact (h.led node (h.pending node List.mem_cons_self)).tail hedge
  · rcases hnoticed.fresh other hset with hold | hpending
    · have htargets : ∀ other, (∀ next ∈ targets other, noticed.contains next = true) →
          ∀ next' ∈ targets other, next.noticed.contains next' = true :=
        fun other hall next' hmem => (hnoticed.noticed next').mpr (.inl (hall next' hmem))
      rcases h.done other hold with hpending | ⟨hgoal, hall⟩
      · rcases List.mem_cons.mp hpending with rfl | hrest
        · exact .inr ⟨hnode, fun next' hmem => (hnoticed.noticed next').mpr (.inr hmem)⟩
        · exact .inl (hnoticed.keeps other hrest)
      · exact .inr ⟨hgoal, htargets other hall⟩
    · exact .inl hpending
  · rw [hnoticed.owed_eq]
    exact Nat.add_lt_add_right (Nat.lt_succ_self _) _

/-- Without anything pending, all that the start leads to has been noticed, and it is not the
goal. -/
theorem Stands.not_path {noticed : FlagSet} (h : Stands targets size start goal ⟨[], noticed⟩) :
    ¬ Relation.ReflTransGen (fun a b => b ∈ targets a) start goal := by
  intro hpath
  have hdone : ∀ node, noticed.contains node = true →
      node ≠ goal ∧ ∀ next ∈ targets node, noticed.contains next = true :=
    fun node hset => (h.done node hset).resolve_left List.not_mem_nil
  have hall : ∀ {node}, Relation.ReflTransGen (fun a b => b ∈ targets a) start node →
      noticed.contains node = true := by
    intro node hnode
    induction hnode with
    | refl => exact h.begun
    | tail _ hedge ih => exact (hdone _ ih).2 _ hedge
  exact (hdone goal (hall hpath)).1 rfl

theorem Stands.exists_endsIn (hlt : ∀ node, ∀ next ∈ targets node, next < size)
    (h : Stands targets size start goal quest) : ∃ answer, EndsIn targets goal quest answer ∧
      (answer = true ↔ Relation.ReflTransGen (fun a b => b ∈ targets a) start goal) := by
  induction howed : quest.owed using Nat.strongRecOn generalizing quest with
  | ind turns ih =>
    obtain ⟨pending, noticed⟩ := quest
    cases pending with
    | nil => exact ⟨false, .lost, iff_of_false Bool.false_ne_true h.not_path⟩
    | cons node rest =>
      rcases eq_or_ne node goal with rfl | hnode
      · have hset := h.pending node List.mem_cons_self
        exact ⟨true, .found, iff_of_true rfl (h.led node hset)⟩
      · obtain ⟨next, hnext, hstands, hfewer⟩ := h.exists_turn hlt hnode
        obtain ⟨answer, hends, hanswer⟩ := ih next.owed (howed ▸ hfewer) hstands rfl
        exact ⟨answer, .turn hnode hnext hends, hanswer⟩

end Quest

namespace Digraph

variable {α : Type} [DecidableEq α] {graph : Digraph α}

inductive Answers (graph : Digraph α) (source target : α) : Bool → Prop where
  | noSource (hsource : graph.indexOf? source = none) : Answers graph source target false
  | noTarget (htarget : graph.indexOf? target = none) : Answers graph source target false
  | searched {start goal : Nat} {first : Quest} {answer : Bool}
    (hsource : graph.indexOf? source = some start) (htarget : graph.indexOf? target = some goal)
    (hfirst : Quest.begin graph.size start = .ok first)
    (hends : first.EndsIn graph.targetsAt goal answer) : Answers graph source target answer

theorem Answers.unique {source target : α} {answer other : Bool}
    (h : graph.Answers source target answer) (hother : graph.Answers source target other) :
    answer = other := by
  cases h with
  | noSource hsource =>
    cases hother with
    | noSource | noTarget => rfl
    | searched hsource' => cases hsource.symm.trans hsource'
  | noTarget htarget =>
    cases hother with
    | noSource | noTarget => rfl
    | searched _ htarget' => cases htarget.symm.trans htarget'
  | searched hsource htarget hfirst hends =>
    cases hother with
    | noSource hsource' => cases hsource.symm.trans hsource'
    | noTarget htarget' => cases htarget.symm.trans htarget'
    | searched hsource' htarget' hfirst' hends' =>
      cases hsource.symm.trans hsource'
      cases htarget.symm.trans htarget'
      cases hfirst.symm.trans hfirst'
      exact hends.unique hends'

omit [DecidableEq α] in
/-- A path of nodes is one of positions. -/
theorem Coherent.exists_path (h : graph.Coherent) {source target : α} {i : Nat}
    (hi : graph.nodes[i]? = some source)
    (hpath : Relation.ReflTransGen graph.HasEdge source target) :
    ∃ j, graph.nodes[j]? = some target ∧
      Relation.ReflTransGen (fun a b => b ∈ graph.targetsAt a) i j := by
  induction hpath with
  | refl => exact ⟨i, hi, .refl⟩
  | tail _ hedge ih =>
    obtain ⟨j, hj, hpath⟩ := ih
    obtain ⟨j', k, hj', hk, hmem⟩ := hedge
    obtain rfl := h.position_unique hj hj'
    exact ⟨k, hk, hpath.tail hmem⟩

theorem Coherent.reaches_iff (h : graph.Coherent) {source target : α} :
    graph.reaches source target = true ↔ source ∈ graph.nodes ∧ target ∈ graph.nodes ∧
      Relation.ReflTransGen graph.HasEdge source target := by
  constructor
  · intro hreaches
    refine ⟨?_, ?_, path_of_reaches hreaches⟩
    all_goals
      unfold reaches at hreaches
      split at hreaches
      · rename_i i j hi hj
        exact List.mem_of_getElem? (nodes_of_indexOf? ‹_›)
      · cases hreaches
  · rintro ⟨hsource, -, hpath⟩
    exact reaches_of_path h hsource hpath

/-- The loop ends, and says whether the source reaches the target. -/
theorem Coherent.answers (h : graph.Coherent) (source target : α) :
    graph.Answers source target (graph.reaches source target) := by
  rcases hsource : graph.indexOf? source with _ | start
  · have hnot : graph.reaches source target = false := by simp only [reaches, hsource]
    exact hnot ▸ .noSource hsource
  rcases htarget : graph.indexOf? target with _ | goal
  · have hnot : graph.reaches source target = false := by simp only [reaches, hsource, htarget]
    exact hnot ▸ .noTarget htarget
  have hstart := nodes_of_indexOf? hsource
  have hgoal := nodes_of_indexOf? htarget
  have hlt := lt_size_of_nodes hstart
  obtain ⟨first, hfirst, hstands⟩ : ∃ first, Quest.begin graph.size start = .ok first ∧
      Quest.Stands graph.targetsAt graph.size start goal first := Quest.exists_begin hlt goal
  obtain ⟨answer, hends, hanswer⟩ := hstands.exists_endsIn h.target_lt
  have hsame : answer = graph.reaches source target := by
    rw [Bool.eq_iff_iff, hanswer, h.reaches_iff]
    constructor
    · exact fun hpath => ⟨List.mem_of_getElem? hstart, List.mem_of_getElem? hgoal,
        reflTransGen_hasEdge hpath hstart hgoal⟩
    · rintro ⟨-, -, hpath⟩
      obtain ⟨last, hlast, hpath⟩ := h.exists_path hstart hpath
      rwa [h.position_unique hgoal hlast]
  exact hsame ▸ .searched hsource htarget hfirst hends

/-- On every graph the loop ends with just one answer: whether both nodes are in the graph and the
source leads to the target. -/
theorem reaches_iff_path (mentions : List (Mention α)) (source target : α) :
    (∀ answer, (grown mentions).Answers source target answer ↔
      answer = (grown mentions).reaches source target) ∧
    ((grown mentions).reaches source target = true ↔
      Mention.Known mentions source ∧ Mention.Known mentions target ∧
        Relation.ReflTransGen (fun a b => .edge a b ∈ mentions) source target) := by
  obtain ⟨hcoherent, hedges, hnodes⟩ := grown_spec mentions
  have hanswers := hcoherent.answers source target
  have hedge : (grown mentions).HasEdge = fun a b => .edge a b ∈ mentions :=
    funext fun a => funext fun b => propext (hedges a b)
  refine ⟨fun answer => ⟨fun hother => hother.unique hanswers, fun hsame => hsame ▸ hanswers⟩, ?_⟩
  rw [hcoherent.reaches_iff, hnodes, hnodes, hedge]

end Digraph

end ClockedLogic
