import ClockedLogic.Network.Basic
import ClockedLogic.Proofs.Assignments
import ClockedLogic.Proofs.Escaping
import Mathlib.Data.List.Destutter

/-!
What the log of a network has to hold. In the life of a network its nodes come to hold other values,
and nodes are probed. A change of a probed node makes an entry under the name that the node has at
that time. So the entries of a node are its successive values, each once, since it was first probed.
A record can be told from any other by its text.
-/

namespace ClockedLogic

/-- What can be told of the life of a network: what its nodes hold at some time, or that a node is
probed under a name from then on. -/
inductive Moment where
  | holds (values : Array Word)
  | probed (node : Nat) (name : String)

structure ProbeEntry where
  node : Nat
  name : String
  value : Word

def ProbeEntry.record (entry : ProbeEntry) : Record := Signals.probeRecord entry.name entry.value

/-- A record tells the name and the value, also if there are colons in the name. -/
theorem probeRecord_inj {name name' : String} {value value' : Word} :
    Signals.probeRecord name value = Signals.probeRecord name' value' ↔
      name = name' ∧ value = value' := by
  refine ⟨fun hsame => ?_, by rintro ⟨rfl, rfl⟩; rfl⟩
  have htext : name ++ ":" ++ value.toInt.repr = name' ++ ":" ++ value'.toInt.repr :=
    congrArg Record.message hsame
  have hchars := congrArg String.toList htext
  simp only [String.toList_append, List.append_assoc] at hchars
  have hcolon : ∀ number : Int, ':' ∉ number.repr.toList := Text.notMem_repr rfl (by decide)
  obtain ⟨hname, hnumber⟩ := Text.append_cons_inj_right (hcolon _) (hcolon _) hchars
  exact ⟨String.toList_inj.mp hname,
    BitVec.toInt_inj.mp (Text.repr_inj (String.toList_inj.mp hnumber))⟩

/-- The entries for some changes. Nodes without names have none. -/
def entriesFor (names : Nat → Option String) (changes : List (Nat × Word)) : List ProbeEntry :=
  changes.filterMap fun (node, value) => (names node).map fun name => ⟨node, name, value⟩

namespace Moment

/-- The entries for all changes, under the names that the nodes have at that time. -/
def entries (names : Nat → Option String) (before : Array Word) : List Moment → List ProbeEntry
  | [] => []
  | .holds after :: rest => entriesFor names (changes before after) ++ entries names after rest
  | .probed node name :: rest => entries (Function.update names node (some name)) before rest

def namesAfter (names : Nat → Option String) : List Moment → Nat → Option String
  | [] => names
  | .holds _ :: rest => namesAfter names rest
  | .probed node name :: rest => namesAfter (Function.update names node (some name)) rest

def states : List Moment → List (Array Word)
  | [] => []
  | .holds values :: rest => values :: states rest
  | .probed _ _ :: rest => states rest

def valuesAfter (before : Array Word) (moments : List Moment) : Array Word :=
  (states moments).getLastD before

def held (node : Nat) (moments : List Moment) : List Word :=
  (states moments).map (·.getD node 0)

def Probes (node : Nat) (moments : List Moment) : Prop := ∃ name, .probed node name ∈ moments

end Moment

def entered (node : Nat) (entries : List ProbeEntry) : List Word :=
  (entries.filter (·.node == node)).map (·.value)

section

variable {names : Nat → Option String} {node : Nat}

theorem isSome_update (names : Nat → Option String) (node : Nat) (name : String) :
    (Function.update names node (some name) node).isSome := by
  rw [Function.update_self]
  rfl

theorem entered_append (node : Nat) (first rest : List ProbeEntry) :
    entered node (first ++ rest) = entered node first ++ entered node rest := by
  rw [entered, List.filter_append, List.map_append]
  rfl

theorem entered_entriesFor_of_none (hname : names node = none) (changes : List (Nat × Word)) :
    entered node (entriesFor names changes) = [] := by
  rw [entered, List.map_eq_nil_iff, List.filter_eq_nil_iff]
  intro entry hentry hnode
  obtain ⟨⟨other, value⟩, -, hmade⟩ := List.mem_filterMap.mp hentry
  obtain ⟨name, hsome, rfl⟩ := Option.map_eq_some_iff.mp hmade
  rw [show other = node from eq_of_beq hnode, hname] at hsome
  cases hsome

theorem entered_entriesFor_of_some {name : String} (hname : names node = some name)
    (changes : List (Nat × Word)) : entered node (entriesFor names changes) =
      (changes.filter (·.1 == node)).map (·.2) := by
  induction changes with
  | nil => rfl
  | cons change changes ih =>
    obtain ⟨other, value⟩ := change
    rw [← List.singleton_append, entriesFor, List.filterMap_append, entered_append,
      List.filter_append, List.map_append]
    refine congrArg₂ (· ++ ·) ?_ ih
    by_cases hsame : other = node
    · simp [entered, hsame, hname]
    · cases hother : names other with
      | none => simp [entered, hsame, hother]
      | some => simp [entered, hsame, hother]

theorem entriesFor_append (names : Nat → Option String) (first rest : List (Nat × Word)) :
    entriesFor names (first ++ rest) = entriesFor names first ++ entriesFor names rest :=
  List.filterMap_append

theorem entriesFor_none (changes : List (Nat × Word)) :
    entriesFor (fun _ => none) changes = [] := by
  rw [entriesFor, List.filterMap_eq_nil_iff]
  exact fun _ _ => rfl

namespace Moment

variable {before : Array Word}

theorem Probes.exists_first {moments : List Moment} (h : Probes node moments) :
    ∃ early name late, moments = early ++ .probed node name :: late ∧ ¬ Probes node early := by
  induction moments with
  | nil =>
    obtain ⟨name, hmem⟩ := h
    cases hmem
  | cons moment moments ih =>
    by_cases hfirst : ∃ name, moment = .probed node name
    · obtain ⟨name, rfl⟩ := hfirst
      exact ⟨[], name, moments, rfl, fun ⟨_, hmem⟩ => by cases hmem⟩
    · obtain ⟨name, hmem⟩ := h
      obtain ⟨early, name, late, rfl, hearly⟩ := ih
        ⟨name, (List.mem_cons.mp hmem).resolve_left fun heq => hfirst ⟨name, heq.symm⟩⟩
      refine ⟨moment :: early, name, late, rfl, fun ⟨other, hmem⟩ => ?_⟩
      rcases List.mem_cons.mp hmem with heq | hmem
      · exact hfirst ⟨other, heq.symm⟩
      · exact hearly ⟨other, hmem⟩

/-- While no node is probed, the entries are those for the assignments in their order. -/
theorem entries_holds (names : Nat → Option String) (before : Array Word)
    (course : List (Array Word)) :
    entries names before (course.map .holds) = entriesFor names (assignments before course) := by
  induction course generalizing before with
  | nil => rfl
  | cons after course ih =>
    rw [List.map_cons, entries, ih, assignments, entriesFor_append]

theorem states_holds (course : List (Array Word)) : states (course.map .holds) = course := by
  induction course with
  | nil => rfl
  | cons after course ih => exact congrArg (after :: ·) ih

theorem namesAfter_holds (names : Nat → Option String) (course : List (Array Word)) :
    namesAfter names (course.map .holds) = names := by
  induction course with
  | nil => rfl
  | cons after course ih => exact ih

theorem states_append (first rest : List Moment) :
    states (first ++ rest) = states first ++ states rest := by
  induction first with
  | nil => rfl
  | cons moment first ih =>
    cases moment with
    | holds after => exact congrArg (after :: ·) ih
    | probed node name => exact ih

theorem valuesAfter_append (before : Array Word) (first rest : List Moment) :
    valuesAfter before (first ++ rest) = valuesAfter (valuesAfter before first) rest := by
  rw [valuesAfter, states_append, getLastD_append]
  rfl

theorem namesAfter_append (names : Nat → Option String) (first rest : List Moment) :
    namesAfter names (first ++ rest) = namesAfter (namesAfter names first) rest := by
  induction first generalizing names with
  | nil => rfl
  | cons moment first ih => cases moment <;> exact ih _

theorem entries_append (names : Nat → Option String) (before : Array Word)
    (first rest : List Moment) : entries names before (first ++ rest) =
      entries names before first ++
        entries (namesAfter names first) (valuesAfter before first) rest := by
  induction first generalizing names before with
  | nil => rfl
  | cons moment first ih =>
    cases moment with
    | holds after =>
      rw [List.cons_append, entries, entries, ih, List.append_assoc, valuesAfter, valuesAfter,
        states, List.getLastD_cons]
      rfl
    | probed node name => exact ih _ _

/-- A node that is never probed has no entries. -/
theorem entered_eq_nil (hname : names node = none) {moments : List Moment}
    (hnever : ¬ Probes node moments) : entered node (entries names before moments) = [] := by
  induction moments generalizing names before with
  | nil => rfl
  | cons moment moments ih =>
    have hrest : ¬ Probes node moments := fun ⟨name, hmem⟩ =>
      hnever ⟨name, List.mem_cons_of_mem _ hmem⟩
    cases moment with
    | holds after =>
      rw [entries, entered_append, entered_entriesFor_of_none hname, ih hname hrest]
      rfl
    | probed other name =>
      refine ih ?_ hrest
      rw [Function.update_of_ne, hname]
      rintro rfl
      exact hnever ⟨name, List.mem_cons_self⟩

/-- The entries of a probed node are what it holds from one time to the next, each value once. -/
theorem entered_eq_destutter (hname : (names node).isSome) (moments : List Moment) :
    before.getD node 0 :: entered node (entries names before moments) =
      (before.getD node 0 :: held node moments).destutter (· ≠ ·) := by
  induction moments generalizing names before with
  | nil => rfl
  | cons moment moments ih =>
    cases moment with
    | holds after =>
      obtain ⟨name, hsome⟩ := Option.isSome_iff_exists.mp hname
      have hheld : held node (.holds after :: moments) =
          after.getD node 0 :: held node moments := rfl
      have ih := @ih names after hname
      rw [List.destutter_cons'] at ih ⊢
      rw [entries, entered_append, entered_entriesFor_of_some hsome, filter_changes, hheld]
      split
      · -- a value that stays makes no entry, nor is it a new one among those held
        rename_i hkept
        rw [hkept] at ih
        rw [hkept, List.destutter'_cons_neg (R := (· ≠ ·)) _ (not_not.mpr rfl), ← ih]
        rfl
      · rename_i hchanged
        rw [List.destutter'_cons_pos (R := (· ≠ ·)) _ (Ne.symm hchanged), ← ih]
        rfl
    | probed other name =>
      refine ih ?_
      by_cases hsame : node = other
      · rw [hsame]
        exact isSome_update names other name
      · rw [Function.update_of_ne hsame]
        exact hname

theorem getLast?_destutter' (value : Word) (later : List Word) :
    (later.destutter' (· ≠ ·) value).getLast? = (value :: later).getLast? := by
  induction later generalizing value with
  | nil => rfl
  | cons next later ih =>
    by_cases hsame : value = next
    · rw [List.destutter'_cons_neg (R := (· ≠ ·)) _ (not_not.mpr hsame), ih, hsame]
      simp [List.getLast?_cons]
    · rw [List.destutter'_cons_pos (R := (· ≠ ·)) _ hsame, List.getLast?_cons, ih]
      simp [List.getLast?_cons]

theorem getLast?_held (moments : List Moment) :
    (before.getD node 0 :: held node moments).getLast? =
      some ((valuesAfter before moments).getD node 0) := by
  have hmap : before.getD node 0 :: held node moments =
      (before :: states moments).map (·.getD node 0) := rfl
  rw [hmap, List.getLast?_map, List.getLast?_cons, valuesAfter, List.getLastD_eq_getLast?]
  rfl

/-- The last value entered is the one that a probed node has in the end. -/
theorem getLast?_entered (hname : (names node).isSome) (moments : List Moment) :
    (before.getD node 0 :: entered node (entries names before moments)).getLast? =
      some ((valuesAfter before moments).getD node 0) := by
  rw [entered_eq_destutter hname, List.destutter_cons', getLast?_destutter', getLast?_held]

/-- Values entered one after the other differ. -/
theorem isChain_entered (hname : (names node).isSome) (moments : List Moment) :
    (before.getD node 0 :: entered node (entries names before moments)).IsChain (· ≠ ·) := by
  rw [entered_eq_destutter hname]
  exact List.isChain_destutter _ _

end Moment

end

namespace Signals

theorem lookup_filter_ne {node other : Nat} (hne : other ≠ node) (probes : List (Nat × String)) :
    (probes.filter fun entry => entry.1 != node).lookup other = probes.lookup other := by
  induction probes with
  | nil => rfl
  | cons entry probes ih =>
    obtain ⟨probed, name⟩ := entry
    by_cases hprobed : probed = node
    · rw [List.filter_cons_of_neg (by simpa using hprobed), ih, List.lookup_cons,
        beq_false_of_ne (hprobed ▸ hne)]
    · rw [List.filter_cons_of_pos (by simpa using hprobed), List.lookup_cons, List.lookup_cons, ih]

/-- An event is logged if it tells of a node that has a name. Names stay as they are. -/
theorem log_observe (signals : Signals) (event : Event) :
    (observe signals event).probes = signals.probes ∧ (observe signals event).log =
      ((entriesFor signals.probeName? event.change?.toList).map ProbeEntry.record).reverse ++
        signals.log := by
  cases event with
  | mark gate => exact ⟨rfl, rfl⟩
  | change node value =>
    cases hname : signals.probeName? node with
    | none => simp [observe, entriesFor, Event.change?, hname]
    | some name =>
      simp [observe, entriesFor, Event.change?, hname, note, ProbeEntry.record]

/-- The newest record stands first. -/
theorem log_foldl_observe (events : List Event) (signals : Signals) :
    (events.foldl observe signals).probes = signals.probes ∧
      (events.foldl observe signals).log =
        ((entriesFor signals.probeName? (events.filterMap Event.change?)).map
          ProbeEntry.record).reverse ++ signals.log := by
  induction events generalizing signals with
  | nil => exact ⟨rfl, rfl⟩
  | cons event events ih =>
    obtain ⟨hprobes, hlog⟩ := ih (observe signals event)
    obtain ⟨hprobes', hlog'⟩ := log_observe signals event
    have hnames : (observe signals event).probeName? = signals.probeName? := by
      funext node
      rw [probeName?, hprobes', probeName?]
    have htold : (event :: events).filterMap Event.change? =
        event.change?.toList ++ events.filterMap Event.change? := by
      rw [List.filterMap_cons]
      cases event.change? <;> rfl
    refine ⟨hprobes.trans hprobes', hlog.trans ?_⟩
    rw [hnames, hlog', htold, entriesFor_append, List.map_append, List.reverse_append,
      List.append_assoc]

theorem probeName?_absorb (signals : Signals) (cascade : Cascade) :
    (signals.absorb cascade).probeName? = signals.probeName? := by
  funext node
  exact congrArg (·.lookup node) (log_foldl_observe cascade.eventList signals).1

theorem log_absorb (signals : Signals) (cascade : Cascade) : (signals.absorb cascade).log =
    ((entriesFor signals.probeName? cascade.told).map ProbeEntry.record).reverse ++ signals.log :=
  (log_foldl_observe cascade.eventList signals).2

theorem probeName?_probe (signals : Signals) (node : Nat) (name : String) :
    (signals.probe node name).probeName? =
      Function.update signals.probeName? node (some name) := by
  funext other
  by_cases hsame : other = node
  · rw [hsame, Function.update_self, probeName?, probe, List.lookup_cons_self]
  · rw [Function.update_of_ne hsame, probeName?, probe, List.lookup_cons,
      beq_false_of_ne hsame, probeName?]
    exact lookup_filter_ne hsame signals.probes

end Signals

end ClockedLogic
