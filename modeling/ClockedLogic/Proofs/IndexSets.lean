import ClockedLogic.FlagSet
import Mathlib.Data.Finset.Sort

/-!
Flag sets as sets of indices. Every change of a flag set is the change of the same name on a finite
set of indices, and gives the answer that the finite set gives. The number of set flags is the
number of indices, and listing them sorts the indices. What the words hold past the end decides
both: it stays clear, so that words can be counted whole and compared whole.
-/

namespace ClockedLogic

/-- The set bits of a word are counted from the lowest bit up. -/
private theorem cpopNatRec_eq_countP (word : BitVec 64) (bits : Nat) :
    word.cpopNatRec bits 0 = (List.range bits).countP word.getLsbD := by
  induction bits with
  | zero => rfl
  | succ bits ih =>
    rw [BitVec.cpopNatRec_succ, BitVec.cpopNatRec_add, ih, List.range_succ, List.countP_append,
      List.countP_singleton]
    cases word.getLsbD bits <;> rfl

private theorem storedFlag_cons_of_lt (word : BitVec 64) (words : List (BitVec 64)) {index : Nat}
    (h : index < 64) : storedFlag (word :: words).toArray index = word.getLsbD index := by
  simp only [storedFlag, Nat.div_eq_of_lt h, Nat.mod_eq_of_lt h, List.getElem?_toArray,
    List.getElem?_cons_zero, Option.getD_some]

private theorem storedFlag_cons_add (word : BitVec 64) (words : List (BitVec 64)) (index : Nat) :
    storedFlag (word :: words).toArray (64 + index) = storedFlag words.toArray index := by
  have hdiv : (64 + index) / 64 = index / 64 + 1 := by omega
  simp only [storedFlag, hdiv, Nat.add_mod_left, List.getElem?_toArray, List.getElem?_cons_succ]

/-- Counting word by word is counting flag by flag. -/
private theorem foldl_cpop_eq_countP (words : List (BitVec 64)) (total : Nat) :
    words.foldl (fun total word => total + word.cpop.toNat) total =
      total + (List.range (64 * words.length)).countP (storedFlag words.toArray) := by
  induction words generalizing total with
  | nil => rfl
  | cons word words ih =>
    have hfirst : (List.range 64).countP (storedFlag (word :: words).toArray) =
        word.cpop.toNat := by
      rw [BitVec.toNat_cpop, cpopNatRec_eq_countP]
      refine List.countP_congr fun index hindex => ?_
      rw [storedFlag_cons_of_lt _ _ (List.mem_range.mp hindex)]
    have hrest : storedFlag (word :: words).toArray ∘ (64 + ·) = storedFlag words.toArray :=
      funext fun index => storedFlag_cons_add word words index
    have hlength : 64 * (word :: words).length = 64 + 64 * words.length := by
      rw [List.length_cons]
      omega
    rw [List.foldl_cons, ih, hlength, List.range_add, List.countP_append, List.countP_map, hfirst,
      hrest, Nat.add_assoc]

namespace FlagSet

variable (flags : FlagSet)

theorem lt_size_of_contains {flags : FlagSet} {index : Nat} (h : flags.contains index = true) :
    index < flags.size := by
  by_contra hge
  rw [contains, flags.storedFlag_eq_false index (Nat.le_of_not_lt hge)] at h
  cases h

/-- The flags past the end add nothing to the count. -/
theorem count_eq_length_toList : flags.count = flags.toList.length := by
  have hlength : 64 * flags.words.toList.length =
      flags.size + (64 * flags.words.size - flags.size) := by
    rw [Array.length_toList, flags.size_words]
    omega
  have hpadding : (List.range (64 * flags.words.size - flags.size)).countP
      (storedFlag flags.words ∘ (flags.size + ·)) = 0 := by
    refine List.countP_eq_zero.mpr fun past _ => ?_
    rw [Function.comp_apply, flags.storedFlag_eq_false _ (Nat.le_add_right _ _)]
    exact Bool.false_ne_true
  rw [count, ← Array.foldl_toList, foldl_cpop_eq_countP, Nat.zero_add, hlength, List.range_add,
    List.countP_append, List.countP_map, Array.toArray_toList, hpadding, Nat.add_zero,
    List.countP_eq_length_filter]
  rfl

def indices : Finset Nat := {index ∈ Finset.range flags.size | flags.contains index = true}

@[simp] theorem mem_indices {index : Nat} :
    index ∈ flags.indices ↔ flags.contains index = true := by
  rw [indices, Finset.mem_filter, Finset.mem_range]
  exact ⟨And.right, fun h => ⟨lt_size_of_contains h, h⟩⟩

theorem indices_subset_range : flags.indices ⊆ Finset.range flags.size := Finset.filter_subset _ _

theorem contains_eq_decide (index : Nat) :
    flags.contains index = decide (index ∈ flags.indices) := by
  rw [Bool.eq_iff_iff, decide_eq_true_iff, mem_indices]

theorem nodup_toList : flags.toList.Nodup := List.nodup_range.filter _

theorem toFinset_toList : flags.toList.toFinset = flags.indices := by
  ext index
  rw [List.mem_toFinset, toList, List.mem_filter, List.mem_range, mem_indices]
  exact ⟨And.right, fun h => ⟨lt_size_of_contains h, h⟩⟩

theorem count_eq_card : flags.count = flags.indices.card := by
  rw [count_eq_length_toList, ← toFinset_toList, List.toFinset_card_of_nodup flags.nodup_toList]

theorem toList_eq_sort : flags.toList = flags.indices.sort (· ≤ ·) := by
  have hsorted : flags.toList.Pairwise (· ≤ ·) := List.pairwise_le_range.filter _
  rw [← toFinset_toList, (List.toFinset_sort _ flags.nodup_toList).mpr hsorted]

theorem beq_iff_indices {flags other : FlagSet} :
    (flags == other) = true ↔ flags.size = other.size ∧ flags.indices = other.indices := by
  rw [beq_iff_eq]
  constructor
  · rintro rfl
    exact ⟨rfl, rfl⟩
  · rintro ⟨hsize, hindices⟩
    refine eq_of_contains hsize fun index => ?_
    rw [contains_eq_decide, contains_eq_decide, hindices]

@[simp] theorem indices_empty (size : Nat) : (empty size).indices = ∅ := by
  ext index
  simp

@[simp] theorem indices_full (size : Nat) : (full size).indices = Finset.range size := by
  ext index
  simp

theorem indices_insert {index : Nat} (h : index < flags.size) :
    (flags.insert index).indices = Insert.insert index flags.indices := by
  ext other
  rw [mem_indices, contains_insert flags index other h, Finset.mem_insert, mem_indices,
    Bool.or_eq_true, decide_eq_true_iff, or_comm]

theorem indices_erase (index : Nat) :
    (flags.erase index).indices = flags.indices.erase index := by
  ext other
  rw [mem_indices, contains_erase, Finset.mem_erase, mem_indices, Bool.and_eq_true,
    decide_eq_true_iff, and_comm]

theorem check_eq_ok {index : Nat} (h : index < flags.size) : flags.check index = .ok () :=
  if_pos h

theorem read_eq_ok {index : Nat} (h : index < flags.size) :
    flags.read index = .ok (decide (index ∈ flags.indices)) := by
  rw [read, check_eq_ok flags h, contains_eq_decide]
  rfl

theorem mark_eq_ok {index : Nat} (h : index < flags.size) :
    flags.mark index = .ok (decide (index ∉ flags.indices), flags.insert index) := by
  rw [mark, check_eq_ok flags h, contains_eq_decide, ← decide_not]
  rfl

theorem unmark_eq_ok {index : Nat} (h : index < flags.size) :
    flags.unmark index = .ok (decide (index ∈ flags.indices), flags.erase index) := by
  rw [unmark, check_eq_ok flags h, contains_eq_decide]
  rfl

end FlagSet

inductive FlagChange where
  | mark (index : Nat)
  | unmark (index : Nat)
  | setAll
  | clear
deriving Repr, DecidableEq

namespace FlagChange

def Within (size : Nat) : FlagChange → Prop
  | mark index | unmark index => index < size
  | setAll | clear => True

instance (size : Nat) (change : FlagChange) : Decidable (change.Within size) :=
  match change with
  | mark index | unmark index => inferInstanceAs (Decidable (index < size))
  | setAll | clear => inferInstanceAs (Decidable True)

def carryOut (flags : FlagSet) : FlagChange → Except Fault (Option Bool × FlagSet)
  | mark index => do
    let (wasClear, flags) ← flags.mark index
    return (some wasClear, flags)
  | unmark index => do
    let (wasSet, flags) ← flags.unmark index
    return (some wasSet, flags)
  | setAll => return (none, flags.setAll)
  | clear => return (none, flags.clear)

def changed (size : Nat) (indices : Finset Nat) : FlagChange → Finset Nat
  | mark index => insert index indices
  | unmark index => indices.erase index
  | setAll => Finset.range size
  | clear => ∅

def answer (indices : Finset Nat) : FlagChange → Option Bool
  | mark index => some (decide (index ∉ indices))
  | unmark index => some (decide (index ∈ indices))
  | setAll | clear => none

theorem carryOut_eq_ok {change : FlagChange} {flags : FlagSet} (h : change.Within flags.size) :
    ∃ after, change.carryOut flags = .ok (change.answer flags.indices, after) ∧
      after.size = flags.size ∧ after.indices = change.changed flags.size flags.indices := by
  cases change with
  | mark index =>
    refine ⟨flags.insert index, ?_, flags.size_insert index, flags.indices_insert h⟩
    rw [carryOut, flags.mark_eq_ok h]
    rfl
  | unmark index =>
    refine ⟨flags.erase index, ?_, flags.size_erase index, flags.indices_erase index⟩
    rw [carryOut, flags.unmark_eq_ok h]
    rfl
  | setAll => exact ⟨flags.setAll, rfl, rfl, FlagSet.indices_full flags.size⟩
  | clear => exact ⟨flags.clear, rfl, rfl, FlagSet.indices_empty flags.size⟩

def carryOutAll (flags : FlagSet) :
    List FlagChange → Except Fault (List (Option Bool) × FlagSet)
  | [] => return ([], flags)
  | change :: changes => do
    let (answer, flags) ← change.carryOut flags
    let (answers, flags) ← carryOutAll flags changes
    return (answer :: answers, flags)

def changedAll (size : Nat) (indices : Finset Nat) (changes : List FlagChange) : Finset Nat :=
  changes.foldl (changed size) indices

def answers (size : Nat) (indices : Finset Nat) : List FlagChange → List (Option Bool)
  | [] => []
  | change :: changes =>
    change.answer indices :: answers size (change.changed size indices) changes

theorem carryOutAll_eq_ok {changes : List FlagChange} {flags : FlagSet}
    (h : ∀ change ∈ changes, change.Within flags.size) :
    ∃ after,
      carryOutAll flags changes = .ok (answers flags.size flags.indices changes, after) ∧
      after.size = flags.size ∧ after.indices = changedAll flags.size flags.indices changes := by
  induction changes generalizing flags with
  | nil => exact ⟨flags, rfl, rfl, rfl⟩
  | cons change changes ih =>
    obtain ⟨first, hfirst, hsize, hindices⟩ := carryOut_eq_ok (h change List.mem_cons_self)
    have hrest : ∀ later ∈ changes, later.Within first.size := by
      intro later hlater
      rw [hsize]
      exact h later (List.mem_cons_of_mem _ hlater)
    obtain ⟨last, hlast, hlastSize, hlastIndices⟩ := ih hrest
    rw [hsize] at hlast hlastSize hlastIndices
    rw [hindices] at hlast hlastIndices
    refine ⟨last, ?_, hlastSize, hlastIndices⟩
    rw [carryOutAll, hfirst]
    simp only [bind, Except.bind, hlast]
    rfl

end FlagChange

/-- A set of flags, all clear or all set at first, and what is done to it. -/
structure FlagRun where
  size : Nat
  isFull : Bool
  changes : List FlagChange

namespace FlagRun

variable (run : FlagRun)

def start : FlagSet := if run.isFull then .full run.size else .empty run.size

def startIndices : Finset Nat := if run.isFull then Finset.range run.size else ∅

def result : Except Fault (List (Option Bool) × FlagSet) :=
  FlagChange.carryOutAll run.start run.changes

def indices : Finset Nat := FlagChange.changedAll run.size run.startIndices run.changes

def answers : List (Option Bool) := FlagChange.answers run.size run.startIndices run.changes

def Within : Prop := ∀ change ∈ run.changes, change.Within run.size

@[simp] theorem size_start : run.start.size = run.size := by
  unfold start
  split <;> rfl

@[simp] theorem indices_start : run.start.indices = run.startIndices := by
  unfold start startIndices
  split
  · exact FlagSet.indices_full run.size
  · exact FlagSet.indices_empty run.size

theorem result_eq_ok {run : FlagRun} (h : run.Within) :
    ∃ flags, run.result = .ok (run.answers, flags) ∧
      flags.size = run.size ∧ flags.indices = run.indices := by
  have hwithin : ∀ change ∈ run.changes, change.Within run.start.size := by
    rwa [size_start]
  have hrun := FlagChange.carryOutAll_eq_ok hwithin
  rwa [size_start, indices_start] at hrun

/-- Flags are to their changes what a set of indices is to the same changes: the answers on the way
are those of the set, a flag is set just when its index is a member, counting and listing the flags
gives the number of members and the members in order, and flags are told apart just when their
number or their members differ. -/
theorem result_refines_indices (run other : FlagRun) (hrun : run.Within) (hother : other.Within) :
    ∃ flags otherFlags,
      run.result = .ok (run.answers, flags) ∧
      other.result = .ok (other.answers, otherFlags) ∧
      flags.size = run.size ∧
      run.indices ⊆ Finset.range run.size ∧
      (∀ index < run.size, flags.read index = .ok (decide (index ∈ run.indices))) ∧
      flags.count = run.indices.card ∧
      flags.toList = run.indices.sort (· ≤ ·) ∧
      ((flags == otherFlags) = true ↔ run.size = other.size ∧ run.indices = other.indices) := by
  obtain ⟨flags, hresult, hsize, hindices⟩ := result_eq_ok hrun
  obtain ⟨otherFlags, hotherResult, hotherSize, hotherIndices⟩ := result_eq_ok hother
  refine ⟨flags, otherFlags, hresult, hotherResult, hsize, ?_, fun index hindex => ?_, ?_, ?_, ?_⟩
  · rw [← hindices, ← hsize]
    exact flags.indices_subset_range
  · rw [flags.read_eq_ok (by rwa [hsize]), hindices]
  · rw [flags.count_eq_card, hindices]
  · rw [flags.toList_eq_sort, hindices]
  · rw [FlagSet.beq_iff_indices, hsize, hotherSize, hindices, hotherIndices]

/-- Two ways to the flags 2 and 69 out of 70, with a flag in each word. -/
theorem result_refines_indices_of_two_words :
    let run : FlagRun :=
      ⟨70, true, [.unmark 3, .mark 3, .clear, .mark 69, .mark 2, .mark 2, .unmark 5]⟩
    let other : FlagRun := ⟨70, false, [.mark 2, .mark 69]⟩
    run.Within ∧ other.Within ∧
    ∃ flags otherFlags,
      run.result =
        .ok ([some true, some true, none, some true, some true, some false, some false], flags) ∧
      other.result = .ok ([some true, some true], otherFlags) ∧
      flags.read 69 = .ok true ∧ flags.count = 2 ∧ (flags == otherFlags) = true := by
  intro run other
  have hrun : run.Within := by
    unfold Within
    decide
  have hother : other.Within := by
    unfold Within
    decide
  obtain ⟨flags, otherFlags, hresult, hotherResult, -, -, hread, hcount, -, hsame⟩ :=
    result_refines_indices run other hrun hother
  refine ⟨hrun, hother, flags, otherFlags, hresult, hotherResult, ?_, ?_, hsame.mpr ⟨rfl, ?_⟩⟩
  · rw [hread 69 (by decide)]
    decide
  · rw [hcount]
    decide
  · decide

end FlagRun

end ClockedLogic
