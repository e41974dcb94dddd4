import ClockedLogic.Fault

/-!
A flag set holds a fixed number of flags, packed 64 to a word with the lowest flag at the
lowest bit. The bits of the last word past the end stay clear, so two sets of one size are
equal exactly when they hold the same flags, and flags can be counted word by word.
-/

namespace ClockedLogic

def flagAddress (index : Nat) : Nat × BitVec 64 := (index / 64, 1#64 <<< (index % 64))

/-- The bit stored for a flag; past the last word all bits read as clear. -/
def storedFlag (words : Array (BitVec 64)) (index : Nat) : Bool :=
  ((words[index / 64]?).getD 0).getLsbD (index % 64)

structure FlagSet where
  size : Nat
  words : Array (BitVec 64)
  size_words : words.size = (size + 63) / 64
  storedFlag_eq_false : ∀ index, size ≤ index → storedFlag words index = false
deriving DecidableEq

namespace FlagSet

def empty (size : Nat) : FlagSet where
  size := size
  words := Array.replicate ((size + 63) / 64) 0
  size_words := Array.size_replicate
  storedFlag_eq_false index _ := by
    simp only [storedFlag, Array.getElem?_replicate]
    split <;> simp

private theorem storedFlag_ofFn (size index : Nat) :
    storedFlag (Array.ofFn fun i : Fin ((size + 63) / 64) =>
      BitVec.allOnes 64 >>> (64 - min 64 (size - 64 * i.val))) index =
      decide (index < size) := by
  rw [Bool.eq_iff_iff]
  by_cases h : index / 64 < (size + 63) / 64
  · simp only [storedFlag, Array.getElem?_ofFn, h, dite_true, Option.getD_some,
      BitVec.getLsbD_ushiftRight, BitVec.getLsbD_allOnes, decide_eq_true_eq]
    omega
  · have hi : ¬ index < size := by omega
    simp [storedFlag, h, hi]

def full (size : Nat) : FlagSet where
  size := size
  words := Array.ofFn fun i : Fin ((size + 63) / 64) =>
    BitVec.allOnes 64 >>> (64 - min 64 (size - 64 * i.val))
  size_words := Array.size_ofFn
  storedFlag_eq_false index h := by
    rw [storedFlag_ofFn]
    exact decide_eq_false (by omega)

def contains (flags : FlagSet) (index : Nat) : Bool := storedFlag flags.words index

private theorem getLsbD_one_shiftLeft (i j : Nat) (hi : i < 64) :
    (1#64 <<< i).getLsbD j = decide (i = j) := by
  rw [← BitVec.twoPow_eq, BitVec.getLsbD_twoPow]
  simp [hi]

private theorem storedFlag_set (words : Array (BitVec 64)) (word : BitVec 64)
    (index other : Nat) (h : index / 64 < words.size) :
    storedFlag (words.setIfInBounds (index / 64) word) other =
      if index / 64 = other / 64 then word.getLsbD (other % 64)
      else storedFlag words other := by
  simp only [storedFlag, Array.getElem?_setIfInBounds]
  split
  · simp
  · rfl

private def setWords (words : Array (BitVec 64)) (index : Nat) : Array (BitVec 64) :=
  let (word, mask) := flagAddress index
  words.setIfInBounds word ((words[word]?).getD 0 ||| mask)

private def clearWords (words : Array (BitVec 64)) (index : Nat) : Array (BitVec 64) :=
  let (word, mask) := flagAddress index
  words.setIfInBounds word ((words[word]?).getD 0 &&& ~~~mask)

private theorem storedFlag_setWords (words : Array (BitVec 64)) (index other : Nat)
    (h : index / 64 < words.size) :
    storedFlag (setWords words index) other =
      (storedFlag words other || decide (other = index)) := by
  simp only [setWords, flagAddress]
  rw [storedFlag_set _ _ _ _ h]
  split <;> rename_i heq
  · rw [BitVec.getLsbD_or, getLsbD_one_shiftLeft _ _ (by omega), heq]
    have : index % 64 = other % 64 ↔ other = index := by omega
    simp only [storedFlag, this]
  · have : ¬ other = index := fun he => heq (by rw [he])
    simp [this]

private theorem storedFlag_clearWords (words : Array (BitVec 64)) (index other : Nat)
    (h : index / 64 < words.size) :
    storedFlag (clearWords words index) other =
      (storedFlag words other && decide (other ≠ index)) := by
  simp only [clearWords, flagAddress]
  rw [storedFlag_set _ _ _ _ h]
  split <;> rename_i heq
  · have hlt : other % 64 < 64 := by omega
    rw [BitVec.getLsbD_and, BitVec.getLsbD_not, getLsbD_one_shiftLeft _ _ (by omega), heq]
    have : index % 64 = other % 64 ↔ other = index := by omega
    simp [storedFlag, this, hlt]
  · have : ¬ other = index := fun he => heq (by rw [he])
    simp [this]

private theorem word_lt (flags : FlagSet) {index : Nat} (h : index < flags.size) :
    index / 64 < flags.words.size := by
  have := flags.size_words
  omega

/-- Sets a flag; past the end nothing happens. -/
def insert (flags : FlagSet) (index : Nat) : FlagSet :=
  if h : index < flags.size then
    { size := flags.size
      words := setWords flags.words index
      size_words := by simp [setWords, flags.size_words]
      storedFlag_eq_false := fun other ho => by
        rw [storedFlag_setWords _ _ _ (word_lt flags h), flags.storedFlag_eq_false other ho]
        simp only [Bool.false_or, decide_eq_false_iff_not]
        omega }
  else flags

def erase (flags : FlagSet) (index : Nat) : FlagSet :=
  if h : index < flags.size then
    { size := flags.size
      words := clearWords flags.words index
      size_words := by simp [clearWords, flags.size_words]
      storedFlag_eq_false := fun other ho => by
        rw [storedFlag_clearWords _ _ _ (word_lt flags h), flags.storedFlag_eq_false other ho]
        rfl }
  else flags

def setAll (flags : FlagSet) : FlagSet := full flags.size

def clear (flags : FlagSet) : FlagSet := empty flags.size

def count (flags : FlagSet) : Nat := flags.words.foldl (fun total word => total + word.cpop.toNat) 0

def toList (flags : FlagSet) : List Nat := (List.range flags.size).filter flags.contains

def check (flags : FlagSet) (index : Nat) : Except Fault Unit :=
  if index < flags.size then .ok () else .error (.outOfBounds index flags.size)

def read (flags : FlagSet) (index : Nat) : Except Fault Bool := do
  flags.check index
  return flags.contains index

def mark (flags : FlagSet) (index : Nat) : Except Fault (Bool × FlagSet) := do
  flags.check index
  return (!flags.contains index, flags.insert index)

def unmark (flags : FlagSet) (index : Nat) : Except Fault (Bool × FlagSet) := do
  flags.check index
  return (flags.contains index, flags.erase index)

@[simp] theorem size_empty (size : Nat) : (empty size).size = size := rfl

@[simp] theorem size_full (size : Nat) : (full size).size = size := rfl

@[simp] theorem size_insert (flags : FlagSet) (index : Nat) :
    (flags.insert index).size = flags.size := by
  unfold insert; split <;> rfl

@[simp] theorem size_erase (flags : FlagSet) (index : Nat) :
    (flags.erase index).size = flags.size := by
  unfold erase; split <;> rfl

@[simp] theorem contains_empty (size index : Nat) : (empty size).contains index = false := by
  simp only [contains, empty, storedFlag, Array.getElem?_replicate]
  split <;> simp

@[simp] theorem contains_full (size index : Nat) :
    (full size).contains index = decide (index < size) := storedFlag_ofFn size index

theorem contains_insert (flags : FlagSet) (index other : Nat) (h : index < flags.size) :
    (flags.insert index).contains other = (flags.contains other || decide (other = index)) := by
  simp only [insert, h, dite_true, contains]
  exact storedFlag_setWords _ _ _ (word_lt flags h)

theorem contains_erase (flags : FlagSet) (index other : Nat) :
    (flags.erase index).contains other = (flags.contains other && decide (other ≠ index)) := by
  by_cases h : index < flags.size
  · simp only [erase, h, dite_true, contains]
    exact storedFlag_clearWords _ _ _ (word_lt flags h)
  · have hf : flags.contains index = false := flags.storedFlag_eq_false index (by omega)
    simp only [erase, h, dite_false]
    by_cases he : other = index
    · subst he; simp [hf]
    · simp [he]

theorem eq_of_contains {flags other : FlagSet} (hsize : flags.size = other.size)
    (h : ∀ index, flags.contains index = other.contains index) : flags = other := by
  have hwords : flags.words = other.words := by
    refine Array.ext (by rw [flags.size_words, other.size_words, hsize]) fun word hword hother => ?_
    refine BitVec.eq_of_getLsbD_eq fun bit hbit => ?_
    have hflag := h (64 * word + bit)
    have hdiv : (64 * word + bit) / 64 = word := by omega
    have hmod : (64 * word + bit) % 64 = bit := by omega
    simpa only [contains, storedFlag, hdiv, hmod, Array.getElem?_eq_getElem hword,
      Array.getElem?_eq_getElem hother, Option.getD_some] using hflag
  cases flags
  cases other
  cases hsize
  cases hwords
  rfl

theorem insert_eq_self {flags : FlagSet} {index : Nat} (hindex : index < flags.size)
    (hset : flags.contains index = true) : flags.insert index = flags := by
  refine eq_of_contains (size_insert _ _) fun other => ?_
  rw [contains_insert _ _ _ hindex]
  rcases Decidable.em (other = index) with rfl | hne
  · rw [hset, Bool.true_or]
  · rw [decide_eq_false hne, Bool.or_false]

theorem erase_eq_self {flags : FlagSet} {index : Nat} (h : flags.contains index = false) :
    flags.erase index = flags := by
  refine eq_of_contains (size_erase _ _) fun other => ?_
  rw [contains_erase]
  by_cases hsame : other = index
  · rw [hsame, h, Bool.false_and]
  · rw [decide_eq_true hsame, Bool.and_true]

end FlagSet

end ClockedLogic
