import ClockedLogic.Proofs.Links
import ClockedLogic.Proofs.TwoPhases

/-!
A memory of any size as a random access memory. What has been written follows from the calls alone:
a write lands on a falling edge if the last clock edge before it is a rising one with load set. A
word then holds what has landed last at an address that wraps around to it, or 0.
-/

namespace ClockedLogic

open Primitive (input inputBit)

namespace ChipCall

/-- Whether the write of some inputs lands with the call at a position. -/
def LandsAt (calls : List ChipCall) (time : Nat) (inputs : List Word) : Prop :=
  calls[time]? = some .fall ∧ Waits (calls.take time) inputs ∧ inputBit inputs 1 = true

def wordNumber (size : Nat) (inputs : List Word) : Nat := (input inputs 2).toNat % size

/-- What the calls have left in a word of a memory of a size. -/
inductive Leaves (size : Nat) (calls : List ChipCall) (word : Nat) : Word → Prop where
  /-- It has been written, here by the last write that has landed there. -/
  | last {time : Nat} {inputs : List Word} (hlands : LandsAt calls time inputs)
    (hword : wordNumber size inputs = word)
    (hlast : ∀ later other, LandsAt calls later other → wordNumber size other = word →
      later ≤ time) : Leaves size calls word (input inputs 0)
  /-- It has not been written. -/
  | never (hnever : ∀ time inputs, LandsAt calls time inputs → wordNumber size inputs ≠ word) :
    Leaves size calls word 0

variable {size : Nat} {calls : List ChipCall} {call : ChipCall} {time : Nat} {inputs : List Word}

theorem LandsAt.lt_length (h : LandsAt calls time inputs) : time < calls.length :=
  (List.getElem?_eq_some_iff.mp h.1).1

/-- One more call lets a write land if it is the falling edge that a rising edge waits for. -/
theorem landsAt_concat :
    LandsAt (calls ++ [call]) time inputs ↔ LandsAt calls time inputs ∨
      time = calls.length ∧ call = .fall ∧ Waits calls inputs ∧ inputBit inputs 1 = true := by
  rcases Nat.lt_trichotomy time calls.length with hlt | rfl | hgt
  · rw [LandsAt, List.getElem?_append_left hlt, List.take_append_of_le_length (Nat.le_of_lt hlt)]
    exact ⟨.inl, fun h => h.resolve_right fun hnow => Nat.ne_of_lt hlt hnow.1⟩
  · rw [LandsAt, List.getElem?_concat_length, List.take_left, Option.some.injEq]
    constructor
    · exact fun h => .inr ⟨rfl, h⟩
    · rintro (h | h)
      · exact absurd h.lt_length (Nat.lt_irrefl _)
      · exact h.2
  · constructor
    · intro h
      have hlt := h.lt_length
      rw [List.length_append, List.length_singleton] at hlt
      omega
    · rintro (h | h)
      · exact absurd h.lt_length (Nat.lt_asymm hgt)
      · exact absurd h.1 (Nat.ne_of_gt hgt)

theorem LandsAt.unique {inputs' : List Word} (h : LandsAt calls time inputs)
    (h' : LandsAt calls time inputs') : inputs = inputs' := h.2.1.unique h'.2.1

/-- A word stays as it is as long as nothing lands in it. -/
theorem Leaves.concat {word : Nat} {value : Word} (h : Leaves size calls word value)
    (hother : ∀ inputs, LandsAt (calls ++ [call]) calls.length inputs →
      wordNumber size inputs ≠ word) : Leaves size (calls ++ [call]) word value := by
  have hbefore : ∀ time inputs, LandsAt (calls ++ [call]) time inputs →
      wordNumber size inputs = word → LandsAt calls time inputs := by
    intro time inputs hlands hword
    rcases landsAt_concat.mp hlands with hlands' | ⟨rfl, -⟩
    · exact hlands'
    · exact absurd hword (hother inputs hlands)
  cases h with
  | last hlands hword hlast =>
    exact .last (landsAt_concat.mpr (.inl hlands)) hword fun later other hlater hsame =>
      hlast later other (hbefore later other hlater hsame) hsame
  | never hnever =>
    exact .never fun time inputs hlands hword =>
      hnever time inputs (hbefore time inputs hlands hword) hword

/-- A word holds what has just landed in it. -/
theorem leaves_landed (hlands : LandsAt (calls ++ [call]) calls.length inputs) :
    Leaves size (calls ++ [call]) (wordNumber size inputs) (input inputs 0) := by
  refine .last hlands rfl fun later other hlater _ => ?_
  have hlt := hlater.lt_length
  rw [List.length_append, List.length_singleton] at hlt
  exact Nat.le_of_lt_succ hlt

/-- The calls leave one value in a word. -/
theorem Leaves.unique {word : Nat} {value value' : Word} (h : Leaves size calls word value)
    (h' : Leaves size calls word value') : value = value' := by
  cases h with
  | @last time inputs hlands hword hlast =>
    cases h' with
    | @last time' inputs' hlands' hword' hlast' =>
      obtain rfl := Nat.le_antisymm (hlast' time inputs hlands hword)
        (hlast time' inputs' hlands' hword')
      rw [hlands.unique hlands']
    | never hnever => exact absurd hword (hnever time inputs hlands)
  | never hnever =>
    cases h' with
    | @last time' inputs' hlands' hword' => exact absurd hword' (hnever time' inputs' hlands')
    | never => rfl

end ChipCall

namespace Memory

open ChipCall

def undergo (memory : Memory) : ChipCall → Memory
  | .respond _ => memory
  | .rise inputs => memory.rise (input inputs 0) (inputBit inputs 1) (input inputs 2)
  | .fall => memory.fall

def undergoAll (memory : Memory) (calls : List ChipCall) : Memory := calls.foldl undergo memory

theorem chip_undergoAll (memory : Memory) (calls : List ChipCall) :
    (Chip.memory memory).undergoAll calls = .memory (memory.undergoAll calls) := by
  induction calls generalizing memory with
  | nil => rfl
  | cons call calls ih => cases call <;> exact ih _

def cleared (size : Nat) : Memory := ⟨Array.replicate size 0, none⟩

section

variable {size : Nat} (size_pos : 0 < size) (calls : List ChipCall)

theorem new_eq (h : 0 < size) : Memory.new size = .ok (cleared size) := if_neg (Nat.ne_of_gt h)

theorem implements_cleared :
    Chip.Implements (.memory size size_pos) (.memory (cleared size)) :=
  .memory Array.size_replicate (by simp [cleared])

include size_pos in
/-- No word gets lost, and no write is prepared to a word that there is not. -/
theorem in_bounds : ((cleared size).undergoAll calls).words.size = size ∧
    ∀ write ∈ ((cleared size).undergoAll calls).pending, write.1 < size := by
  have h := (implements_cleared size_pos).undergoAll calls
  rw [chip_undergoAll] at h
  cases h with
  | memory hsize hpending => exact ⟨hsize, hpending⟩

theorem held_undergoAll : ((Chip.memory (cleared size)).undergoAll calls).held =
    .words ((cleared size).undergoAll calls).words := by
  rw [chip_undergoAll]
  rfl

variable {calls} {call : ChipCall} {inputs : List Word}

include size_pos in
/-- A falling edge after a rising edge writes one word if load was set. -/
theorem words_fall (hwaits : Waits calls inputs) :
    ((cleared size).undergoAll (calls ++ [.fall])).words =
      if inputBit inputs 1 then
        ((cleared size).undergoAll calls).words.setIfInBounds (wordNumber size inputs)
          (input inputs 0)
      else ((cleared size).undergoAll calls).words := by
  have h := StorageKind.held_fall_of_waits (implements_cleared size_pos) hwaits
  rw [held_undergoAll, held_undergoAll] at h
  exact Store.words.inj h

include size_pos in
theorem words_of_landsAt (hlands : LandsAt (calls ++ [call]) calls.length inputs) :
    ((cleared size).undergoAll (calls ++ [call])).words =
      ((cleared size).undergoAll calls).words.setIfInBounds (wordNumber size inputs)
        (input inputs 0) := by
  rcases landsAt_concat.mp hlands with hbefore | ⟨-, rfl, hwaits, hload⟩
  · exact absurd hbefore.lt_length (Nat.lt_irrefl _)
  · rw [words_fall size_pos hwaits, if_pos hload]

include size_pos in
theorem words_of_not_landsAt (hnone : ∀ inputs, ¬ LandsAt (calls ++ [call]) calls.length inputs) :
    ((cleared size).undergoAll (calls ++ [call])).words =
      ((cleared size).undergoAll calls).words := by
  apply Store.words.inj
  rw [← held_undergoAll, ← held_undergoAll]
  by_cases hcall : call = .fall
  · subst hcall
    by_cases hwaits : ∃ inputs, Waits calls inputs
    · obtain ⟨inputs, hwaits⟩ := hwaits
      have hload : ¬ inputBit inputs 1 = true := fun hload =>
        hnone inputs (landsAt_concat.mpr (.inr ⟨rfl, rfl, hwaits, hload⟩))
      rw [held_undergoAll, held_undergoAll, words_fall size_pos hwaits, if_neg hload]
    · exact StorageKind.held_fall_of_not_waits rfl (not_exists.mp hwaits)
  · rw [Chip.undergoAll_concat]
    exact Chip.held_undergo _ hcall

include size_pos in
/-- Every word holds what the calls have left there. -/
theorem leaves_words (calls : List ChipCall) (word : Nat) :
    Leaves size calls word (((cleared size).undergoAll calls).words.getD word 0) := by
  induction calls using List.reverseRecOn with
  | nil =>
    rw [undergoAll, List.foldl_nil, cleared, getD_replicate_zero]
    exact .never fun time inputs hlands => by cases hlands.1
  | append_singleton calls call ih =>
    by_cases hlands : ∃ inputs, LandsAt (calls ++ [call]) calls.length inputs
    · obtain ⟨inputs, hlands⟩ := hlands
      have hsize := (in_bounds size_pos calls).1
      have hbound : wordNumber size inputs < ((cleared size).undergoAll calls).words.size := by
        rw [hsize]
        exact Nat.mod_lt _ size_pos
      rw [words_of_landsAt size_pos hlands, getD_setIfInBounds hbound]
      split
      · rename_i hsame
        rw [← hsame]
        exact leaves_landed hlands
      · rename_i hother
        refine ih.concat fun other hother' hsame => hother ?_
        rw [← hsame, hlands.unique hother']
    · rw [words_of_not_landsAt size_pos (not_exists.mp hlands)]
      exact ih.concat fun inputs hnow => absurd ⟨inputs, hnow⟩ hlands

end

/-- A memory answers with what has landed last at an address that is the same up to its size, and
with 0 if nothing has. It never looks for a word that there is not, and a call changes no word but
the one where a write lands. -/
theorem random_access (size : Nat) (hsize : 0 < size) :
    ∃ memory, Memory.new size = .ok memory ∧ ∀ calls,
      (Chip.memory memory).undergoAll calls = .memory (memory.undergoAll calls) ∧
      (memory.undergoAll calls).words.size = size ∧
      (∀ address, (memory.undergoAll calls).index address < size) ∧
      (∀ write ∈ (memory.undergoAll calls).pending, write.1 < size) ∧
      (∀ inputs output rest value,
        (Chip.memory (memory.undergoAll calls)).respond inputs (output :: rest) = value :: rest ↔
          Leaves size calls (wordNumber size inputs) value) ∧
      ∀ call,
        (∀ inputs, LandsAt (calls ++ [call]) calls.length inputs →
          (memory.undergoAll (calls ++ [call])).words =
            (memory.undergoAll calls).words.setIfInBounds (wordNumber size inputs)
              (input inputs 0)) ∧
        ((∀ inputs, ¬ LandsAt (calls ++ [call]) calls.length inputs) →
          (memory.undergoAll (calls ++ [call])).words = (memory.undergoAll calls).words) := by
  refine ⟨cleared size, new_eq hsize, fun calls => ?_⟩
  obtain ⟨hwords, hpending⟩ := in_bounds hsize calls
  refine ⟨chip_undergoAll _ calls, hwords, fun address => ?_, hpending,
    fun inputs output rest value => ?_, fun call =>
    ⟨fun inputs hlands => words_of_landsAt hsize hlands, words_of_not_landsAt hsize⟩⟩
  · rw [index, hwords]
    exact Nat.mod_lt _ hsize
  · have hleaves := leaves_words hsize calls (wordNumber size inputs)
    have hanswer := ((implements_cleared hsize).undergoAll calls).respond_eq inputs output rest
    rw [held_undergoAll, Store.shown, hwords, chip_undergoAll] at hanswer
    rw [hanswer, List.cons.injEq, and_iff_left rfl]
    exact ⟨fun hvalue => hvalue ▸ hleaves, hleaves.unique⟩

/-- Three words, of which the first is written at one of its addresses and in vain at another. -/
theorem random_access_three : 0 < 3 ∧ ∃ memory, Memory.new 3 = .ok memory ∧
    (Chip.memory (memory.undergoAll [.rise [7, 1, 3], .fall, .fall, .rise [8, 1, -1],
      .respond [0, 0, 1], .rise [9, 0, 6], .fall])).respond [0, 0, -1] [5] = [7] ∧
    Leaves 3 [.rise [7, 1, 3], .fall, .fall, .rise [8, 1, -1], .respond [0, 0, 1],
      .rise [9, 0, 6], .fall] 0 7 := by
  obtain ⟨memory, hnew, hall⟩ := random_access 3 (by decide)
  have hshows : (Chip.memory (memory.undergoAll [.rise [7, 1, 3], .fall, .fall, .rise [8, 1, -1],
      .respond [0, 0, 1], .rise [9, 0, 6], .fall])).respond [0, 0, -1] [5] = [7] := by
    cases hnew
    decide
  exact ⟨by decide, memory, hnew, hshows, ((hall _).2.2.2.2.1 [0, 0, -1] 5 [] 7).mp hshows⟩

end Memory

end ClockedLogic
