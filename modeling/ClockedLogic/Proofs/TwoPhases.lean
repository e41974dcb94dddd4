import ClockedLogic.Proofs.Storing
import Mathlib.Data.List.Induction

/-!
The two phases of the storage elements, for any mask and any size. A rising edge prepares the next
state and a falling edge commits it. Whatever a storage element has been asked before, its answers
show the state that has been committed last, and only a falling edge that follows a rising edge
commits another one.
-/

namespace ClockedLogic

inductive ChipCall where
  | respond (inputs : List Word)
  | rise (inputs : List Word)
  | fall
deriving DecidableEq, Repr

namespace ChipCall

/-- Whether there is no clock edge among some calls. -/
def Quiet (calls : List ChipCall) : Prop := ∀ call ∈ calls, ∃ inputs, call = .respond inputs

/-- Whether the last clock edge among some calls is a rising one, and for which inputs. -/
def Waits (calls : List ChipCall) (inputs : List Word) : Prop :=
  ∃ before between, calls = before ++ .rise inputs :: between ∧ Quiet between

variable {calls : List ChipCall} {inputs : List Word}

theorem not_waits_nil : ¬ Waits [] inputs := by
  rintro ⟨before, between, hcalls, -⟩
  simp at hcalls

/-- The last call is the rising edge itself or comes after it without being a clock edge. -/
theorem waits_concat {call : ChipCall} :
    Waits (calls ++ [call]) inputs ↔
      call = .rise inputs ∨ Waits calls inputs ∧ ∃ read, call = .respond read := by
  constructor
  · rintro ⟨before, between, hcalls, hquiet⟩
    cases between using List.reverseRecOn with
    | nil =>
      obtain ⟨-, hlast⟩ := List.append_inj' hcalls rfl
      exact .inl (List.cons.inj hlast).1
    | append_singleton between last =>
      rw [← List.cons_append, ← List.append_assoc] at hcalls
      obtain ⟨hfirst, hlast⟩ := List.append_inj' hcalls rfl
      obtain ⟨hbetween, hread⟩ := List.forall_mem_append.mp hquiet
      rw [(List.cons.inj hlast).1]
      exact .inr ⟨⟨before, between, hfirst, hbetween⟩, hread last List.mem_cons_self⟩
  · rintro (rfl | ⟨⟨before, between, rfl, hquiet⟩, hread⟩)
    · exact ⟨calls, [], rfl, by simp [Quiet]⟩
    · refine ⟨before, between ++ [call], by simp, List.forall_mem_append.mpr ⟨hquiet, ?_⟩⟩
      simpa using hread

/-- Only one rising edge is the last one. -/
theorem Waits.unique {inputs' : List Word} (h : Waits calls inputs) (h' : Waits calls inputs') :
    inputs = inputs' := by
  induction calls using List.reverseRecOn with
  | nil => exact absurd h not_waits_nil
  | append_singleton calls call ih =>
    rcases waits_concat.mp h with rfl | ⟨hwaits, read, rfl⟩
    · simpa using waits_concat.mp h'
    · rcases waits_concat.mp h' with heq | ⟨hwaits', -⟩
      · cases heq
      · exact ih hwaits hwaits'

end ChipCall

namespace Chip

def undergo (chip : Chip) : ChipCall → Chip
  | .respond _ => chip
  | .rise inputs => chip.rise inputs
  | .fall => chip.fall

def undergoAll (chip : Chip) (calls : List ChipCall) : Chip := calls.foldl undergo chip

theorem undergoAll_append (chip : Chip) (calls later : List ChipCall) :
    chip.undergoAll (calls ++ later) = (chip.undergoAll calls).undergoAll later :=
  List.foldl_append

theorem undergoAll_concat (chip : Chip) (calls : List ChipCall) (call : ChipCall) :
    chip.undergoAll (calls ++ [call]) = (chip.undergoAll calls).undergo call :=
  chip.undergoAll_append calls [call]

theorem undergoAll_quiet {calls : List ChipCall} (h : ChipCall.Quiet calls) (chip : Chip) :
    chip.undergoAll calls = chip := by
  induction calls with
  | nil => rfl
  | cons call calls ih =>
    obtain ⟨⟨inputs, rfl⟩, hrest⟩ := List.forall_mem_cons.mp h
    exact ih hrest

/-- No call but a falling edge makes a difference to an answer. -/
theorem respond_undergo (chip : Chip) {call : ChipCall} (hcall : call ≠ .fall)
    (inputs outputs : List Word) :
    (chip.undergo call).respond inputs outputs = chip.respond inputs outputs := by
  cases call with
  | respond earlier => rfl
  | rise earlier => exact chip.respond_rise earlier inputs outputs
  | fall => exact absurd rfl hcall

theorem held_undergo (chip : Chip) {call : ChipCall} (hcall : call ≠ .fall) :
    (chip.undergo call).held = chip.held := by
  cases call with
  | respond inputs => rfl
  | rise inputs => exact chip.held_rise inputs
  | fall => exact absurd rfl hcall

end Chip

def Store.shown (store : Store) (inputs : List Word) : Word :=
  match store with
  | .nothing => 0
  | .word held => held
  | .words contents => contents.getD ((Primitive.input inputs 2).toNat % contents.size) 0

inductive StorageKind where
  | latch (mask : Word)
  | loadLatch (mask : Word)
  | counter
  | memory (size : Nat) (size_pos : 0 < size)

namespace StorageKind

open Primitive (input inputBit)

def spec : StorageKind → ChipSpec
  | latch mask => .latch mask
  | loadLatch mask => .loadLatch mask
  | counter => .counter
  | memory size _ => .memory size

def clear : StorageKind → Store
  | memory size _ => .words (Array.replicate size 0)
  | _ => .word 0

def next (kind : StorageKind) (store : Store) (inputs : List Word) : Store :=
  match kind, store with
  | latch mask, .word _ => .word (input inputs 0 &&& mask)
  | loadLatch mask, .word held =>
    .word (if inputBit inputs 1 then input inputs 0 &&& mask else held)
  | counter, .word held =>
    .word (if inputBit inputs 3 then 0
      else if inputBit inputs 1 then input inputs 0
      else if inputBit inputs 2 then held + 1
      else held)
  | memory size _, .words contents =>
    .words (if inputBit inputs 1 then
        contents.setIfInBounds ((input inputs 2).toNat % size) (input inputs 0)
      else contents)
  | _, _ => store

end StorageKind

namespace Chip

/-- Whether a chip is a storage element of a kind. A memory keeps its size and only prepares writes
to words that it has. -/
inductive Implements : StorageKind → Chip → Prop where
  | latch {mask : Word} {state : Latch} (h : state.mask = mask) :
    Implements (.latch mask) (latch state)
  | loadLatch {mask : Word} {state : Latch} (h : state.mask = mask) :
    Implements (.loadLatch mask) (loadLatch state)
  | counter {state : Counter} : Implements .counter (counter state)
  | memory {size : Nat} {size_pos : 0 < size} {state : Memory} (hsize : state.words.size = size)
    (hpending : ∀ write ∈ state.pending, write.1 < size) :
    Implements (.memory size size_pos) (memory state)

variable {kind : StorageKind} {chip : Chip}

theorem Implements.rise (h : Implements kind chip) (inputs : List Word) :
    Implements kind (chip.rise inputs) := by
  cases h with
  | latch h => exact .latch h
  | loadLatch h =>
    refine .loadLatch ?_
    unfold Latch.riseLoading
    split <;> exact h
  | counter => exact .counter
  | @memory size size_pos state hsize hpending =>
    refine .memory hsize fun write hwrite => ?_
    simp only [Memory.rise] at hwrite
    split at hwrite
    · cases hwrite
      rw [Memory.index, hsize]
      exact Nat.mod_lt _ size_pos
    · cases hwrite

theorem Implements.fall (h : Implements kind chip) : Implements kind chip.fall := by
  cases h with
  | latch h => exact .latch h
  | loadLatch h => exact .loadLatch h
  | counter => exact .counter
  | memory hsize hpending =>
    refine .memory ?_ fun write hwrite => ?_
    · unfold Memory.fall
      split
      · rw [Array.size_setIfInBounds, hsize]
      · exact hsize
    · unfold Memory.fall at hwrite
      split at hwrite
      · cases hwrite
      · exact hpending write hwrite

theorem Implements.undergo (h : Implements kind chip) (call : ChipCall) :
    Implements kind (chip.undergo call) := by
  cases call with
  | respond inputs => exact h
  | rise inputs => exact h.rise inputs
  | fall => exact h.fall

theorem Implements.undergoAll (h : Implements kind chip) (calls : List ChipCall) :
    Implements kind (chip.undergoAll calls) := by
  induction calls generalizing chip with
  | nil => exact h
  | cons call calls ih => exact ih (h.undergo call)

theorem Implements.held_fall_rise (h : Implements kind chip) (inputs : List Word) :
    (chip.rise inputs).fall.held = kind.next chip.held inputs := by
  cases h with
  | latch h => simp only [Chip.rise, Chip.fall, held, Latch.rise, Latch.fall, h, StorageKind.next]
  | loadLatch h =>
    simp only [Chip.rise, Chip.fall, held, Latch.riseLoading, Latch.rise, Latch.fall, h,
      StorageKind.next]
    split <;> rfl
  | counter => rfl
  | memory hsize hpending =>
    simp only [Chip.rise, Chip.fall, held, Memory.rise, Memory.fall, Memory.index, hsize,
      StorageKind.next]
    cases Primitive.inputBit inputs 1 <;> rfl

theorem Implements.respond_eq (h : Implements kind chip) (inputs : List Word) (output : Word)
    (rest : List Word) :
    chip.respond inputs (output :: rest) = chip.held.shown inputs :: rest := by
  cases h with
  | _ => rfl

end Chip

namespace StorageKind

open Chip (Implements)

/-- A storage element can be made, and holds nothing but zeros until a state is committed. -/
theorem exists_make (kind : StorageKind) :
    ∃ chip, kind.spec.make = .ok chip ∧ Implements kind chip ∧ chip.held = kind.clear ∧
      chip.fall.held = kind.clear := by
  cases kind with
  | latch mask => exact ⟨_, rfl, .latch rfl, rfl, rfl⟩
  | loadLatch mask => exact ⟨_, rfl, .loadLatch rfl, rfl, rfl⟩
  | counter => exact ⟨_, rfl, .counter, rfl, rfl⟩
  | memory size size_pos =>
    refine ⟨.memory ⟨Array.replicate size 0, none⟩, ?_, .memory Array.size_replicate (by simp),
      rfl, rfl⟩
    rw [spec, ChipSpec.make, Memory.new, if_neg (Nat.ne_of_gt size_pos)]
    rfl

variable {kind : StorageKind} {chip : Chip}

/-- A falling edge commits what follows on the last rising edge. -/
theorem held_fall_of_rise (h : Implements kind chip) {before between : List ChipCall}
    {inputs : List Word} (hquiet : ChipCall.Quiet between) :
    (chip.undergoAll (before ++ .rise inputs :: between ++ [.fall])).held =
      kind.next (chip.undergoAll before).held inputs := by
  have hnow : chip.undergoAll (before ++ .rise inputs :: between) =
      (chip.undergoAll before).rise inputs := by
    rw [Chip.undergoAll_append]
    exact Chip.undergoAll_quiet hquiet _
  rw [Chip.undergoAll_concat, hnow]
  exact (h.undergoAll before).held_fall_rise inputs

/-- Between the two edges nothing is committed. -/
theorem held_fall_of_waits (h : Implements kind chip) {calls : List ChipCall} {inputs : List Word}
    (hwaits : ChipCall.Waits calls inputs) :
    (chip.undergoAll (calls ++ [.fall])).held = kind.next (chip.undergoAll calls).held inputs := by
  obtain ⟨before, between, rfl, hquiet⟩ := hwaits
  have hsame : (chip.undergoAll (before ++ .rise inputs :: between)).held =
      (chip.undergoAll before).held := by
    rw [Chip.undergoAll_append]
    exact (congrArg Chip.held (Chip.undergoAll_quiet hquiet _)).trans (Chip.held_rise _ inputs)
  rw [held_fall_of_rise h hquiet, hsame]

/-- A falling edge changes nothing if the last clock edge was a falling one too, or if there was
none and nothing had been prepared. -/
theorem held_fall_of_not_waits (hchip : chip.fall.held = chip.held) {calls : List ChipCall}
    (hcalls : ∀ inputs, ¬ ChipCall.Waits calls inputs) :
    (chip.undergoAll (calls ++ [.fall])).held = (chip.undergoAll calls).held := by
  rw [Chip.undergoAll_concat]
  -- answers come to nothing, so the calls are read backwards up to the last clock edge
  induction calls using List.reverseRecOn with
  | nil => exact hchip
  | append_singleton calls call ih =>
    rw [Chip.undergoAll_concat]
    cases call with
    | respond read =>
      exact ih fun inputs hwaits =>
        hcalls inputs (ChipCall.waits_concat.mpr (.inr ⟨hwaits, read, rfl⟩))
    | rise inputs => exact absurd (ChipCall.waits_concat.mpr (.inl rfl)) (hcalls inputs)
    | fall => exact Chip.held_fall_fall _

/-- Whatever a storage element has been asked, an answer shows the state that it holds, and nothing
but a falling edge changes an answer. A falling edge commits what follows on the inputs of the last
rising edge and on the state held then; without a rising edge since the last falling edge the state
stays. -/
theorem two_phases (kind : StorageKind) :
    ∃ chip, kind.spec.make = .ok chip ∧ chip.held = kind.clear ∧
      (∀ calls inputs output rest, (chip.undergoAll calls).respond inputs (output :: rest) =
        (chip.undergoAll calls).held.shown inputs :: rest) ∧
      (∀ calls call, call ≠ .fall →
        (chip.undergoAll (calls ++ [call])).held = (chip.undergoAll calls).held ∧
        ∀ inputs outputs, (chip.undergoAll (calls ++ [call])).respond inputs outputs =
          (chip.undergoAll calls).respond inputs outputs) ∧
      (∀ before inputs between, ChipCall.Quiet between →
        (chip.undergoAll (before ++ .rise inputs :: between ++ [.fall])).held =
          kind.next (chip.undergoAll before).held inputs) ∧
      ∀ calls, (∀ inputs, ¬ ChipCall.Waits calls inputs) →
        (chip.undergoAll (calls ++ [.fall])).held = (chip.undergoAll calls).held := by
  obtain ⟨chip, hmake, himplements, hheld, hfall⟩ := kind.exists_make
  refine ⟨chip, hmake, hheld, fun calls inputs output rest => ?_, fun calls call hcall => ?_,
    fun before inputs between hquiet => held_fall_of_rise himplements hquiet,
    fun calls hcalls => held_fall_of_not_waits (hfall.trans hheld.symm) hcalls⟩
  · exact (himplements.undergoAll calls).respond_eq inputs output rest
  · rw [Chip.undergoAll_concat]
    exact ⟨Chip.held_undergo _ hcall, Chip.respond_undergo _ hcall⟩

end StorageKind

end ClockedLogic
