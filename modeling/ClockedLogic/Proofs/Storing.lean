import ClockedLogic.Component.Basic
import Mathlib.Tactic.Common

/-!
What the primitives compute and store, without their chips. The answer of a primitive depends on
what it holds and on those inputs that are not clocked; on a clock pulse it takes over what follows
from what it held and from all inputs. A chip that realizes a primitive answers this way, shows
nothing of a rising edge, and shows what it has latched after a falling edge.
-/

namespace ClockedLogic

inductive Store where
  | nothing
  | word (held : Word)
  | words (contents : Array Word)
deriving DecidableEq, Repr

namespace Primitive

def answer (kind : Primitive) (store : Store) (inputs : List Word) : List Word :=
  match kind, store with
  | dff, .word held | bit, .word held | register, .word held | pc, .word held => [held]
  | ram8, .words contents => [contents.getD ((input inputs 2).toNat % contents.size) 0]
  | _, _ => kind.compute inputs

def next (kind : Primitive) (store : Store) (inputs : List Word) : Store :=
  match kind, store with
  | dff, .word _ => .word (Word.low (input inputs 0))
  | bit, .word held => .word (if inputBit inputs 1 then Word.low (input inputs 0) else held)
  | register, .word held => .word (if inputBit inputs 1 then input inputs 0 else held)
  | pc, .word held =>
    .word (if inputBit inputs 3 then 0
      else if inputBit inputs 1 then input inputs 0
      else if inputBit inputs 2 then held + 1
      else held)
  | ram8, .words contents =>
    .words (if inputBit inputs 1 then
        contents.setIfInBounds ((input inputs 2).toNat % contents.size) (input inputs 0)
      else contents)
  | _, _ => store

def clear : Primitive → Store
  | dff | bit | register | pc => .word 0
  | ram8 => .words (Array.replicate 8 0)
  | _ => .nothing

end Primitive

namespace Chip

def held : Chip → Store
  | combinational _ => .nothing
  | latch state | loadLatch state => .word state.held
  | counter state => .word state.held
  | memory state => .words state.words

inductive Realizes : Primitive → Chip → Prop where
  | combinational {kind : Primitive} (h : kind.isCombinational = true) :
    Realizes kind (combinational kind)
  | dff {state : Latch} (h : state.mask = 1) : Realizes .dff (latch state)
  | bit {state : Latch} (h : state.mask = 1) : Realizes .bit (loadLatch state)
  | register {state : Latch} (h : state.mask = BitVec.allOnes 16) :
    Realizes .register (loadLatch state)
  | pc {state : Counter} : Realizes .pc (counter state)
  | ram8 {state : Memory} : Realizes .ram8 (memory state)

variable {kind : Primitive} {chip : Chip}

theorem Realizes.rise (h : Realizes kind chip) (inputs : List Word) :
    Realizes kind (chip.rise inputs) := by
  cases h with
  | combinational h => exact .combinational h
  | dff h => exact .dff h
  | bit h =>
    refine .bit ?_
    unfold Latch.riseLoading
    split <;> exact h
  | register h =>
    refine .register ?_
    unfold Latch.riseLoading
    split <;> exact h
  | pc => exact .pc
  | ram8 => exact .ram8

theorem Realizes.fall (h : Realizes kind chip) : Realizes kind chip.fall := by
  cases h with
  | combinational h => exact .combinational h
  | dff h => exact .dff h
  | bit h => exact .bit h
  | register h => exact .register h
  | pc => exact .pc
  | ram8 => exact .ram8

/-- A rising edge changes nothing that the chip holds. -/
theorem held_rise (chip : Chip) (inputs : List Word) : (chip.rise inputs).held = chip.held := by
  cases chip with
  | loadLatch state =>
    simp only [rise, held, Latch.riseLoading, Latch.rise]
    split <;> rfl
  | _ => rfl

/-- What a chip has latched on a rising edge follows from what it holds. -/
theorem Realizes.held_fall_rise (h : Realizes kind chip) (inputs : List Word) :
    (chip.rise inputs).fall.held = kind.next chip.held inputs := by
  cases h with
  | combinational h => cases kind <;> rfl
  | dff h => simp only [Chip.rise, Chip.fall, held, Latch.rise, Latch.fall, h, Primitive.next,
    Word.low]
  | bit h =>
    simp only [Chip.rise, Chip.fall, held, Latch.riseLoading, Latch.rise, Latch.fall, h,
      Primitive.next, Word.low]
    split <;> rfl
  | register h =>
    simp only [Chip.rise, Chip.fall, held, Latch.riseLoading, Latch.rise, Latch.fall, h,
      Primitive.next, BitVec.and_allOnes]
    split <;> rfl
  | pc => rfl
  | @ram8 state =>
    simp only [Chip.rise, Chip.fall, held, Memory.rise, Memory.fall, Memory.index, Primitive.next]
    cases Primitive.inputBit inputs 1 <;> rfl

theorem rise_rise (chip : Chip) (inputs : List Word) :
    (chip.rise inputs).rise inputs = chip.rise inputs := by
  cases chip with
  | loadLatch state =>
    simp only [rise, Latch.riseLoading, Latch.rise]
    split <;> rfl
  | _ => rfl

theorem fall_fall (chip : Chip) : chip.fall.fall = chip.fall := by
  cases chip with
  | memory state =>
    obtain ⟨words, pending⟩ := state
    cases pending <;> rfl
  | _ => rfl

theorem held_fall_fall (chip : Chip) : chip.fall.fall.held = chip.fall.held := by rw [fall_fall]

/-- A chip that has fallen shows at once what it answers anyway. -/
theorem showFallen_eq_self {inputs outputs : List Word} (hfall : chip.fall = chip)
    (hcalm : chip.respond inputs outputs = outputs) : chip.showFallen outputs = outputs := by
  unfold showFallen
  rw [hfall]
  cases chip with
  | combinational kind => rfl
  | memory state => rfl
  | _ => exact hcalm

theorem isCombinational_of_not_clocked (kind : Primitive)
    (h : kind.component.isClocked = false) : kind.isCombinational = true := by
  revert h
  cases kind <;> decide

/-- A chip that takes no part in clock edges does not change on them. -/
theorem Realizes.still (h : Realizes kind chip) (hclocked : kind.component.isClocked = false) :
    (∀ inputs, chip.rise inputs = chip) ∧ chip.fall = chip := by
  have hkind := isCombinational_of_not_clocked kind hclocked
  cases h with
  | combinational => exact ⟨fun _ => rfl, rfl⟩
  | _ => cases hkind

theorem overwrite_of_length_eq {values outputs : List Word} (h : values.length = outputs.length) :
    overwrite values outputs = values := by
  induction values generalizing outputs with
  | nil =>
    rw [List.length_nil, eq_comm, List.length_eq_zero_iff] at h
    rw [h]
    rfl
  | cons value values ih =>
    cases outputs with
    | nil => cases h
    | cons output outputs => rw [overwrite, ih (Nat.succ.inj h)]

theorem Realizes.length_answer (h : Realizes kind chip) (inputs : List Word) :
    (kind.answer chip.held inputs).length = kind.component.outputs.length := by
  cases h with
  | combinational h =>
    cases kind with
    | dmux =>
      show (Primitive.compute .dmux inputs).length = 2
      simp only [Primitive.compute]
      split <;> rfl
    | _ => first | rfl | cases h
  | _ => rfl

/-- A chip with as many outputs as its primitive gives the answer of the primitive. -/
theorem Realizes.respond_eq (h : Realizes kind chip) (inputs outputs : List Word)
    (hlength : outputs.length = kind.component.outputs.length) :
    chip.respond inputs outputs = kind.answer chip.held inputs := by
  have hanswer := (h.length_answer inputs).trans hlength.symm
  cases h with
  | combinational h =>
    have hsame : kind.answer (held (.combinational kind)) inputs = kind.compute inputs := by
      cases kind <;> rfl
    rw [hsame] at hanswer ⊢
    exact overwrite_of_length_eq hanswer
  | _ => exact overwrite_of_length_eq hanswer

/-- The chip of a primitive can be made and holds nothing yet. -/
theorem exists_make (kind : Primitive) :
    ∃ chip, (ChipSpec.primitive kind).make = .ok chip ∧ Realizes kind chip ∧
      chip.held = kind.clear ∧ chip.fall.held = kind.clear := by
  cases kind with
  | dff => exact ⟨_, rfl, .dff rfl, rfl, rfl⟩
  | bit => exact ⟨_, rfl, .bit rfl, rfl, rfl⟩
  | register => exact ⟨_, rfl, .register rfl, rfl, rfl⟩
  | pc => exact ⟨_, rfl, .pc, rfl, rfl⟩
  | ram8 => exact ⟨_, rfl, .ram8, rfl, rfl⟩
  | _ => exact ⟨_, rfl, .combinational rfl, rfl, rfl⟩

end Chip

namespace Primitive

/-- No pin of a combinational primitive is clocked. -/
theorem clockedFlags_of_isCombinational {kind : Primitive} (h : kind.isCombinational = true)
    (pins : List Pin) (index : Nat) :
    (clockedFlags kind.clocked pins).getD index false = false := by
  have hclocked : kind.clocked = [] := List.isEmpty_iff.mp h
  simp only [clockedFlags, hclocked, List.not_mem_nil, decide_false, List.getD_eq_getElem?_getD,
    List.getElem?_map]
  cases pins[index]? <;> rfl

theorem isInputClocked_of_isCombinational {kind : Primitive} (h : kind.isCombinational = true)
    (index : Nat) : kind.component.isInputClocked index = false :=
  clockedFlags_of_isCombinational h _ index

theorem isOutputClocked_of_isCombinational {kind : Primitive} (h : kind.isCombinational = true)
    (index : Nat) : kind.component.isOutputClocked index = false :=
  clockedFlags_of_isCombinational h _ index

/-- The answer of a primitive depends on inputs only that are not clocked. -/
theorem answer_congr {kind : Primitive} {chip : Chip} (h : chip.Realizes kind)
    {inputs inputs' : List Word} (hlength : inputs.length = kind.component.inputs.length)
    (hlength' : inputs'.length = kind.component.inputs.length)
    (hsame : ∀ position, kind.component.isInputClocked position = false →
      inputs[position]? = inputs'[position]?) :
    kind.answer chip.held inputs = kind.answer chip.held inputs' := by
  cases h with
  | combinational h =>
    rw [List.ext_getElem? fun position =>
      hsame position (isInputClocked_of_isCombinational h position)]
  | ram8 =>
    have haddress := hsame 2 (by decide)
    simp only [answer, Chip.held, input, List.getD_eq_getElem?_getD, haddress]
  | _ => rfl

theorem answer_map_congr {kind : Primitive} {chip : Chip} (h : chip.Realizes kind)
    {nodes : List Nat} (hlength : nodes.length = kind.component.inputs.length)
    {valuation valuation' : Nat → Word}
    (hsame : ∀ (position node : Nat), nodes[position]? = some node →
      kind.component.isInputClocked position = false → valuation node = valuation' node) :
    kind.answer chip.held (nodes.map valuation) = kind.answer chip.held (nodes.map valuation') := by
  refine answer_congr h ?_ ?_ fun position hclocked => ?_
  · rw [List.length_map, hlength]
  · rw [List.length_map, hlength]
  · rw [List.getElem?_map, List.getElem?_map]
    cases hnode : nodes[position]? with
    | none => rfl
    | some node => rw [Option.map_some, Option.map_some, hsame position node hnode hclocked]

end Primitive

end ClockedLogic
