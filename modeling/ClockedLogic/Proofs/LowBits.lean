import ClockedLogic.Proofs.Storing
import ClockedLogic.Proofs.Wiring
import Mathlib.Algebra.Group.Nat.Defs
import Mathlib.Data.List.Forall2

/-!
Words as pins of some width see them. A primitive looks at the bits of its pins only: neither its
answer nor what it holds next depends on higher bits of its inputs, and its outputs have no higher
bits. For this it has to hold what it can come to hold, such as a memory of eight words.
-/

namespace ClockedLogic

namespace Word

def Alike (width : Nat) (a b : Word) : Prop := ∀ bit < width, a.getLsbD bit = b.getLsbD bit

variable {width : Nat} {a b : Word}

theorem Alike.of_eq (h : a = b) : Alike width a b := fun _ _ => by rw [h]

theorem Alike.eq (h : Alike 16 a b) : a = b := BitVec.eq_of_getLsbD_eq fun bit hlt => h bit hlt

theorem Alike.bit (h : Alike 1 a b) : bit a = bit b := h 0 Nat.one_pos

theorem Alike.low (h : Alike 1 a b) : low a = low b := by
  rw [low_eq_ofBit, low_eq_ofBit, h.bit]

theorem Alike.toNat_mod (h : Alike width a b) : a.toNat % 2 ^ width = b.toNat % 2 ^ width := by
  refine Nat.eq_of_testBit_eq fun bit => ?_
  simp only [Nat.testBit_mod_two_pow, BitVec.testBit_toNat]
  by_cases hlt : bit < width
  · rw [h bit hlt]
  · rw [decide_eq_false hlt, Bool.false_and, Bool.false_and]

theorem fits_iff : fits width a = true ↔ ∀ bit, width ≤ bit → a.getLsbD bit = false := by
  simp only [fits, Bool.or_eq_true, decide_eq_true_eq, Nat.one_shiftLeft]
  constructor
  · intro h bit hle
    rcases h with hfull | hlt
    · exact BitVec.getLsbD_of_ge a bit (Nat.le_trans hfull hle)
    · rw [← BitVec.testBit_toNat]
      exact Nat.testBit_lt_two_pow (Nat.lt_of_lt_of_le hlt (Nat.pow_le_pow_right Nat.two_pos hle))
  · intro h
    refine .inr (Nat.lt_pow_two_of_testBit _ fun bit hle => ?_)
    rw [BitVec.testBit_toNat]
    exact h bit hle

/-- Words that fit are the same if they are as far as they fit. -/
theorem Alike.eq_of_fits (h : Alike width a b) (ha : fits width a = true)
    (hb : fits width b = true) : a = b := by
  refine BitVec.eq_of_getLsbD_eq fun bit _ => ?_
  by_cases hlt : bit < width
  · exact h bit hlt
  · rw [fits_iff.mp ha bit (Nat.le_of_not_lt hlt), fits_iff.mp hb bit (Nat.le_of_not_lt hlt)]

theorem fits_full (a : Word) : fits 16 a = true := rfl

theorem fits_ofBit (set : Bool) : fits 1 (ofBit set) = true := by cases set <;> rfl

theorem fits_low (a : Word) : fits 1 (low a) = true := by
  rw [low_eq_ofBit]
  exact fits_ofBit _

end Word

namespace Primitive

open Word (Alike)

inductive CanHold : Primitive → Store → Prop where
  | nothing {kind : Primitive} (h : kind.isCombinational = true) : CanHold kind .nothing
  | dff {held : Word} (h : Word.fits 1 held = true) : CanHold .dff (.word held)
  | bit {held : Word} (h : Word.fits 1 held = true) : CanHold .bit (.word held)
  | register {held : Word} : CanHold .register (.word held)
  | pc {held : Word} : CanHold .pc (.word held)
  | ram8 {contents : Array Word} (h : contents.size = 8) : CanHold .ram8 (.words contents)

theorem canHold_clear (kind : Primitive) : kind.CanHold kind.clear := by
  cases kind with
  | dff => exact .dff rfl
  | bit => exact .bit rfl
  | register => exact .register
  | pc => exact .pc
  | ram8 => exact .ram8 rfl
  | _ => exact .nothing rfl

variable {kind : Primitive} {store : Store} {inputs inputs' : List Word}

theorem CanHold.next (h : kind.CanHold store) (inputs : List Word) :
    kind.CanHold (kind.next store inputs) := by
  cases h with
  | nothing h =>
    have hsame : kind.next .nothing inputs = .nothing := by cases kind <;> rfl
    rw [hsame]
    exact .nothing h
  | dff => exact .dff (Word.fits_low _)
  | bit h =>
    refine .bit ?_
    split
    · exact Word.fits_low _
    · exact h
  | register => exact .register
  | pc => exact .pc
  | ram8 h =>
    refine .ram8 ?_
    split
    · rw [Array.size_setIfInBounds, h]
    · exact h

/-- Whether the inputs of a primitive are alike as far as its pins are wide. -/
def InputsAlike (kind : Primitive) (inputs inputs' : List Word) : Prop :=
  ∀ (index : Nat) (pin : String × Nat), kind.inputs[index]? = some pin →
    Alike pin.2 (input inputs index) (input inputs' index)

theorem inputBit_congr {index : Nat} (h : Alike 1 (input inputs index) (input inputs' index)) :
    inputBit inputs index = inputBit inputs' index := h.bit

/-- What a combinational primitive computes depends on the bits of its pins only. -/
theorem compute_congr (h : kind.InputsAlike inputs inputs') :
    kind.compute inputs = kind.compute inputs' := by
  cases kind with
  | not => simp only [compute, inputBit_congr (h 0 ("in", 1) rfl)]
  | nand | and | or | xor | halfAdder =>
    simp only [compute, inputBit_congr (h 0 ("a", 1) rfl), inputBit_congr (h 1 ("b", 1) rfl)]
  | mux =>
    simp only [compute, inputBit_congr (h 2 ("sel", 1) rfl)]
    split
    · rw [(h 1 ("b", 1) rfl).low]
    · rw [(h 0 ("a", 1) rfl).low]
  | dmux =>
    simp only [compute, inputBit_congr (h 1 ("sel", 1) rfl), (h 0 ("in", 1) rfl).low]
  | not16 | inc16 => simp only [compute, (h 0 ("in", 16) rfl).eq]
  | and16 | or16 | add16 =>
    simp only [compute, (h 0 ("a", 16) rfl).eq, (h 1 ("b", 16) rfl).eq]
  | mux16 =>
    simp only [compute, inputBit_congr (h 2 ("sel", 1) rfl), (h 0 ("a", 16) rfl).eq,
      (h 1 ("b", 16) rfl).eq]
  | or8Way =>
    have hmasked : input inputs 0 &&& 0xff = input inputs' 0 &&& 0xff := by
      apply BitVec.eq_of_toNat_eq
      simp only [BitVec.toNat_and, show (0xff : Word).toNat = 2 ^ 8 - 1 from rfl,
        Nat.and_two_pow_sub_one_eq_mod]
      exact (h 0 ("in", 8) rfl).toNat_mod
    simp only [compute, hmasked]
  | fullAdder =>
    simp only [compute, (h 0 ("a", 1) rfl).low, (h 1 ("b", 1) rfl).low, (h 2 ("c", 1) rfl).low]
  | alu =>
    simp only [compute, (h 0 ("x", 16) rfl).eq, (h 1 ("y", 16) rfl).eq,
      inputBit_congr (h 2 ("zx", 1) rfl), inputBit_congr (h 3 ("nx", 1) rfl),
      inputBit_congr (h 4 ("zy", 1) rfl), inputBit_congr (h 5 ("ny", 1) rfl),
      inputBit_congr (h 6 ("f", 1) rfl), inputBit_congr (h 7 ("no", 1) rfl)]
  | dff | bit | register | pc | ram8 => rfl

/-- So does what a primitive holds next. -/
theorem next_congr (h : kind.InputsAlike inputs inputs') (hstore : kind.CanHold store) :
    kind.next store inputs = kind.next store inputs' := by
  cases hstore with
  | nothing => cases kind <;> rfl
  | dff => simp only [next, (h 0 ("in", 1) rfl).low]
  | bit => simp only [next, (h 0 ("in", 1) rfl).low, inputBit_congr (h 1 ("load", 1) rfl)]
  | register => simp only [next, (h 0 ("in", 16) rfl).eq, inputBit_congr (h 1 ("load", 1) rfl)]
  | pc =>
    simp only [next, (h 0 ("in", 16) rfl).eq, inputBit_congr (h 1 ("load", 1) rfl),
      inputBit_congr (h 2 ("inc", 1) rfl), inputBit_congr (h 3 ("reset", 1) rfl)]
  | ram8 hsize =>
    have haddress := (h 2 ("address", 3) rfl).toNat_mod
    simp only [next, hsize, (h 0 ("in", 16) rfl).eq, inputBit_congr (h 1 ("load", 1) rfl)]
    rw [show 8 = 2 ^ 3 from rfl, haddress]

/-- The pin that a primitive has at a position. -/
theorem getElem?_component_inputs {index : Nat} {declaration : String × Nat}
    (h : kind.inputs[index]? = some declaration) :
    kind.component.inputs[index]? = some ⟨declaration.1, declaration.2, .input, index⟩ := by
  show (Pin.ofDeclarations .input kind.inputs)[index]? = _
  simp [Pin.ofDeclarations, h]

theorem InputsAlike.of_pins (h : ∀ (index : Nat) (pin : Pin),
    kind.component.inputs[index]? = some pin →
    Alike pin.width (input inputs index) (input inputs' index)) :
    kind.InputsAlike inputs inputs' :=
  fun index _ hdeclared => h index _ (getElem?_component_inputs hdeclared)

/-- The answer of a primitive depends on those bits of inputs only that are not clocked. -/
theorem answer_eq_of_alike (hstore : kind.CanHold store)
    (h : ∀ (index : Nat) (pin : Pin), kind.component.inputs[index]? = some pin →
      kind.component.isInputClocked index = false →
      Alike pin.width (input inputs index) (input inputs' index)) :
    kind.answer store inputs = kind.answer store inputs' := by
  cases hstore with
  | @nothing kind hkind =>
    have hcompute : ∀ inputs, kind.answer .nothing inputs = kind.compute inputs := by
      cases kind <;> exact fun _ => rfl
    rw [hcompute, hcompute]
    exact compute_congr (.of_pins fun index pin hpin =>
      h index pin hpin (isInputClocked_of_isCombinational hkind index))
  | ram8 hsize =>
    have haddress : Alike 3 (input inputs 2) (input inputs' 2) := h 2 _ rfl (by decide)
    simp only [answer, hsize]
    rw [show 8 = 2 ^ 3 from rfl, haddress.toNat_mod]
  | _ => rfl

/-- A primitive of which an output is clocked shows what it holds, whatever it reads. -/
theorem answer_eq_of_clocked (hstore : kind.CanHold store) {output : Nat}
    (hclocked : kind.component.isOutputClocked output = true) :
    kind.answer store inputs = kind.answer store inputs' := by
  cases hstore with
  | @nothing kind hkind =>
    rw [isOutputClocked_of_isCombinational hkind] at hclocked
    cases hclocked
  | ram8 =>
    have hflags : Primitive.ram8.component.interface.clockedOutputs = [false] := rfl
    rw [Component.isOutputClocked, hflags] at hclocked
    cases output <;> cases hclocked
  | _ => rfl

/-- The outputs of a primitive have no bits that its pins have not. -/
theorem fits_answer (hstore : kind.CanHold store) (inputs : List Word) :
    List.Forall₂ (fun pin value => Word.fits pin.2 value = true) kind.outputs
      (kind.answer store inputs) := by
  cases hstore with
  | @nothing kind hkind =>
    cases kind with
    | nand | not | and | or | xor | or8Way => exact .cons (Word.fits_ofBit _) .nil
    | mux => exact .cons (Word.fits_low _) .nil
    | not16 | and16 | or16 | mux16 | add16 | inc16 => exact .cons (Word.fits_full _) .nil
    | halfAdder => exact .cons (Word.fits_ofBit _) (.cons (Word.fits_ofBit _) .nil)
    | alu =>
      exact .cons (Word.fits_full _) (.cons (Word.fits_ofBit _) (.cons (Word.fits_ofBit _) .nil))
    | dmux =>
      simp only [answer, compute]
      split
      · exact .cons rfl (.cons (Word.fits_low _) .nil)
      · exact .cons (Word.fits_low _) (.cons rfl .nil)
    | fullAdder =>
      refine .cons (Word.fits_low _) (.cons ?_ .nil)
      simp only [Word.low_eq_ofBit]
      cases Word.bit (input inputs 0) <;> cases Word.bit (input inputs 1) <;>
        cases Word.bit (input inputs 2) <;> rfl
    | dff | bit | register | pc | ram8 => cases hkind
  | dff h | bit h => exact .cons h .nil
  | register | pc | ram8 => exact .cons (Word.fits_full _) .nil

theorem fits_answer_pin (hstore : kind.CanHold store) (inputs : List Word) {index : Nat} {pin : Pin}
    (hpin : kind.component.outputs[index]? = some pin) :
    Word.fits pin.width ((kind.answer store inputs).getD index 0) = true := by
  have hfits := fits_answer hstore inputs
  have hpin' : (Pin.ofDeclarations .output kind.outputs)[index]? = some pin := hpin
  simp only [Pin.ofDeclarations, List.getElem?_map, Option.map_eq_some_iff,
    List.getElem?_zipIdx] at hpin'
  obtain ⟨_, ⟨declared, hdeclared, rfl⟩, rfl⟩ := hpin'
  have hlt : index < (kind.answer store inputs).length := by
    rw [← hfits.length_eq]
    exact (List.getElem?_eq_some_iff.mp hdeclared).1
  have hvalue := hfits.get (List.getElem?_eq_some_iff.mp hdeclared).1 hlt
  rw [List.get_eq_getElem, List.get_eq_getElem,
    (List.getElem?_eq_some_iff.mp hdeclared).2] at hvalue
  rwa [List.getD_eq_getElem?_getD, List.getElem?_eq_getElem hlt]

end Primitive
end ClockedLogic
