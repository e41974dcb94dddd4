import ClockedLogic.Chip.Basic
import Mathlib.Data.BitVec
import Mathlib.Tactic.Ring

/-!
The functions that the arithmetic and logic unit is made for, each with its control bits. Words are
added and subtracted modulo 2 to the 16, so complementing one is the same as negating it and taking
1 away. With this every sum comes down to an identity of rings, and the conjunctions to laws of
complements.
-/

namespace ClockedLogic

inductive AluFunction where
  | zero | one | minusOne
  | x | y | notX | notY | negX | negY
  | succX | succY | predX | predY
  | sum | xMinusY | yMinusX
  | and | or
deriving DecidableEq, Repr

namespace AluFunction

/-- The control bits in the order `zx`, `nx`, `zy`, `ny`, `f`, `no`. -/
def control : AluFunction → AluControl
  | zero => ⟨true, false, true, false, true, false⟩
  | one => ⟨true, true, true, true, true, true⟩
  | minusOne => ⟨true, true, true, false, true, false⟩
  | x => ⟨false, false, true, true, false, false⟩
  | y => ⟨true, true, false, false, false, false⟩
  | notX => ⟨false, false, true, true, false, true⟩
  | notY => ⟨true, true, false, false, false, true⟩
  | negX => ⟨false, false, true, true, true, true⟩
  | negY => ⟨true, true, false, false, true, true⟩
  | succX => ⟨false, true, true, true, true, true⟩
  | succY => ⟨true, true, false, true, true, true⟩
  | predX => ⟨false, false, true, true, true, false⟩
  | predY => ⟨true, true, false, false, true, false⟩
  | sum => ⟨false, false, false, false, true, false⟩
  | xMinusY => ⟨false, true, false, false, true, true⟩
  | yMinusX => ⟨false, false, false, true, true, true⟩
  | and => ⟨false, false, false, false, false, false⟩
  | or => ⟨false, true, false, true, false, true⟩

def apply (function : AluFunction) (x y : Word) : Word :=
  match function with
  | zero => 0
  | one => 1
  | minusOne => -1
  | .x => x
  | .y => y
  | notX => ~~~x
  | notY => ~~~y
  | negX => -x
  | negY => -y
  | succX => x + 1
  | succY => y + 1
  | predX => x - 1
  | predY => y - 1
  | sum => x + y
  | xMinusY => x - y
  | yMinusX => y - x
  | and => x &&& y
  | or => x ||| y

end AluFunction

theorem complement_eq (value : Word) : ~~~value = -value - 1 := by
  rw [BitVec.neg_eq_not_add]
  exact (BitVec.add_sub_cancel _ _).symm

theorem alu_out_sum (zx nx zy ny no : Bool) (x y : Word) :
    (alu ⟨zx, nx, zy, ny, true, no⟩ x y).out =
      if no then -(aluOperand zx nx x + aluOperand zy ny y) - 1
      else aluOperand zx nx x + aluOperand zy ny y := by
  cases no with
  | false => rfl
  | true => exact complement_eq _

theorem alu_out_and (zx nx zy ny no : Bool) (x y : Word) :
    (alu ⟨zx, nx, zy, ny, false, no⟩ x y).out =
      if no then ~~~(aluOperand zx nx x &&& aluOperand zy ny y)
      else aluOperand zx nx x &&& aluOperand zy ny y := by
  cases no <;> rfl

section

variable (value : Word)

theorem aluOperand_plain : aluOperand false false value = value := rfl

theorem aluOperand_cleared : aluOperand true false value = 0 := rfl

theorem aluOperand_complemented : aluOperand false true value = ~~~value := rfl

/-- An operand that is cleared and then complemented has all bits set. -/
theorem aluOperand_filled : aluOperand true true value = -1 := by
  show ~~~(0 : Word) = -1
  decide

end

/-- With its control bits the unit computes each of its functions. -/
theorem alu_out_control (function : AluFunction) (x y : Word) :
    (alu function.control x y).out = function.apply x y := by
  have hright : x &&& -1 = x := BitVec.and_allOnes
  have hleft : -1 &&& y = y := BitVec.allOnes_and
  cases function with
  | and | sum => rfl
  | x | y | notX | notY | or =>
    simp only [AluFunction.control, AluFunction.apply, alu_out_and, aluOperand_plain,
      aluOperand_complemented, aluOperand_filled, hright, hleft, BitVec.not_and, BitVec.not_not,
      if_true, Bool.false_eq_true, if_false]
  | _ =>
    simp only [AluFunction.control, AluFunction.apply, alu_out_sum, aluOperand_plain,
      aluOperand_cleared, aluOperand_complemented, aluOperand_filled, complement_eq, if_true,
      Bool.false_eq_true, if_false]
    ring

/-- The least word is its own negation. -/
example : (alu AluFunction.negX.control (-32768) 7).out = -32768 := by decide

/-- The unit computes its functions, and tells of every result whether it is zero and whether it is
negative. The primitive looks at nothing but the lowest bits of its control inputs and gives the
same answer. -/
theorem alu_computes :
    (∀ function x y, (alu (AluFunction.control function) x y).out = function.apply x y) ∧
    (∀ control x y, ((alu control x y).zr = true ↔ (alu control x y).out = 0) ∧
      ((alu control x y).ng = true ↔ (alu control x y).out.toInt < 0)) ∧
    ∃ chip, (ChipSpec.primitive .alu).make = .ok chip ∧
      ∀ (x y zx nx zy ny f no first second third : Word) (rest : List Word),
        chip.respond [x, y, zx, nx, zy, ny, f, no] (first :: second :: third :: rest) =
          let result := alu ⟨zx.bit, nx.bit, zy.bit, ny.bit, f.bit, no.bit⟩ x y
          result.out :: Word.ofBit result.zr :: Word.ofBit result.ng :: rest := by
  refine ⟨alu_out_control, fun control x y => ⟨alu_zr_iff control x y, alu_ng_iff control x y⟩,
    .combinational .alu, rfl, ?_⟩
  intro x y zx nx zy ny f no first second third rest
  rfl

end ClockedLogic
