import ClockedLogic.Word

/-!
The arithmetic and logic unit. Six control bits clear or complement the operands, choose
between their sum and their conjunction, and complement the result.
-/

namespace ClockedLogic

structure AluControl where
  /-- Clear `x`. -/
  zx : Bool
  /-- Complement `x`. -/
  nx : Bool
  /-- Clear `y`. -/
  zy : Bool
  /-- Complement `y`. -/
  ny : Bool
  /-- Add instead of taking the conjunction. -/
  f : Bool
  /-- Complement the result. -/
  no : Bool
deriving DecidableEq, Repr

structure AluResult where
  out : Word
  /-- The result is zero. -/
  zr : Bool
  /-- The result is negative. -/
  ng : Bool
deriving DecidableEq, Repr

/-- Clears, then complements an operand, as its two control bits say. -/
def aluOperand (clear complement : Bool) (value : Word) : Word :=
  let value := if clear then 0 else value
  if complement then ~~~value else value

def alu (control : AluControl) (x y : Word) : AluResult :=
  let x := aluOperand control.zx control.nx x
  let y := aluOperand control.zy control.ny y
  let out := if control.f then x + y else x &&& y
  let out := if control.no then ~~~out else out
  { out, zr := decide (out = 0), ng := out.msb }

theorem alu_zr_iff (control : AluControl) (x y : Word) :
    (alu control x y).zr ↔ (alu control x y).out = 0 := by
  simp [alu]

theorem alu_ng_iff (control : AluControl) (x y : Word) :
    (alu control x y).ng ↔ (alu control x y).out.toInt < 0 := by
  simp only [alu, BitVec.msb_eq_toInt, decide_eq_true_eq]

end ClockedLogic
