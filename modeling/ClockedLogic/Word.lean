/-!
Signals are words of sixteen bits. Read as a number a word is in two's complement, and a
single bit travels as the lowest bit of its word.
-/

namespace ClockedLogic

abbrev Word := BitVec 16

namespace Word

/-- The lowest bit, which is all a one bit pin looks at. -/
def bit (value : Word) : Bool := value.getLsbD 0

def ofBit (set : Bool) : Word := if set then 1 else 0

def low (value : Word) : Word := value &&& 1

/-- A full bus takes any word, a narrower one only the unsigned numbers of its width. -/
def fits (width : Nat) (value : Word) : Bool :=
  decide (16 ≤ width) || decide (value.toNat < 1 <<< width)

theorem low_eq_ofBit (value : Word) : low value = ofBit (bit value) := by
  apply BitVec.eq_of_getLsbD_eq
  intro i hi
  cases h : value.getLsbD 0 <;> cases i <;>
    simp_all [low, ofBit, bit]

end Word

end ClockedLogic
