/-!
Faults are broken promises of a caller. Unlike a design error, a fault ends the run that
meets it.
-/

namespace ClockedLogic

inductive Fault where
  /-- The bounds are out of order or reach beyond the highest bit. -/
  | invalidSpan (low high : Nat)
  /-- A link joins spans of different widths. -/
  | unevenLink (source : Nat) (sourceBits : String) (target : Nat) (targetBits : String)
  | outOfBounds (index size : Nat)
  | notCombinational (name : String)
  | emptyMemory
deriving DecidableEq, Repr

namespace Fault

def message : Fault → String
  | invalidSpan low high => s!"Invalid bit range {low}..{high}"
  | unevenLink source sourceBits target targetBits =>
    s!"Tried to link {source}[{sourceBits}] to {target}[{targetBits}]"
  | outOfBounds index size => s!"Tried to access index out of bounds:{index}, size:{size}"
  | notCombinational name => s!"{name} is not a combinational gate"
  | emptyMemory => "Tried to create an empty memory"

end Fault

end ClockedLogic
