import ClockedLogic.Alu

/-!
The standard primitives: their names, their pins with widths, the pins that only matter on
clock edges, and what the combinational ones compute. The order of the constructors is the
order in which a library lists them.
-/

namespace ClockedLogic

inductive Primitive where
  | nand | not | and | or | xor | mux | dmux
  | not16 | and16 | or16 | mux16 | or8Way
  | halfAdder | fullAdder | add16 | inc16 | alu
  | dff | bit | register | pc | ram8
deriving DecidableEq, Repr

namespace Primitive

def all : List Primitive :=
  [nand, not, and, or, xor, mux, dmux, not16, and16, or16, mux16, or8Way, halfAdder, fullAdder,
    add16, inc16, alu, dff, bit, register, pc, ram8]

def name : Primitive → String
  | nand => "Nand"
  | not => "Not"
  | and => "And"
  | or => "Or"
  | xor => "Xor"
  | mux => "Mux"
  | dmux => "DMux"
  | not16 => "Not16"
  | and16 => "And16"
  | or16 => "Or16"
  | mux16 => "Mux16"
  | or8Way => "Or8Way"
  | halfAdder => "HalfAdder"
  | fullAdder => "FullAdder"
  | add16 => "Add16"
  | inc16 => "Inc16"
  | alu => "ALU"
  | dff => "DFF"
  | bit => "Bit"
  | register => "Register"
  | pc => "PC"
  | ram8 => "RAM8"

def ofName? (name : String) : Option Primitive := all.find? fun kind => kind.name == name

def inputs : Primitive → List (String × Nat)
  | not | dff => [("in", 1)]
  | nand | and | or | xor | halfAdder => [("a", 1), ("b", 1)]
  | mux => [("a", 1), ("b", 1), ("sel", 1)]
  | dmux => [("in", 1), ("sel", 1)]
  | not16 | inc16 => [("in", 16)]
  | and16 | or16 | add16 => [("a", 16), ("b", 16)]
  | mux16 => [("a", 16), ("b", 16), ("sel", 1)]
  | or8Way => [("in", 8)]
  | fullAdder => [("a", 1), ("b", 1), ("c", 1)]
  | alu =>
    [("x", 16), ("y", 16), ("zx", 1), ("nx", 1), ("zy", 1), ("ny", 1), ("f", 1), ("no", 1)]
  | bit => [("in", 1), ("load", 1)]
  | register => [("in", 16), ("load", 1)]
  | pc => [("in", 16), ("load", 1), ("inc", 1), ("reset", 1)]
  | ram8 => [("in", 16), ("load", 1), ("address", 3)]

def outputs : Primitive → List (String × Nat)
  | nand | not | and | or | xor | mux | or8Way | dff | bit => [("out", 1)]
  | dmux => [("a", 1), ("b", 1)]
  | not16 | and16 | or16 | mux16 | add16 | inc16 | register | pc | ram8 => [("out", 16)]
  | halfAdder | fullAdder => [("sum", 1), ("carry", 1)]
  | alu => [("out", 16), ("zr", 1), ("ng", 1)]

/-- The pins that are only read or written on clock edges. -/
def clocked : Primitive → List String
  | dff => ["in", "out"]
  | bit | register => ["in", "load", "out"]
  | pc => ["in", "load", "inc", "reset", "out"]
  | ram8 => ["in", "load"]
  | _ => []

def isCombinational (kind : Primitive) : Bool := kind.clocked.isEmpty

/-- The value at an input, where a missing input is 0. -/
def input (inputs : List Word) (index : Nat) : Word := inputs.getD index 0

def inputBit (inputs : List Word) (index : Nat) : Bool := Word.bit (input inputs index)

def compute (kind : Primitive) (inputs : List Word) : List Word :=
  let word := input inputs
  let flag := inputBit inputs
  match kind with
  | nand => [Word.ofBit !(flag 0 && flag 1)]
  | not => [Word.ofBit !flag 0]
  | and => [Word.ofBit (flag 0 && flag 1)]
  | or => [Word.ofBit (flag 0 || flag 1)]
  | xor => [Word.ofBit (flag 0 != flag 1)]
  | mux => [Word.low (if flag 2 then word 1 else word 0)]
  | dmux => if flag 1 then [0, Word.low (word 0)] else [Word.low (word 0), 0]
  | not16 => [~~~word 0]
  | and16 => [word 0 &&& word 1]
  | or16 => [word 0 ||| word 1]
  | mux16 => [if flag 2 then word 1 else word 0]
  | or8Way => [Word.ofBit (word 0 &&& 0xff != 0)]
  | halfAdder => [Word.ofBit (flag 0 != flag 1), Word.ofBit (flag 0 && flag 1)]
  | fullAdder =>
    let total := Word.low (word 0) + Word.low (word 1) + Word.low (word 2)
    [Word.low total, total >>> 1]
  | add16 => [word 0 + word 1]
  | inc16 => [word 0 + 1]
  | alu =>
    let result := ClockedLogic.alu
      { zx := flag 2, nx := flag 3, zy := flag 4, ny := flag 5, f := flag 6, no := flag 7 }
      (word 0) (word 1)
    [result.out, Word.ofBit result.zr, Word.ofBit result.ng]
  | dff | bit | register | pc | ram8 => []

end Primitive

end ClockedLogic
