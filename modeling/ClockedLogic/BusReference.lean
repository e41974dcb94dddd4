import ClockedLogic.DesignError
import ClockedLogic.Text.Blank

/-!
A bus reference names one end of a wire: a pin, some neighbouring bits of a pin, or a constant.
Blanks may stand around the reference, before the bracket and around the numbers; the printed
form has none.
-/

namespace ClockedLogic

abbrev BitNumber := Fin 256

inductive BusReference where
  /-- A pin by name, with the first and the last of its bits if not all are meant. -/
  | pin (name : String) (bits : Option (BitNumber × BitNumber))
  /-- All bits set. -/
  | ones
  /-- All bits clear. -/
  | zeros
deriving DecidableEq, Repr

namespace BusReference

def isInitial (c : Char) : Bool := c.isAlpha || c == '_'

def isSubsequent (c : Char) : Bool := c.isAlphanum || c == '_'

/-- Identifiers consist of unaccented letters, digits and underscores and do not begin with
a digit. -/
def isIdentifier : List Char → Bool
  | [] => false
  | c :: cs => isInitial c && cs.all isSubsequent

def readDigits? (digits : List Char) : Option BitNumber :=
  if digits ≠ [] ∧ digits.all Char.isDigit then
    let n := Nat.ofDigitChars 10 digits 0
    if h : n < 256 then some ⟨n, h⟩ else none
  else none

/-- Reads the number of a bit, with blanks around it and one plus sign allowed. -/
def readBit? (cs : List Char) : Option BitNumber :=
  match Text.trim cs with
  | '+' :: digits => readDigits? digits
  | digits => readDigits? digits

def splitDots? : List Char → Option (List Char × List Char)
  | [] => none
  | c :: cs =>
    match c, cs with
    | '.', '.' :: rest => some ([], rest)
    | _, _ => (splitDots? cs).map fun (before, after) => (c :: before, after)

def readBits? (cs : List Char) : Option (BitNumber × BitNumber) :=
  match splitDots? cs with
  | some (before, after) => do
    let low ← readBit? before
    let high ← readBit? after
    if low ≤ high then some (low, high) else none
  | none => (readBit? cs).map fun bit => (bit, bit)

def readTrimmed? (cs : List Char) : Option BusReference :=
  if cs = "true".toList then some ones
  else if cs = "false".toList then some zeros
  else
    match cs.dropWhile (· != '[') with
    | [] => if isIdentifier cs then some (pin (String.ofList cs) none) else none
    | _ :: inner =>
      let name := Text.trimEnd (cs.takeWhile (· != '['))
      if isIdentifier name ∧ inner.getLast? = some ']' then
        (readBits? inner.dropLast).map fun bits => pin (String.ofList name) (some bits)
      else none

def ofChars? (cs : List Char) : Option BusReference := readTrimmed? (Text.trim cs)

/-- Reads a reference; an error gives the whole text, blanks included. -/
def parse (text : String) : Except DesignError BusReference :=
  match ofChars? text.toList with
  | some reference => .ok reference
  | none => .error (.malformedReference text)

def bitChars (bit : BitNumber) : List Char := Nat.toDigits 10 bit.val

def bitsChars : Option (BitNumber × BitNumber) → List Char
  | none => []
  | some (low, high) =>
    if low = high then '[' :: bitChars low ++ [']']
    else '[' :: bitChars low ++ ['.', '.'] ++ bitChars high ++ [']']

def toChars : BusReference → List Char
  | pin name bits => name.toList ++ bitsChars bits
  | ones => "true".toList
  | zeros => "false".toList

def text (reference : BusReference) : String := String.ofList reference.toChars

end BusReference

end ClockedLogic
