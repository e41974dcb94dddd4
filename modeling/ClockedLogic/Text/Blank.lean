import ClockedLogic.Text.CodeRanges

/-!
Blank characters are those with the Unicode property White_Space. Trimming takes them off
the ends of a text and nowhere else.
-/

namespace ClockedLogic.Text

/-- The code points with the property White_Space. -/
def blankRanges : CodeRanges :=
  [(0x9, 0xd), (0x20, 0x20), (0x85, 0x85), (0xa0, 0xa0), (0x1680, 0x1680), (0x2000, 0x200a),
    (0x2028, 0x2029), (0x202f, 0x202f), (0x205f, 0x205f), (0x3000, 0x3000)]

example : blankRanges.Increasing := by decide

def isBlank (c : Char) : Bool := blankRanges.covers c.toNat

def trimStart (cs : List Char) : List Char := cs.dropWhile isBlank

def trimEnd (cs : List Char) : List Char := (cs.reverse.dropWhile isBlank).reverse

def trim (cs : List Char) : List Char := trimEnd (trimStart cs)

end ClockedLogic.Text
