import ClockedLogic.Text.Extenders
import ClockedLogic.Text.Ignorable
import ClockedLogic.Text.Unprintable

/-!
Quoted text stands between quotes with each character that would not show as itself written
as an escape. A text that is quoted once more inside other quotes has its quotes and
backslashes escaped again.
-/

namespace ClockedLogic.Text

/-- The lower case hexadecimal digits of a number, without leading zeros. -/
def hexDigits (n : Nat) : List Char := Nat.toDigits 16 n

def escapeCode (c : Char) : List Char :=
  "\\u\x7b".toList ++ hexDigits c.toNat ++ "\x7d".toList

/-- Whether a character shows as itself wherever it stands: it prints, needs no character
before it and no font may leave it out. -/
def isPlain (c : Char) : Bool :=
  !(extenderRanges.covers c.toNat || ignorableRanges.covers c.toNat ||
    unprintableRanges.covers c.toNat)

/-- A halfwidth voiced mark is a letter and plain; a Hangul filler may be left out, a virama
attaches to the letter before it. -/
example : isPlain (Char.ofNat 0xff9e) ∧ ¬ isPlain (Char.ofNat 0x3164) ∧
    ¬ isPlain (Char.ofNat 0x94d) := by decide +kernel

/-- How a character is written between quotes. Short escapes come first; all other characters
that are not plain are written by code point. -/
def escapeChar (c : Char) : List Char :=
  if c = '\x00' then ['\\', '0']
  else if c = '\t' then ['\\', 't']
  else if c = '\r' then ['\\', 'r']
  else if c = '\n' then ['\\', 'n']
  else if c = '\\' ∨ c = '"' then ['\\', c]
  else if isPlain c then [c]
  else escapeCode c

def quote (cs : List Char) : List Char := '"' :: cs.flatMap escapeChar ++ ['"']

def protectChar (c : Char) : List Char :=
  if c = '"' ∨ c = '\\' then ['\\', c] else [c]

def protect (cs : List Char) : List Char := cs.flatMap protectChar

end ClockedLogic.Text
