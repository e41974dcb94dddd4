import ClockedLogic.Fault
import ClockedLogic.Word

/-!
A span is a run of neighbouring bits of a bus with both ends included. Reading a span brings
its bits down to the bottom of a word, writing one replaces its bits and no others.
-/

namespace ClockedLogic

structure BitSpan where
  low : Nat
  high : Nat
  low_le_high : low ≤ high
  high_lt : high < 16
deriving DecidableEq, Repr

namespace BitSpan

def ofBounds? (low high : Nat) : Option BitSpan :=
  if h : low ≤ high ∧ high < 16 then some ⟨low, high, h.1, h.2⟩ else none

def ofBounds (low high : Nat) : Except Fault BitSpan :=
  match ofBounds? low high with
  | some span => .ok span
  | none => .error (.invalidSpan low high)

def ofBit (bit : Nat) : Except Fault BitSpan := ofBounds bit bit

/-- The span of a whole bus, of which at least one bit is taken. -/
def ofWidth (width : Nat) : Except Fault BitSpan := ofBounds 0 (max width 1 - 1)

/-- The span of a whole bus of a width between 1 and 16; other widths are brought into
these limits. -/
def whole (width : Nat) : BitSpan where
  low := 0
  high := min (max width 1) 16 - 1
  low_le_high := Nat.zero_le _
  high_lt := by omega

def width (span : BitSpan) : Nat := span.high - span.low + 1

def mask (span : BitSpan) : Word :=
  (BitVec.allOnes 16 >>> (16 - span.width)) <<< span.low

def fitsIn (span : BitSpan) (width : Nat) : Bool := decide (span.high < width)

def overlaps (a b : BitSpan) : Bool := a.mask &&& b.mask != 0

def extract (span : BitSpan) (value : Word) : Word :=
  (value >>> span.low) &&& (BitVec.allOnes 16 >>> (16 - span.width))

/-- The target with the bits of the span replaced by the low bits of `field`. -/
def splice (span : BitSpan) (target field : Word) : Word :=
  (target &&& ~~~span.mask) ||| ((field <<< span.low) &&& span.mask)

/-- A single bit is written as its number, a longer span as its two ends. -/
def text (span : BitSpan) : String :=
  if span.low = span.high then toString span.low else s!"{span.low}..{span.high}"

theorem width_pos (span : BitSpan) : 0 < span.width := Nat.succ_pos _

theorem low_add_width (span : BitSpan) : span.low + span.width = span.high + 1 := by
  have := span.low_le_high
  simp only [width]
  omega

theorem getLsbD_mask (span : BitSpan) (i : Nat) :
    span.mask.getLsbD i = (decide (span.low ≤ i) && decide (i ≤ span.high)) := by
  have h₁ := span.low_le_high
  have h₂ := span.high_lt
  rw [Bool.eq_iff_iff]
  simp only [mask, width, BitVec.getLsbD_shiftLeft, BitVec.getLsbD_ushiftRight,
    BitVec.getLsbD_allOnes, Bool.and_eq_true, Bool.not_eq_true', decide_eq_true_eq,
    decide_eq_false_iff_not]
  omega

theorem getLsbD_extract (span : BitSpan) (value : Word) (i : Nat) :
    (span.extract value).getLsbD i =
      (decide (i < span.width) && value.getLsbD (span.low + i)) := by
  have h₁ := span.low_add_width
  have h₂ := span.high_lt
  rw [Bool.eq_iff_iff]
  simp only [extract, BitVec.getLsbD_and, BitVec.getLsbD_ushiftRight,
    BitVec.getLsbD_allOnes, Bool.and_eq_true, decide_eq_true_eq]
  constructor
  · rintro ⟨h, h'⟩
    exact ⟨by omega, h⟩
  · rintro ⟨h, h'⟩
    exact ⟨h', by omega⟩

theorem getLsbD_splice (span : BitSpan) (target field : Word) (i : Nat) :
    (span.splice target field).getLsbD i =
      if span.low ≤ i ∧ i ≤ span.high then field.getLsbD (i - span.low)
      else target.getLsbD i := by
  have h₂ := span.high_lt
  simp only [splice, BitVec.getLsbD_or, BitVec.getLsbD_and, BitVec.getLsbD_not,
    BitVec.getLsbD_shiftLeft, getLsbD_mask]
  by_cases h : span.low ≤ i ∧ i ≤ span.high
  · have hi : i < 16 := by omega
    simp [h.1, h.2, hi]
  · by_cases hi : i < 16
    · rw [if_neg h]
      rcases Nat.lt_or_ge i span.low with hl | hl
      · simp [hi, show ¬ span.low ≤ i by omega]
      · simp [hi, hl, show ¬ i ≤ span.high by omega]
    · simp [hi, show ¬ i ≤ span.high by omega, BitVec.getLsbD_of_ge target i (by omega)]

end BitSpan

end ClockedLogic
