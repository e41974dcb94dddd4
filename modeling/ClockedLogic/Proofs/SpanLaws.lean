import ClockedLogic.Proofs.Wiring
import Mathlib.Algebra.Group.Nat.Defs
import Mathlib.Order.Interval.Set.Basic

/-!
Spans as windows on a word. What is written into a span is what is read from it, writing back what
was read changes nothing, and a later write undoes an earlier one. Spans that do not overlap take
no notice of each other, and they overlap just where their bounds do. Everything is read off the
bits of a spliced word: those that the span covers come from the field, the others from the target.
-/

namespace ClockedLogic

namespace BitSpan

variable {span : BitSpan} (target field : Word) {bit : Nat}

theorem getLsbD_splice_of_covers (h : span.Covers bit) :
    (span.splice target field).getLsbD bit = field.getLsbD (bit - span.low) := by
  rw [getLsbD_splice]
  exact if_pos h

theorem getLsbD_splice_of_not_covers (h : ¬ span.Covers bit) :
    (span.splice target field).getLsbD bit = target.getLsbD bit := by
  rw [getLsbD_splice]
  exact if_neg h

/-- The mask holds the bits of the span. -/
theorem getLsbD_mask_eq_false : span.mask.getLsbD bit = false ↔ ¬ span.Covers bit := by
  rw [getLsbD_mask, ← Bool.decide_and, decide_eq_false_iff_not, Covers]

/-- The places in a span are those below its width. -/
theorem covers_low_add : span.Covers (span.low + bit) ↔ bit < span.width := by
  have hwidth := span.low_add_width
  simp only [Covers]
  omega

/-- What has been written comes back, as far as the span is wide. -/
theorem extract_splice :
    (span.extract (span.splice target field)).toNat = field.toNat % 2 ^ span.width := by
  have hbits : span.extract (span.splice target field) =
      BitVec.ofNat 16 (field.toNat % 2 ^ span.width) := by
    apply BitVec.eq_of_getLsbD_eq
    intro bit hbit
    rw [getLsbD_extract, BitVec.getLsbD_ofNat, Nat.testBit_mod_two_pow, BitVec.testBit_toNat]
    by_cases hlt : bit < span.width
    · rw [getLsbD_splice_of_covers _ _ (covers_low_add.mpr hlt), Nat.add_sub_cancel_left,
        decide_eq_true hbit, Bool.true_and]
    · rw [decide_eq_false hlt, Bool.false_and, Bool.false_and, Bool.and_false]
  have hlt : field.toNat % 2 ^ span.width < 2 ^ 16 :=
    Nat.lt_of_le_of_lt (Nat.mod_le _ _) field.isLt
  rw [hbits, BitVec.toNat_ofNat, Nat.mod_eq_of_lt hlt]

/-- Writing back what has been read changes nothing. -/
theorem splice_extract : span.splice target (span.extract target) = target := by
  apply BitVec.eq_of_getLsbD_eq
  intro bit _
  by_cases hcovers : span.Covers bit
  · have hplace : span.low + (bit - span.low) = bit := Nat.add_sub_of_le hcovers.1
    have hlt : bit - span.low < span.width := covers_low_add.mp (by rwa [hplace])
    rw [getLsbD_splice_of_covers _ _ hcovers, getLsbD_extract, decide_eq_true hlt, Bool.true_and,
      hplace]
  · exact getLsbD_splice_of_not_covers _ _ hcovers

/-- Only the last write counts. -/
theorem splice_splice (later : Word) :
    span.splice (span.splice target field) later = span.splice target later := by
  apply BitVec.eq_of_getLsbD_eq
  intro bit _
  by_cases hcovers : span.Covers bit
  · rw [getLsbD_splice_of_covers _ _ hcovers, getLsbD_splice_of_covers _ _ hcovers]
  · rw [getLsbD_splice_of_not_covers _ _ hcovers, getLsbD_splice_of_not_covers _ _ hcovers,
      getLsbD_splice_of_not_covers _ _ hcovers]

/-- Two spans overlap just where the stretches between their bounds meet. -/
theorem overlaps_iff_inter {a b : BitSpan} :
    a.overlaps b = true ↔ (Set.Icc a.low a.high ∩ Set.Icc b.low b.high).Nonempty :=
  overlaps_iff

theorem Covers.not_covers (hcovers : span.Covers bit) {other : BitSpan}
    (h : span.overlaps other = false) : ¬ other.Covers bit := by
  intro hother
  rw [overlaps_iff.mpr ⟨bit, hcovers, hother⟩] at h
  cases h

/-- A write does not show in a span apart from it. -/
theorem extract_splice_of_apart {other : BitSpan} (h : span.overlaps other = false) :
    other.extract (span.splice target field) = other.extract target := by
  apply BitVec.eq_of_getLsbD_eq
  intro bit _
  rw [getLsbD_extract, getLsbD_extract]
  by_cases hlt : bit < other.width
  · have hcovers := covers_low_add.mpr hlt
    rw [getLsbD_splice_of_not_covers _ _ fun hspan => hspan.not_covers h hcovers]
  · rw [decide_eq_false hlt, Bool.false_and, Bool.false_and]

/-- Writes into spans apart from each other can be made in either order. -/
theorem splice_comm_of_apart {other : BitSpan} (h : span.overlaps other = false)
    (otherField : Word) :
    span.splice (other.splice target otherField) field =
      other.splice (span.splice target field) otherField := by
  apply BitVec.eq_of_getLsbD_eq
  intro bit _
  by_cases hspan : span.Covers bit
  · rw [getLsbD_splice_of_covers _ _ hspan, getLsbD_splice_of_not_covers _ _ (hspan.not_covers h),
      getLsbD_splice_of_covers _ _ hspan]
  · rw [getLsbD_splice_of_not_covers _ _ hspan]
    by_cases hother : other.Covers bit
    · rw [getLsbD_splice_of_covers _ _ hother, getLsbD_splice_of_covers _ _ hother]
    · rw [getLsbD_splice_of_not_covers _ _ hother, getLsbD_splice_of_not_covers _ _ hother,
        getLsbD_splice_of_not_covers _ _ hspan]

/-- A span is to a word what a variable of its width is to a memory, and two spans that do not
overlap are two variables. -/
theorem independent_windows (r s : BitSpan) (t f g : Word) :
    (r.extract (r.splice t f)).toNat = f.toNat % 2 ^ r.width ∧
    r.splice t (r.extract t) = t ∧
    r.splice (r.splice t f) g = r.splice t g ∧
    (∀ bit, r.mask.getLsbD bit = false → (r.splice t f).getLsbD bit = t.getLsbD bit) ∧
    (r.overlaps s = true ↔ (Set.Icc r.low r.high ∩ Set.Icc s.low s.high).Nonempty) ∧
    (r.overlaps s = false →
      s.extract (r.splice t f) = s.extract t ∧
      r.splice (s.splice t g) f = s.splice (r.splice t f) g) := by
  refine ⟨extract_splice t f, splice_extract t, splice_splice t f g, fun bit hbit => ?_,
    overlaps_iff_inter, fun hapart => ?_⟩
  · exact getLsbD_splice_of_not_covers t f (getLsbD_mask_eq_false.mp hbit)
  · exact ⟨extract_splice_of_apart t f hapart, splice_comm_of_apart t f hapart g⟩

/-- The two bytes of a word, the upper one with the sign in it. -/
theorem independent_windows_bytes :
    let upper : BitSpan := ⟨8, 15, by decide, by decide⟩
    let lower : BitSpan := ⟨0, 7, by decide, by decide⟩
    upper.mask.getLsbD 3 = false ∧ upper.overlaps lower = false ∧
    (upper.splice 0x00ff 0xff92).getLsbD 3 = true ∧
    lower.extract (upper.splice 0x00ff 0xff92) = 0x00ff ∧
    upper.splice (lower.splice 0x00ff 0x0034) 0xff92 = 0x9234 := by
  intro upper lower
  obtain ⟨-, -, -, hkept, -, hapart⟩ :=
    independent_windows upper lower 0x00ff 0xff92 0x0034
  have hoverlaps : upper.overlaps lower = false := by decide
  obtain ⟨hread, hcomm⟩ := hapart hoverlaps
  refine ⟨by decide, hoverlaps, ?_, ?_, ?_⟩
  · rw [hkept 3 (by decide)]
    decide
  · rw [hread]
    decide
  · rw [hcomm]
    decide

end BitSpan

end ClockedLogic
