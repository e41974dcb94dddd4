import ClockedLogic.Text.Blank
import Mathlib.Data.List.TakeWhile

/-!
What trimming takes off a text. A text is blanks, then a core that neither begins nor ends with a
blank, then blanks again; there is one such core, and trimming gives it. Letters, digits and the
marks of references are no blanks.
-/

namespace ClockedLogic.Text

def AllBlank (cs : List Char) : Prop := ∀ c ∈ cs, isBlank c = true

/-- Whether a text is a core with blanks around it, where no end of the core is blank. -/
structure TrimsTo (cs core : List Char) : Prop where
  exists_blanks : ∃ before after, AllBlank before ∧ AllBlank after ∧ cs = before ++ core ++ after
  first : ∀ c ∈ core.head?, isBlank c = false
  last : ∀ c ∈ core.getLast?, isBlank c = false

variable {cs core before after : List Char}

/-- What trimming takes off the start is blank, and what it leaves does not begin with a blank. -/
theorem exists_trimStart (cs : List Char) : ∃ before, AllBlank before ∧
    cs = before ++ trimStart cs ∧ ∀ c ∈ (trimStart cs).head?, isBlank c = false := by
  refine ⟨cs.takeWhile isBlank, fun c hc => List.mem_takeWhile_imp hc,
    List.takeWhile_append_dropWhile.symm, fun c hc => ?_⟩
  have hnot := List.head?_dropWhile_not isBlank cs
  rw [← trimStart, hc] at hnot
  simpa using hnot

theorem trimStart_append (hbefore : AllBlank before)
    (hfirst : ∀ c ∈ core.head?, isBlank c = false) : trimStart (before ++ core) = core := by
  rw [trimStart, List.dropWhile_append_of_pos hbefore]
  cases core with
  | nil => rfl
  | cons c rest => exact List.dropWhile_cons_of_neg (by simp [hfirst c rfl])

/-- Seen from the end, trimming the end is trimming the start. -/
theorem trimEnd_eq (cs : List Char) : trimEnd cs = (trimStart cs.reverse).reverse := rfl

theorem exists_trimEnd (cs : List Char) : ∃ after, AllBlank after ∧ cs = trimEnd cs ++ after ∧
    ∀ c ∈ (trimEnd cs).getLast?, isBlank c = false := by
  obtain ⟨before, hbefore, heq, hfirst⟩ := exists_trimStart cs.reverse
  refine ⟨before.reverse, fun c hc => hbefore c (List.mem_reverse.mp hc), ?_, ?_⟩
  · rw [trimEnd_eq, ← List.reverse_append, ← heq, List.reverse_reverse]
  · rwa [trimEnd_eq, List.getLast?_reverse]

theorem trimEnd_append (hafter : AllBlank after)
    (hlast : ∀ c ∈ core.getLast?, isBlank c = false) : trimEnd (core ++ after) = core := by
  rw [trimEnd_eq, List.reverse_append, trimStart_append, List.reverse_reverse]
  · exact fun c hc => hafter c (List.mem_reverse.mp hc)
  · rwa [List.head?_reverse]

theorem trimsTo_trim (cs : List Char) : TrimsTo cs (trim cs) := by
  obtain ⟨before, hbefore, hstart, hfirst⟩ := exists_trimStart cs
  obtain ⟨after, hafter, hend, hlast⟩ := exists_trimEnd (trimStart cs)
  refine ⟨⟨before, after, hbefore, hafter, ?_⟩, fun c hc => hfirst c ?_, hlast⟩
  · rw [List.append_assoc, trim, ← hend]
    exact hstart
  · rw [hend, List.head?_append]
    rw [trim] at hc
    rw [Option.mem_def] at hc ⊢
    rw [hc, Option.some_or]

/-- The core of a text is what trimming leaves. -/
theorem trim_eq_iff : trim cs = core ↔ TrimsTo cs core := by
  constructor
  · rintro rfl
    exact trimsTo_trim cs
  · rintro ⟨⟨before, after, hbefore, hafter, rfl⟩, hfirst, hlast⟩
    cases core with
    | nil =>
      have hblank : trimStart (before ++ [] ++ after) = [] :=
        List.dropWhile_eq_nil_iff.mpr (by simpa using List.forall_mem_append.mpr ⟨hbefore, hafter⟩)
      rw [trim, hblank]
      rfl
    | cons c rest =>
      have hstart : trimStart (before ++ (c :: rest ++ after)) = c :: rest ++ after :=
        trimStart_append hbefore hfirst
      rw [List.append_assoc, trim, hstart, trimEnd_append hafter hlast]

theorem TrimsTo.self (hfirst : ∀ c ∈ cs.head?, isBlank c = false)
    (hlast : ∀ c ∈ cs.getLast?, isBlank c = false) : TrimsTo cs cs :=
  ⟨⟨[], [], by simp [AllBlank], by simp [AllBlank], by simp⟩, hfirst, hlast⟩

/-- The visible characters among the first 128 are not blank. -/
theorem isBlank_eq_false {c : Char} (hlow : 0x20 < c.toNat) (hhigh : c.toNat < 0x80) :
    isBlank c = false := by
  rw [Bool.eq_false_iff]
  simp only [isBlank, blankRanges, CodeRanges.covers]
  grind

theorem isBlank_of_range {c low high : Char} (hlow : 0x20 < low.toNat) (hhigh : high.toNat < 0x80)
    (hle : low.val ≤ c.val) (hge : c.val ≤ high.val) : isBlank c = false :=
  isBlank_eq_false (Nat.lt_of_lt_of_le hlow (UInt32.le_iff_toNat_le.mp hle))
    (Nat.lt_of_le_of_lt (UInt32.le_iff_toNat_le.mp hge) hhigh)

/-- Letters and digits stand in three ranges. -/
theorem isBlank_of_isAlphanum {c : Char} (h : c.isAlphanum = true) : isBlank c = false := by
  rcases Bool.or_eq_true_iff.mp h with halpha | hdigit
  · rcases Bool.or_eq_true_iff.mp halpha with hupper | hlower
    · have hrange : c.val ≥ 'A'.val ∧ c.val ≤ 'Z'.val := of_decide_eq_true hupper
      exact isBlank_of_range (by decide) (by decide) hrange.1 hrange.2
    · obtain ⟨hlow, hhigh⟩ := Bool.and_eq_true_iff.mp hlower
      exact isBlank_of_range (by decide) (by decide) (of_decide_eq_true hlow)
        (of_decide_eq_true hhigh)
  · obtain ⟨hlow, hhigh⟩ := Bool.and_eq_true_iff.mp hdigit
    exact isBlank_of_range (by decide) (by decide) (of_decide_eq_true hlow)
      (of_decide_eq_true hhigh)

end ClockedLogic.Text
