import ClockedLogic.BusReference
import ClockedLogic.Proofs.Trimming

/-!
How bus references are spelled. A reference is a constant, the name of a pin, or a name with one or
two numbers in brackets; blanks may stand around all of it, before the bracket and around numbers.
Reading accepts just these texts, with the meaning of their spelling, and refuses all others whole.
-/

namespace ClockedLogic

namespace BusReference

open Text (AllBlank TrimsTo)

/-- A letter from `a` to `z` in either case or an underscore, with such letters, digits and
underscores after it. -/
inductive IsName : List Char → Prop where
  | intro {first : Char} {rest : List Char} (hfirst : first.isAlpha = true ∨ first = '_')
    (hrest : ∀ c ∈ rest, c.isAlphanum = true ∨ c = '_') : IsName (first :: rest)

/-- The number of a bit: digits, perhaps a plus sign before them, and blanks around. -/
inductive IsNumber (bit : BitNumber) : List Char → Prop where
  | intro {before sign digits after : List Char} (hbefore : AllBlank before)
    (hsign : sign = [] ∨ sign = ['+']) (hne : digits ≠ [])
    (hdigits : ∀ c ∈ digits, c.isDigit = true) (hvalue : Nat.ofDigitChars 10 digits 0 = bit)
    (hafter : AllBlank after) : IsNumber bit (before ++ (sign ++ digits) ++ after)

/-- What may stand between brackets: one number, or two in order with dots between them. -/
inductive SpellsBits : List Char → BitNumber × BitNumber → Prop where
  | bit {number : List Char} {bit : BitNumber} (hnumber : IsNumber bit number) :
    SpellsBits number (bit, bit)
  | span {first last : List Char} {low high : BitNumber} (hfirst : IsNumber low first)
    (hlast : IsNumber high last) (hle : low ≤ high) :
    SpellsBits (first ++ '.' :: '.' :: last) (low, high)

inductive Spells : List Char → BusReference → Prop where
  | ones : Spells "true".toList ones
  | zeros : Spells "false".toList zeros
  | name {name : List Char} (hname : IsName name) (htrue : name ≠ "true".toList)
    (hfalse : name ≠ "false".toList) : Spells name (pin (String.ofList name) none)
  | bits {name gap inner : List Char} {bits : BitNumber × BitNumber} (hname : IsName name)
    (hgap : AllBlank gap) (hinner : SpellsBits inner bits) :
    Spells (name ++ gap ++ '[' :: (inner ++ [']'])) (pin (String.ofList name) (some bits))

/-- The meaning of a text, which blanks around it do not change. -/
def Means (text : String) (reference : BusReference) : Prop :=
  ∃ core, TrimsTo text.toList core ∧ Spells core reference

variable {cs name gap before after : List Char} {bit : BitNumber} {reference : BusReference}

section Characters

variable {c : Char}

theorem isAlphanum_of_isDigit (h : c.isDigit = true) : c.isAlphanum = true := by
  rw [Char.isAlphanum, h, Bool.or_true]

theorem IsName.mem_cases (h : IsName name) (hc : c ∈ name) : c.isAlphanum = true ∨ c = '_' := by
  obtain ⟨hfirst, hrest⟩ := h
  rcases List.mem_cons.mp hc with rfl | hc
  · exact hfirst.imp_left fun halpha => by rw [Char.isAlphanum, halpha, Bool.true_or]
  · exact hrest c hc

theorem IsName.ne_nil (h : IsName name) : name ≠ [] := by
  rintro rfl
  cases h

theorem IsName.isBlank_eq_false (h : IsName name) (hc : c ∈ name) : Text.isBlank c = false := by
  rcases h.mem_cases hc with halpha | rfl
  · exact Text.isBlank_of_isAlphanum halpha
  · decide

theorem IsName.trimsTo (h : IsName name) : TrimsTo name name :=
  .self (fun _ hc => h.isBlank_eq_false (List.mem_of_mem_head? hc))
    fun _ hc => h.isBlank_eq_false (List.mem_of_getLast? hc)

theorem IsName.ne_bracket (h : IsName name) (hc : c ∈ name) : c ≠ '[' := by
  rintro rfl
  rcases h.mem_cases hc with halpha | hsame
  · exact absurd halpha (by decide)
  · exact absurd hsame (by decide)

theorem ne_bracket_of_isBlank (h : Text.isBlank c = true) : c ≠ '[' := by
  rintro rfl
  exact absurd h (by decide)

end Characters

theorem isIdentifier_iff : isIdentifier cs = true ↔ IsName cs := by
  constructor
  · intro h
    cases cs with
    | nil => cases h
    | cons first rest =>
      simp only [isIdentifier, isInitial, isSubsequent, Bool.and_eq_true, Bool.or_eq_true,
        beq_iff_eq, List.all_eq_true] at h
      exact .intro h.1 h.2
  · rintro ⟨hfirst, hrest⟩
    simp only [isIdentifier, isInitial, isSubsequent, Bool.and_eq_true, Bool.or_eq_true,
      beq_iff_eq, List.all_eq_true]
    exact ⟨hfirst, hrest⟩

section Numbers

theorem readDigits?_eq_some : readDigits? cs = some bit ↔
    cs ≠ [] ∧ (∀ c ∈ cs, c.isDigit = true) ∧ Nat.ofDigitChars 10 cs 0 = bit := by
  unfold readDigits?
  constructor
  · intro h
    split at h
    · rename_i hdigits
      simp only at h
      split at h
      · cases h
        exact ⟨hdigits.1, List.all_eq_true.mp hdigits.2, rfl⟩
      · cases h
    · cases h
  · rintro ⟨hne, hdigits, hvalue⟩
    rw [if_pos ⟨hne, List.all_eq_true.mpr hdigits⟩]
    simp only [hvalue, bit.isLt, dif_pos]

/-- What stands between the blanks of a number is visible. -/
theorem isBlank_number {sign digits : List Char} (hsign : sign = [] ∨ sign = ['+'])
    (hdigits : ∀ c ∈ digits, c.isDigit = true) {c : Char} (hc : c ∈ sign ++ digits) :
    Text.isBlank c = false := by
  rcases List.mem_append.mp hc with hc | hc
  · rcases hsign with rfl | rfl
    · cases hc
    · rw [List.mem_singleton.mp hc]
      decide
  · exact Text.isBlank_of_isAlphanum (isAlphanum_of_isDigit (hdigits c hc))

theorem readBit?_eq_some : readBit? cs = some bit ↔ IsNumber bit cs := by
  constructor
  · intro h
    obtain ⟨before, after, hbefore, hafter, hcs⟩ := (Text.trimsTo_trim cs).exists_blanks
    unfold readBit? at h
    split at h
    · rename_i digits hcore
      obtain ⟨hne, hdigits, hvalue⟩ := readDigits?_eq_some.mp h
      rw [hcs, hcore]
      exact .intro hbefore (.inr rfl) hne hdigits hvalue hafter
    · obtain ⟨hne, hdigits, hvalue⟩ := readDigits?_eq_some.mp h
      rw [hcs]
      exact .intro hbefore (.inl rfl) hne hdigits hvalue hafter
  · rintro ⟨hbefore, hsign, hne, hdigits, hvalue, hafter⟩
    have hdone := readDigits?_eq_some.mpr ⟨hne, hdigits, hvalue⟩
    rename_i before sign digits after
    have hvisible := fun c => @isBlank_number sign digits hsign hdigits c
    have hcore : Text.trim (before ++ (sign ++ digits) ++ after) = sign ++ digits :=
      Text.trim_eq_iff.mpr ⟨⟨before, after, hbefore, hafter, rfl⟩,
        fun c hc => hvisible c (List.mem_of_mem_head? hc),
        fun c hc => hvisible c (List.mem_of_getLast? hc)⟩
    unfold readBit?
    rw [hcore]
    rcases hsign with rfl | rfl
    · split
      · rename_i rest hplus
        have hdigit := hdigits '+' (List.nil_append digits ▸ hplus ▸ List.mem_cons_self)
        exact absurd hdigit (by decide)
      · exact hdone
    · exact hdone

theorem IsNumber.dot_notMem (h : IsNumber bit cs) : '.' ∉ cs := by
  obtain ⟨hbefore, hsign, -, hdigits, -, hafter⟩ := h
  intro hdot
  have hblank : Text.isBlank '.' ≠ true := by decide
  rcases List.mem_append.mp hdot with hdot | hdot
  · rcases List.mem_append.mp hdot with hdot | hdot
    · exact hblank (hbefore _ hdot)
    · rcases List.mem_append.mp hdot with hdot | hdot
      · rcases hsign with rfl | rfl
        · cases hdot
        · exact absurd (List.mem_singleton.mp hdot) (by decide)
      · exact absurd (hdigits _ hdot) (by decide)
  · exact hblank (hafter _ hdot)

end Numbers

section Bits

theorem splitDots?_cons {c : Char} (h : c ≠ '.') : splitDots? (c :: cs) =
    (splitDots? cs).map fun (before, after) => (c :: before, after) := by
  rw [splitDots?]
  rintro - rfl
  exact absurd rfl h

/-- Without a dot before them, two dots are the first ones. -/
theorem splitDots?_append (hbefore : '.' ∉ before) :
    splitDots? (before ++ '.' :: '.' :: after) = some (before, after) := by
  induction before with
  | nil => rfl
  | cons c rest ih =>
    rw [List.mem_cons, not_or] at hbefore
    rw [List.cons_append, splitDots?_cons (Ne.symm hbefore.1), ih hbefore.2, Option.map_some]

theorem splitDots?_eq_none (h : '.' ∉ cs) : splitDots? cs = none := by
  induction cs with
  | nil => rfl
  | cons c rest ih =>
    rw [List.mem_cons, not_or] at h
    rw [splitDots?_cons (Ne.symm h.1), ih h.2, Option.map_none]

theorem eq_of_splitDots? (h : splitDots? cs = some (before, after)) :
    cs = before ++ '.' :: '.' :: after := by
  induction cs generalizing before with
  | nil => cases h
  | cons c rest ih =>
    unfold splitDots? at h
    split at h
    · cases h
      rfl
    · obtain ⟨⟨first, last⟩, hsplit, hpair⟩ := Option.map_eq_some_iff.mp h
      cases hpair
      rw [ih hsplit, List.cons_append]

theorem readBits?_eq_some {bits : BitNumber × BitNumber} :
    readBits? cs = some bits ↔ SpellsBits cs bits := by
  constructor
  · intro h
    unfold readBits? at h
    split at h
    · rename_i before after hsplit
      obtain ⟨low, hlow, h⟩ := Option.bind_eq_some_iff.mp h
      obtain ⟨high, hhigh, h⟩ := Option.bind_eq_some_iff.mp h
      split at h
      · rename_i hle
        cases h
        rw [eq_of_splitDots? hsplit]
        exact .span (readBit?_eq_some.mp hlow) (readBit?_eq_some.mp hhigh) hle
      · cases h
    · obtain ⟨bit, hbit, rfl⟩ := Option.map_eq_some_iff.mp h
      exact .bit (readBit?_eq_some.mp hbit)
  · intro h
    unfold readBits?
    cases h with
    | bit hnumber =>
      rw [splitDots?_eq_none hnumber.dot_notMem]
      simp only [readBit?_eq_some.mpr hnumber, Option.map_some]
    | span hfirst hlast hle =>
      rw [splitDots?_append hfirst.dot_notMem]
      simp only [readBit?_eq_some.mpr hfirst, readBit?_eq_some.mpr hlast, Option.bind_some,
        bind, if_pos hle]

end Bits

/-- Up to its bracket a reference has none. -/
theorem ne_bracket_of_mem (hname : IsName name) (hgap : AllBlank gap) :
    ∀ c ∈ name ++ gap, (c != '[') = true := by
  intro c hc
  rw [bne_iff_ne]
  rcases List.mem_append.mp hc with hc | hc
  · exact hname.ne_bracket hc
  · exact ne_bracket_of_isBlank (hgap c hc)

theorem takeWhile_bracket {front rest : List Char} (hfront : ∀ c ∈ front, (c != '[') = true) :
    (front ++ '[' :: rest).takeWhile (· != '[') = front := by
  rw [List.takeWhile_append_of_pos hfront, List.takeWhile_cons_of_neg (by decide), List.append_nil]

theorem dropWhile_bracket {front rest : List Char} (hfront : ∀ c ∈ front, (c != '[') = true) :
    (front ++ '[' :: rest).dropWhile (· != '[') = '[' :: rest := by
  rw [List.dropWhile_append_of_pos hfront, List.dropWhile_cons_of_neg (by decide)]

/-- What is cut off before the first bracket begins with the bracket. -/
theorem eq_of_dropWhile_bracket {mark : Char} {inner : List Char}
    (h : cs.dropWhile (· != '[') = mark :: inner) :
    cs = cs.takeWhile (· != '[') ++ '[' :: inner := by
  have hnot := List.head?_dropWhile_not (· != '[') cs
  rw [h] at hnot
  have hmark : mark = '[' := by simpa using hnot
  rw [← hmark, ← h, hmark, List.takeWhile_append_dropWhile]

theorem spells_of_readTrimmed? (h : readTrimmed? cs = some reference) : Spells cs reference := by
  unfold readTrimmed? at h
  split at h
  · rename_i htrue
    cases h
    exact htrue ▸ .ones
  rename_i htrue
  split at h
  · rename_i hfalse
    cases h
    exact hfalse ▸ .zeros
  rename_i hfalse
  split at h
  · split at h
    · rename_i hname
      cases h
      exact .name (isIdentifier_iff.mp hname) htrue hfalse
    · cases h
  · rename_i inner hrest
    simp only at h
    split at h
    · rename_i hboth
      obtain ⟨bits, hbits, rfl⟩ := Option.map_eq_some_iff.mp h
      obtain ⟨gap, hgap, hfront, -⟩ := Text.exists_trimEnd (cs.takeWhile (· != '['))
      obtain ⟨body, rfl⟩ := List.getLast?_eq_some_iff.mp hboth.2
      rw [List.dropLast_concat] at hbits
      have hspells := Spells.bits (isIdentifier_iff.mp hboth.1) hgap (readBits?_eq_some.mp hbits)
      rwa [← hfront, ← eq_of_dropWhile_bracket hrest] at hspells
    · cases h

theorem readTrimmed?_bracket {front inner : List Char} (hfront : ∀ c ∈ front, (c != '[') = true) :
    readTrimmed? (front ++ '[' :: inner) =
      if isIdentifier (Text.trimEnd front) ∧ inner.getLast? = some ']' then
        (readBits? inner.dropLast).map fun bits =>
          pin (String.ofList (Text.trimEnd front)) (some bits)
      else none := by
  have hne : ∀ word : List Char, '[' ∉ word → front ++ '[' :: inner ≠ word := by
    rintro word hnot rfl
    exact hnot (List.mem_append_right _ List.mem_cons_self)
  unfold readTrimmed?
  rw [if_neg (hne _ (by decide)), if_neg (hne _ (by decide)), dropWhile_bracket hfront,
    takeWhile_bracket hfront]

theorem readTrimmed?_of_spells (h : Spells cs reference) : readTrimmed? cs = some reference := by
  cases h with
  | ones => rfl
  | zeros => rfl
  | name hname htrue hfalse =>
    have hnone : cs.dropWhile (· != '[') = [] :=
      List.dropWhile_eq_nil_iff.mpr fun c hc => bne_iff_ne.mpr (hname.ne_bracket hc)
    unfold readTrimmed?
    rw [if_neg htrue, if_neg hfalse, hnone]
    exact if_pos (isIdentifier_iff.mpr hname)
  | bits hname hgap hinner =>
    have htrim := Text.trimEnd_append hgap fun c hc =>
      hname.isBlank_eq_false (List.mem_of_getLast? hc)
    rw [readTrimmed?_bracket (ne_bracket_of_mem hname hgap), htrim, List.dropLast_concat,
      readBits?_eq_some.mpr hinner, if_pos ⟨isIdentifier_iff.mpr hname, List.getLast?_concat⟩,
      Option.map_some]

/-- A reference neither begins nor ends with a blank. -/
theorem Spells.trimsTo (h : Spells cs reference) : TrimsTo cs cs := by
  cases h with
  | ones | zeros => exact IsName.trimsTo (isIdentifier_iff.mp (by decide))
  | name hname => exact hname.trimsTo
  | bits hname =>
    refine .self (fun c hc => ?_) fun c hc => ?_
    · obtain ⟨first, rest, rfl⟩ := List.exists_cons_of_ne_nil hname.ne_nil
      cases hc
      exact hname.isBlank_eq_false List.mem_cons_self
    · rw [← List.cons_append, ← List.append_assoc, List.getLast?_concat] at hc
      cases hc
      decide

theorem parse_eq_ok {text : String} : parse text = .ok reference ↔ Means text reference := by
  have hparse : parse text = .ok reference ↔
      readTrimmed? (Text.trim text.toList) = some reference := by
    unfold parse ofChars?
    split
    · rename_i found hfound
      rw [hfound, Except.ok.injEq, Option.some.injEq]
    · rename_i hnone
      rw [hnone]
      simp
  rw [hparse]
  constructor
  · intro hread
    exact ⟨_, Text.trimsTo_trim _, spells_of_readTrimmed? hread⟩
  · rintro ⟨core, hcore, hspells⟩
    rw [Text.trim_eq_iff.mpr hcore]
    exact readTrimmed?_of_spells hspells

/-- The only error is that the text is malformed, and it holds all of the text. -/
theorem eq_of_parse_eq_error {text : String} {error : DesignError} (h : parse text = .error error) :
    error = .malformedReference text := by
  unfold parse at h
  split at h
  · cases h
  · exact (Except.error.inj h).symm

/-- Reading a text gives what it means, and a text without a meaning is refused as it stands. -/
theorem parse_iff_means (text : String) :
    (∀ reference, parse text = .ok reference ↔ Means text reference) ∧
    ∀ error, parse text = .error error ↔
      error = .malformedReference text ∧ ¬ ∃ reference, Means text reference := by
  refine ⟨fun reference => parse_eq_ok, fun error => ⟨fun h => ?_, ?_⟩⟩
  · refine ⟨eq_of_parse_eq_error h, ?_⟩
    rintro ⟨reference, hmeans⟩
    rw [parse_eq_ok.mpr hmeans] at h
    cases h
  · rintro ⟨rfl, hnone⟩
    cases hparse : parse text with
    | ok reference => exact absurd ⟨reference, parse_eq_ok.mp hparse⟩ hnone
    | error error => rw [eq_of_parse_eq_error hparse]

end BusReference

end ClockedLogic
