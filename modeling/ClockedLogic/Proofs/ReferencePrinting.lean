import ClockedLogic.Proofs.ReferenceSyntax

/-!
Printing and reading bus references. The printed form of a reference has no blanks, no plus signs
and no leading zeros, and it is read as the reference that has been printed. So each meaning has one
printed form, however its text was spelled.
-/

namespace ClockedLogic

namespace BusReference

/-- Whether a reference is one that some text means: a constant, or a name with bits in order if it
has any. Without bits the names of the constants mean the constants. -/
inductive IsReadable : BusReference → Prop where
  | ones : IsReadable ones
  | zeros : IsReadable zeros
  | pin {name : String} {bits : Option (BitNumber × BitNumber)} (hname : IsName name.toList)
    (hbits : ∀ ends ∈ bits, ends.1 ≤ ends.2)
    (hbare : bits = none → name ≠ "true" ∧ name ≠ "false") : IsReadable (pin name bits)

variable {reference : BusReference}

/-- A number is printed as digits alone. -/
theorem isNumber_bitChars (bit : BitNumber) : IsNumber bit (bitChars bit) := by
  have hblank : Text.AllBlank [] := by simp [Text.AllBlank]
  have hnumber : IsNumber bit ([] ++ ([] ++ bitChars bit) ++ []) :=
    .intro hblank (.inl rfl) Nat.toDigits_ne_nil
      (fun c hc => Nat.isDigit_of_mem_toDigits (by decide) (by decide) hc)
      Nat.ofDigitChars_ten_toDigits hblank
  simpa using hnumber

/-- Bits are printed between brackets, one number for a single bit. -/
theorem exists_bitsChars {bits : BitNumber × BitNumber} (hle : bits.1 ≤ bits.2) :
    ∃ inner, SpellsBits inner bits ∧ bitsChars (some bits) = '[' :: (inner ++ [']']) := by
  obtain ⟨low, high⟩ := bits
  rcases eq_or_ne low high with rfl | hne
  · exact ⟨bitChars low, .bit (isNumber_bitChars low), by simp [bitsChars]⟩
  · exact ⟨bitChars low ++ '.' :: '.' :: bitChars high,
      .span (isNumber_bitChars low) (isNumber_bitChars high) hle, by simp [bitsChars, hne]⟩

theorem spells_toChars (h : IsReadable reference) : Spells reference.toChars reference := by
  cases h with
  | ones => exact .ones
  | zeros => exact .zeros
  | @pin name bits hname hbits hbare =>
    cases bits with
    | none =>
      obtain ⟨htrue, hfalse⟩ := hbare rfl
      have hspells := Spells.name hname (mt String.toList_inj.mp htrue)
        (mt String.toList_inj.mp hfalse)
      simpa [toChars, bitsChars] using hspells
    | some bits =>
      obtain ⟨inner, hinner, hprinted⟩ := exists_bitsChars (hbits bits rfl)
      have hblank : Text.AllBlank [] := by simp [Text.AllBlank]
      have hspells := Spells.bits hname hblank hinner
      rw [toChars, hprinted]
      simpa using hspells

theorem isReadable_of_spells {core : List Char} (h : Spells core reference) :
    IsReadable reference := by
  cases h with
  | ones => exact .ones
  | zeros => exact .zeros
  | name hname htrue hfalse =>
    refine .pin (by simpa using hname) (by simp) fun _ => ⟨?_, ?_⟩
    · exact fun hsame => htrue (by rw [← hsame, String.toList_ofList])
    · exact fun hsame => hfalse (by rw [← hsame, String.toList_ofList])
  | bits hname _ hinner =>
    refine .pin (by simpa using hname) (fun ends hends => ?_) (by simp)
    cases hends
    cases hinner with
    | bit => exact Nat.le_refl _
    | span _ _ hle => exact hle

/-- The bits of a reference that has been read are in order, and its name is one. -/
theorem isReadable_of_parse {text : String} (h : parse text = .ok reference) :
    IsReadable reference := by
  obtain ⟨_, -, hspells⟩ := parse_eq_ok.mp h
  exact isReadable_of_spells hspells

theorem parse_toText (h : IsReadable reference) : parse reference.text = .ok reference := by
  have hspells := spells_toChars h
  refine parse_eq_ok.mpr ⟨reference.toChars, ?_, hspells⟩
  rw [text, String.toList_ofList]
  exact hspells.trimsTo

/-- A reference that has been read is read again from its printed form, two texts mean one reference
exactly if it is printed in one way, and just the readable references can be printed and read. -/
theorem parse_text :
    (∀ text reference, parse text = .ok reference → parse reference.text = .ok reference) ∧
    (∀ text other reference reference', parse text = .ok reference →
      parse other = .ok reference' → (reference = reference' ↔ reference.text = reference'.text)) ∧
    ∀ reference, parse reference.text = .ok reference ↔ IsReadable reference := by
  refine ⟨fun text reference h => parse_toText (isReadable_of_parse h),
    fun text other reference reference' h h' => ⟨congrArg BusReference.text, fun hsame => ?_⟩,
    fun reference => ⟨isReadable_of_parse, parse_toText⟩⟩
  have hfirst := parse_toText (isReadable_of_parse h)
  rw [hsame, parse_toText (isReadable_of_parse h')] at hfirst
  exact (Except.ok.inj hfirst).symm

/-- For example, bits of a pin that is called like a constant. -/
theorem parse_text_spaced :
    parse " true [+07 .. 12] " = .ok (pin "true" (some (7, 12))) ∧
    parse "true[012]" = .ok (pin "true" (some (12, 12))) ∧
    parse (pin "true" (some (7, 12))).text = .ok (pin "true" (some (7, 12))) ∧
    (pin "true" (some (7, 12)) = pin "true" (some (12, 12)) ↔
      (pin "true" (some (7, 12))).text = (pin "true" (some (12, 12))).text) := by
  have hspaced : parse " true [+07 .. 12] " = .ok (pin "true" (some (7, 12))) := by decide +kernel
  have hsingle : parse "true[012]" = .ok (pin "true" (some (12, 12))) := by decide +kernel
  exact ⟨hspaced, hsingle, parse_text.1 _ _ hspaced, parse_text.2.1 _ _ _ _ hspaced hsingle⟩

end BusReference

end ClockedLogic
