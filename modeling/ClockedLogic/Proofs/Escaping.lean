import ClockedLogic.Text.Quoted
import Mathlib.Data.List.Basic

/-!
Escaped texts can be read back. Each character is spelled so that its spelling shows where it ends,
and no spelling begins with a quote, so two texts that are written alike up to a closing quote are
the same. A quoted text that stands inside other quotes has no quote there that would close them,
and no character that does not show as itself. Decimal numbers can be read back as well: they hold
nothing but digits and a sign.
-/

namespace ClockedLogic.Text

/-- Two texts that agree and are both cut at the first mark agree before it and after it. -/
theorem append_cons_inj {α : Type} [DecidableEq α] {mark : α} {before before' after after' : List α}
    (hbefore : mark ∉ before) (hbefore' : mark ∉ before')
    (h : before ++ mark :: after = before' ++ mark :: after') :
    before = before' ∧ after = after' := by
  have hsplit := congrArg (List.splitOn mark) h
  rw [List.splitOn_append_cons_self_of_not_mem hbefore,
    List.splitOn_append_cons_self_of_not_mem hbefore'] at hsplit
  obtain rfl := (List.cons.inj hsplit).1
  exact ⟨rfl, (List.cons.inj (List.append_cancel_left h)).2⟩

/-- Two texts that agree and are both cut at the last mark agree before it and after it. -/
theorem append_cons_inj_right {α : Type} [DecidableEq α] {mark : α}
    {before before' after after' : List α} (hafter : mark ∉ after) (hafter' : mark ∉ after')
    (h : before ++ mark :: after = before' ++ mark :: after') :
    before = before' ∧ after = after' := by
  have hback : after.reverse ++ mark :: before.reverse =
      after'.reverse ++ mark :: before'.reverse := by
    simpa using congrArg List.reverse h
  obtain ⟨hlate, hearly⟩ :=
    append_cons_inj (mt List.mem_reverse.mp hafter) (mt List.mem_reverse.mp hafter') hback
  exact ⟨List.reverse_inj.mp hearly, List.reverse_inj.mp hlate⟩

/-- Spellings that show where they end and cannot be taken for a closing mark. -/
structure Separable (spell : Char → List Char) (closing : Char) : Prop where
  split : ∀ {c d : Char} {rest rest' : List Char},
    spell c ++ rest = spell d ++ rest' → c = d ∧ rest = rest'
  ne_closing : ∀ {c : Char} {rest rest' : List Char}, spell c ++ rest ≠ closing :: rest'

/-- A spelled text can be read back up to its closing mark. -/
theorem Separable.flatMap_append_inj {spell : Char → List Char} {closing : Char}
    (h : Separable spell closing) {cs ds rest rest' : List Char}
    (hsame : cs.flatMap spell ++ closing :: rest = ds.flatMap spell ++ closing :: rest') :
    cs = ds ∧ rest = rest' := by
  induction cs generalizing ds with
  | nil =>
    cases ds with
    | nil => exact ⟨rfl, (List.cons.inj hsame).2⟩
    | cons d ds =>
      rw [List.flatMap_cons, List.append_assoc] at hsame
      exact absurd hsame.symm h.ne_closing
  | cons c cs ih =>
    rw [List.flatMap_cons, List.append_assoc] at hsame
    cases ds with
    | nil => exact absurd hsame h.ne_closing
    | cons d ds =>
      rw [List.flatMap_cons, List.append_assoc] at hsame
      obtain ⟨rfl, hrest⟩ := h.split hsame
      obtain ⟨rfl, hafter⟩ := ih hrest
      exact ⟨rfl, hafter⟩

/-! ### Decimal numbers -/

theorem notMem_toDigits {c : Char} (hc : c.isDigit = false) (n : Nat) :
    c ∉ Nat.toDigits 10 n := by
  intro hmem
  rw [Nat.isDigit_of_mem_toDigits (by decide) (by decide) hmem] at hc
  cases hc

theorem toDigits_inj {m n : Nat} (h : Nat.toDigits 10 m = Nat.toDigits 10 n) : m = n := by
  calc m = Nat.ofDigitChars 10 (Nat.toDigits 10 m) 0 := Nat.ofDigitChars_ten_toDigits.symm
    _ = Nat.ofDigitChars 10 (Nat.toDigits 10 n) 0 := by rw [h]
    _ = n := Nat.ofDigitChars_ten_toDigits

/-- A number shows where it ends if a space comes after it. -/
theorem toDigits_append_inj {m n : Nat} {rest rest' : List Char}
    (h : Nat.toDigits 10 m ++ ' ' :: rest = Nat.toDigits 10 n ++ ' ' :: rest') :
    m = n ∧ rest = rest' := by
  obtain ⟨hdigits, hrest⟩ := append_cons_inj (notMem_toDigits rfl m) (notMem_toDigits rfl n) h
  exact ⟨toDigits_inj hdigits, hrest⟩

theorem toList_repr (number : Int) : number.repr.toList =
    if 0 ≤ number then Nat.toDigits 10 number.toNat
    else '-' :: Nat.toDigits 10 (-number).toNat := by
  rw [Int.repr_eq_if]
  split
  · exact Nat.toList_repr
  · rw [String.toList_append, Nat.toList_repr]
    rfl

theorem notMem_repr {c : Char} (hdigit : c.isDigit = false) (hsign : c ≠ '-') (number : Int) :
    c ∉ number.repr.toList := by
  rw [toList_repr]
  split
  · exact notMem_toDigits hdigit _
  · rw [List.mem_cons, not_or]
    exact ⟨hsign, notMem_toDigits hdigit _⟩

/-- Integers that are printed alike are the same. The library proves this in a module that comes
only with all of Mathlib. -/
theorem repr_inj {first second : Int} (h : first.repr = second.repr) : first = second := by
  have hchars := congrArg String.toList h
  rw [toList_repr, toList_repr] at hchars
  -- the sign is no digit, so the numbers are on the same side of zero
  have hsign : ∀ m n : Nat, Nat.toDigits 10 m ≠ '-' :: Nat.toDigits 10 n := by
    intro m n hsame
    exact notMem_toDigits rfl m (hsame ▸ List.mem_cons_self)
  split at hchars <;> split at hchars
  · have hsame := toDigits_inj hchars
    omega
  · exact absurd hchars (hsign _ _)
  · exact absurd hchars.symm (hsign _ _)
  · have hsame := toDigits_inj (List.cons.inj hchars).2
    omega

/-! ### Code points -/

theorem digitChar_inj : ∀ m < 16, ∀ n < 16, Nat.digitChar m = Nat.digitChar n → m = n := by decide

theorem hexDigits_eq (n : Nat) : hexDigits n =
    if n < 16 then [n.digitChar] else hexDigits (n / 16) ++ [(n % 16).digitChar] :=
  Nat.toDigits_eq_if (by decide)

theorem exists_digit_of_mem_hexDigits (n : Nat) :
    ∀ d ∈ hexDigits n, ∃ m < 16, d = Nat.digitChar m := by
  induction n using Nat.strongRecOn with
  | ind n ih =>
    intro d hd
    rw [hexDigits_eq] at hd
    split at hd
    · rename_i hlt
      exact ⟨n, hlt, List.mem_singleton.mp hd⟩
    · rename_i hge
      rcases List.mem_append.mp hd with hhigh | hlow
      · exact ih (n / 16) (Nat.div_lt_self (by omega) (by decide)) d hhigh
      · exact ⟨n % 16, Nat.mod_lt n (by decide), List.mem_singleton.mp hlow⟩

theorem hexDigits_inj {m n : Nat} (h : hexDigits m = hexDigits n) : m = n := by
  induction m using Nat.strongRecOn generalizing n with
  | ind m ih =>
    have hshort : ∀ k, k < 16 ↔ (hexDigits k).length ≤ 1 := by
      intro k
      rw [hexDigits, Nat.length_toDigits_le_iff (by decide) (by decide), Nat.pow_one]
    have hsame : m < 16 ↔ n < 16 := by rw [hshort, hshort, h]
    rw [hexDigits_eq m, hexDigits_eq n] at h
    by_cases hm : m < 16
    · rw [if_pos hm, if_pos (hsame.mp hm)] at h
      exact digitChar_inj m hm n (hsame.mp hm) (List.cons.inj h).1
    · rw [if_neg hm, if_neg (mt hsame.mpr hm)] at h
      obtain ⟨hhigh, hlow⟩ := List.append_inj' h rfl
      have hquotient := ih (m / 16) (Nat.div_lt_self (by omega) (by decide)) hhigh
      have hremainder := digitChar_inj _ (Nat.mod_lt m (by decide)) _ (Nat.mod_lt n (by decide))
        (List.cons.inj hlow).1
      omega

theorem brace_notMem_hexDigits (n : Nat) : '\x7d' ∉ hexDigits n := by
  intro hmem
  obtain ⟨m, hlt, hbrace⟩ := exists_digit_of_mem_hexDigits n _ hmem
  exact (by decide : ∀ m < 16, '\x7d' ≠ Nat.digitChar m) m hlt hbrace

theorem escapeCode_append (c : Char) (rest : List Char) :
    escapeCode c ++ rest = '\\' :: 'u' :: '\x7b' :: (hexDigits c.toNat ++ '\x7d' :: rest) := by
  simp [escapeCode]

theorem escapeCode_append_inj {c d : Char} {rest rest' : List Char}
    (h : escapeCode c ++ rest = escapeCode d ++ rest') : c = d ∧ rest = rest' := by
  simp only [escapeCode_append, List.cons.injEq, true_and] at h
  obtain ⟨hdigits, hrest⟩ := append_cons_inj (brace_notMem_hexDigits _)
    (brace_notMem_hexDigits _) h
  exact ⟨Char.toNat_inj.mp (hexDigits_inj hdigits), hrest⟩

/-! ### Escapes between quotes -/

def shortEscape? : Char → Option Char
  | '0' => some '\x00'
  | 't' => some '\t'
  | 'r' => some '\r'
  | 'n' => some '\n'
  | '\\' => some '\\'
  | '"' => some '"'
  | _ => none

/-- The ways to write a character between quotes. -/
inductive Escape (c : Char) : List Char → Prop where
  | itself (hplain : isPlain c = true) (hslash : c ≠ '\\') (hquote : c ≠ '"') : Escape c [c]
  | short {letter : Char} (hletter : shortEscape? letter = some c) : Escape c ['\\', letter]
  | code : Escape c (escapeCode c)

theorem escape_escapeChar (c : Char) : Escape c (escapeChar c) := by
  unfold escapeChar
  split
  · exact .short (by subst c; rfl)
  split
  · exact .short (by subst c; rfl)
  split
  · exact .short (by subst c; rfl)
  split
  · exact .short (by subst c; rfl)
  split
  · rename_i hself
    rcases hself with rfl | rfl
    · exact .short rfl
    · exact .short rfl
  split
  · rename_i hother hplain
    rw [not_or] at hother
    exact .itself hplain hother.1 hother.2
  · exact .code

theorem Escape.append_inj {c d : Char} {written written' rest rest' : List Char}
    (h : Escape c written) (h' : Escape d written') (hsame : written ++ rest = written' ++ rest') :
    c = d ∧ rest = rest' := by
  cases h with
  | itself _ hslash _ =>
    cases h' with
    | itself => exact List.cons.inj hsame
    | short => exact absurd (List.cons.inj hsame).1 hslash
    | code => exact absurd (List.cons.inj (hsame.trans (escapeCode_append ..))).1 hslash
  | short hletter =>
    cases h' with
    | itself _ hslash _ => exact absurd (List.cons.inj hsame).1.symm hslash
    | short hletter' =>
      obtain ⟨rfl, hrest⟩ := List.cons.inj (List.cons.inj hsame).2
      exact ⟨Option.some.inj (hletter.symm.trans hletter'), hrest⟩
    | code =>
      obtain ⟨rfl, -⟩ := List.cons.inj (List.cons.inj (hsame.trans (escapeCode_append ..))).2
      cases hletter
  | code =>
    cases h' with
    | itself _ hslash _ =>
      exact absurd (List.cons.inj (hsame.symm.trans (escapeCode_append ..))).1 hslash
    | short hletter =>
      obtain ⟨rfl, -⟩ := List.cons.inj (List.cons.inj (hsame.symm.trans (escapeCode_append ..))).2
      cases hletter
    | code => exact escapeCode_append_inj hsame

theorem Escape.ne_quote {c : Char} {written rest rest' : List Char} (h : Escape c written) :
    written ++ rest ≠ '"' :: rest' := by
  intro hsame
  cases h with
  | itself _ _ hquote => exact hquote (List.cons.inj hsame).1
  | short => exact absurd (List.cons.inj hsame).1 (by decide)
  | code => exact absurd (List.cons.inj ((escapeCode_append ..).symm.trans hsame)).1 (by decide)

theorem separable_escapeChar : Separable escapeChar '"' where
  split := (escape_escapeChar _).append_inj (escape_escapeChar _)
  ne_closing := (escape_escapeChar _).ne_quote

theorem separable_protectChar : Separable protectChar '"' where
  split {c d rest rest'} hsame := by
    unfold protectChar at hsame
    split at hsame <;> split at hsame
    · exact List.cons.inj (List.cons.inj hsame).2
    · rename_i hother
      exact absurd (.inr (List.cons.inj hsame).1.symm) hother
    · rename_i hother _
      exact absurd (.inr (List.cons.inj hsame).1) hother
    · exact List.cons.inj hsame
  ne_closing {c rest rest'} hsame := by
    unfold protectChar at hsame
    split at hsame
    · exact absurd (List.cons.inj hsame).1 (by decide)
    · rename_i hother
      exact hother (.inl (List.cons.inj hsame).1)

/-- A quoted text can be read back, whatever comes after it. -/
theorem quote_append_inj {cs ds rest rest' : List Char}
    (h : quote cs ++ rest = quote ds ++ rest') : cs = ds ∧ rest = rest' := by
  simp only [quote, List.cons_append, List.append_assoc, List.cons.injEq, true_and,
    List.nil_append] at h
  exact separable_escapeChar.flatMap_append_inj h

/-- A text that is quoted twice can be read back, up to its closing quote. -/
theorem protect_quote_append_inj {cs ds rest rest' : List Char}
    (h : protect (quote cs) ++ '"' :: rest = protect (quote ds) ++ '"' :: rest') :
    cs = ds ∧ rest = rest' := by
  obtain ⟨hquoted, hrest⟩ := separable_protectChar.flatMap_append_inj h
  have hsame : quote cs ++ [] = quote ds ++ [] := by rw [hquoted]
  exact ⟨(quote_append_inj hsame).1, hrest⟩

/-! ### Quotes in quotes -/

/-- What stands before the quote that closes a text, and what comes after it. A backslash takes
the next character with it. -/
def untilQuote : List Char → Option (List Char × List Char)
  | [] => none
  | '"' :: rest => some ([], rest)
  | '\\' :: c :: rest =>
    (untilQuote rest).map fun (inside, after) => ('\\' :: c :: inside, after)
  | c :: rest => (untilQuote rest).map fun (inside, after) => (c :: inside, after)

theorem untilQuote_protectChar (c : Char) {inside after rest : List Char}
    (h : untilQuote rest = some (inside, after)) :
    untilQuote (protectChar c ++ rest) = some (protectChar c ++ inside, after) := by
  unfold protectChar
  split
  · simp [untilQuote, h]
  · rename_i hother
    rw [not_or] at hother
    simp [untilQuote, h, hother]

/-- No quote of a protected text closes it. -/
theorem untilQuote_protect (cs rest : List Char) :
    untilQuote (protect cs ++ '"' :: rest) = some (protect cs, rest) := by
  induction cs with
  | nil => rfl
  | cons c cs ih =>
    rw [protect, List.flatMap_cons, List.append_assoc]
    exact untilQuote_protectChar c ih

/-- The printable characters of ASCII are plain: the ranges of the classes that are not begin past
them, apart from the control characters before them. -/
theorem isPlain_of_ascii {c : Char} (hlow : 0x20 ≤ c.toNat) (hhigh : c.toNat < 0x7f) :
    isPlain c = true := by
  have hextender : extenderRanges.covers c.toNat = false := if_pos (by omega)
  have hignorable : ignorableRanges.covers c.toNat = false := if_pos (by omega)
  have hunprintable : unprintableRanges.covers c.toNat = false := by
    refine (if_neg (by omega)).trans ?_
    rw [decide_eq_false (by omega), Bool.false_or]
    exact if_pos hhigh
  rw [isPlain, hextender, hignorable, hunprintable, Bool.or_self, Bool.or_self, Bool.not_false]

theorem isPlain_slash : isPlain '\\' = true := isPlain_of_ascii (by decide) (by decide)

theorem isPlain_quote : isPlain '"' = true := isPlain_of_ascii (by decide) (by decide)

theorem isPlain_digitChar {m : Nat} (hm : m < 16) : isPlain (Nat.digitChar m) = true := by
  have hascii : ∀ m < 16, 0x20 ≤ (Nat.digitChar m).toNat ∧ (Nat.digitChar m).toNat < 0x7f := by
    decide
  exact isPlain_of_ascii (hascii m hm).1 (hascii m hm).2

theorem isPlain_letter {letter c : Char} (h : shortEscape? letter = some c) :
    isPlain letter = true := by
  unfold shortEscape? at h
  split at h
  all_goals first | exact isPlain_of_ascii (by decide) (by decide) | cases h

theorem Escape.isPlain_of_mem {c d : Char} {written : List Char} (h : Escape c written)
    (hd : d ∈ written) : isPlain d = true := by
  cases h with
  | itself hplain => rwa [List.mem_singleton.mp hd]
  | short hletter =>
    rcases List.mem_cons.mp hd with rfl | hd
    · exact isPlain_slash
    · rw [List.mem_singleton.mp hd]
      exact isPlain_letter hletter
  | code =>
    rw [← List.append_nil (escapeCode c), escapeCode_append] at hd
    simp only [List.mem_cons, List.mem_append, List.not_mem_nil, or_false] at hd
    rcases hd with rfl | rfl | rfl | hdigit | rfl
    · exact isPlain_slash
    · exact isPlain_of_ascii (by decide) (by decide)
    · exact isPlain_of_ascii (by decide) (by decide)
    · obtain ⟨m, hlt, rfl⟩ := exists_digit_of_mem_hexDigits _ _ hdigit
      exact isPlain_digitChar hlt
    · exact isPlain_of_ascii (by decide) (by decide)

theorem isPlain_of_mem_quote {cs : List Char} {c : Char} (hc : c ∈ quote cs) :
    isPlain c = true := by
  rcases List.mem_append.mp hc with hc | hc
  · rcases List.mem_cons.mp hc with rfl | hc
    · exact isPlain_quote
    · obtain ⟨d, -, hd⟩ := List.mem_flatMap.mp hc
      exact (escape_escapeChar d).isPlain_of_mem hd
  · rw [List.mem_singleton.mp hc]
    exact isPlain_quote

/-- Every character of a text that is quoted twice shows as itself. -/
theorem isPlain_of_mem_protect_quote {cs : List Char} {c : Char} (hc : c ∈ protect (quote cs)) :
    isPlain c = true := by
  obtain ⟨d, hd, hc⟩ := List.mem_flatMap.mp hc
  unfold protectChar at hc
  split at hc
  · rcases List.mem_cons.mp hc with rfl | hc
    · exact isPlain_slash
    · rw [List.mem_singleton.mp hc]
      exact isPlain_of_mem_quote hd
  · rw [List.mem_singleton.mp hc]
    exact isPlain_of_mem_quote hd

theorem newline_notMem_protect_quote (cs : List Char) : '\n' ∉ protect (quote cs) := fun hmem =>
  absurd (isPlain_of_mem_protect_quote hmem) (by decide +kernel)

end ClockedLogic.Text
