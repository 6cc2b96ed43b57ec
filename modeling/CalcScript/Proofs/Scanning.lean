/-
`Proofs/Scanning.lean` -- scanning follows the lexical grammar.

A scan cuts its text into gaps and lexemes that together are the text again. Every
gap is layout and as long as layout goes, and every lexeme is the one that the rule
of the longest spelling takes (`Lexical.Lexeme`). The end is the last token, and only
the last; reading on behind it gives it again.

The four classes of spellings begin with different characters, so at most one of them
competes for the front of a text. Within its class each piece takes as much as it can,
which is proved class by class; the rest is putting pieces together.
-/
import CalcScript.Proofs.LexicalGrammar
import Mathlib.Tactic.ByContra

set_option autoImplicit false

namespace CalcScript

open Lexical

/-! ## 1. First characters -/

/-- A symbol begins with no character of another class. -/
theorem Symbol.chars_eq_cons (s : Symbol) : ∃ c rest, s.chars = c :: rest ∧ isWordStart c = false ∧
    c.isDigit = false ∧ c ≠ '.' ∧ c ≠ '"' := by
  cases s <;> exact ⟨_, _, rfl, by decide⟩

theorem isDigit_eq_false_of_isWordStart {c : Char} (h : isWordStart c) : c.isDigit = false := by
  by_contra hdigit
  rw [Bool.not_eq_false, Char.isDigit_iff_toNat] at hdigit
  have hnine : '9'.toNat = 57 := rfl
  have hletter : ((c.isUpper || c.isLower) || decide (c = '_') || decide (c = '$')) = true := h
  simp only [Bool.or_eq_true, decide_eq_true_eq] at hletter
  rcases hletter with ((hupper | hlower) | rfl) | rfl
  · have hA : 65 ≤ c.toNat := (of_decide_eq_true hupper).1
    omega
  · have ha : 97 ≤ c.toNat := of_decide_eq_true (Bool.and_eq_true_iff.mp hlower).1
    omega
  · exact absurd hdigit (by decide)
  · exact absurd hdigit (by decide)

theorem startsNumber_eq_false_of_isWordStart {c : Char} (cs : List Char) (h : isWordStart c) :
    Piece.startsNumber c cs = false := by
  have hpoint : c ≠ '.' := by
    rintro rfl
    cases h
  simp [Piece.startsNumber, isDigit_eq_false_of_isWordStart h, hpoint]

theorem ne_quote_of_isWordStart {c : Char} (h : isWordStart c) : c ≠ '"' := by
  rintro rfl
  cases h

theorem ne_quote_of_startsNumber {c : Char} {cs : List Char} (h : Piece.startsNumber c cs) :
    c ≠ '"' := by
  rintro rfl
  cases h

/-- The characters of a word. -/
theorem isWordPart_iff {c : Char} : isWordPart c ↔ c.isAlphanum ∨ c = '_' ∨ c = '$' := by
  simp [isWordPart, or_assoc]

theorem isWordStart_iff {c : Char} : isWordStart c ↔ c.isAlpha ∨ c = '_' ∨ c = '$' := by
  simp [isWordStart, or_assoc]

theorem Keyword.text_eq_cons (k : Keyword) :
    ∃ c cs, k.text.toList = c :: cs ∧ isWordStart c ∧ cs.all isWordPart := by
  cases k <;> exact ⟨_, _, rfl, rfl, rfl⟩

namespace Lexical

/-- The spellings that can stand at the front of `c :: cs`, by what `c` is. -/
inductive Fronts (c : Char) (cs : List Char) : List Char → Prop
  | symbol (s : Symbol) : Fronts c cs s.chars
  | word {chars} (hc : isWordStart c) (hchars : ∀ d ∈ chars, isWordPart d) :
    Fronts c cs (c :: chars)
  | number {whole last : List Char} {point : Bool} {exponent : Option Exponent}
      (hc : Piece.startsNumber c cs) (hwhole : ∀ c ∈ whole, c.isDigit)
      (hlast : ∀ c ∈ last, c.isDigit) (hne : last ≠ []) (hexponent : ∀ e ∈ exponent, IsExponent e) :
    Fronts c cs
      (whole ++ ((if point then ['.'] else []) ++ (last ++ exponent.elim [] Exponent.text)))
  | str {value spelling} (hc : c = '"') (h : Quoted value spelling) :
    Fronts c cs ('"' :: (spelling ++ ['"']))

/-- A number at the front of a text begins with a digit, or with a point and a digit. -/
theorem startsNumber_of_append {c : Char} {cs whole last tail : List Char} {point : Bool}
    (hwhole : ∀ c ∈ whole, c.isDigit) (hlast : ∀ c ∈ last, c.isDigit) (hne : last ≠ [])
    (h : whole ++ ((if point then ['.'] else []) ++ (last ++ tail)) = c :: cs) :
    Piece.startsNumber c cs := by
  cases whole with
  | cons d ds =>
    have hd := hwhole d List.mem_cons_self
    cases h
    simp [Piece.startsNumber, hd]
  | nil =>
    cases last with
    | nil => exact absurd rfl hne
    | cons d ds =>
      have hd := hlast d List.mem_cons_self
      cases point with
      | true =>
        cases h
        simp [Piece.startsNumber, hd]
      | false =>
        cases h
        simp [Piece.startsNumber, hd]

theorem Spells.fronts {kind : Token.Kind} {chars : List Char} {c : Char} {cs : List Char}
    (h : Spells kind chars) (hfront : chars <+: c :: cs) : Fronts c cs chars := by
  obtain ⟨rest, hrest⟩ := hfront
  cases h with
  | symbol s => exact .symbol s
  | keyword k =>
    obtain ⟨d, ds, htext, hd, hds⟩ := k.text_eq_cons
    rw [htext] at hrest ⊢
    cases hrest
    exact .word hd (List.all_eq_true.mp hds)
  | identifier hd hds _ =>
    cases hrest
    exact .word (isWordStart_iff.mpr hd) fun d hmem => isWordPart_iff.mpr (hds d hmem)
  | @number whole last point exponent hwhole hlast hne hexponent =>
    rw [List.append_assoc, List.append_assoc, List.append_assoc] at hrest
    exact .number (startsNumber_of_append hwhole hlast hne hrest) hwhole hlast hne hexponent
  | str h =>
    cases hrest
    exact .str rfl h

end Lexical

/-! ## 2. Symbols and words -/

/-- No longer symbol stands at the front: the longer spellings come first. -/
theorem Symbol.length_le_of_ofFront? {cs : List Char} {s s' : Symbol} (h : ofFront? cs = some s)
    (hfront : s'.chars <+: cs) : s'.chars.length ≤ s.chars.length := by
  have hsorted : all.Pairwise fun a b => b.chars.length ≤ a.chars.length := by decide
  obtain ⟨-, before, after, hall, hbefore⟩ := List.find?_eq_some_iff_append.mp h
  have hmem := mem_all s'
  rw [hall] at hmem hsorted
  rcases List.mem_append.mp hmem with hmem | hmem
  · -- a symbol further to the front would have been found
    have hnot := hbefore s' hmem
    rw [List.isPrefixOf_iff_prefix.mpr hfront] at hnot
    cases hnot
  · rcases List.mem_cons.mp hmem with rfl | hmem
    · exact Nat.le_refl _
    · exact (List.pairwise_cons.mp (List.pairwise_append.mp hsorted).2.1).1 s' hmem

theorem Symbol.not_prefix_of_ofFront? {cs : List Char} (h : ofFront? cs = none) (s : Symbol) :
    ¬ s.chars <+: cs := by
  have hnot := List.find?_eq_none.mp h s (mem_all s)
  rwa [List.isPrefixOf_iff_prefix] at hnot

/-- A word is spelled by its kind. -/
theorem spells_wordKind {c : Char} {cs : List Char} (hc : isWordStart c)
    (hcs : ∀ d ∈ cs, isWordPart d) : Spells (wordKind (c :: cs)) (c :: cs) := by
  unfold wordKind
  split
  · next k hk =>
    have htext : k.text = String.ofList (c :: cs) := by
      simpa using List.find?_some hk
    have hchars : k.text.toList = c :: cs := by
      rw [htext, String.toList_ofList]
    rw [← hchars]
    exact .keyword k
  · next hnone =>
    refine .identifier (isWordStart_iff.mp hc) (fun d hmem => isWordPart_iff.mp (hcs d hmem)) ?_
    intro k hk
    have hnot := List.find?_eq_none.mp hnone k k.mem_all
    rw [← hk, String.ofList_toList] at hnot
    simp at hnot

/-- A prefix of one kind of characters is no longer than the longest. -/
theorem length_le_takeWhile {α : Type} {p : α → Bool} {xs ys : List α} (h : xs <+: ys)
    (hxs : ∀ x ∈ xs, p x) : xs.length ≤ (ys.takeWhile p).length := by
  obtain ⟨rest, rfl⟩ := h
  rw [List.takeWhile_append_of_pos hxs, List.length_append]
  exact Nat.le_add_right _ _

/-! ## 3. Numbers -/

/-- Where digits end, the digits are taken exactly. -/
theorem splitDigits_eq {digits rest : List Char} (hdigits : ∀ c ∈ digits, c.isDigit)
    (hrest : ∀ c ∈ rest.head?, c.isDigit = false) :
    splitDigits (digits ++ rest) = (digits, rest) := by
  have htake : rest.takeWhile Char.isDigit = [] ∧ rest.dropWhile Char.isDigit = rest := by
    cases rest with
    | nil => exact ⟨rfl, rfl⟩
    | cons c cs =>
      have hc := hrest c rfl
      simp [hc]
  rw [splitDigits, List.takeWhile_append_of_pos hdigits, List.dropWhile_append_of_pos hdigits,
    htake.1, htake.2, List.append_nil]

theorem isDigit_of_mem_takeWhile {cs : List Char} : ∀ c ∈ cs.takeWhile Char.isDigit, c.isDigit := by
  intro c hc
  exact List.all_eq_true.mp List.all_takeWhile c hc

namespace Exponent

/-- An exponent that is taken is well formed. -/
theorem isExponent_of_split {cs : List Char} {e : Exponent} (h : (split cs).1 = some e) :
    IsExponent e := by
  unfold split at h
  split at h
  · cases h
  next mark rest =>
  split at h
  · next hmark =>
    split at h
    next sign tail hsign =>
    have hsigns : sign = none ∨ sign = some '+' ∨ sign = some '-' := by
      split at hsign <;> cases hsign <;> simp
    split at h
    · cases h
    · next digits behind hne hdigits =>
      cases h
      refine ⟨hmark, hsigns, ?_, hne⟩
      obtain ⟨rfl, -⟩ := Prod.mk.inj hdigits
      exact isDigit_of_mem_takeWhile
  · cases h

/-- An exponent at the front of a text is taken, with all digits behind it. -/
theorem length_le_split {e : Exponent} (he : IsExponent e) (tail : List Char) :
    e.text.length ≤ ((split (e.text ++ tail)).1.elim [] text).length := by
  obtain ⟨mark, sign, digits⟩ := e
  obtain ⟨hmark, hsign, hdigits, hne⟩ := he
  dsimp only at hmark hsign hdigits hne
  have htaken : splitDigits (digits ++ tail) =
      (digits ++ tail.takeWhile Char.isDigit, tail.dropWhile Char.isDigit) := by
    rw [splitDigits, List.takeWhile_append_of_pos hdigits, List.dropWhile_append_of_pos hdigits]
  cases digits with
  | nil => exact absurd rfl hne
  | cons d ds =>
    have hd := hdigits d List.mem_cons_self
    have hplus : d ≠ '+' := by
      rintro rfl
      cases hd
    have hminus : d ≠ '-' := by
      rintro rfl
      cases hd
    rw [List.cons_append] at htaken
    rcases hsign with rfl | rfl | rfl
    · simp [split, text, hmark, hplus, hminus, htaken]
    · simp [split, text, hmark, htaken]
    · simp [split, text, hmark, htaken]

end Exponent

namespace Numeral

/-- A numeral takes the digits at the front, then a point with digits behind it if there
is one, then the exponent if there is one. -/
theorem split_cases (cs : List Char) :
    (∃ behind, cs.dropWhile Char.isDigit = '.' :: behind ∧ behind.takeWhile Char.isDigit ≠ [] ∧
      (split cs).1 = ⟨cs.takeWhile Char.isDigit, some (behind.takeWhile Char.isDigit),
        (Exponent.split (behind.dropWhile Char.isDigit)).1⟩) ∨
    ((∀ behind, cs.dropWhile Char.isDigit = '.' :: behind → behind.takeWhile Char.isDigit = []) ∧
      (split cs).1 = ⟨cs.takeWhile Char.isDigit, none,
        (Exponent.split (cs.dropWhile Char.isDigit)).1⟩) := by
  unfold split
  simp only [splitDigits]
  split
  · next rest behind hrest =>
    by_cases hdigits : behind.takeWhile Char.isDigit = []
    · refine .inr ⟨?_, ?_⟩
      · intro behind' hbehind'
        rw [hrest] at hbehind'
        cases hbehind'
        exact hdigits
      · simp [hdigits, hrest]
    · exact .inl ⟨behind, hrest, hdigits, by simp⟩
  · next rest hrest => exact .inr ⟨fun behind h => absurd h (hrest behind), rfl⟩

theorem whole_split (cs : List Char) : (split cs).1.whole = cs.takeWhile Char.isDigit := by
  rcases split_cases cs with ⟨behind, -, -, hsplit⟩ | ⟨-, hsplit⟩ <;> rw [hsplit]

/-- The number at the front of a text is spelled as the grammar says. -/
theorem spells_split {c : Char} {cs : List Char} (h : Piece.startsNumber c cs) :
    Spells (.number (split (c :: cs)).1.value) (split (c :: cs)).1.text := by
  rcases split_cases (c :: cs) with ⟨behind, -, hne, hsplit⟩ | ⟨hpoint, hsplit⟩
  · have hspells := @Spells.number ((c :: cs).takeWhile Char.isDigit)
      (behind.takeWhile Char.isDigit) true (Exponent.split (behind.dropWhile Char.isDigit)).1
      isDigit_of_mem_takeWhile isDigit_of_mem_takeWhile hne
      fun e he => Exponent.isExponent_of_split he
    rw [hsplit]
    simpa [text, value, decimal, Lexical.decimal] using hspells
  · -- without a digit in front, the point and the digit behind it are the other case
    have hne : (c :: cs).takeWhile Char.isDigit ≠ [] := by
      intro hnil
      have hdrop : (c :: cs).dropWhile Char.isDigit = c :: cs := by
        have happend := splitDigits_append (c :: cs)
        simpa [splitDigits, hnil] using happend
      have hdigit : c.isDigit = false := by
        by_contra hc
        rw [Bool.not_eq_false] at hc
        simp [hc] at hnil
      simp only [Piece.startsNumber, hdigit, Bool.false_or, Bool.and_eq_true,
        decide_eq_true_eq] at h
      obtain ⟨rfl, hhead⟩ := h
      have hnone := hpoint cs hdrop
      cases cs with
      | nil => cases hhead
      | cons d ds =>
        have hd : d.isDigit = true := hhead
        simp [hd] at hnone
    have hspells := @Spells.number [] ((c :: cs).takeWhile Char.isDigit) false
      (Exponent.split ((c :: cs).dropWhile Char.isDigit)).1
      nofun isDigit_of_mem_takeWhile hne fun e he => Exponent.isExponent_of_split he
    rw [hsplit]
    simpa [text, value, decimal, Lexical.decimal] using hspells

/-- Digits in front of an exponent end there. -/
theorem takeWhile_digits_exponent {digits : List Char} {e : Exponent}
    (hdigits : ∀ c ∈ digits, c.isDigit) (he : IsExponent e) (tail : List Char) :
    (digits ++ (e.text ++ tail)).takeWhile Char.isDigit = digits ∧
      (digits ++ (e.text ++ tail)).dropWhile Char.isDigit = e.text ++ tail := by
  have hhead : ∀ c ∈ (e.text ++ tail).head?, c.isDigit = false := by
    intro c hc
    obtain rfl : e.mark = c := Option.some.inj hc
    rcases he.mark with hmark | hmark <;> rw [hmark] <;> rfl
  have hsplit := splitDigits_eq hdigits hhead
  exact Prod.mk.inj hsplit

/-- A number without a point is taken, with whatever continues it. -/
theorem length_le_split_of_whole {digits : List Char} {exponent : Option Exponent}
    (hdigits : ∀ c ∈ digits, c.isDigit) (hexponent : ∀ e ∈ exponent, IsExponent e)
    (tail : List Char) :
    (digits ++ exponent.elim [] Exponent.text).length ≤
      (split (digits ++ (exponent.elim [] Exponent.text ++ tail))).1.text.length := by
  cases exponent with
  | none =>
    have hwhole := whole_split (digits ++ tail)
    rw [List.takeWhile_append_of_pos hdigits] at hwhole
    simp only [Option.elim_none, List.append_nil, List.nil_append, text, hwhole,
      List.length_append]
    omega
  | some e =>
    have he := hexponent e rfl
    obtain ⟨htake, hdrop⟩ := takeWhile_digits_exponent hdigits he tail
    rcases split_cases (digits ++ (e.text ++ tail)) with ⟨behind, hpoint, -, -⟩ | ⟨-, hsplit⟩
    · -- what follows the digits is the mark of the exponent and not a point
      rw [hdrop] at hpoint
      have hmark : e.mark = '.' := (List.cons.inj hpoint).1
      rcases he.mark with h | h <;> exact absurd (h.symm.trans hmark) (by decide)
    · have hle := Exponent.length_le_split he tail
      rw [Option.elim_some, hsplit, htake, hdrop]
      simp only [text, Option.elim_none, List.append_nil, List.length_append]
      omega

/-- A number with a point is taken, with whatever continues it. -/
theorem length_le_split_of_point {whole last : List Char} {exponent : Option Exponent}
    (hwhole : ∀ c ∈ whole, c.isDigit) (hlast : ∀ c ∈ last, c.isDigit) (hne : last ≠ [])
    (hexponent : ∀ e ∈ exponent, IsExponent e) (tail : List Char) :
    (whole ++ '.' :: (last ++ exponent.elim [] Exponent.text)).length ≤
      (split (whole ++ '.' ::
        (last ++ (exponent.elim [] Exponent.text ++ tail)))).1.text.length := by
  -- the digits in front end at the point
  have hdigits : splitDigits (whole ++ '.' :: (last ++ (exponent.elim [] Exponent.text ++ tail))) =
      (whole, '.' :: (last ++ (exponent.elim [] Exponent.text ++ tail))) := by
    refine splitDigits_eq hwhole ?_
    rintro c ⟨⟩
    rfl
  obtain ⟨htake, hdrop⟩ := Prod.mk.inj hdigits
  have htaken : (last ++ (exponent.elim [] Exponent.text ++ tail)).takeWhile Char.isDigit =
      last ++ (exponent.elim [] Exponent.text ++ tail).takeWhile Char.isDigit :=
    List.takeWhile_append_of_pos hlast
  rcases split_cases (whole ++ '.' :: (last ++ (exponent.elim [] Exponent.text ++ tail))) with
    ⟨behind, hpoint, -, hsplit⟩ | ⟨hnone, -⟩
  · -- the point belongs to the number because a digit follows it
    rw [hdrop] at hpoint
    obtain ⟨-, rfl⟩ := List.cons.inj hpoint
    rw [hsplit, htake]
    cases exponent with
    | none =>
      rw [Option.elim_none, List.nil_append] at htaken
      simp only [text, Option.elim_none, Option.elim_some, List.append_nil, List.nil_append, htaken,
        List.length_append, List.length_cons]
      omega
    | some e =>
      have he := hexponent e rfl
      obtain ⟨htake', hdrop'⟩ := takeWhile_digits_exponent hlast he tail
      have hle := Exponent.length_le_split he tail
      rw [Option.elim_some, htake', hdrop']
      simp only [text, Option.elim_some, List.length_append, List.length_cons]
      omega
  · have hnil := hnone _ hdrop
    rw [htaken] at hnil
    exact absurd (List.append_eq_nil_iff.mp hnil).1 hne

/-- No longer number stands at the front of a text. -/
theorem length_le_split {whole last cs : List Char} {point : Bool} {exponent : Option Exponent}
    (hwhole : ∀ c ∈ whole, c.isDigit) (hlast : ∀ c ∈ last, c.isDigit) (hne : last ≠ [])
    (hexponent : ∀ e ∈ exponent, IsExponent e)
    (hfront : whole ++ ((if point then ['.'] else []) ++
      (last ++ exponent.elim [] Exponent.text)) <+: cs) :
    (whole ++ ((if point then ['.'] else []) ++
      (last ++ exponent.elim [] Exponent.text))).length ≤ (split cs).1.text.length := by
  obtain ⟨tail, rfl⟩ := hfront
  cases point with
  | true =>
    have hle := length_le_split_of_point hwhole hlast hne hexponent tail
    simpa using hle
  | false =>
    have hdigits : ∀ c ∈ whole ++ last, c.isDigit :=
      List.forall_mem_append.mpr ⟨hwhole, hlast⟩
    have hle := length_le_split_of_whole hdigits hexponent tail
    simpa using hle

end Numeral

/-! ## 4. Strings and comments -/

/-- A string literal is read up to the quote that closes it. -/
theorem stringRest?_of_quoted {value spelling : List Char} (h : Quoted value spelling)
    (rest : List Char) :
    stringRest? (spelling ++ '"' :: rest) = some (value, spelling ++ ['"']) := by
  induction h with
  | nil => rfl
  | @plain c value spelling hquote hbackslash _ ih =>
    rw [List.cons_append, stringRest?, ih]
    · rfl
    · exact hquote
    · exact fun h _ => hbackslash h
    · exact fun _ _ h _ => hbackslash h
  | @escape c value spelling _ ih =>
    rw [List.cons_append, List.cons_append, stringRest?, ih]
    rfl

/-- What is read is a string literal. -/
theorem quoted_of_stringRest? {cs value chars : List Char}
    (h : stringRest? cs = some (value, chars)) :
    ∃ spelling, chars = spelling ++ ['"'] ∧ Quoted value spelling := by
  fun_induction stringRest? cs generalizing value chars with
  | case1 => cases h
  | case2 rest =>
    cases h
    exact ⟨[], rfl, .nil⟩
  | case3 => cases h
  | case4 c cs ih =>
    obtain ⟨⟨_, tail⟩, htail, heq⟩ := Option.map_eq_some_iff.mp h
    cases heq
    obtain ⟨spelling, rfl, hquoted⟩ := ih htail
    exact ⟨'\\' :: c :: spelling, rfl, .escape hquoted⟩
  | case5 c cs hquote hlast hescape ih =>
    obtain ⟨⟨_, tail⟩, htail, heq⟩ := Option.map_eq_some_iff.mp h
    cases heq
    obtain ⟨spelling, rfl, hquoted⟩ := ih htail
    -- a backslash begins an escape, or leaves the literal open
    have hbackslash : c ≠ '\\' := by
      rintro rfl
      cases cs with
      | nil => exact hlast rfl rfl
      | cons d ds => exact hescape d ds rfl rfl
    exact ⟨c :: spelling, rfl, .plain hquote hbackslash hquoted⟩

/-- Without an end a block comment is not closed. -/
theorem not_infix_of_commentRest? {cs : List Char} (h : commentRest? cs = none) :
    ¬ ['*', '/'] <:+: cs := by
  fun_induction commentRest? cs with
  | case1 => simp
  | case2 => cases h
  | case3 c cs hend ih =>
    intro hinfix
    rcases List.infix_cons_iff.mp hinfix with hfront | hinfix
    · obtain ⟨rest, hrest⟩ := hfront
      cases hrest
      exact hend rest rfl rfl
    · exact ih (Option.map_eq_none_iff.mp h) hinfix

/-- A closed comment ends at the first place where it can. -/
theorem body_of_commentRest? {cs chars : List Char} (h : commentRest? cs = some chars) :
    ∃ body, chars = body ++ ['*', '/'] ∧ ¬ ['*', '/'] <:+: body := by
  fun_induction commentRest? cs generalizing chars with
  | case1 => cases h
  | case2 rest =>
    cases h
    exact ⟨[], rfl, by simp⟩
  | case3 c cs hend ih =>
    obtain ⟨tail, htail, rfl⟩ := Option.map_eq_some_iff.mp h
    obtain ⟨body, rfl, hbody⟩ := ih htail
    refine ⟨c :: body, rfl, fun hinfix => ?_⟩
    rcases List.infix_cons_iff.mp hinfix with hfront | hinfix
    · -- an end across the first two characters would have been taken
      obtain ⟨rest, hrest⟩ := hfront
      obtain ⟨behind, hbehind⟩ := commentRest?_append htail
      cases hrest
      cases hbehind
      exact hend _ rfl rfl
    · exact hbody hinfix

/-! ## 5. The first piece -/

namespace Piece

variable {c : Char} {cs : List Char}

/-- A word is a token, and not the end. -/
theorem kind_word (c : Char) (cs : List Char) :
    ∃ kind, (word c cs).kind = some kind ∧ kind ≠ .finish := by
  unfold word
  split
  · exact ⟨_, rfl, nofun⟩
  split
  · refine ⟨_, rfl, ?_⟩
    unfold wordKind
    split <;> exact nofun
  split
  · exact ⟨_, rfl, nofun⟩
  split
  · unfold string
    split <;> exact ⟨_, rfl, nofun⟩
  · exact ⟨_, rfl, nofun⟩

/-- Where no class of spellings begins, nothing is spelled. -/
theorem not_prefix_of_none (hsymbol : Symbol.ofFront? (c :: cs) = none)
    (hword : isWordStart c = false) (hnumber : startsNumber c cs = false)
    (hquote : c = '"' → stringRest? cs = none) {kind : Token.Kind} {chars : List Char}
    (h : Spells kind chars) : ¬ chars <+: c :: cs := by
  intro hfront
  cases h.fronts hfront with
  | symbol s => exact Symbol.not_prefix_of_ofFront? hsymbol s hfront
  | word hc _ => exact Bool.false_ne_true (hword.symm.trans hc)
  | number hc _ _ _ _ => exact Bool.false_ne_true (hnumber.symm.trans hc)
  | @str value spelling hc hquoted =>
    obtain ⟨rest, hrest⟩ := hfront
    have hcs : cs = spelling ++ '"' :: rest := by
      simpa using (List.cons.inj hrest).2.symm
    have hnone := hquote hc
    rw [hcs, stringRest?_of_quoted hquoted rest] at hnone
    cases hnone

/-- A symbol is the longest spelling at the front of its text. -/
theorem symbol_max {s : Symbol} (hs : Symbol.ofFront? (c :: cs) = some s) {kind : Token.Kind}
    {chars : List Char} (h : Spells kind chars) (hfront : chars <+: c :: cs) :
    chars.length ≤ s.chars.length := by
  -- the symbol shows what `c` is, which leaves no other class
  obtain ⟨d, rest, hchars, hword, hdigit, hpoint, hquote⟩ := s.chars_eq_cons
  obtain ⟨tail, htail⟩ := Symbol.append_of_ofFront? hs
  rw [hchars] at htail
  obtain ⟨rfl, -⟩ := List.cons.inj htail
  cases h.fronts hfront with
  | symbol s' => exact Symbol.length_le_of_ofFront? hs hfront
  | word hc _ => exact absurd hc (by simp [hword])
  | number hc _ _ _ _ => exact absurd hc (by simp [startsNumber, hdigit, hpoint])
  | str hc _ => exact absurd hc hquote

/-- A word takes all characters that can belong to it. -/
theorem word_max (hsymbol : Symbol.ofFront? (c :: cs) = none) (hc : isWordStart c)
    {kind : Token.Kind} {chars : List Char} (h : Spells kind chars) (hfront : chars <+: c :: cs) :
    chars.length ≤ (c :: cs.takeWhile isWordPart).length := by
  cases h.fronts hfront with
  | symbol s => exact absurd hfront (Symbol.not_prefix_of_ofFront? hsymbol s)
  | word _ hchars =>
    have hle := length_le_takeWhile (List.cons_prefix_cons.mp hfront).2 hchars
    simpa using hle
  | number hnumber _ _ _ _ =>
    rw [startsNumber_eq_false_of_isWordStart cs hc] at hnumber
    cases hnumber
  | str hquote _ => exact absurd hquote (ne_quote_of_isWordStart hc)

/-- A number takes as much as can belong to it. -/
theorem number_max (hsymbol : Symbol.ofFront? (c :: cs) = none) (hword : isWordStart c = false)
    (hc : startsNumber c cs) {kind : Token.Kind} {chars : List Char} (h : Spells kind chars)
    (hfront : chars <+: c :: cs) : chars.length ≤ (Numeral.split (c :: cs)).1.text.length := by
  cases h.fronts hfront with
  | symbol s => exact absurd hfront (Symbol.not_prefix_of_ofFront? hsymbol s)
  | word hstart _ => exact absurd hstart (by simp [hword])
  | number _ hwhole hlast hne hexponent =>
    exact Numeral.length_le_split hwhole hlast hne hexponent hfront
  | str hquote _ => exact absurd hquote (ne_quote_of_startsNumber hc)

/-- Only one string literal stands at the front of a text. -/
theorem string_max {value spelling : List Char} (hrest : stringRest? cs = some (value, spelling))
    {kind : Token.Kind} {chars : List Char} (h : Spells kind chars) (hfront : chars <+: '"' :: cs) :
    chars.length ≤ ('"' :: spelling).length := by
  cases h.fronts hfront with
  | symbol s =>
    obtain ⟨d, rest, hchars, -, -, -, hquote⟩ := s.chars_eq_cons
    rw [hchars] at hfront
    exact absurd (List.cons_prefix_cons.mp hfront).1 hquote
  | word hstart _ => cases hstart
  | number hnumber _ _ _ _ => cases hnumber
  | @str value' spelling' _ hquoted =>
    obtain ⟨tail, htail⟩ := hfront
    have hcs : cs = spelling' ++ '"' :: tail := by
      simpa using (List.cons.inj htail).2.symm
    rw [hcs, stringRest?_of_quoted hquoted tail] at hrest
    cases hrest
    exact Nat.le_refl _

/-- Where neither blank nor comment stands, the word cut from a text is its lexeme. -/
theorem lexeme_word (hcomment : ¬ ['/', '*'] <+: c :: cs) :
    ∃ kind, (word c cs).kind = some kind ∧ Lexeme (c :: cs) kind (word c cs).chars := by
  have hfront : (word c cs).chars <+: c :: cs := chars_word c cs
  revert hfront
  unfold word
  -- symbols come first, then words, numbers and strings; each is as long as it can be
  split
  · next s hs =>
    intro hfront
    exact ⟨.symbol s, rfl, .longest hcomment (.symbol s) hfront fun _ _ => symbol_max hs⟩
  next hsymbol =>
  split
  · next hc =>
    intro hfront
    have hchars : ∀ d ∈ cs.takeWhile isWordPart, isWordPart d :=
      fun d hd => List.all_eq_true.mp List.all_takeWhile d hd
    exact ⟨_, rfl, .longest hcomment (spells_wordKind hc hchars) hfront
      fun _ _ => word_max hsymbol hc⟩
  next hword =>
  rw [Bool.not_eq_true] at hword
  split
  · next hc =>
    intro hfront
    exact ⟨_, rfl, .longest hcomment (Numeral.spells_split hc) hfront
      fun _ _ => number_max hsymbol hword hc⟩
  next hnumber =>
  rw [Bool.not_eq_true] at hnumber
  split
  · next hquote =>
    subst hquote
    unfold string
    split
    · next value chars hrest =>
      intro hfront
      obtain ⟨spelling, rfl, hquoted⟩ := quoted_of_stringRest? hrest
      exact ⟨_, rfl, .longest hcomment (.str hquoted) hfront fun _ _ => string_max hrest⟩
    · -- a string that is not closed is malformed as a whole
      next hnone =>
      intro _
      exact ⟨_, rfl, .unclosedString rfl fun _ _ =>
        not_prefix_of_none hsymbol hword hnumber fun _ => hnone⟩
  · next hquote =>
    intro _
    exact ⟨_, rfl, .unexpected rfl hquote fun _ _ =>
      not_prefix_of_none hsymbol hword hnumber fun h => absurd h hquote⟩

theorem mem_blanks {c : Char} : c ∈ [' ', '\t', '\n', '\x0c', '\r'] ↔ Text.isLayoutBlank c := by
  simp [Text.isLayoutBlank, or_assoc]

/-- Where no layout is cut, none stands. -/
theorem bare_of_first (hblank : Text.isLayoutBlank c = false)
    (hcomment : ∀ p, c = '/' → comment? cs = some p → p.kind ≠ none) : Bare (c :: cs) := by
  intro gap rest htext hgap
  cases hgap with
  | nil => rfl
  | blank hd _ =>
    obtain ⟨rfl, -⟩ := List.cons.inj htext
    rw [mem_blanks, hblank] at hd
    cases hd
  | @line body gap rest _ _ _ =>
    cases htext
    exact absurd rfl (hcomment _ rfl rfl)
  | @block body gap rest _ _ =>
    cases htext
    -- a comment with an end is found and cut
    have hclosed : commentRest? (body ++ '*' :: '/' :: (gap ++ rest)) ≠ none := by
      intro hnone
      refine not_infix_of_commentRest? hnone ⟨body, gap ++ rest, ?_⟩
      simp
    cases hrest : commentRest? (body ++ '*' :: '/' :: (gap ++ rest)) with
    | none => exact absurd hrest hclosed
    | some chars =>
      refine absurd rfl (hcomment (layout ('/' :: '*' :: chars)) rfl ?_)
      simp [comment?, hrest]

theorem comment?_star_ne_none (rest : List Char) : comment? ('*' :: rest) ≠ none := by
  rw [comment?]
  split <;> exact nofun

/-- The lexeme at the front of a text is the one of the grammar. -/
theorem lexeme_first {kind : Token.Kind} (h : (first c cs).kind = some kind) :
    Lexeme (c :: cs) kind (first c cs).chars ∧ Bare (c :: cs) := by
  unfold first at h ⊢
  split at h
  · cases h
  next hblank =>
  rw [Bool.not_eq_true] at hblank
  rw [if_neg (by simp [hblank])]
  by_cases hslash : c = '/'
  · subst hslash
    rw [if_pos rfl] at h ⊢
    cases hcomment : comment? cs with
    | none =>
      rw [hcomment, Option.getD_none] at h
      have hopen : ¬ ['/', '*'] <+: '/' :: cs := by
        rintro ⟨rest, hrest⟩
        cases hrest
        exact comment?_star_ne_none rest hcomment
      obtain ⟨kind', hkind', hlexeme⟩ := lexeme_word hopen
      rw [hkind'] at h
      cases h
      exact ⟨hlexeme, bare_of_first hblank fun p _ hp => by rw [hcomment] at hp; cases hp⟩
    | some p =>
      -- of the comments only one without an end is a token
      rw [hcomment, Option.getD_some] at h
      have hbare : Bare ('/' :: cs) := by
        refine bare_of_first hblank fun p' _ hp' => ?_
        rw [hcomment] at hp'
        cases hp'
        rw [h]
        exact nofun
      refine ⟨?_, hbare⟩
      rw [Option.getD_some]
      unfold comment? at hcomment
      split at hcomment
      · cases hcomment
        cases h
      · next body =>
        split at hcomment
        · cases hcomment
          cases h
        · next hnone =>
          cases hcomment
          cases h
          exact .unclosedComment rfl (not_infix_of_commentRest? hnone)
      · cases hcomment
  · rw [if_neg hslash] at h ⊢
    have hopen : ¬ ['/', '*'] <+: c :: cs := by
      rintro ⟨rest, hrest⟩
      exact hslash (List.cons.inj hrest).1.symm
    obtain ⟨kind', hkind', hlexeme⟩ := lexeme_word hopen
    rw [hkind'] at h
    cases h
    exact ⟨hlexeme, bare_of_first hblank fun p hc _ => absurd hc hslash⟩

/-- Layout cut from the front of a text is layout, with any layout behind it. -/
theorem layout_first (h : (first c cs).kind = none) {gap rest : List Char}
    (htext : (first c cs).chars ++ (gap ++ rest) = c :: cs) (hgap : IsLayout gap rest) :
    IsLayout ((first c cs).chars ++ gap) rest := by
  unfold first at h htext ⊢
  split at h
  · next hblank =>
    rw [if_pos hblank]
    exact .blank (mem_blanks.mpr hblank) hgap
  next hblank =>
  rw [if_neg hblank] at htext ⊢
  split at h
  · next hslash =>
    subst hslash
    rw [if_pos rfl] at htext ⊢
    cases hcomment : comment? cs with
    | none =>
      obtain ⟨kind, hkind, -⟩ := kind_word '/' cs
      rw [hcomment, Option.getD_none, hkind] at h
      cases h
    | some p =>
      rw [hcomment, Option.getD_some] at h htext
      rw [Option.getD_some]
      unfold comment? at hcomment
      split at hcomment
      · -- a comment up to the end of its line
        next tail =>
        cases hcomment
        have hdrop : gap ++ rest = tail.dropWhile (· ≠ '\n') := by
          have htake : tail.takeWhile (· ≠ '\n') ++ (gap ++ rest) = tail :=
            (List.cons.inj (List.cons.inj htext).2).2
          exact List.append_cancel_left (htake.trans List.takeWhile_append_dropWhile.symm)
        refine .line (fun hmem => ?_) (fun d hd => ?_) hgap
        · have hne := List.all_eq_true.mp List.all_takeWhile _ hmem
          simp at hne
        · have hstop := List.head?_dropWhile_not (· ≠ '\n') tail
          rw [← hdrop, hd] at hstop
          simpa using hstop
      · next tail =>
        split at hcomment
        · -- a comment up to its end mark
          next chars hchars =>
          cases hcomment
          obtain ⟨body, rfl, hbody⟩ := body_of_commentRest? hchars
          simpa [layout] using IsLayout.block hbody hgap
        · cases hcomment
          cases h
      · cases hcomment
  · obtain ⟨kind, hkind, -⟩ := kind_word c cs
    rw [hkind] at h
    cases h

end Piece

/-! ## 6. Kinds -/

namespace Piece

/-- No piece is the end: that stands behind the last of them. -/
theorem kind_first_ne_finish (c : Char) (cs : List Char) : (first c cs).kind ≠ some .finish := by
  unfold first
  split
  · exact nofun
  split
  · cases hcomment : comment? cs with
    | none =>
      obtain ⟨kind, hkind, hne⟩ := kind_word c cs
      rw [Option.getD_none, hkind]
      exact fun h => hne (Option.some.inj h)
    | some p =>
      unfold comment? at hcomment
      split at hcomment
      · cases hcomment
        exact nofun
      · split at hcomment <;> cases hcomment <;> exact nofun
      · cases hcomment
  · obtain ⟨kind, hkind, hne⟩ := kind_word c cs
    rw [hkind]
    exact fun h => hne (Option.some.inj h)

end Piece

theorem kind_ne_finish_of_mem_scanFrom {pos : Position} {skip : Nat} {cs : List Char} :
    ∀ t ∈ (scanFrom pos skip cs).tokens, t.kind ≠ .finish := by
  fun_induction scanFrom pos skip cs with
  | case1 => exact nofun
  | case2 pos skip c cs ih => exact ih
  | case3 pos c cs piece hkind ih => exact ih
  | case4 pos c cs piece kind hkind ih =>
    intro t ht
    rcases List.mem_cons.mp ht with rfl | ht
    · intro hfinish
      exact Piece.kind_first_ne_finish c cs (hkind.trans (congrArg some hfinish))
    · exact ih t ht

theorem kind_ne_finish_of_mem_scan (source : String) :
    ∀ t ∈ (scan source).tokens, t.kind ≠ .finish :=
  kind_ne_finish_of_mem_scanFrom

/-! ## 7. The whole text -/

namespace Lexical

theorem Spells.ne_nil {kind : Token.Kind} {chars : List Char} (h : Spells kind chars) :
    chars ≠ [] := by
  cases h with
  | symbol s => cases s <;> exact nofun
  | keyword k => cases k <;> exact nofun
  | identifier => exact nofun
  | number _ _ hne _ =>
    intro hnil
    simp only [List.append_eq_nil_iff] at hnil
    exact hne hnil.2.2.1
  | str => exact nofun

theorem Lexeme.ne_nil {c : Char} {cs chars : List Char} {kind : Token.Kind}
    (h : Lexeme (c :: cs) kind chars) : chars ≠ [] := by
  cases h with
  | longest _ hspells _ _ => exact hspells.ne_nil
  | unclosedComment | unclosedString | unexpected => exact nofun

theorem spelled_cons (gap : List Char) (t : Token) (tokens : List (List Char × Token)) :
    spelled ((gap, t) :: tokens) = gap ++ (t.lexeme.toList ++ spelled tokens) := by
  simp [spelled]

/-- The end of a text, alone. -/
theorem cut_finish (pos : Position) : Cut pos [([], .finish pos)] := by
  intro before gap t after heq
  obtain ⟨rfl, hsingle⟩ : before = [] ∧ [([], Token.finish pos)] = (gap, t) :: after := by
    cases before with
    | nil => exact ⟨rfl, heq⟩
    | cons b bs => exact absurd (List.cons.inj heq).2 (by simp)
  cases hsingle
  refine ⟨.nil, ?_, .finish, fun _ => rfl, rfl⟩
  intro gap rest htext _
  exact (List.append_eq_nil_iff.mp htext.symm).1

/-- A token in front of a text that is cut. -/
theorem Cut.cons {pos : Position} {gap : List Char} {t : Token} {after : List (List Char × Token)}
    (h : Placed pos [] gap t after) (hafter : Cut (pos.advance (gap ++ t.lexeme.toList)) after) :
    Cut pos ((gap, t) :: after) := by
  intro before gap' t' after' heq
  cases before with
  | nil =>
    cases heq
    exact h
  | cons b bs =>
    obtain ⟨rfl, rfl⟩ := List.cons.inj heq
    have hplaced := hafter bs gap' t' after' rfl
    refine { hplaced with pos := ?_ }
    rw [hplaced.pos, spelled_cons, ← Position.advance_append]
    simp

/-- Layout in front of a text that is cut belongs to its first gap. -/
theorem Cut.widen {pos : Position} {chars gap : List Char} {t : Token}
    {after : List (List Char × Token)} (h : Cut (pos.advance chars) ((gap, t) :: after))
    (hlayout : IsLayout (chars ++ gap) (t.lexeme.toList ++ spelled after)) :
    Cut pos ((chars ++ gap, t) :: after) := by
  intro before gap' t' after' heq
  cases before with
  | nil =>
    cases heq
    have hplaced := h [] gap t after rfl
    refine { hplaced with layout := hlayout, pos := ?_ }
    rw [hplaced.pos, ← Position.advance_append]
    rfl
  | cons b bs =>
    obtain ⟨rfl, rfl⟩ := List.cons.inj heq
    have hplaced := h ((gap, t) :: bs) gap' t' after' rfl
    refine { hplaced with pos := ?_ }
    rw [hplaced.pos, spelled_cons, spelled_cons, ← Position.advance_append]
    simp

end Lexical

/-- Scanning goes on behind the first piece. -/
theorem scanFrom_behind {pos : Position} {c : Char} {cs chars rest : List Char} (hne : chars ≠ [])
    (happend : chars ++ rest = c :: cs) :
    scanFrom (pos.after c) (chars.length - 1) cs = scanFrom (pos.advance chars) 0 rest := by
  cases chars with
  | nil => exact absurd rfl hne
  | cons d ds =>
    cases happend
    rw [scanFrom_skip]
    simp

/-- No piece is empty, so scanning moves on. -/
theorem Piece.chars_first_ne_nil (c : Char) (cs : List Char) : (first c cs).chars ≠ [] := by
  cases hkind : (first c cs).kind with
  | some kind => exact (lexeme_first hkind).1.ne_nil
  | none =>
    obtain ⟨kind, hword, -⟩ := kind_word c cs
    unfold first at hkind ⊢
    split
    · exact nofun
    next hblank =>
    rw [if_neg hblank] at hkind
    split
    · next hslash =>
      rw [if_pos hslash] at hkind
      cases hcomment : comment? cs with
      | none =>
        rw [hcomment, Option.getD_none, hword] at hkind
        cases hkind
      | some p =>
        unfold comment? at hcomment
        split at hcomment
        · cases hcomment
          exact nofun
        · split at hcomment <;> cases hcomment <;> exact nofun
        · cases hcomment
    · next hslash =>
      rw [if_neg hslash, hword] at hkind
      cases hkind

theorem exists_cut (pos : Position) (cs : List Char) :
    ∃ tokens : List (List Char × Token), tokens.map Prod.snd = (scanFrom pos 0 cs).all ∧
      spelled tokens = cs ∧ Cut pos tokens := by
  induction hlength : cs.length using Nat.strongRecOn generalizing pos cs with
  | ind n ih =>
    cases cs with
    | nil => exact ⟨[([], .finish pos)], rfl, rfl, cut_finish pos⟩
    | cons c cs =>
      obtain ⟨rest, hrest⟩ := Piece.chars_first c cs
      have hne := Piece.chars_first_ne_nil c cs
      have hshorter : rest.length < n := by
        have hlengths := congrArg List.length hrest
        have hpos := List.length_pos_iff.mpr hne
        rw [List.length_append, hlength] at hlengths
        omega
      obtain ⟨tokens, htokens, hspelled, hcut⟩ :=
        ih rest.length hshorter (pos.advance (Piece.first c cs).chars) rest rfl
      cases hkind : (Piece.first c cs).kind with
      | none =>
        -- layout joins the gap of the next token, and the end is one at least
        cases tokens with
        | nil => exact absurd htokens (by simp [Scan.all])
        | cons first after =>
          obtain ⟨gap, t⟩ := first
          rw [spelled_cons] at hspelled
          have hlayout :
              IsLayout ((Piece.first c cs).chars ++ gap) (t.lexeme.toList ++ spelled after) := by
            refine Piece.layout_first hkind ?_ (hcut [] gap t after rfl).layout
            rw [hspelled, hrest]
          refine ⟨((Piece.first c cs).chars ++ gap, t) :: after, ?_, ?_, hcut.widen hlayout⟩
          · rw [scanFrom]
            simp only [hkind]
            rw [scanFrom_behind hne hrest, ← htokens]
            rfl
          · rw [spelled_cons, List.append_assoc, hspelled, hrest]
      | some kind =>
        obtain ⟨hlexeme, hbare⟩ := Piece.lexeme_first hkind
        refine ⟨([], ⟨kind, String.ofList (Piece.first c cs).chars, pos⟩) :: tokens, ?_, ?_, ?_⟩
        · rw [scanFrom]
          simp only [hkind]
          rw [scanFrom_behind hne hrest, List.map_cons, htokens]
          rfl
        · rw [spelled_cons, hspelled]
          simpa using hrest
        · refine .cons ⟨.nil, ?_, ?_, ?_, rfl⟩ ?_
          · simpa [hspelled, hrest] using hbare
          · simpa [hspelled, hrest] using hlexeme
          · intro hnil
            exact absurd (by simpa using hnil) hne
          · simpa using hcut

/-! ## 8. Reading token by token -/

/-- A text that is being read: the characters left, and where they stand. -/
structure Reader where
  pos : Position
  rest : List Char
deriving DecidableEq, Repr

namespace Reader

/-- The next token behind `skip` characters, and the reader behind it. At the end stands
the token of the end, and the reader stays there. -/
def nextFrom (pos : Position) : (skip : Nat) → List Char → Token × Reader
  | _, [] => (.finish pos, ⟨pos, []⟩)
  | skip + 1, c :: cs => nextFrom (pos.after c) skip cs
  | 0, c :: cs =>
    let piece := Piece.first c cs
    match piece.kind with
    | none => nextFrom (pos.after c) (piece.chars.length - 1) cs
    | some kind =>
      (⟨kind, String.ofList piece.chars, pos⟩,
        ⟨pos.advance piece.chars, cs.drop (piece.chars.length - 1)⟩)

def next (r : Reader) : Token × Reader := nextFrom r.pos 0 r.rest

/-- The token that reading gives after `k` others. -/
def token (r : Reader) : Nat → Token
  | 0 => r.next.1
  | k + 1 => r.next.2.token k

/-- A scan is what reading gives: the next token and the scan behind it, or the end. -/
theorem scanFrom_nextFrom (pos : Position) (skip : Nat) (cs : List Char) :
    (scanFrom pos skip cs = ⟨[], (nextFrom pos skip cs).2.pos⟩ ∧
      nextFrom pos skip cs = (.finish (nextFrom pos skip cs).2.pos,
        ⟨(nextFrom pos skip cs).2.pos, []⟩)) ∨
    scanFrom pos skip cs =
      (scanFrom (nextFrom pos skip cs).2.pos 0 (nextFrom pos skip cs).2.rest).cons
        (nextFrom pos skip cs).1 := by
  fun_induction nextFrom pos skip cs with
  | case1 pos skip => exact .inl ⟨by rw [scanFrom], rfl⟩
  | case2 pos skip c cs ih =>
    rw [scanFrom]
    exact ih
  -- layout is passed over, and the first token is the one behind it
  | case3 pos c cs piece hkind ih =>
    have hscan : scanFrom pos 0 (c :: cs) = scanFrom (pos.after c) (piece.chars.length - 1) cs := by
      rw [scanFrom]
      simp only [piece] at hkind ⊢
      rw [hkind]
    rw [hscan]
    exact ih
  | case4 pos c cs piece kind hkind =>
    refine .inr ?_
    -- the rest of the lexeme is skipped before the scan goes on
    obtain ⟨rest, hrest⟩ := Piece.chars_first c cs
    have hdrop : cs.drop (piece.chars.length - 1) = rest := by
      have hne := Piece.chars_first_ne_nil c cs
      cases hchars : piece.chars with
      | nil => exact absurd hchars hne
      | cons d ds =>
        simp only [piece] at hchars
        rw [hchars] at hrest
        cases hrest
        simp
    rw [scanFrom]
    simp only [piece] at hkind hdrop ⊢
    rw [hkind]
    dsimp only
    rw [scanFrom_behind (Piece.chars_first_ne_nil c cs) hrest, hdrop]

/-- Reading gives the tokens of the scan in order, and then the end for ever. -/
theorem token_eq (r : Reader) (k : Nat) :
    r.token k = (scanFrom r.pos 0 r.rest).all[k]?.getD
      (.finish (scanFrom r.pos 0 r.rest).finish) := by
  induction k generalizing r with
  | zero =>
    rcases scanFrom_nextFrom r.pos 0 r.rest with ⟨hscan, hnext⟩ | hscan
    · rw [token, next, hnext, hscan]
      rfl
    · rw [token, next, hscan]
      rfl
  | succ k ih =>
    rw [token, ih]
    rcases scanFrom_nextFrom r.pos 0 r.rest with ⟨hscan, hnext⟩ | hscan
    · -- behind the end reading starts at the end
      rw [next, hnext, hscan, scanFrom]
      cases k <;> rfl
    · rw [next, hscan]
      rfl

end Reader

/-! ## 9. Scanning -/

/-- A scan loses nothing of its text and cuts it as the grammar says, by the longest
spelling. One token is the end, the last, and reading on gives it again and again. -/
theorem scan_takes_longest_lexemes (source : String) :
    (∃ tokens : List (List Char × Token), tokens.map Prod.snd = (scan source).all ∧
      spelled tokens = source.toList ∧ Cut .start tokens) ∧
    ∃ eof, eof.kind = .finish ∧ (scan source).all = (scan source).tokens ++ [eof] ∧
      (∀ t ∈ (scan source).tokens, t.kind ≠ .finish) ∧
      ∀ k, (Reader.mk .start source.toList).token k = (scan source).all[k]?.getD eof :=
  ⟨exists_cut .start source.toList, .finish (scan source).finish, rfl, rfl,
    kind_ne_finish_of_mem_scan source, Reader.token_eq _⟩

end CalcScript
