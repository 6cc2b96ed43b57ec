/-
`Proofs/Separation.lean` -- a blank separates what stands on its two sides.

No lexeme but a string literal contains a blank, and a string literal ends at its quote.
So the piece at the front of a text stays the same when a blank and any other text are
put behind it, unless it is malformed (`Piece.first_append_blank`); a line comment needs
a newline to end it. Two facts about whole texts follow: the tokens of a text with a
newline and more behind it are those of the two parts (`scanFrom_append_newline`), and
words with a space behind each are scanned as these words (`scan_spaced`). So any tokens
that are spelled as the lexical grammar says and derive a sequence are those of some
accepted program (`Expr.parse_of_spelled`).
-/
import CalcScript.Proofs.ParserCompleteness
import CalcScript.Proofs.Relocation

set_option autoImplicit false

namespace CalcScript

open Lexical

/-! ## 1. Blanks -/

section Blank

variable {b : Char}

/-- What no blank has, this one has not. -/
theorem eq_false_of_isLayoutBlank (hb : Text.isLayoutBlank b) {p : Char → Bool}
    (hp : ([' ', '\t', '\n', '\x0c', '\r'].all fun c => !p c) = true) : p b = false := by
  have hnot := List.all_eq_true.mp hp b (Piece.mem_blanks.mpr hb)
  simpa using hnot

theorem isDigit_of_isLayoutBlank (hb : Text.isLayoutBlank b) : b.isDigit = false :=
  eq_false_of_isLayoutBlank hb rfl

theorem isWordPart_of_isLayoutBlank (hb : Text.isLayoutBlank b) : isWordPart b = false :=
  eq_false_of_isLayoutBlank hb rfl

/-- The marks that have a meaning inside of numbers and comments are not blank. -/
theorem ne_mark_of_isLayoutBlank (hb : Text.isLayoutBlank b) {c : Char}
    (hc : c ∈ ['.', 'e', 'E', '+', '-', '/', '*']) : b ≠ c := by
  rintro rfl
  revert b
  simp only [List.mem_cons, List.not_mem_nil, or_false]
  rintro b h (rfl | rfl | rfl | rfl | rfl | rfl | rfl) <;> cases h

theorem notMem_symbol_of_isLayoutBlank (hb : Text.isLayoutBlank b) (s : Symbol) :
    b ∉ s.chars := by
  have hall : s.chars.all (fun c => !Text.isLayoutBlank c) = true := by
    cases s <;> rfl
  intro hmem
  have hnot := List.all_eq_true.mp hall b hmem
  rw [hb] at hnot
  cases hnot

end Blank

/-! ## 2. What a blank ends -/

section Ends

variable {b : Char}

/-- Where a run of characters of one kind ends, nothing more is taken. -/
theorem takeWhile_append_stop {p : Char → Bool} (hb : p b = false) (cs tail : List Char) :
    (cs ++ b :: tail).takeWhile p = cs.takeWhile p ∧
      (cs ++ b :: tail).dropWhile p = cs.dropWhile p ++ b :: tail := by
  induction cs with
  | nil => simp [hb]
  | cons c cs ih =>
    by_cases hc : p c
    · simp [hc, ih]
    · simp [hc]

theorem isPrefixOf_append_stop {xs : List Char} (hb : b ∉ xs) (cs tail : List Char) :
    xs.isPrefixOf (cs ++ b :: tail) = xs.isPrefixOf cs := by
  induction xs generalizing cs with
  | nil => simp
  | cons x xs ih =>
    have hx : b ≠ x := List.ne_of_not_mem_cons hb
    have hxs : b ∉ xs := List.not_mem_of_not_mem_cons hb
    cases cs with
    | nil =>
      have hne : (x == b) = false := by simpa using hx.symm
      simp [List.isPrefixOf, hne]
    | cons c cs => simp [List.isPrefixOf, ih hxs]

theorem Symbol.ofFront?_append_blank (hb : Text.isLayoutBlank b) (cs tail : List Char) :
    ofFront? (cs ++ b :: tail) = ofFront? cs := by
  have hsame : (fun s : Symbol => s.chars.isPrefixOf (cs ++ b :: tail)) =
      fun s : Symbol => s.chars.isPrefixOf cs := by
    funext s
    exact isPrefixOf_append_stop (notMem_symbol_of_isLayoutBlank hb s) cs tail
  rw [ofFront?, ofFront?, hsame]

theorem splitDigits_append_blank (hb : Text.isLayoutBlank b) (cs tail : List Char) :
    splitDigits (cs ++ b :: tail) = ((splitDigits cs).1, (splitDigits cs).2 ++ b :: tail) := by
  obtain ⟨htake, hdrop⟩ := takeWhile_append_stop (isDigit_of_isLayoutBlank hb) cs tail
  rw [splitDigits, htake, hdrop]
  rfl

theorem Exponent.split_append_blank (hb : Text.isLayoutBlank b) (cs tail : List Char) :
    split (cs ++ b :: tail) = ((split cs).1, (split cs).2 ++ b :: tail) := by
  have hplus : b ≠ '+' := ne_mark_of_isLayoutBlank hb (by decide)
  have hminus : b ≠ '-' := ne_mark_of_isLayoutBlank hb (by decide)
  cases cs with
  | nil =>
    have he : b ≠ 'e' := ne_mark_of_isLayoutBlank hb (by decide)
    have hE : b ≠ 'E' := ne_mark_of_isLayoutBlank hb (by decide)
    simp [split, he, hE]
  | cons mark rest =>
    by_cases hmark : mark = 'e' ∨ mark = 'E'
    · -- behind the mark stands a sign or not, and then the digits
      have hdigits := splitDigits_append_blank hb
      unfold split
      simp only [List.cons_append, if_pos hmark]
      cases rest with
      | nil =>
        have hnone : splitDigits (b :: tail) = ([], b :: tail) := hdigits [] tail
        have hnil : splitDigits [] = ([], []) := rfl
        simp [hplus, hminus, hnone, hnil]
      | cons sign behind =>
        by_cases hp : sign = '+'
        · subst hp
          simp only [List.cons_append, hdigits behind tail]
          generalize splitDigits behind = parts
          obtain ⟨_ | ⟨d, ds⟩, more⟩ := parts <;> rfl
        by_cases hm : sign = '-'
        · subst hm
          simp only [List.cons_append, hdigits behind tail]
          generalize splitDigits behind = parts
          obtain ⟨_ | ⟨d, ds⟩, more⟩ := parts <;> rfl
        -- neither a sign: the digits begin at once
        have hmore := hdigits (sign :: behind) tail
        rw [List.cons_append] at hmore
        simp only [List.cons_append, ↓Char.isValue, List.cons.injEq, hp, hm, hmore, false_and,
          imp_self, implies_true]
        generalize splitDigits (sign :: behind) = parts
        obtain ⟨_ | ⟨d, ds⟩, more⟩ := parts <;> rfl
    · simp [split, hmark]

theorem Numeral.split_append_blank (hb : Text.isLayoutBlank b) (cs tail : List Char) :
    split (cs ++ b :: tail) = ((split cs).1, (split cs).2 ++ b :: tail) := by
  have hpoint : b ≠ '.' := ne_mark_of_isLayoutBlank hb (by decide)
  unfold split
  rw [splitDigits_append_blank hb]
  generalize splitDigits cs = parts
  obtain ⟨whole, rest⟩ := parts
  dsimp only
  cases rest with
  | nil => simp [hpoint, Exponent.split, ne_mark_of_isLayoutBlank hb]
  | cons c behind =>
    by_cases hc : c = '.'
    · subst hc
      simp only [List.cons_append]
      rw [splitDigits_append_blank hb]
      generalize splitDigits behind = digits
      obtain ⟨digits, more⟩ := digits
      cases digits with
      | nil =>
        -- a point without digits behind it is not part of the number
        have hexponent := Exponent.split_append_blank hb ('.' :: behind) tail
        rw [List.cons_append] at hexponent
        simp only [hexponent]
      | cons d ds => simp only [Exponent.split_append_blank hb]
    · have hexponent := Exponent.split_append_blank hb (c :: behind) tail
      rw [List.cons_append] at hexponent
      simp [hc, hexponent]

/-- A closed string literal ends at its quote, whatever stands behind it. -/
theorem stringRest?_append_right {cs value spelling : List Char}
    (h : stringRest? cs = some (value, spelling)) (tail : List Char) :
    stringRest? (cs ++ tail) = some (value, spelling) := by
  obtain ⟨inner, rfl, hquoted⟩ := quoted_of_stringRest? h
  obtain ⟨rest, rfl⟩ := stringRest?_append h
  rw [List.append_assoc, List.append_assoc, List.singleton_append]
  exact stringRest?_of_quoted hquoted _

/-- A closed comment ends at its end, whatever stands behind it. -/
theorem commentRest?_append_right {cs chars : List Char} (h : commentRest? cs = some chars)
    (tail : List Char) : commentRest? (cs ++ tail) = some chars := by
  fun_induction commentRest? cs generalizing chars with
  | case1 => cases h
  | case2 rest => exact h
  | case3 c cs hend ih =>
    obtain ⟨body, hbody, rfl⟩ := Option.map_eq_some_iff.mp h
    have hrest := ih hbody
    rw [List.cons_append, commentRest?, hrest]
    · rfl
    · -- a star at the end would need the slash from behind, but the comment is closed before
      rintro rest rfl hcs
      cases cs with
      | nil => cases hbody
      | cons d ds =>
        obtain ⟨rfl, -⟩ := List.cons.inj hcs
        exact hend ds rfl rfl

end Ends

/-! ## 3. Pieces in front of a blank -/

namespace Piece

variable {c b : Char} {cs : List Char}

theorem startsNumber_append_blank (hb : Text.isLayoutBlank b) (c : Char) (cs tail : List Char) :
    startsNumber c (cs ++ b :: tail) = startsNumber c cs := by
  cases cs with
  | nil => simp [startsNumber, isDigit_of_isLayoutBlank hb]
  | cons d ds => rfl

theorem word_append_blank (hb : Text.isLayoutBlank b)
    (hwell : ∀ m, (word c cs).kind ≠ some (.malformed m)) (tail : List Char) :
    word c (cs ++ b :: tail) = word c cs := by
  have hsymbol := Symbol.ofFront?_append_blank hb (c :: cs) tail
  have hnumeral := Numeral.split_append_blank hb (c :: cs) tail
  rw [List.cons_append] at hsymbol hnumeral
  unfold word at hwell ⊢
  rw [hsymbol, startsNumber_append_blank hb]
  split
  · rfl
  next hnone =>
  rw [hnone] at hwell
  split
  · dsimp only
    rw [(takeWhile_append_stop (isWordPart_of_isLayoutBlank hb) cs tail).1]
  next hword =>
  split
  · rw [number, number, hnumeral]
  next hnumber =>
  split
  · next hquote =>
    unfold string
    cases hrest : stringRest? cs with
    | none =>
      -- an open string would take the blank and go on
      refine absurd ?_ (hwell .unclosedString)
      simp only [hword, hnumber, if_pos hquote, string, hrest, Bool.false_eq_true]
      rfl
    | some found =>
      obtain ⟨value, spelling⟩ := found
      rw [stringRest?_append_right hrest]
  · rfl

/-- A piece that is not malformed stays the same when a blank is put behind its text. Only
a newline ends a line comment. -/
theorem first_append_blank (hb : Text.isLayoutBlank b) (hend : b = '\n' ∨ (first c cs).kind ≠ none)
    (hwell : ∀ m, (first c cs).kind ≠ some (.malformed m)) (tail : List Char) :
    first c (cs ++ b :: tail) = first c cs := by
  unfold first at hend hwell ⊢
  by_cases hblank : Text.isLayoutBlank c
  · simp [hblank]
  simp only [hblank, Bool.false_eq_true, if_false] at hend hwell ⊢
  by_cases hslash : c = '/'
  · subst hslash
    simp only [if_true] at hend hwell ⊢
    -- a slash at the end does not become the beginning of a comment
    have hnone : comment? cs = none → comment? (cs ++ b :: tail) = none := by
      intro h
      cases cs with
      | nil =>
        have hslash : b ≠ '/' := ne_mark_of_isLayoutBlank hb (by decide)
        have hstar : b ≠ '*' := ne_mark_of_isLayoutBlank hb (by decide)
        simp [comment?, hslash, hstar]
      | cons d ds =>
        by_cases hd : d = '/'
        · subst hd
          cases h
        by_cases hd' : d = '*'
        · subst hd'
          exact absurd h (comment?_star_ne_none ds)
        simp [comment?, hd, hd']
    cases hcomment : comment? cs with
    | none =>
      rw [hcomment, Option.getD_none] at hwell
      rw [hnone hcomment, Option.getD_none, Option.getD_none]
      exact word_append_blank hb hwell tail
    | some p =>
      rw [hcomment, Option.getD_some] at hend hwell
      unfold comment? at hcomment
      split at hcomment
      · -- a line comment runs up to the newline
        next body =>
        cases hcomment
        obtain rfl : b = '\n' := hend.resolve_right fun h => h rfl
        have htake := (takeWhile_append_stop (b := '\n') (p := (· ≠ '\n')) (by simp) body tail).1
        simp only [List.cons_append, comment?, Option.getD_some, htake]
      · next body =>
        split at hcomment
        · next chars hchars =>
          cases hcomment
          simp only [List.cons_append, comment?, commentRest?_append_right hchars,
            Option.getD_some]
        · cases hcomment
          exact absurd rfl (hwell .unclosedComment)
      · cases hcomment
  · simp only [hslash, if_false] at hwell ⊢
    exact word_append_blank hb hwell tail

end Piece

/-! ## 4. Texts with a newline between them -/

/-- A scan begins with the first piece and goes on behind it. -/
theorem scanFrom_piece {c : Char} {cs rest : List Char} (pos : Position)
    (hrest : (Piece.first c cs).chars ++ rest = c :: cs) :
    scanFrom pos 0 (c :: cs) =
      match (Piece.first c cs).kind with
      | none => scanFrom (pos.advance (Piece.first c cs).chars) 0 rest
      | some kind => (scanFrom (pos.advance (Piece.first c cs).chars) 0 rest).cons
          ⟨kind, String.ofList (Piece.first c cs).chars, pos⟩ := by
  have hbehind : scanFrom (pos.after c) ((Piece.first c cs).chars.length - 1) cs =
      scanFrom (pos.advance (Piece.first c cs).chars) 0 rest :=
    scanFrom_behind (Piece.chars_first_ne_nil c cs) hrest
  cases hkind : (Piece.first c cs).kind with
  | none => simp only [scanFrom, hkind, hbehind]
  | some kind => simp only [scanFrom, hkind, hbehind]

/-- The tokens of a text in front of a newline are those of the text alone, and those
behind it follow, unless the text has malformed tokens. -/
theorem scanFrom_append_newline (pos : Position) (cs tail : List Char)
    (hwords : ∀ t ∈ (scanFrom pos 0 cs).tokens, t.kind.isWord) :
    scanFrom pos 0 (cs ++ '\n' :: tail) =
      ⟨(scanFrom pos 0 cs).tokens ++ (scanFrom (pos.advance cs) 0 ('\n' :: tail)).tokens,
        (scanFrom (pos.advance cs) 0 ('\n' :: tail)).finish⟩ := by
  -- the induction is on the length, since a piece may be of any length but nought
  induction hlength : cs.length using Nat.strongRecOn generalizing pos cs with
  | ind n ih =>
    cases cs with
    | nil => rfl
    | cons c cs =>
      obtain ⟨rest, hrest⟩ := Piece.chars_first c cs
      have hshorter : rest.length < n := by
        have hlengths := congrArg List.length hrest
        have hpos := List.length_pos_iff.mpr (Piece.chars_first_ne_nil c cs)
        rw [List.length_append, hlength] at hlengths
        omega
      have hscan := scanFrom_piece pos hrest
      have hwell : ∀ m, (Piece.first c cs).kind ≠ some (.malformed m) := by
        intro m hm
        rw [hscan, hm] at hwords
        cases hwords _ List.mem_cons_self
      have hsame := Piece.first_append_blank (b := '\n') rfl (.inl rfl) hwell tail
      have hmore : (Piece.first c (cs ++ '\n' :: tail)).chars ++ (rest ++ '\n' :: tail) =
          c :: (cs ++ '\n' :: tail) := by
        rw [hsame, ← List.append_assoc, hrest]
        rfl
      have hadvance : pos.advance (c :: cs) =
          (pos.advance (Piece.first c cs).chars).advance rest := by
        rw [← hrest, Position.advance_append]
      rw [List.cons_append, scanFrom_piece pos hmore, hsame, hadvance, hscan]
      cases hkind : (Piece.first c cs).kind with
      | none =>
        rw [hscan, hkind] at hwords
        exact ih rest.length hshorter _ rest hwords rfl
      | some kind =>
        rw [hscan, hkind] at hwords
        have hbehind := ih rest.length hshorter (pos.advance (Piece.first c cs).chars) rest
          (fun t ht => hwords t (List.mem_cons_of_mem _ ht)) rfl
        dsimp only
        rw [hbehind]
        rfl

/-! ## 5. Words with spaces between them -/

/-- No symbol begins like a word, a number or a string. -/
theorem Symbol.ofFront?_eq_none {c : Char} {cs : List Char}
    (h : isWordStart c ∨ c.isDigit ∨ c = '.' ∨ c = '"') : ofFront? (c :: cs) = none := by
  refine List.find?_eq_none.mpr fun s _ hfront => ?_
  obtain ⟨d, rest, hchars, hword, hdigit, hpoint, hquote⟩ := s.chars_eq_cons
  rw [List.isPrefixOf_iff_prefix, hchars] at hfront
  obtain ⟨rfl, -⟩ := List.cons_prefix_cons.mp hfront
  rcases h with h | h | h | h
  · rw [hword] at h
    cases h
  · rw [hdigit] at h
    cases h
  · exact hpoint h
  · exact hquote h

theorem isWordStart_of_startsNumber {c : Char} {cs : List Char} (h : Piece.startsNumber c cs) :
    isWordStart c = false := by
  by_contra hword
  rw [Bool.not_eq_false] at hword
  rw [startsNumber_eq_false_of_isWordStart cs hword] at h
  cases h

/-- An exponent is read as it is spelled. -/
theorem Exponent.split_text {e : Exponent} (he : IsExponent e) : split e.text = (some e, []) := by
  obtain ⟨mark, sign, digits⟩ := e
  obtain ⟨hmark, hsign, hdigits, hne⟩ := he
  dsimp only at hmark hsign hdigits hne
  have hall : splitDigits digits = (digits, []) := by
    have heq : splitDigits (digits ++ []) = (digits, []) := splitDigits_eq hdigits nofun
    rwa [List.append_nil] at heq
  cases digits with
  | nil => exact absurd rfl hne
  | cons d ds =>
    -- without a sign the first digit stands where the sign would
    have hd := hdigits d List.mem_cons_self
    have hplus : d ≠ '+' := by
      rintro rfl
      cases hd
    have hminus : d ≠ '-' := by
      rintro rfl
      cases hd
    rcases hsign with rfl | rfl | rfl
    · simp [split, text, hmark, hplus, hminus, hall]
    · simp [split, text, hmark, hall]
    · simp [split, text, hmark, hall]

theorem Exponent.split_elim_text {exponent : Option Exponent}
    (h : ∀ e ∈ exponent, IsExponent e) : split (exponent.elim [] text) = (exponent, []) := by
  cases exponent with
  | none => rfl
  | some e => exact split_text (h e rfl)

/-- Where an exponent or nothing follows, no digit and no point does. -/
theorem head?_exponent {exponent : Option Exponent} (h : ∀ e ∈ exponent, IsExponent e) :
    ∀ c ∈ (exponent.elim [] Exponent.text).head?, c.isDigit = false ∧ c ≠ '.' := by
  intro c hc
  cases exponent with
  | none => cases hc
  | some e =>
    obtain rfl : e.mark = c := Option.some.inj hc
    rcases (h e rfl).mark with hmark | hmark <;> rw [hmark] <;> decide

/-- A number is read as it is spelled. -/
theorem Numeral.split_spelled {whole last : List Char} {exponent : Option Exponent} (point : Bool)
    (hwhole : ∀ c ∈ whole, c.isDigit) (hlast : ∀ c ∈ last, c.isDigit) (hne : last ≠ [])
    (hexponent : ∀ e ∈ exponent, IsExponent e) :
    split (whole ++ ((if point then ['.'] else []) ++ (last ++ exponent.elim [] Exponent.text))) =
      (if point then ⟨whole, some last, exponent⟩ else ⟨whole ++ last, none, exponent⟩, []) := by
  have hhead := head?_exponent hexponent
  have hlastSplit : splitDigits (last ++ exponent.elim [] Exponent.text) =
      (last, exponent.elim [] Exponent.text) :=
    splitDigits_eq hlast fun c hc => (hhead c hc).1
  have hsplit := Exponent.split_elim_text hexponent
  cases point with
  | true =>
    have hfirst : splitDigits (whole ++ '.' :: (last ++ exponent.elim [] Exponent.text)) =
        (whole, '.' :: (last ++ exponent.elim [] Exponent.text)) := by
      refine splitDigits_eq hwhole ?_
      rintro c ⟨⟩
      rfl
    simp only [if_true, List.singleton_append]
    rw [split, hfirst]
    simp only [hlastSplit]
    cases last with
    | nil => exact absurd rfl hne
    | cons d ds => simp only [hsplit]
  | false =>
    -- without a point both runs of digits are one
    have hdigits : ∀ c ∈ whole ++ last, c.isDigit := List.forall_mem_append.mpr ⟨hwhole, hlast⟩
    have hfirst : splitDigits (whole ++ (last ++ exponent.elim [] Exponent.text)) =
        (whole ++ last, exponent.elim [] Exponent.text) := by
      rw [← List.append_assoc]
      exact splitDigits_eq hdigits fun c hc => (hhead c hc).1
    simp only [Bool.false_eq_true, if_false, List.nil_append]
    rw [split, hfirst]
    dsimp only
    cases hrest : exponent.elim [] Exponent.text with
    | nil =>
      rw [hrest] at hsplit
      rw [hsplit]
    | cons c cs =>
      rw [hrest] at hsplit hhead
      have hpoint : c ≠ '.' := (hhead c rfl).2
      simp [hpoint, hsplit]

namespace Piece

variable {c b : Char}

theorem word_of_blank (hb : Text.isLayoutBlank c) (cs : List Char) :
    word c cs = lexeme (.malformed (.unexpected c)) [c] := by
  have hmem := mem_blanks.mpr hb
  simp only [List.mem_cons, List.not_mem_nil, or_false] at hmem
  rcases hmem with rfl | rfl | rfl | rfl | rfl <;> rfl

/-- A spelling, alone, is cut as the word that it spells. -/
theorem word_of_spells {kind : Token.Kind} {cs : List Char}
    (h : Spells kind (c :: cs)) : word c cs = lexeme kind (c :: cs) := by
  generalize hchars : c :: cs = chars at h
  -- symbols and reserved words are finitely many, and each is cut by computation
  cases h with
  | symbol s => cases s <;> cases hchars <;> rfl
  | keyword k => cases k <;> cases hchars <;> rfl
  | @identifier d ds hd hds hfree =>
    cases hchars
    have hstart := isWordStart_iff.mpr hd
    have htake : cs.takeWhile isWordPart = cs := by
      have happend : (cs ++ []).takeWhile isWordPart = cs ++ [].takeWhile isWordPart :=
        List.takeWhile_append_of_pos fun x hx => isWordPart_iff.mpr (hds x hx)
      simpa using happend
    -- an identifier is no reserved word, so it is not taken for one
    have hkind : wordKind (c :: cs) = .identifier := by
      have hnone : Keyword.ofText? (String.ofList (c :: cs)) = none := by
        refine List.find?_eq_none.mpr fun k _ hk => hfree k ?_
        have htext : k.text = String.ofList (c :: cs) := by simpa using hk
        rw [htext, String.toList_ofList]
      rw [wordKind, hnone]
    simp [word, Symbol.ofFront?_eq_none (.inl hstart), hstart, htake, hkind]
  | @number whole last point exponent hwhole hlast hne hexponent =>
    have hstarts : startsNumber c cs := startsNumber_of_append hwhole hlast hne hchars.symm
    have hfront : Symbol.ofFront? (c :: cs) = none := by
      refine Symbol.ofFront?_eq_none ?_
      simp only [startsNumber, Bool.or_eq_true, Bool.and_eq_true, decide_eq_true_eq] at hstarts
      rcases hstarts with hdigit | ⟨hpoint, -⟩
      · exact .inr (.inl hdigit)
      · exact .inr (.inr (.inl hpoint))
    have hsplit := Numeral.split_spelled point hwhole hlast hne hexponent
    rw [← hchars] at hsplit ⊢
    simp only [word, hfront, isWordStart_of_startsNumber hstarts, hstarts, number, hsplit,
      Bool.false_eq_true, if_false, if_true]
    rw [hchars]
    cases point <;> simp [Numeral.value, Numeral.decimal, Numeral.text, Lexical.decimal]
  | @str value spelling hquoted =>
    cases hchars
    have hrest := stringRest?_of_quoted hquoted []
    have hfront : Symbol.ofFront? ('"' :: (spelling ++ ['"'])) = none :=
      Symbol.ofFront?_eq_none (.inr (.inr (.inr rfl)))
    have hword : isWordStart '"' = false := rfl
    have hnumber : startsNumber '"' (spelling ++ ['"']) = false := rfl
    simp [word, hfront, hword, hnumber, string, hrest]

/-- A spelling, alone, begins with no layout, so it is the first piece. -/
theorem first_of_spells_alone {kind : Token.Kind} {cs : List Char}
    (h : Spells kind (c :: cs)) : first c cs = lexeme kind (c :: cs) := by
  have hword := word_of_spells h
  have hblank : Text.isLayoutBlank c = false := by
    by_contra hc
    rw [Bool.not_eq_false] at hc
    have hunexpected : word c cs = lexeme (.malformed (.unexpected c)) [c] := word_of_blank hc cs
    rw [hword] at hunexpected
    cases hunexpected
    cases h
  by_cases hslash : c = '/'
  · -- a slash is all of its spelling, so no comment begins there
    subst hslash
    obtain ⟨-, hcs⟩ : some kind = some (.symbol .slash) ∧ '/' :: cs = ['/'] :=
      Piece.mk.inj (hword.symm.trans rfl)
    obtain rfl : cs = [] := (List.cons.inj hcs).2
    exact hword
  · simp only [first, hblank, hslash, Bool.false_eq_true, if_false]
    exact hword

/-- A spelling with a blank behind it is cut as the word that it spells. -/
theorem first_of_spells {kind : Token.Kind} {cs : List Char}
    (h : Spells kind (c :: cs)) (hb : Text.isLayoutBlank b) (tail : List Char) :
    first c (cs ++ b :: tail) = lexeme kind (c :: cs) := by
  have halone := first_of_spells_alone h
  have hkind : (first c cs).kind = some kind := by rw [halone]; rfl
  rw [first_append_blank hb (.inr (by simp [hkind])) ?_ tail, halone]
  intro m hm
  rw [hkind] at hm
  cases hm
  cases h

end Piece

/-- A text that is one spelling is scanned as the token that it spells. -/
theorem scanFrom_of_spells {kind : Token.Kind} {chars : List Char} (h : Spells kind chars)
    (pos : Position) :
    scanFrom pos 0 chars = ⟨[⟨kind, String.ofList chars, pos⟩], pos.advance chars⟩ := by
  cases chars with
  | nil => exact absurd rfl h.ne_nil
  | cons c cs =>
    have hfirst := Piece.first_of_spells_alone h
    have hwhole : (Piece.first c cs).chars ++ [] = c :: cs := by
      rw [hfirst]
      exact List.append_nil _
    rw [scanFrom_piece pos hwhole, hfirst]
    rfl

/-- The text of words, with a space behind each. -/
def spacedChars (ws : List (Token.Kind × String)) : List Char :=
  ws.flatMap fun w => w.2.toList ++ [' ']

/-- Words with a space behind each are scanned as these words. -/
theorem scanFrom_spacedChars (pos : Position) (ws : List (Token.Kind × String))
    (hws : ∀ w ∈ ws, Spells w.1 w.2.toList) :
    (scanFrom pos 0 (spacedChars ws)).tokens.map Token.word = ws := by
  induction ws generalizing pos with
  | nil => rfl
  | cons w ws ih =>
    obtain ⟨kind, text⟩ := w
    obtain ⟨hw, hws⟩ := List.forall_mem_cons.mp hws
    cases htext : text.toList with
    | nil => exact absurd htext hw.ne_nil
    | cons c cs =>
      rw [htext] at hw
      have hchars : spacedChars ((kind, text) :: ws) = c :: (cs ++ ' ' :: spacedChars ws) := by
        simp [spacedChars, htext]
      have hfirst := Piece.first_of_spells hw (b := ' ') rfl (spacedChars ws)
      -- the space in front of the next word is a piece of its own that gives no token
      have hbehind := ih ((pos.advance (c :: cs)).after ' ') hws
      have hrest : (Piece.first c (cs ++ ' ' :: spacedChars ws)).chars ++ ' ' :: spacedChars ws =
          c :: (cs ++ ' ' :: spacedChars ws) := by
        rw [hfirst]
        rfl
      rw [hchars, scanFrom_piece pos hrest, hfirst]
      refine List.cons_eq_cons.mpr ⟨?_, hbehind⟩
      rw [Token.word, Piece.lexeme, ← htext, String.ofList_toList]

/-- The program that is written as words with a space behind each. -/
def spaced (ws : List (Token.Kind × String)) : String := String.ofList (spacedChars ws)

theorem scan_spaced {ws : List (Token.Kind × String)} (hws : ∀ w ∈ ws, Spells w.1 w.2.toList) :
    (scan (spaced ws)).tokens.map Token.word = ws := by
  rw [scan, spaced, String.toList_ofList]
  exact scanFrom_spacedChars .start ws hws

/-! ## 6. What is scanned is spelled -/

theorem Piece.spells_first {c : Char} {cs : List Char} {kind : Token.Kind}
    (h : (first c cs).kind = some kind) (hword : kind.isWord) :
    Spells kind (first c cs).chars := by
  have hlexeme := (lexeme_first h).1
  generalize c :: cs = text, (first c cs).chars = chars at hlexeme
  cases hlexeme with
  | longest _ hspells _ _ => exact hspells
  | finish => exact absurd h (kind_first_ne_finish c cs)
  | unclosedComment _ _ => cases hword
  | unclosedString _ _ => cases hword
  | unexpected _ _ _ => cases hword

theorem spells_of_mem_scanFrom {pos : Position} {skip : Nat} {cs : List Char} :
    ∀ t ∈ (scanFrom pos skip cs).tokens, t.kind.isWord → Spells t.kind t.lexeme.toList := by
  fun_induction scanFrom pos skip cs with
  | case1 =>
    intro t ht
    cases ht
  | case2 pos skip c cs ih => exact ih
  | case3 pos c cs piece hkind ih => exact ih
  | case4 pos c cs piece kind hkind ih =>
    intro t ht hword
    rcases List.mem_cons.mp ht with rfl | ht
    · rw [String.toList_ofList]
      exact Piece.spells_first hkind hword
    · exact ih t ht hword

/-! ## 7. Spelled tokens -/

namespace Token

/-- The lexeme spells the token. -/
def Spelled (t : Token) : Prop := Spells t.kind t.lexeme.toList

/-- The token of a symbol, at no place in particular. -/
def ofSymbol (s : Symbol) : Token := ⟨.symbol s, s.text, .start⟩

def ofKeyword (k : Keyword) : Token := ⟨.keyword k, k.text, .start⟩

def ofName (name : String) : Token := ⟨.identifier, name, .start⟩

theorem spelled_ofSymbol (s : Symbol) : (ofSymbol s).Spelled := by
  have htext : s.text.toList = s.chars := String.toList_ofList
  rw [Spelled, ofSymbol, htext]
  exact .symbol s

theorem spelled_ofKeyword (k : Keyword) : (ofKeyword k).Spelled := .keyword k

theorem spelled_symbol (s : Symbol) : ∀ t ∈ [ofSymbol s], t.Spelled :=
  List.forall_mem_singleton.mpr (spelled_ofSymbol s)

theorem spelled_keyword (k : Keyword) : ∀ t ∈ [ofKeyword k], t.Spelled :=
  List.forall_mem_singleton.mpr (spelled_ofKeyword k)

theorem spelled_of_mem_scan {source : String} {t : Token} (ht : t ∈ (scan source).tokens)
    (hword : t.kind.isWord) : t.Spelled :=
  spells_of_mem_scanFrom t ht hword

end Token

/-- Spelled tokens that derive a sequence are the tokens of an accepted program. -/
theorem Expr.parse_of_spelled {e : Expr} {ts : List Token}
    (h : Grammar.Derives (.sequence e) ts) (hts : ∀ t ∈ ts, t.Spelled) :
    ∃ source e', Expr.parse source = .ok e' ∧ e'.bare = e.bare ∧
      (scan source).tokens.map Token.word = ts.map Token.word := by
  have hscan : (scan (spaced (ts.map Token.word))).tokens.map Token.word = ts.map Token.word := by
    refine scan_spaced fun w hw => ?_
    obtain ⟨t, ht, rfl⟩ := List.mem_map.mp hw
    exact hts t ht
  have hprogram := Parser.program_of_derives (c := ⟨ts, .start⟩) h
  obtain ⟨e', hparse, hbare⟩ :
      ∃ e', Expr.parse (spaced (ts.map Token.word)) = .ok e' ∧ e'.bare = e.bare :=
    Parser.program_of_words hscan.symm hprogram
  exact ⟨_, e', hparse, hbare, hscan⟩

end CalcScript
