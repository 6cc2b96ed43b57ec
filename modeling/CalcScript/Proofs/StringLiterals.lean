/-
`Proofs/StringLiterals.lean` -- string literals and the strings they stand for.

A character of a string can be spelled in two ways, as itself or behind a backslash
(`SpellsChar`). Any choice of spellings between quotes is one token, which has the string as
its value, and nothing else is ever taken for a string literal.

The quoted texts of the prefix form use some of these spellings. Where they need no code
points, they are literals again.
-/
import CalcScript.Expr.PrefixForm
import CalcScript.Proofs.Composition
import CalcScript.Proofs.WellFormed
import Mathlib.Data.List.Forall2

set_option autoImplicit false

namespace CalcScript

namespace Lexical

/-! ## 1. Spellings of characters -/

/-- The spellings of a character. Behind a backslash four letters stand for something else,
every other character for itself. -/
inductive SpellsChar : Char → List Char → Prop
  | raw {c} (hquote : c ≠ '"') (hbackslash : c ≠ '\\') : SpellsChar c [c]
  | newline : SpellsChar '\n' ['\\', 'n']
  | tab : SpellsChar '\t' ['\\', 't']
  | carriageReturn : SpellsChar '\r' ['\\', 'r']
  | nul : SpellsChar '\x00' ['\\', '0']
  | escaped {c} (hplain : c ∉ ['n', 't', 'r', '0']) : SpellsChar c ['\\', c]

/-- A text is spelled by spellings of its characters, one behind the other. -/
def SpellsAll (value spelling : List Char) : Prop :=
  ∃ pieces, List.Forall₂ SpellsChar value pieces ∧ spelling = pieces.flatten

theorem unescape_of_notMem {c : Char} (h : c ∉ ['n', 't', 'r', '0']) : unescape c = c := by
  simp only [List.mem_cons, List.not_mem_nil, or_false, not_or] at h
  simp [unescape, h]

theorem spellsChar_unescape (c : Char) : SpellsChar (unescape c) ['\\', c] := by
  by_cases hplain : c ∈ ['n', 't', 'r', '0']
  · simp only [List.mem_cons, List.not_mem_nil, or_false] at hplain
    rcases hplain with rfl | rfl | rfl | rfl
    · exact .newline
    · exact .tab
    · exact .carriageReturn
    · exact .nul
  · rw [unescape_of_notMem hplain]
    exact .escaped hplain

theorem SpellsChar.quoted {c : Char} {piece value spelling : List Char} (h : SpellsChar c piece)
    (hrest : Quoted value spelling) : Quoted (c :: value) (piece ++ spelling) := by
  cases h with
  | raw hquote hbackslash => exact .plain hquote hbackslash hrest
  | newline => exact .escape (c := 'n') hrest
  | tab => exact .escape (c := 't') hrest
  | carriageReturn => exact .escape (c := 'r') hrest
  | nul => exact .escape (c := '0') hrest
  | escaped hplain =>
    have hquoted := Quoted.escape (c := c) hrest
    rwa [unescape_of_notMem hplain] at hquoted

/-- What stands between the quotes is a choice of spellings, one for each character. -/
theorem quoted_iff {value spelling : List Char} :
    Quoted value spelling ↔ SpellsAll value spelling := by
  constructor
  · intro h
    induction h with
    | nil => exact ⟨[], .nil, rfl⟩
    | @plain c value spelling hquote hbackslash _ ih =>
      obtain ⟨pieces, hpieces, rfl⟩ := ih
      exact ⟨[c] :: pieces, .cons (.raw hquote hbackslash) hpieces, rfl⟩
    | @escape c value spelling _ ih =>
      obtain ⟨pieces, hpieces, rfl⟩ := ih
      exact ⟨['\\', c] :: pieces, .cons (spellsChar_unescape c) hpieces, rfl⟩
  · rintro ⟨pieces, hpieces, rfl⟩
    induction hpieces with
    | nil => exact .nil
    | cons hpiece _ ih => exact hpiece.quoted ih

/-- A literal with the given characters between its quotes. -/
def literal (spelling : List Char) : String := String.ofList ('"' :: (spelling ++ ['"']))

theorem spells_literal {s : String} {spelling : List Char} (h : SpellsAll s.toList spelling) :
    Spells (.str s) (literal spelling).toList := by
  have hspells := Spells.str (quoted_iff.mpr h)
  rwa [String.ofList_toList, ← String.toList_ofList (l := '"' :: (spelling ++ ['"']))] at hspells

/-- The spelling of a string is a literal. -/
theorem exists_literal {s lexeme : String} (h : Spells (.str s) lexeme.toList) :
    ∃ spelling, lexeme = literal spelling ∧ SpellsAll s.toList spelling := by
  generalize hchars : lexeme.toList = chars at h
  cases h with
  | @str value spelling hquoted =>
    refine ⟨spelling, ?_, ?_⟩
    · rw [literal, ← hchars, String.ofList_toList]
    · rw [String.toList_ofList]
      exact quoted_iff.mp hquoted

end Lexical

open Lexical

/-! ## 2. Quoted texts -/

namespace Text

/-- A character that a quoted text does not write by its code point is spelled as a literal
spells it. -/
theorem spellsChar_escape {c : Char} (h : ¬ ['\\', 'u'] <+: escape c) :
    SpellsChar c (escape c) := by
  unfold escape
  split
  · next hc => subst hc; exact .nul
  split
  · next hc => subst hc; exact .tab
  split
  · next hc => subst hc; exact .carriageReturn
  split
  · next hc => subst hc; exact .newline
  split
  · next hc => subst hc; exact .escaped (by decide)
  split
  · next hc => subst hc; exact .escaped (by decide)
  next hnul htab hreturn hnewline hquote hbackslash =>
  split
  · exact .raw hquote hbackslash
  · next hprintable =>
    refine absurd ?_ h
    rw [escape, if_neg hnul, if_neg htab, if_neg hreturn, if_neg hnewline, if_neg hquote,
      if_neg hbackslash, if_neg hprintable]
    exact ⟨'\x7b' :: (Nat.toDigits 16 c.toNat ++ ['\x7d']), rfl⟩

theorem spellsAll_escape {value : List Char} (h : ∀ c ∈ value, ¬ ['\\', 'u'] <+: escape c) :
    SpellsAll value (value.flatMap escape) := by
  refine ⟨value.map escape, ?_, List.flatMap_def⟩
  refine List.forall₂_map_right_iff.mpr (List.forall₂_same.mpr fun c hc => ?_)
  exact spellsChar_escape (h c hc)

end Text

/-! ## 3. Literals as programs -/

open Grammar in
/-- A program that is one literal is read as it. -/
theorem Expr.parse_of_literal {source : String} {t : Token} {l : Literal}
    (h : Derives (.primary (.literal l)) [t]) (hscan : (scan source).tokens = [t]) :
    Expr.parse source = .ok (.literal l) := by
  have hexpression : Derives (.expression (.literal l)) [t] :=
    .expression h.disjunction_of_primary
  have hsequence := Derives.sequence_of_expression hexpression
  exact Parser.program_of_derives (c := ⟨(scan source).tokens, (scan source).finish⟩)
    (by rwa [hscan])

namespace Lexical

variable {s : String} {spelling : List Char}

theorem scan_literal (h : SpellsAll s.toList spelling) :
    (scan (literal spelling)).tokens = [⟨.str s, literal spelling, .start⟩] := by
  rw [scan, scanFrom_of_spells (spells_literal h), String.ofList_toList]

theorem evaluate_literal (h : SpellsAll s.toList spelling) {session : Session}
    (hflush : session.machine.sink.CanFlush 1) :
    session.evaluate (literal spelling) =
      (.ok (.str s), ⟨session.machine.store, session.machine.sink.flush.2⟩) := by
  have hparse := Expr.parse_of_literal (.str rfl) (scan_literal h)
  exact Session.evaluate_of_eval hparse hflush (n := 1) (Nat.pow_pos (by decide)) rfl

end Lexical

/-- **String literals decode exactly.** However the characters of a string are spelled between
two quotes, the program is that one token, with the string as its value, and evaluates to the
string. Every string token is such a spelling of its value. The text of a string in the prefix
form is one too, unless it writes a character by its code point. -/
theorem string_literals_decode_exactly :
    (∀ (s : String) (spelling : List Char), SpellsAll s.toList spelling →
      (scan (literal spelling)).all =
        [⟨.str s, literal spelling, .start⟩, .finish (scan (literal spelling)).finish] ∧
      ∀ session : Session, session.machine.sink.CanFlush 1 →
        session.evaluate (literal spelling) =
          (.ok (.str s), ⟨session.machine.store, session.machine.sink.flush.2⟩)) ∧
    (∀ source, ∀ t ∈ (scan source).tokens, ∀ s, t.kind = .str s →
      ∃ spelling, t.lexeme = literal spelling ∧ SpellsAll s.toList spelling) ∧
    ∀ s : String, (∀ c ∈ s.toList, ¬ ['\\', 'u'] <+: Text.escape c) →
      (scan (Literal.str s).text).all =
        [⟨.str s, (Literal.str s).text, .start⟩, .finish (scan (Literal.str s).text).finish] := by
  refine ⟨?_, ?_, ?_⟩
  · intro s spelling h
    refine ⟨?_, fun session hflush => evaluate_literal h hflush⟩
    rw [Scan.all, scan_literal h]
    rfl
  · intro source t ht s hs
    have hspelled := Token.spelled_of_mem_scan ht (by rw [hs]; rfl)
    rw [Token.Spelled, hs] at hspelled
    exact exists_literal hspelled
  · intro s h
    have hspelled : SpellsAll s.toList (s.toList.flatMap Text.escape) := Text.spellsAll_escape h
    have htext : (Literal.str s).text = literal (s.toList.flatMap Text.escape) := rfl
    rw [htext, Scan.all, scan_literal hspelled]
    rfl

end CalcScript
