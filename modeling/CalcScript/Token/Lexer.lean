/-
`Token/Lexer.lean` -- cutting a program into tokens.

The text is cut into pieces from the left. A piece is either layout (a blank or
a whole comment) or a lexeme, and never empty: what no rule takes is one
malformed character. `Piece.first` finds the piece at the front of a text, and
`scan` walks over the text once, skipping the rest of each piece it has found.
-/
import CalcScript.Token
import CalcScript.Number.Numeral
import CalcScript.Text.Blank

set_option autoImplicit false

namespace CalcScript

/-! ## 1. Identifiers -/

def isWordStart (c : Char) : Bool :=
  c.isAlpha || c = '_' || c = '$'

def isWordPart (c : Char) : Bool :=
  c.isAlphanum || c = '_' || c = '$'

/-- A word is an identifier unless it is reserved. -/
def wordKind (word : List Char) : Token.Kind :=
  match Keyword.ofText? (String.ofList word) with
  | some k => .keyword k
  | none => .identifier

/-! ## 2. Comments -/

/-- The rest of a block comment up to its end, which is the first `*/`. -/
def commentRest? : List Char → Option (List Char)
  | [] => none
  | '*' :: '/' :: _ => some ['*', '/']
  | c :: cs => (commentRest? cs).map (c :: ·)

/-- A comment is cut from the front of the text. -/
theorem commentRest?_append {cs chars : List Char} (h : commentRest? cs = some chars) :
    ∃ rest, chars ++ rest = cs := by
  fun_induction commentRest? cs generalizing chars with
  | case1 => cases h
  | case2 rest => cases h; exact ⟨rest, rfl⟩
  | case3 c cs _ ih =>
    obtain ⟨tail, htail, rfl⟩ := Option.map_eq_some_iff.1 h
    obtain ⟨rest, hrest⟩ := ih htail
    exact ⟨rest, by rw [List.cons_append, hrest]⟩

/-! ## 3. String literals -/

/-- The character that a backslash in front of `c` stands for. -/
def unescape (c : Char) : Char :=
  if c = 'n' then '\n'
  else if c = 't' then '\t'
  else if c = 'r' then '\r'
  else if c = '0' then '\x00'
  else c

/-- The rest of a string literal behind its opening quote: the characters it
spells and the characters it is spelled with, closing quote included. -/
def stringRest? : List Char → Option (List Char × List Char)
  | [] => none
  | '"' :: _ => some ([], ['"'])
  | ['\\'] => none
  | '\\' :: c :: cs =>
    (stringRest? cs).map fun (value, spelling) => (unescape c :: value, '\\' :: c :: spelling)
  | c :: cs => (stringRest? cs).map fun (value, spelling) => (c :: value, c :: spelling)

/-- A spelling is cut from the front of the text. -/
theorem stringRest?_append {cs value spelling : List Char}
    (h : stringRest? cs = some (value, spelling)) : ∃ rest, spelling ++ rest = cs := by
  fun_induction stringRest? cs generalizing value spelling with
  | case1 => cases h
  | case2 rest => cases h; exact ⟨rest, rfl⟩
  | case3 => cases h
  | case4 c cs ih =>
    obtain ⟨⟨_, tail⟩, htail, heq⟩ := Option.map_eq_some_iff.1 h
    cases heq
    obtain ⟨rest, hrest⟩ := ih htail
    exact ⟨rest, by rw [List.cons_append, List.cons_append, hrest]⟩
  | case5 c cs _ _ _ ih =>
    obtain ⟨⟨_, tail⟩, htail, heq⟩ := Option.map_eq_some_iff.1 h
    cases heq
    obtain ⟨rest, hrest⟩ := ih htail
    exact ⟨rest, by rw [List.cons_append, hrest]⟩

/-! ## 4. Pieces -/

/-- A piece of a program text: layout, or the lexeme of a token. -/
structure Piece where
  kind : Option Token.Kind
  chars : List Char
deriving DecidableEq, Repr

namespace Piece

def layout (chars : List Char) : Piece := ⟨none, chars⟩

def lexeme (kind : Token.Kind) (chars : List Char) : Piece := ⟨some kind, chars⟩

/-- The comment that starts with `/` and the given characters. A block comment
without an end takes all of the text. -/
def comment? : List Char → Option Piece
  | '/' :: rest => some (layout ('/' :: '/' :: rest.takeWhile (· ≠ '\n')))
  | '*' :: rest =>
    match commentRest? rest with
    | some chars => some (layout ('/' :: '*' :: chars))
    | none => some (lexeme (.malformed .unclosedComment) ('/' :: '*' :: rest))
  | _ => none

/-- The string literal whose opening quote is in front of the given characters. -/
def string (cs : List Char) : Piece :=
  match stringRest? cs with
  | some (value, spelling) => lexeme (.str (String.ofList value)) ('"' :: spelling)
  | none => lexeme (.malformed .unclosedString) ('"' :: cs)

/-- The number at the front of a text. -/
def number (cs : List Char) : Piece :=
  let n := (Numeral.split cs).1
  lexeme (.number n.value) n.text

/-- A digit, or a point with a digit behind it. -/
def startsNumber (c : Char) (cs : List Char) : Bool :=
  c.isDigit || (c = '.' && cs.head?.any Char.isDigit)

/-- The lexeme at the front of a text that begins with neither blank nor comment. -/
def word (c : Char) (cs : List Char) : Piece :=
  match Symbol.ofFront? (c :: cs) with
  | some s => lexeme (.symbol s) s.chars
  | none =>
    if isWordStart c then
      let chars := c :: cs.takeWhile isWordPart
      lexeme (wordKind chars) chars
    else if startsNumber c cs then number (c :: cs)
    else if c = '"' then string cs
    else lexeme (.malformed (.unexpected c)) [c]

/-- The piece at the front of the text `c :: cs`. -/
def first (c : Char) (cs : List Char) : Piece :=
  if Text.isLayoutBlank c then layout [c]
  else if c = '/' then (comment? cs).getD (word c cs)
  else word c cs

/-- A comment is cut from the front of the text. -/
theorem chars_comment? {cs : List Char} {p : Piece} (h : comment? cs = some p) :
    ∃ rest, p.chars ++ rest = '/' :: cs := by
  unfold comment? at h
  split at h
  · next tail =>
    cases h
    refine ⟨tail.dropWhile (· ≠ '\n'), ?_⟩
    simp [layout, List.takeWhile_append_dropWhile]
  · next tail =>
    split at h
    · next chars hchars =>
      cases h
      obtain ⟨rest, hrest⟩ := commentRest?_append hchars
      exact ⟨rest, by simp [layout, hrest]⟩
    · cases h
      exact ⟨[], by simp [lexeme]⟩
  · cases h

theorem chars_word (c : Char) (cs : List Char) : ∃ rest, (word c cs).chars ++ rest = c :: cs := by
  unfold word
  split
  · next s hs => exact Symbol.append_of_ofFront? hs
  · split
    · exact ⟨cs.dropWhile isWordPart, by simp [lexeme, List.takeWhile_append_dropWhile]⟩
    · split
      · exact ⟨_, Numeral.text_split (c :: cs)⟩
      · split
        · next hquote =>
          subst hquote
          unfold string
          split
          · next value spelling hrest =>
            obtain ⟨rest, happend⟩ := stringRest?_append hrest
            exact ⟨rest, by simp [lexeme, happend]⟩
          · exact ⟨[], by simp [lexeme]⟩
        · exact ⟨cs, rfl⟩

/-- The first piece is cut from the front of the text. -/
theorem chars_first (c : Char) (cs : List Char) : ∃ rest, (first c cs).chars ++ rest = c :: cs := by
  unfold first
  split
  · exact ⟨cs, rfl⟩
  · split
    · next hslash =>
      subst hslash
      cases hcomment : comment? cs with
      | none => exact chars_word '/' cs
      | some p => exact chars_comment? hcomment
    · exact chars_word c cs

end Piece

/-! ## 5. The whole text -/

/-- The tokens of a text in order, and the place where it ends. -/
structure Scan where
  tokens : List Token
  finish : Position
deriving DecidableEq, Repr

namespace Scan

/-- All tokens, the one for the end last. -/
def all (s : Scan) : List Token := s.tokens ++ [.finish s.finish]

/-- Puts a token in front. -/
def cons (t : Token) (s : Scan) : Scan := ⟨t :: s.tokens, s.finish⟩

end Scan

/-- Scans a text that stands at `pos` after skipping its first `skip` characters,
which belong to a piece found earlier. -/
def scanFrom (pos : Position) : (skip : Nat) → List Char → Scan
  | _, [] => ⟨[], pos⟩
  | skip + 1, c :: cs => scanFrom (pos.after c) skip cs
  | 0, c :: cs =>
    let piece := Piece.first c cs
    match piece.kind with
    | none => scanFrom (pos.after c) (piece.chars.length - 1) cs
    | some kind =>
      (scanFrom (pos.after c) (piece.chars.length - 1) cs).cons
        ⟨kind, String.ofList piece.chars, pos⟩

/-- Skipping moves over characters and counts their places. -/
theorem scanFrom_skip (pos : Position) (skip : Nat) (cs : List Char) :
    scanFrom pos skip cs = scanFrom (pos.advance (cs.take skip)) 0 (cs.drop skip) := by
  induction skip generalizing pos cs with
  | zero => rfl
  | succ skip ih =>
    cases cs with
    | nil => rfl
    | cons c cs =>
      rw [scanFrom, ih]
      rfl

/-- The tokens of a program. -/
def scan (source : String) : Scan :=
  scanFrom .start 0 source.toList

end CalcScript
