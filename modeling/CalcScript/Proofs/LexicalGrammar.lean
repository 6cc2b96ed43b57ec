/-
`Proofs/LexicalGrammar.lean` -- which characters make which tokens.

The lexical grammar stands on its own, without a rule for cutting a text: `Spells`
says what the whole spelling of a token is, `IsLayout` what may stand between tokens.
As regular expressions the spellings are

  a symbol          one of the operators and marks of punctuation
  a reserved word   one of thirteen
  an identifier     [A-Za-z_$][A-Za-z0-9_$]*, none of the reserved words
  a number          [0-9]*\.?[0-9]+([eE][-+]?[0-9]+)?
  a string          "([^"\\]|\\.)*"

`Lexeme` then adds the rule for cutting: of all spellings at the front of a text the
longest is taken, and where there is none the text is malformed.
-/
import CalcScript.Token.Lexer

set_option autoImplicit false

namespace CalcScript.Lexical

/-! ## 1. Spellings -/

/-- What stands between the quotes of a string literal, and the text it stands for. -/
inductive Quoted : List Char → List Char → Prop
  | nil : Quoted [] []
  | plain {c value spelling} (hquote : c ≠ '"') (hbackslash : c ≠ '\\')
      (h : Quoted value spelling) : Quoted (c :: value) (c :: spelling)
  | escape {c value spelling} (h : Quoted value spelling) :
    Quoted (unescape c :: value) ('\\' :: c :: spelling)

/-- An exponent with at least one digit. -/
structure IsExponent (e : Exponent) : Prop where
  mark : e.mark = 'e' ∨ e.mark = 'E'
  sign : e.sign = none ∨ e.sign = some '+' ∨ e.sign = some '-'
  digits : ∀ c ∈ e.digits, c.isDigit
  nonempty : e.digits ≠ []

/-- The number written with the digits `whole`, the point if there is one, the digits
`last` and the exponent if there is one. -/
def decimal (whole : List Char) (point : Bool) (last : List Char) (exponent : Option Exponent) :
    Decimal :=
  ⟨digitsValue (whole ++ last),
    exponent.elim 0 Exponent.value - if point then (last.length : Int) else 0⟩

/-- These characters, all of them, spell a token of this kind. -/
inductive Spells : Token.Kind → List Char → Prop
  | symbol (s : Symbol) : Spells (.symbol s) s.chars
  | keyword (k : Keyword) : Spells (.keyword k) k.text.toList
  | identifier {c : Char} {cs : List Char} (hc : c.isAlpha ∨ c = '_' ∨ c = '$')
      (hcs : ∀ d ∈ cs, d.isAlphanum ∨ d = '_' ∨ d = '$')
      (hfree : ∀ k : Keyword, k.text.toList ≠ c :: cs) : Spells .identifier (c :: cs)
  | number {whole last : List Char} {point : Bool} {exponent : Option Exponent}
      (hwhole : ∀ c ∈ whole, c.isDigit) (hlast : ∀ c ∈ last, c.isDigit) (hne : last ≠ [])
      (hexponent : ∀ e ∈ exponent, IsExponent e) :
    Spells (.number (decimal whole point last exponent).toFloat)
      (whole ++ ((if point then ['.'] else []) ++ (last ++ exponent.elim [] Exponent.text)))
  | str {value spelling : List Char} (h : Quoted value spelling) :
    Spells (.str (String.ofList value)) ('"' :: (spelling ++ ['"']))

/-! ## 2. Layout -/

/-- The characters `gap` with `rest` behind them are blanks and whole comments. A line
comment runs up to a newline or the end; a block comment ends where it first can. -/
inductive IsLayout : List Char → List Char → Prop
  | nil {rest} : IsLayout [] rest
  | blank {c gap rest} (hc : c ∈ [' ', '\t', '\n', '\x0c', '\r']) (h : IsLayout gap rest) :
    IsLayout (c :: gap) rest
  | line {body gap rest} (hbody : '\n' ∉ body) (hend : ∀ c ∈ (gap ++ rest).head?, c = '\n')
      (h : IsLayout gap rest) : IsLayout ('/' :: '/' :: (body ++ gap)) rest
  | block {body gap rest} (hbody : ¬ ['*', '/'] <:+: body) (h : IsLayout gap rest) :
    IsLayout ('/' :: '*' :: (body ++ '*' :: '/' :: gap)) rest

/-- No layout stands at the front of the text. -/
def Bare (text : List Char) : Prop :=
  ∀ gap rest, text = gap ++ rest → IsLayout gap rest → gap = []

/-! ## 3. Cutting -/

/-- The kind and the lexeme of the token at the front of a bare text. -/
inductive Lexeme : List Char → Token.Kind → List Char → Prop
  | finish : Lexeme [] .finish []
  | unclosedComment {body m} (hm : m.message = "Unterminated block comment")
      (hbody : ¬ ['*', '/'] <:+: body) :
    Lexeme ('/' :: '*' :: body) (.malformed m) ('/' :: '*' :: body)
  | longest {text kind chars} (hcomment : ¬ ['/', '*'] <+: text) (hspells : Spells kind chars)
      (hfront : chars <+: text)
      (hmax : ∀ kind' chars', Spells kind' chars' → chars' <+: text →
        chars'.length ≤ chars.length) : Lexeme text kind chars
  | unclosedString {cs m} (hm : m.message = "Unterminated string")
      (hnone : ∀ kind chars, Spells kind chars → ¬ chars <+: '"' :: cs) :
    Lexeme ('"' :: cs) (.malformed m) ('"' :: cs)
  | unexpected {c cs m} (hm : m.message = "Unexpected character '" ++ c.toString ++ "'")
      (hquote : c ≠ '"') (hnone : ∀ kind chars, Spells kind chars → ¬ chars <+: c :: cs) :
    Lexeme (c :: cs) (.malformed m) [c]

/-- The text that tokens spell, each with the gap in front of it. -/
def spelled (tokens : List (List Char × Token)) : List Char :=
  tokens.flatMap fun (gap, t) => gap ++ t.lexeme.toList

/-- The token `t` between those before and after it, in a text that begins at `pos`: what
follows its gap has no more layout in front, and its lexeme is cut from there. -/
structure Placed (pos : Position) (before : List (List Char × Token)) (gap : List Char) (t : Token)
    (after : List (List Char × Token)) : Prop where
  layout : IsLayout gap (t.lexeme.toList ++ spelled after)
  bare : Bare (t.lexeme.toList ++ spelled after)
  lexeme : Lexeme (t.lexeme.toList ++ spelled after) t.kind t.lexeme.toList
  nonempty : t.lexeme.toList = [] → t.kind = .finish
  pos : t.pos = pos.advance (spelled before ++ gap)

/-- All tokens of a text that begins at `pos` are placed. -/
def Cut (pos : Position) (tokens : List (List Char × Token)) : Prop :=
  ∀ before gap t after, tokens = before ++ (gap, t) :: after → Placed pos before gap t after

end CalcScript.Lexical
