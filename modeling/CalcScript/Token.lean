/-
`Token.lean` -- the words of the language.

Operators and punctuation are `Symbol`s and reserved words are `Keyword`s, each
with one spelling. A `Token` is a word with its lexeme, the exact characters it
was made from, and the place of the first of them.
-/
import CalcScript.Position

set_option autoImplicit false

namespace CalcScript

/-! ## 1. Operators and punctuation -/

inductive Symbol where
  | arrow | store | update | equal | lessEqual | greaterEqual | notEqual | and | or
  | minus | plus | times | slash | caret | percent
  | openParen | closeParen | openBracket | closeBracket | comma | semicolon
  | less | greater | not
deriving DecidableEq, Repr

namespace Symbol

/-- All symbols, every spelling of two characters in front of those of one. -/
def all : List Symbol :=
  [arrow, store, update, equal, lessEqual, greaterEqual, notEqual, and, or,
    minus, plus, times, slash, caret, percent,
    openParen, closeParen, openBracket, closeBracket, comma, semicolon,
    less, greater, not]

def chars : Symbol → List Char
  | arrow => ['-', '>']
  | store => [':', '=']
  | update => ['<', '-']
  | equal => ['=', '=']
  | lessEqual => ['<', '=']
  | greaterEqual => ['>', '=']
  | notEqual => ['!', '=']
  | and => ['&', '&']
  | or => ['|', '|']
  | minus => ['-']
  | plus => ['+']
  | times => ['*']
  | slash => ['/']
  | caret => ['^']
  | percent => ['%']
  | openParen => ['(']
  | closeParen => [')']
  | openBracket => ['[']
  | closeBracket => [']']
  | comma => [',']
  | semicolon => [';']
  | less => ['<']
  | greater => ['>']
  | not => ['!']

/-- How a symbol is spelled. -/
def text (s : Symbol) : String := String.ofList s.chars

/-- The longest symbol at the front of a text. -/
def ofFront? (cs : List Char) : Option Symbol :=
  all.find? fun s => s.chars.isPrefixOf cs

theorem mem_all (s : Symbol) : s ∈ all := by
  cases s <;> decide

theorem append_of_ofFront? {cs : List Char} {s : Symbol} (h : ofFront? cs = some s) :
    ∃ rest, s.chars ++ rest = cs := by
  have hfront : s.chars.isPrefixOf cs = true := by
    simpa using List.find?_some h
  obtain ⟨rest, hrest⟩ := List.isPrefixOf_iff_prefix.1 hfront
  exact ⟨rest, hrest⟩

end Symbol

/-! ## 2. Reserved words -/

inductive Keyword where
  | nullK | trueK | falseK | ifK | thenK | elifK | elseK | endK | doK | whileK | funK | divK
  | blockK
deriving DecidableEq, Repr

namespace Keyword

def all : List Keyword :=
  [nullK, trueK, falseK, ifK, thenK, elifK, elseK, endK, doK, whileK, funK, divK, blockK]

/-- How a reserved word is spelled. -/
def text : Keyword → String
  | nullK => "null"
  | trueK => "true"
  | falseK => "false"
  | ifK => "if"
  | thenK => "then"
  | elifK => "elif"
  | elseK => "else"
  | endK => "end"
  | doK => "do"
  | whileK => "while"
  | funK => "fun"
  | divK => "div"
  | blockK => "block"

/-- The reserved word spelled like this, if there is one. -/
def ofText? (s : String) : Option Keyword :=
  all.find? fun k => k.text == s

theorem mem_all (k : Keyword) : k ∈ all := by
  cases k <;> decide

@[simp] theorem ofText?_text (k : Keyword) : ofText? k.text = some k := by
  cases k <;> decide

end Keyword

/-! ## 3. Tokens -/

/-- Why a piece of text is no word of the language. -/
inductive Malformed where
  | unclosedComment
  | unclosedString
  | unexpected (c : Char)
deriving DecidableEq, Repr

def Malformed.message : Malformed → String
  | .unclosedComment => "Unterminated block comment"
  | .unclosedString => "Unterminated string"
  | .unexpected c => "Unexpected character '" ++ c.toString ++ "'"

/-- What a token is. Numbers and strings carry the value they spell. -/
inductive Token.Kind where
  | number (value : Float)
  | str (value : String)
  | identifier
  | keyword (k : Keyword)
  | symbol (s : Symbol)
  | malformed (m : Malformed)
  | finish
deriving DecidableEq, Repr

structure Token where
  kind : Token.Kind
  lexeme : String
  pos : Position
deriving DecidableEq, Repr

/-- The token that stands for the end of a text. -/
def Token.finish (pos : Position) : Token := ⟨.finish, "", pos⟩

end CalcScript
