/-
`Token/Text.lean` -- tokens as a listing shows them, and as JSON.
-/
import CalcScript.Token
import CalcScript.Json

set_option autoImplicit false

namespace CalcScript.Token

/-- The name of a kind of token. -/
def Kind.name : Kind → String
  | .number _ => "FLOAT"
  | .str _ => "STRING"
  | .identifier => "IDENTIFIER"
  | .keyword _ => "RESERVED"
  | .symbol _ => "OPERATOR"
  | .finish => "EOF"
  | .malformed _ => "ERROR"

/-- A number in a listing: whole numbers below `2 ^ 63` in full with a `.0`,
others by their shortest digits. -/
def numberText (x : Float) : String :=
  match Number.integer? x with
  | some i => if i.natAbs < Nat.pow 2 63 then toString i ++ ".0" else Layout.plain.write x
  | none => Layout.plain.write x

/-- A token on one line: its kind, then lexeme and value, or place and message. -/
def text (t : Token) : String :=
  let shown (value : String) := t.kind.name ++ " " ++ t.lexeme ++ " " ++ value
  match t.kind with
  | .number x => shown (numberText x)
  | .str s => shown s
  | .malformed m => t.kind.name ++ " " ++ t.pos.text ++ ": " ++ m.message
  | _ => shown "null"

def Kind.json (k : Kind) : Json :=
  match k with
  | .number x => .obj [(k.name, .number x)]
  | .str s => .obj [(k.name, .str s)]
  | .malformed m => .obj [(k.name, .str m.message)]
  | _ => .str k.name

def json (t : Token) : Json :=
  .obj [("token_type", t.kind.json), ("lexeme", .str t.lexeme),
    ("line", .nat t.pos.line), ("col", .nat t.pos.col)]

end CalcScript.Token
