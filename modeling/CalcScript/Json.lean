/-
`Json.lean` -- JSON documents and their two texts.

Objects keep their fields in the order they are given. `Json.compact` writes no
blanks at all; `Json.pretty` puts every item on a line of its own, two spaces
deeper than the bracket around it.
-/
import CalcScript.Number.Layout

set_option autoImplicit false

namespace CalcScript

inductive Json where
  | null
  | nat (n : Nat)
  | number (x : Float)
  | str (s : String)
  | arr (items : List Json)
  | obj (fields : List (String × Json))

namespace Json

/-! ## 1. Leaves -/

/-- Numbers always show a point or an exponent: positional from `0.00001` up to
`10 ^ 16`, beyond that with a signed exponent. JSON has no infinities. -/
def numberLayout : Layout where
  positional := some (-5, 15)
  keepsPoint := true
  signsExponent := true
  tie := .even
  nan := "null"
  infinity := "null"
  negativeInfinity := "null"

/-- One character as it stands in a JSON string. -/
def escape (c : Char) : List Char :=
  if c = '"' then ['\\', '"']
  else if c = '\\' then ['\\', '\\']
  else if c = '\x08' then ['\\', 'b']
  else if c = '\x0c' then ['\\', 'f']
  else if c = '\n' then ['\\', 'n']
  else if c = '\r' then ['\\', 'r']
  else if c = '\t' then ['\\', 't']
  else if c.toNat < 0x20 then
    ['\\', 'u', '0', '0'] ++ (if c.toNat < 0x10 then ['0'] else []) ++ Nat.toDigits 16 c.toNat
  else [c]

def quoted (s : String) : String :=
  String.ofList ('"' :: s.toList.flatMap escape ++ ['"'])

/-! ## 2. Documents -/

mutual

/-- The text without blanks. -/
def compact : Json → String
  | .null => "null"
  | .nat n => toString n
  | .number x => numberLayout.write x
  | .str s => quoted s
  | .arr items => "[" ++ ",".intercalate (compactItems items) ++ "]"
  | .obj fields => "\x7b" ++ ",".intercalate (compactFields fields) ++ "\x7d"

def compactItems : List Json → List String
  | [] => []
  | item :: items => compact item :: compactItems items

def compactFields : List (String × Json) → List String
  | [] => []
  | (key, value) :: fields => (quoted key ++ ":" ++ compact value) :: compactFields fields

end

/-- The line break in front of an item at the given depth. -/
def lineBreak (depth : Nat) : String :=
  String.ofList ('\n' :: List.replicate (2 * depth) ' ')

/-- Items on lines of their own between two brackets; no items, no lines. -/
def enclose (opening closing : String) (depth : Nat) (items : List String) : String :=
  if items.isEmpty then opening ++ closing
  else
    opening ++ ",".intercalate (items.map (lineBreak (depth + 1) ++ ·))
      ++ lineBreak depth ++ closing

mutual

/-- The text with one item to a line, inside `depth` brackets. -/
def prettyAt (depth : Nat) : Json → String
  | .null => "null"
  | .nat n => toString n
  | .number x => numberLayout.write x
  | .str s => quoted s
  | .arr items => enclose "[" "]" depth (prettyItems (depth + 1) items)
  | .obj fields => enclose "\x7b" "\x7d" depth (prettyFields (depth + 1) fields)

def prettyItems (depth : Nat) : List Json → List String
  | [] => []
  | item :: items => prettyAt depth item :: prettyItems depth items

def prettyFields (depth : Nat) : List (String × Json) → List String
  | [] => []
  | (key, value) :: fields =>
    (quoted key ++ ": " ++ prettyAt depth value) :: prettyFields depth fields

end

def pretty (j : Json) : String := j.prettyAt 0

end Json

end CalcScript
