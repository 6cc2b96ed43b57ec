/-
`Value/Coerce.lean` -- values as numbers, truth values and indices.
-/
import CalcScript.Fault
import CalcScript.Number.Numeral
import CalcScript.Store
import CalcScript.Text.Blank

set_option autoImplicit false

namespace CalcScript

/-! ## 1. Numbers -/

/-- An unsigned number: a numeral, or one of the names under which numbers that
are not finite are written. -/
def unsignedNumber? (body : List Char) : Option Float :=
  if body = "Infinity".toList then some Number.infinity
  else if body = "NaN".toList then some Number.nan
  else (Numeral.ofChars? body).map Numeral.value

/-- The number that a text spells: blanks at both ends do not count, and one sign
may come first. -/
def number? (text : String) : Option Float :=
  match Text.trim text.toList with
  | '-' :: body => (unsignedNumber? body).map fun x => -x
  | '+' :: body => unsignedNumber? body
  | body => unsignedNumber? body

/-- A value where a number is needed. -/
def Value.toNumber : Value → Except Fault Float
  | .number x => .ok x
  | .bool true => .ok 1.0
  | .bool false => .ok 0.0
  | .null => .ok 0.0
  | .str s =>
    match number? s with
    | some x => .ok x
    | none => .error (.notNumeral s)
  | v => .error (.notNumeric v.typeName)

/-! ## 2. Truth values -/

/-- A value where a truth value is needed. Zero, null and what is empty are
false; NaN is true. -/
def Store.truthy (s : Store) : Value → Bool
  | .number x => x != 0.0
  | .bool b => b
  | .null => false
  | .str text => !text.isEmpty
  | .array r => !(s.items r).isEmpty
  | .closure _ | .primitive _ | .label _ => true

/-! ## 3. Indices -/

/-- The largest index there is. Greater ones are cut down to it. -/
def maxIndex : Nat := Nat.pow 2 64 - 1

/-- A value where an index is needed. -/
def Value.toIndex (what : Indexed) (v : Value) : Except Fault Nat := do
  let x ← v.toNumber
  match Number.integer? x with
  | none => .error (.indexNotInteger what)
  | some i => if i < 0 then .error (.negativeIndex x) else .ok (min i.toNat maxIndex)

namespace Store

/-- The element of an array, or the code of a character of a string. -/
def get (s : Store) (v index : Value) : Except Fault Value :=
  match v with
  | .str text => do
    let i ← index.toIndex .string
    let chars := text.toList
    match chars[i]? with
    | some c => return .number (Float.ofNat c.toNat)
    | none => .error (.outOfRange i chars.length)
  | .array r => do
    let i ← index.toIndex .array
    let items := s.items r
    match items[i]? with
    | some item => return item
    | none => .error (.outOfRange i items.size)
  | v => .error (.notIndexable v.typeName)

/-- The element of an array that an assignment replaces: the array and a place
in it. -/
def slot (s : Store) (v index : Value) : Except Fault (ArrayRef × Nat) :=
  match v with
  | .array r => do
    let i ← index.toIndex .array
    let length := (s.items r).size
    if i < length then return (r, i) else .error (.outOfRange i length)
  | .str _ => .error .immutableString
  | v => .error (.notIndexable v.typeName)

/-- Puts a value into a slot. -/
def fill (s : Store) (slot : ArrayRef × Nat) (value : Value) : Store :=
  s.modifyArray slot.1 fun items => items.setIfInBounds slot.2 value

end Store

end CalcScript
