/-
`Store/Text.lean` -- values as text.

`Store.text` is what programs print. An array inside itself is written as
`[...]`; an array that merely occurs twice is written twice. `Store.inspect`
names the type and quotes strings.
-/
import CalcScript.Store
import CalcScript.Number.Text
import CalcScript.Text.Quoted

set_option autoImplicit false

namespace CalcScript

/-- The text of a label. -/
def Label.text (l : Label) : String :=
  match l.name with
  | some name => "<label " ++ name ++ ">"
  | none => "<label>"

/-- The text of a function. -/
def Closure.text (c : Closure) : String :=
  "<fun(" ++ ", ".intercalate c.params ++ ")>"

namespace Store

/-- The text of a value inside the arrays `opened`, at most so many arrays deep. -/
def textWithin (s : Store) : Nat → List ArrayRef → Value → String
  | _, _, .number x => Number.text x
  | _, _, .bool true => "true"
  | _, _, .bool false => "false"
  | _, _, .null => "null"
  | _, _, .str text => text
  | _, _, .closure r => (s.closure? r).elim "" Closure.text
  | _, _, .primitive p => "<primitive " ++ p.name ++ ">"
  | _, _, .label r => (s.label? r).elim "" Label.text
  | 0, _, .array _ => "[...]"
  | n + 1, opened, .array r =>
    if opened.contains r then "[...]"
    else
      let texts := (s.items r).toList.map (textWithin s n (r :: opened))
      "[" ++ ", ".intercalate texts ++ "]"

/-- The text of a value. Arrays nest no deeper than there are arrays before one
of them comes again. -/
def text (s : Store) (v : Value) : String :=
  s.textWithin (s.arrays.size + 1) [] v

/-! ## The detailed text -/

/-- Detailed numbers show a point or an exponent: positional from `0.0001` up to
`10 ^ 16`. -/
def inspectLayout : Layout :=
  { Layout.plain with positional := some (-4, 15), keepsPoint := true }

/-- The detailed text of a list of names. -/
def quotedNames (names : List String) : String :=
  "[" ++ ", ".intercalate (names.map Text.quoted) ++ "]"

/-- The detailed text of a value. -/
def inspect (s : Store) (v : Value) : String :=
  match v with
  | .number x => "Number(" ++ inspectLayout.write x ++ ")"
  | .bool _ => "Bool(" ++ s.text v ++ ")"
  | .null => "Null"
  | .str text => "Str(" ++ Text.quoted text ++ ")"
  | .array _ => "Array(" ++ s.text v ++ ")"
  | .closure r =>
    let params := (s.closure? r).elim [] Closure.params
    "Closure(Closure \x7b params: " ++ quotedNames params ++ ", .. \x7d)"
  | .primitive p => "Primitive(" ++ p.tag ++ ")"
  | .label r =>
    match s.label? r with
    | none => ""
    | some l =>
      let name := l.name.elim "None" fun name => "Some(" ++ Text.quoted name ++ ")"
      let active := if l.active then "true" else "false"
      "Label(Label \x7b id: " ++ toString l.id ++ ", name: " ++ name
        ++ ", active: Cell \x7b value: " ++ active ++ " \x7d \x7d)"

end Store

end CalcScript
