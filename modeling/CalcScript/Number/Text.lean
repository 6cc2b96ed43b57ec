/-
`Number/Text.lean` -- how programs see a number written.
-/
import CalcScript.Number.Layout

set_option autoImplicit false

namespace CalcScript.Number

/-- What is not whole is written positionally by its shortest digits. -/
def layout : Layout :=
  { Layout.plain with infinity := "Infinity", negativeInfinity := "-Infinity" }

/-- The text of a number. A whole number is written in full, every digit exact,
and both zeros are `0`. -/
def text (x : Float) : String :=
  match integer? x with
  | some i => toString i
  | none => layout.write x

end CalcScript.Number
