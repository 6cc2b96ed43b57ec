/-
`Number/Layout.lean` -- writing a double as text.

The digits are the fewest that read back (`Decimal.shortest`); a `Layout` is the
list of decisions that are left: which magnitudes are written positionally, what
an exponent looks like, whether a whole number keeps a `.0`, which way ties go.
Each output format of the project has its own record of this type.
-/
import CalcScript.Number.Decimal

set_option autoImplicit false

namespace CalcScript

/-- The decisions of a number format. The exponents are those of scientific
notation, so `0` stands for magnitudes from one to ten. -/
structure Layout where
  /-- least and greatest exponent written positionally; `none` for all of them -/
  positional : Option (Int × Int)
  /-- a whole number is written with one zero behind the point -/
  keepsPoint : Bool
  /-- an exponent that is not negative has a plus sign -/
  signsExponent : Bool
  tie : Decimal.Tie
  nan : String
  infinity : String
  negativeInfinity : String

namespace Layout

/-- The digits of a decimal with the point in place, zeros filling the gaps. -/
def fixed (keepsPoint : Bool) (d : Decimal) : String :=
  let digits := Nat.toDigits 10 d.coefficient
  let point := (digits.length : Int) + d.exponent
  if 0 ≤ d.exponent then
    String.ofList (digits ++ List.replicate d.exponent.toNat '0')
      ++ (if keepsPoint then ".0" else "")
  else if 0 < point then
    String.ofList (digits.take point.toNat ++ '.' :: digits.drop point.toNat)
  else
    String.ofList ('0' :: '.' :: List.replicate (-point).toNat '0' ++ digits)

/-- One digit in front of the point, then the exponent. -/
def scientific (signsExponent : Bool) (d : Decimal) : String :=
  let digits := Nat.toDigits 10 d.coefficient
  let exponent := (digits.length : Int) + d.exponent - 1
  let mantissa := digits.take 1 ++ (if digits.length ≤ 1 then [] else '.' :: digits.drop 1)
  let sign := if 0 ≤ exponent && signsExponent then "+" else ""
  String.ofList mantissa ++ "e" ++ sign ++ toString exponent

/-- Whether a positive decimal is written positionally. -/
def writesFixed (l : Layout) (d : Decimal) : Bool :=
  match l.positional with
  | none => true
  | some (least, greatest) =>
    let exponent := (Decimal.digitCount d.coefficient : Int) + d.exponent - 1
    decide (least ≤ exponent) && decide (exponent ≤ greatest)

/-- The text of a double in this format. -/
def write (l : Layout) (x : Float) : String :=
  match Binary.ofFloat? x with
  | none =>
    if x.isNaN then l.nan else if 0 < x then l.infinity else l.negativeInfinity
  | some b =>
    let magnitude :=
      if b.significand = 0 then fixed l.keepsPoint ⟨0, 0⟩
      else
        let d := Decimal.shortest l.tie b.significand b.exponent
        if l.writesFixed d then fixed l.keepsPoint d else scientific l.signsExponent d
    if b.negative then "-" ++ magnitude else magnitude

/-- Positional at every magnitude and without a point on whole numbers. -/
def plain : Layout where
  positional := none
  keepsPoint := false
  signsExponent := false
  tie := .up
  nan := "NaN"
  infinity := "inf"
  negativeInfinity := "-inf"

end Layout

end CalcScript
