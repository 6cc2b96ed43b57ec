/-
`Number/Decimal.lean` -- decimals: the double nearest to one, and the shortest
one that reads back as a given double.

A decimal is a coefficient times a power of ten. `Decimal.toFloat` rounds it to
the nearest double, halves to the even significand. `Decimal.shortest` goes the
other way: it tries one digit, two digits, ... and at each length looks at the
two decimals of that length next to the value. The first length at which one of
them lies in the interval of reals that round to the double wins. All
comparisons are between natural numbers.
-/
import CalcScript.Number.Binary

set_option autoImplicit false

namespace CalcScript

/-- The number `coefficient · 10 ^ exponent`. -/
structure Decimal where
  coefficient : Nat
  exponent : Int
deriving DecidableEq, Repr

namespace Decimal

/-! ## 1. From decimals to doubles -/

/-- The nearest double, a half going to the even significand; too large a
decimal gives infinity and too small a one zero. -/
def toFloat (d : Decimal) : Float :=
  Float.ofScientific d.coefficient (decide (d.exponent < 0)) d.exponent.natAbs

/-! ## 2. The reals that round to a double -/

/-- A positive value with the two ends of the interval of reals that round to
it, each counted in the same small unit; `one` is the number of units in one. -/
structure Interval where
  low : Nat
  value : Nat
  high : Nat
  one : Nat
  closed : Bool
deriving DecidableEq, Repr

/-- The rounding interval of `significand · 2 ^ exponent`. Both ends lie half a
step away, except that below a power of two the steps are half as long, if they
are not the least ones already. The ends belong to it when the significand is
even. A quarter of a step is a whole number of units. -/
def Interval.around (significand : Nat) (exponent : Int) : Interval :=
  let quarter := Nat.pow 2 (exponent - 2).toNat
  let below := if significand = Nat.pow 2 52 ∧ -1074 < exponent then 1 else 2
  { low := (4 * significand - below) * quarter
    value := 4 * significand * quarter
    high := (4 * significand + 2) * quarter
    one := Nat.pow 2 (2 - exponent).toNat
    closed := significand % 2 == 0 }

/-! ## 3. The fewest digits -/

/-- How to choose between two decimals that are equally near. -/
inductive Tie where
  | up
  | even
deriving DecidableEq, Repr

/-- The number of digits of a positive natural number, in base ten. -/
def digitCount (n : Nat) : Nat :=
  (Nat.toDigits 10 n).length

/-- The number `k` with `10 ^ (k - 1) ≤ value < 10 ^ k`. Below one it is read off
the natural numbers under `1 / value`. -/
def Interval.magnitude (r : Interval) : Int :=
  if r.one ≤ r.value then digitCount (r.value / r.one)
  else 1 - digitCount ((r.one - 1) / r.value)

/-- The point `c` of the grid with the given step lies in the interval, ends and
step being counted in units of `1 / scale`. -/
def Interval.holds (r : Interval) (scale step c : Nat) : Bool :=
  if r.closed then decide (r.low * scale ≤ c * step) && decide (c * step ≤ r.high * scale)
  else decide (r.low * scale < c * step) && decide (c * step < r.high * scale)

/-- The coefficient of a decimal `c · 10 ^ exponent` in the interval, if one of
the two next to the value is. Of two the nearer one is taken. -/
def Interval.pick? (r : Interval) (tie : Tie) (exponent : Int) : Option Nat :=
  let scale := Nat.pow 10 (-exponent).toNat
  let step := r.one * Nat.pow 10 exponent.toNat
  let value := r.value * scale
  let floor := value / step
  let above := floor + 1
  match r.holds scale step floor, r.holds scale step above with
  | true, true =>
    let toFloor := value - floor * step
    let toAbove := above * step - value
    if toFloor < toAbove then some floor
    else if toAbove < toFloor then some above
    else match tie with
      | .up => some above
      | .even => some (if floor % 2 = 0 then floor else above)
  | true, false => some floor
  | false, true => some above
  | false, false => none

/-- A coefficient that ends in a zero loses it to the exponent. -/
def trim (d : Decimal) : Decimal :=
  if d.coefficient % 10 = 0 then ⟨d.coefficient / 10, d.exponent + 1⟩ else d

/-- The decimal of the fewest digits in the rounding interval, the nearest of
those; seventeen digits are always enough. One of them can end in a zero only
by being a power of ten. -/
def shortest (tie : Tie) (significand : Nat) (exponent : Int) : Decimal :=
  let interval := Interval.around significand exponent
  let magnitude := interval.magnitude
  let found := (List.range 17).findSome? fun (n : Nat) =>
    let place := magnitude - (n + 1)
    (interval.pick? tie place).map fun c => trim ⟨c, place⟩
  found.getD ⟨interval.value / interval.one, 0⟩

end Decimal

end CalcScript
