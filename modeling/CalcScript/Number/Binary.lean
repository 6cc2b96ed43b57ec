/-
`Number/Binary.lean` -- a finite double as sign, significand and power of two,
and the exact operations that are easiest to say there.

`Binary.ofFloat?` reads the three fields of the 64-bit format, `Binary.toFloat`
packs them again. Truncation, the remainder of a division and the test for an
integer all go through this view, so each of them is integer arithmetic with no
rounding at all.
-/

set_option autoImplicit false

namespace CalcScript

/-! ## 1. The three fields -/

/-- The number `± significand · 2 ^ exponent`; zero keeps its sign. -/
structure Binary where
  negative : Bool
  significand : Nat
  exponent : Int
deriving DecidableEq, Repr

namespace Binary

/-- The fields of a finite double; `none` for the infinities and for NaN. A
subnormal has the exponent of the smallest normal and no hidden bit. -/
def ofFloat? (x : Float) : Option Binary :=
  let bits := x.toBits.toNat
  let negative := decide (Nat.pow 2 63 ≤ bits)
  let field : Nat := bits / Nat.pow 2 52 % Nat.pow 2 11
  let fraction : Nat := bits % Nat.pow 2 52
  if field = 2047 then none
  else if field = 0 then some ⟨negative, fraction, -1074⟩
  else some ⟨negative, Nat.pow 2 52 + fraction, (field : Int) - 1075⟩

/-- The double with the given fields. The significand is moved up until its
hidden bit is in place or the exponent is the least one, so the result is exact
whenever some double has that value: a significand below `2 ^ 53` and an
exponent between `-1074` and `971` are enough. -/
def toFloat (b : Binary) : Float :=
  let room := min (52 - b.significand.log2) (b.exponent + 1074).toNat
  let significand := b.significand * Nat.pow 2 room
  let field := if significand < Nat.pow 2 52 then 0 else (b.exponent - room + 1075).toNat
  let bits := field * Nat.pow 2 52 + significand % Nat.pow 2 52
  Float.ofBits (UInt64.ofNat (if b.negative then Nat.pow 2 63 + bits else bits))

/-- The part of the magnitude in front of the binary point. -/
def whole (b : Binary) : Nat :=
  if 0 ≤ b.exponent then b.significand * Nat.pow 2 b.exponent.toNat
  else b.significand / Nat.pow 2 (-b.exponent).toNat

/-- Nothing stands behind the binary point. -/
def isWhole (b : Binary) : Bool :=
  decide (0 ≤ b.exponent) || b.significand % Nat.pow 2 (-b.exponent).toNat == 0

end Binary

/-! ## 2. Exact operations on doubles -/

namespace Number

def nan : Float := 0.0 / 0.0

def infinity : Float := 1.0 / 0.0

/-- The integer that a double is equal to, if there is one. Both zeros give
zero; the infinities and NaN give none. -/
def integer? (x : Float) : Option Int :=
  (Binary.ofFloat? x).bind fun b =>
    if b.isWhole then some (if b.negative then -(b.whole : Int) else b.whole) else none

/-- Drops the part behind the binary point. The sign is kept, also on zero, and
what is not finite stays as it is. -/
def trunc (x : Float) : Float :=
  match Binary.ofFloat? x with
  | none => x
  | some b => if 0 ≤ b.exponent then x else (Binary.mk b.negative b.whole 0).toFloat

/-- The remainder of a division truncated toward zero: exact, with the sign of
the dividend. An infinite divisor leaves a finite dividend as it is; an infinite
dividend, a zero divisor or a NaN gives NaN. -/
def remainder (x y : Float) : Float :=
  match Binary.ofFloat? x, Binary.ofFloat? y with
  | some a, some b =>
    if b.significand = 0 then nan
    else
      let low := min a.exponent b.exponent
      let dividend := a.significand * Nat.pow 2 (a.exponent - low).toNat
      let divisor := b.significand * Nat.pow 2 (b.exponent - low).toNat
      (Binary.mk a.negative (dividend % divisor) low).toFloat
  | some _, none => if y.isNaN then nan else x
  | none, _ => nan

/-- The double nearest to an integer. -/
def ofInt (i : Int) : Float :=
  if i < 0 then -(Float.ofNat i.natAbs) else Float.ofNat i.natAbs

end Number

end CalcScript
