/-
`Store/Equality.lean` -- when two values are equal.

Values that are not both arrays are compared by a leaf rule. Arrays are equal if
they have the same length and equal elements, from left to right. A comparison
remembers the pairs of arrays it has begun and takes a pair it meets again as
equal, so it ends on arrays that contain themselves too. The number of pairs of
arrays in the store bounds its depth.
-/
import CalcScript.Value.Coerce

set_option autoImplicit false

namespace CalcScript

/-- Pairs of arrays whose comparison has begun. -/
abbrev Pairs := List (ArrayRef × ArrayRef)

/-- Compares two lists of the same length element by element, up to the first
difference. -/
def everyPair {ε : Type} (compare : Value → Value → Pairs → Except ε (Bool × Pairs)) :
    List Value → List Value → Pairs → Except ε (Bool × Pairs)
  | x :: xs, y :: ys, seen => do
    let (same, seen) ← compare x y seen
    if same then everyPair compare xs ys seen else return (false, seen)
  | _, _, seen => .ok (true, seen)

namespace Store

/-- Compares two values, descending at most the given number of arrays. -/
def compareWithin {ε : Type} (s : Store) (leaf : Value → Value → Except ε Bool) :
    Nat → Value → Value → Pairs → Except ε (Bool × Pairs)
  | 0, _, _, seen => .ok (true, seen)
  | n + 1, x, y, seen =>
    match x, y with
    | .array a, .array b =>
      if a = b || seen.contains (a, b) then .ok (true, seen)
      else
        let xs := s.items a
        let ys := s.items b
        let seen := (a, b) :: seen
        if xs.size = ys.size then
          everyPair (compareWithin s leaf n) xs.toList ys.toList seen
        else .ok (false, seen)
    | x, y => do return (← leaf x y, seen)

/-- Compares two values by a leaf rule. -/
def compare {ε : Type} (s : Store) (leaf : Value → Value → Except ε Bool) (x y : Value) :
    Except ε Bool := do
  let (same, _) ← s.compareWithin leaf (s.arrays.size * s.arrays.size + 1) x y []
  return same

end Store

/-! ## Leaf rules -/

/-- Whether two values are of one type and equal there; `none` if they are not of
one type. Functions and labels are equal to themselves only. -/
def Value.sameType? : Value → Value → Option Bool
  | .number a, .number b => some (a == b)
  | .str a, .str b => some (a == b)
  | .bool a, .bool b => some (a == b)
  | .null, .null => some true
  | .closure a, .closure b => some (a == b)
  | .primitive a, .primitive b => some (a == b)
  | .label a, .label b => some (a == b)
  | _, _ => none

/-- Equality of the language: values of different types are compared as numbers. -/
def Value.equalLeaf (x y : Value) : Except Fault Bool :=
  match x.sameType? y with
  | some same => .ok same
  | none => do return (← x.toNumber) == (← y.toNumber)

/-- Sameness: values of different types differ. -/
def Value.sameLeaf (x y : Value) : Except Empty Bool :=
  .ok ((x.sameType? y).getD false)

namespace Store

/-- The operator `==`. -/
def equal (s : Store) (x y : Value) : Except Fault Bool :=
  s.compare Value.equalLeaf x y

/-- Equality without any conversion. -/
def same (s : Store) (x y : Value) : Bool :=
  match s.compare Value.sameLeaf x y with
  | .ok b => b
  | .error e => nomatch e

end Store

end CalcScript
