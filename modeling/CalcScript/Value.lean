/-
`Value.lean` -- what expressions evaluate to.

Arrays, functions and labels have an identity: a value holds a reference into
the store, and two values are the same array when they hold the same reference.
Everything else is the value itself.
-/
import CalcScript.Primitive

set_option autoImplicit false

namespace CalcScript

/-- The number of an array in the store. -/
@[ext] structure ArrayRef where
  index : Nat
deriving DecidableEq, Repr

/-- The number of a function in the store. -/
@[ext] structure ClosureRef where
  index : Nat
deriving DecidableEq, Repr

/-- The number of a label in the store. It is not the number that exits carry. -/
@[ext] structure LabelRef where
  index : Nat
deriving DecidableEq, Repr

/-- The number of a scope in the store. -/
@[ext] structure ScopeRef where
  index : Nat
deriving DecidableEq, Repr

/-- Functions, built-in operations and labels can be applied, the other values cannot. -/
inductive Value where
  | number (x : Float)
  | bool (b : Bool)
  | null
  | str (s : String)
  | array (r : ArrayRef)
  | closure (r : ClosureRef)
  | primitive (p : Primitive)
  | label (r : LabelRef)
deriving DecidableEq, Repr, Inhabited

/-- The name of a value's type in error messages. -/
def Value.typeName : Value → String
  | .number _ => "Number"
  | .bool _ => "Boolean"
  | .null => "Null"
  | .str _ => "String"
  | .array _ => "Array"
  | .closure _ => "Function"
  | .primitive _ => "Function"
  | .label _ => "Label"

end CalcScript
