/-
`Expr.lean` -- programs as trees.

Everything is an expression. Operators have no nodes of their own: `a + b` is the
application of a primitive, and so are `a[i]` and `a[i] <- v`. The nodes at which
evaluation can fail carry a place in the program.
-/
import CalcScript.Position
import CalcScript.Primitive

set_option autoImplicit false

namespace CalcScript

/-- A constant of the program. -/
inductive Literal where
  | number (x : Float)
  | str (s : String)
  | bool (b : Bool)
  | null
deriving DecidableEq, Repr

inductive Expr where
  | literal (l : Literal)
  | primitive (p : Primitive)
  /-- An array literal, `[a, b, c]`. -/
  | array (items : List Expr)
  | var (name : String) (pos : Position)
  /-- A definition, `name := value`, in the innermost scope. -/
  | store (name : String) (value : Expr)
  /-- A change of the nearest binding, `name <- value`. -/
  | update (name : String) (value : Expr) (pos : Position)
  /-- One thing after another, `first; rest`. -/
  | seq (first rest : Expr)
  | and (left right : Expr)
  | or (left right : Expr)
  | cond (condition consequent alternate : Expr)
  | loop (condition body : Expr)
  /-- A function literal, `fun (params) body end`. -/
  | func (params : List String) (body : Expr)
  /-- An application, `callee(args)`, at its operator or opening bracket. -/
  | apply (callee : Expr) (args : List Expr) (pos : Position)
  /-- A block that its label leaves, `block label do body end`. -/
  | block (label : Option String) (body : Expr)
deriving Repr, Inhabited

namespace Expr

def null : Expr := .literal .null

/-- The expressions of a sequence as one tree, nested to the right; none at all
is null. -/
def ofSequence : List Expr → Expr
  | [] => null
  | [e] => e
  | e :: es => .seq e (ofSequence es)

end Expr

end CalcScript
