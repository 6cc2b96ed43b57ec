/-
`Expr/PrefixForm.lean` -- a tree as parenthesised text: `1 + 2 * 3` is
`(+ 1 (* 2 3))`.

The application of a primitive is written under the primitive's name, any other
one as `(call callee args)`. Places are not shown.
-/
import CalcScript.Expr
import CalcScript.Number.Text
import CalcScript.Text.Quoted

set_option autoImplicit false

namespace CalcScript

def Literal.text : Literal → String
  | .number x => Number.text x
  | .str s => Text.quoted s
  | .bool true => "true"
  | .bool false => "false"
  | .null => "null"

namespace Expr

/-- A head and its operands between parentheses. -/
def node (head : String) (operands : List String) : String :=
  "(" ++ " ".intercalate (head :: operands) ++ ")"

mutual

def prefixForm : Expr → String
  | .literal l => l.text
  | .primitive p => p.name
  | .array items => node "array" (prefixForms items)
  | .var name _ => name
  | .store name value => node ":=" [name, prefixForm value]
  | .update name value _ => node "<-" [name, prefixForm value]
  | .seq first rest => node "seq" [prefixForm first, prefixForm rest]
  | .and left right => node "&&" [prefixForm left, prefixForm right]
  | .or left right => node "||" [prefixForm left, prefixForm right]
  | .cond condition consequent alternate =>
    node "if" [prefixForm condition, prefixForm consequent, prefixForm alternate]
  | .loop condition body => node "while" [prefixForm condition, prefixForm body]
  | .func params body =>
    node "fun" ["(" ++ " ".intercalate params ++ ")", prefixForm body]
  | .apply (.primitive p) args _ => node p.name (prefixForms args)
  | .apply callee args _ => node "call" (prefixForm callee :: prefixForms args)
  | .block label body => node "block" (label.toList ++ [prefixForm body])

def prefixForms : List Expr → List String
  | [] => []
  | e :: es => prefixForm e :: prefixForms es

end

end Expr

end CalcScript
