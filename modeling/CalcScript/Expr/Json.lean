/-
`Expr/Json.lean` -- a tree as a JSON document: one field named for the kind of
node, holding its parts.
-/
import CalcScript.Expr
import CalcScript.Json

set_option autoImplicit false

namespace CalcScript

def Position.json (p : Position) : Json :=
  .obj [("line", .nat p.line), ("col", .nat p.col)]

def Literal.json : Literal → Json
  | .number x => .obj [("Number", .number x)]
  | .str s => .obj [("Str", .str s)]
  | .bool true => .str "True"
  | .bool false => .str "False"
  | .null => .str "Null"

namespace Expr

/-- A document with one field. -/
def tagged (tag : String) (body : Json) : Json := .obj [(tag, body)]

mutual

def json : Expr → Json
  | .literal l => tagged "Literal" l.json
  | .primitive p => tagged "Primitive" (.str p.tag)
  | .array items => tagged "Array" (.arr (jsons items))
  | .var name pos => tagged "Variable" (.obj [("name", .str name), ("pos", pos.json)])
  | .store name value => tagged "Store" (.obj [("name", .str name), ("value", json value)])
  | .update name value pos =>
    tagged "Update" (.obj [("name", .str name), ("value", json value), ("pos", pos.json)])
  | .seq first rest => tagged "Sequence" (.arr [json first, json rest])
  | .and left right => tagged "And" (.arr [json left, json right])
  | .or left right => tagged "Or" (.arr [json left, json right])
  | .cond condition consequent alternate =>
    tagged "If" (.obj [("condition", json condition), ("consequent", json consequent),
      ("alternate", json alternate)])
  | .loop condition body =>
    tagged "While" (.obj [("condition", json condition), ("body", json body)])
  | .func params body =>
    tagged "Function" (.obj [("params", .arr (params.map .str)), ("body", json body)])
  | .apply callee args pos =>
    tagged "Apply" (.obj [("callee", json callee), ("arguments", .arr (jsons args)),
      ("pos", pos.json)])
  | .block label body =>
    tagged "Block" (.obj [("label", label.elim .null .str), ("body", json body)])

def jsons : List Expr → List Json
  | [] => []
  | e :: es => json e :: jsons es

end

end Expr

end CalcScript
