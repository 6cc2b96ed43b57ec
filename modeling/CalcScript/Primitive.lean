/-
`Primitive.lean` -- the built-in operations: their names and how many arguments
they take.

Operators and indexing of the language are applications of these; seven of them
can also be reached by name.
-/

set_option autoImplicit false

namespace CalcScript

/-! ## 1. Argument counts -/

/-- The numbers of arguments that an operation takes. -/
inductive Arity where
  | exactly (n : Nat)
  | between (least most : Nat)
  | any
deriving DecidableEq, Repr

namespace Arity

def accepts : Arity → Nat → Bool
  | exactly n, given => given == n
  | between least most, given => decide (least ≤ given) && decide (given ≤ most)
  | any, _ => true

def text : Arity → String
  | exactly n => toString n
  | between least most => toString least ++ " to " ++ toString most
  | any => "any number of"

end Arity

/-! ## 2. The operations -/

/-- Operators, output, and what can be done with arrays and strings. -/
inductive Primitive where
  | add | sub | mul | div | intDiv | mod | pow | neg | pos | not
  | lt | le | gt | ge | eq | ne
  | print | printLine
  | makeArray | get | set | push | pop | extend | len
deriving DecidableEq, Repr

namespace Primitive

def all : List Primitive :=
  [add, sub, mul, div, intDiv, mod, pow, neg, pos, not, lt, le, gt, ge, eq, ne,
    print, printLine, makeArray, get, set, push, pop, extend, len]

theorem mem_all (p : Primitive) : p ∈ all := by
  cases p <;> decide

/-- The name under which programs and the prefix form know an operation. -/
def name : Primitive → String
  | add => "+"
  | sub => "-"
  | mul => "*"
  | div => "/"
  | intDiv => "div"
  | mod => "%"
  | pow => "^"
  | neg => "neg"
  | pos => "pos"
  | not => "!"
  | lt => "<"
  | le => "<="
  | gt => ">"
  | ge => ">="
  | eq => "=="
  | ne => "!="
  | print => "print"
  | printLine => "print_line"
  | makeArray => "make_array"
  | get => "get"
  | set => "set"
  | push => "push"
  | pop => "pop"
  | extend => "extend"
  | len => "len"

def ofName? (s : String) : Option Primitive :=
  all.find? fun p => p.name == s

@[simp] theorem ofName?_name (p : Primitive) : ofName? p.name = some p := by
  cases p <;> decide

/-- The name of an operation in JSON trees and in detailed value texts. -/
def tag : Primitive → String
  | add => "Add"
  | sub => "Sub"
  | mul => "Mul"
  | div => "Div"
  | intDiv => "IntDiv"
  | mod => "Mod"
  | pow => "Pow"
  | neg => "Neg"
  | pos => "Plus"
  | not => "Not"
  | lt => "Lt"
  | le => "Lte"
  | gt => "Gt"
  | ge => "Gte"
  | eq => "Eq"
  | ne => "Neq"
  | print => "Print"
  | printLine => "PrintLine"
  | makeArray => "MakeArray"
  | get => "Get"
  | set => "Set"
  | push => "Push"
  | pop => "Pop"
  | extend => "Extend"
  | len => "Len"

/-- Printing takes any number of arguments, and those of making an array are optional. -/
def arity : Primitive → Arity
  | neg | pos | not | pop | len => .exactly 1
  | set => .exactly 3
  | print | printLine => .any
  | makeArray => .between 0 2
  | add | sub | mul | div | intDiv | mod | pow => .exactly 2
  | lt | le | gt | ge | eq | ne => .exactly 2
  | get | push | extend => .exactly 2

/-- The operations that a new session binds to their names. -/
def named : List Primitive :=
  [print, printLine, makeArray, push, pop, extend, len]

end Primitive

end CalcScript
