/-
`Position.lean` -- where a character of a program stands.

Lines are counted from one and columns from zero, both in characters: a newline
starts the next line, every other character moves one column to the right.
-/

set_option autoImplicit false

namespace CalcScript

/-- A place in a program text: line from one, column from zero. -/
structure Position where
  line : Nat
  col : Nat
deriving DecidableEq, Repr, Inhabited

namespace Position

/-- The place of the first character of a text. -/
def start : Position := ⟨1, 0⟩

/-- The place just behind the character `c` that stands at `p`. -/
def after (p : Position) (c : Char) : Position :=
  if c = '\n' then ⟨p.line + 1, 0⟩ else ⟨p.line, p.col + 1⟩

/-- The place just behind the characters `cs`, the first of which stands at `p`. -/
def advance (p : Position) (cs : List Char) : Position :=
  cs.foldl after p

@[simp] theorem advance_nil (p : Position) : p.advance [] = p := rfl

@[simp] theorem advance_cons (p : Position) (c : Char) (cs : List Char) :
    p.advance (c :: cs) = (p.after c).advance cs := rfl

theorem advance_append (p : Position) (cs ds : List Char) :
    p.advance (cs ++ ds) = (p.advance cs).advance ds := by
  simp [advance, List.foldl_append]

/-- A place as diagnostics show it: `line:col`. -/
def text (p : Position) : String :=
  toString p.line ++ ":" ++ toString p.col

end Position

end CalcScript
