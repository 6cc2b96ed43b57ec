/-
`Fault.lean` -- why an evaluation fails.

A `Fault` is a cause. Its class and its wording are functions of it, so no part
of the program compares texts. A `RuntimeError` is a fault with the place of the
node that raised it, once that is known.
-/
import CalcScript.Position
import CalcScript.Primitive
import CalcScript.Number.Text

set_option autoImplicit false

namespace CalcScript

/-! ## 1. Causes -/

/-- What an index is an index to. -/
inductive Indexed where
  | string
  | array
deriving DecidableEq, Repr

/-- Each cause holds what its message tells about it. -/
inductive Fault where
  /-- an operation needs a number and has a value of this type -/
  | notNumeric (typeName : String)
  /-- a string that spells no number -/
  | notNumeral (text : String)
  | notIndexable (typeName : String)
  | immutableString
  | firstNotArray
  | notBothArrays
  | noLength (typeName : String)
  | notCallable (typeName : String)
  | arity (expected : Arity) (given : Nat)
  /-- a label takes no argument or one -/
  | labelArity (given : Nat)
  | undefinedVariable (name : String)
  | indexNotInteger (what : Indexed)
  | negativeIndex (index : Float)
  | outOfRange (index length : Nat)
  | popEmpty
  | badLength
  | lengthTooLarge (length : Float) (most : Nat)
  /-- a label applied after its block has ended -/
  | deadLabel
  /-- an exit that no running block is waiting for -/
  | strayExit (label : Nat)
  | divisionByZero
  /-- the sink took only part of the output, with this error -/
  | sinkFull (reason : String)
deriving DecidableEq, Repr

namespace Fault

/-- Classes of faults. -/
inductive Kind where
  | type
  | arity
  | undefinedVariable
  | index
  | invalidExit
  | divisionByZero
  | output
deriving DecidableEq, Repr

def Kind.text : Kind → String
  | .type => "type error"
  | .arity => "arity error"
  | .undefinedVariable => "undefined variable"
  | .index => "index error"
  | .invalidExit => "invalid non-local exit"
  | .divisionByZero => "division by zero"
  | .output => "output error"

def kind : Fault → Kind
  | notNumeric _ | notNumeral _ | notIndexable _ | immutableString | firstNotArray
  | notBothArrays | noLength _ | notCallable _ => .type
  | arity .. | labelArity _ => .arity
  | undefinedVariable _ => .undefinedVariable
  | indexNotInteger _ | negativeIndex _ | outOfRange .. | popEmpty | badLength
  | lengthTooLarge .. => .index
  | deadLabel | strayExit _ => .invalidExit
  | divisionByZero => .divisionByZero
  | sinkFull _ => .output

/-- What went wrong, in words. A failing sink has its own. -/
def message : Fault → String
  | notNumeric typeName => typeName ++ " is not a number"
  | notNumeral text => "String \"" ++ text ++ "\" is not a number"
  | notIndexable typeName => typeName ++ " is not indexable"
  | immutableString => "Strings are immutable"
  | firstNotArray => "First argument must be an array"
  | notBothArrays => "Both arguments must be arrays"
  | noLength typeName => typeName ++ " has no length"
  | notCallable typeName => typeName ++ " is not a function"
  | arity expected given =>
    "Expecting " ++ expected.text ++ " arguments. Given " ++ toString given
  | labelArity given => "Expecting 0 or 1 arguments. Given " ++ toString given
  | undefinedVariable name => "No such variable " ++ name
  | indexNotInteger .string => "Index to string must be an integer"
  | indexNotInteger .array => "Index to array must be an integer"
  | negativeIndex index => "Index " ++ Layout.plain.write index ++ " out of range"
  | outOfRange index length =>
    "Index " ++ toString index ++ " out of range for length " ++ toString length
  | popEmpty => "Cannot pop from an empty array"
  | badLength => "Length must be a non-negative integer"
  | lengthTooLarge length most =>
    "Length " ++ Number.text length ++ " exceeds the maximum of " ++ toString most
  | deadLabel => "Label invalid outside defining block"
  | strayExit label => "Label #" ++ toString label ++ " escaped its block"
  | divisionByZero => "Division by zero"
  | sinkFull reason => reason

end Fault

/-! ## 2. Errors -/

/-- A fault, with the place of the node that has raised it. Built-in operations know no places. -/
structure RuntimeError where
  fault : Fault
  pos : Option Position
deriving DecidableEq, Repr

namespace RuntimeError

/-- Adds a place, unless a more precise one is known already. -/
def locate (e : RuntimeError) (pos : Position) : RuntimeError :=
  { e with pos := some (e.pos.getD pos) }

/-- The place comes first, then the kind of the fault and its message. -/
def text (e : RuntimeError) : String :=
  let body := e.fault.kind.text ++ ": " ++ e.fault.message
  match e.pos with
  | some pos => pos.text ++ ": " ++ body
  | none => body

end RuntimeError

end CalcScript
