/-
`Session.lean` -- evaluating one program after another.

A session keeps its machine from one program to the next: global variables,
arrays and functions stay. Its scope number zero is the global one.
-/
import CalcScript.Eval
import CalcScript.Expr.Parser

set_option autoImplicit false

namespace CalcScript

/-! ## 1. Errors -/

/-- Why a session has no value to answer with. -/
inductive Error where
  /-- the program cannot be read -/
  | parse (source : String) (e : ParseError)
  | runtime (e : RuntimeError)
  /-- the sink could not be flushed, with this error -/
  | flush (reason : String)
  /-- the bound on the depth of evaluation is spent -/
  | exhausted
deriving DecidableEq, Repr

def Error.text : Error → String
  | .parse source e => e.text source
  | .runtime e => e.text
  | .flush reason => reason
  | .exhausted => "evaluation too deep"

/-- How an evaluation ends for the session. An exit that meets no block run is an
error without a place. -/
def Signal.toError : Signal → Error
  | .error e => .runtime e
  | .exit label _ => .runtime ⟨.strayExit label, none⟩
  | .exhausted => .exhausted

/-! ## 2. Sessions -/

structure Session where
  machine : Machine

namespace Session

def globals : ScopeRef := ⟨0⟩

/-- The bound on the depth of evaluation: more than any run can use up. -/
def depth : Nat := Nat.pow 2 62

/-- What every session binds at the start. -/
def builtins : Bindings :=
  [("PI", .number 3.141592653589793), ("E", .number 2.718281828459045)]
    ++ Primitive.named.map fun p => (p.name, .primitive p)

/-- A session whose output goes to the given sink. -/
def new (sink : Sink) : Session :=
  let (_, store) := Store.empty.newScope none builtins
  ⟨store, sink⟩

/-- Runs an evaluation and flushes the sink, whatever the outcome. A sink that
cannot be flushed hides the outcome. -/
def finish (x : Eval Value) (s : Session) : Except Error Value × Session :=
  let close (m : Machine) (r : Except Error Value) : Except Error Value × Session :=
    let ⟨store, sink⟩ := m
    let (flushed, sink) := sink.flush
    ((flushed.mapError .flush).bind fun _ => r, ⟨store, sink⟩)
  match x s.machine with
  | .ok value m => close m (.ok value)
  | .error signal m => close m (.error signal.toError)

/-- Evaluates a tree in the global scope. -/
def evaluateExpr (s : Session) (e : Expr) : Except Error Value × Session :=
  s.finish (eval depth e globals)

/-- Evaluates a program in the global scope. A program that cannot be read leaves
the session as it is. -/
def evaluate (s : Session) (source : String) : Except Error Value × Session :=
  match Expr.parse source with
  | .ok e => s.evaluateExpr e
  | .error e => (.error (.parse source e), s)

/-- Applies a value from outside any program. -/
def call (s : Session) (callee : Value) (args : List Value) : Except Error Value × Session :=
  s.finish (applyValue depth callee args)

/-- Binds a global variable. -/
def define (s : Session) (name : String) (value : Value) : Session :=
  let ⟨store, sink⟩ := s.machine
  ⟨store.define globals name value, sink⟩

/-- The value of a global variable. -/
def global (s : Session) (name : String) : Except Error Value :=
  match s.machine.store.lookup? globals name with
  | some value => .ok value
  | none => .error (.runtime ⟨.undefinedVariable name, none⟩)

/-- Whether a global variable exists. -/
def hasGlobal (s : Session) (name : String) : Bool :=
  (s.machine.store.local? globals name).isSome

end Session

end CalcScript
