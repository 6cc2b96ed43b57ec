/-
`Eval.lean` -- what programs do.

An evaluation ends in one of three ways besides a value: with an error, with an
exit on its way out to the block run of its label, or because the bound on its
depth is spent. The bound counts nested evaluations and turns of loops; nothing
else depends on it.
-/
import CalcScript.Machine

set_option autoImplicit false

namespace CalcScript

/-- Why an evaluation ends without a value. -/
inductive Signal where
  | error (e : RuntimeError)
  /-- an exit to the block run with this number, carrying the value it will have -/
  | exit (label : Nat) (value : Value)
  | exhausted
deriving DecidableEq, Repr

/-- Evaluations change a machine, also when they end without a value. -/
abbrev Eval := EStateM Signal Machine

def Literal.value : Literal → Value
  | .number x => .number x
  | .str s => .str s
  | .bool b => .bool b
  | .null => .null

namespace Eval

/-! ## 1. Single steps -/

def fail {α : Type} (fault : Fault) : Eval α :=
  throw (.error ⟨fault, none⟩)

def failAt {α : Type} (fault : Fault) (pos : Position) : Eval α :=
  throw (.error ⟨fault, some pos⟩)

def truthy (v : Value) : Eval Bool :=
  return (← get).store.truthy v

/-- Changes the store and yields a reference to what is new there. -/
def allocate {α : Type} (f : Store → α × Store) : Eval α :=
  modifyGet fun ⟨store, sink⟩ =>
    let (r, store) := f store
    (r, ⟨store, sink⟩)

def modifyStore (f : Store → Store) : Eval Unit :=
  modify fun ⟨store, sink⟩ => ⟨f store, sink⟩

def lookup (name : String) (pos : Position) (scope : ScopeRef) : Eval Value := do
  match (← get).store.lookup? scope name with
  | some value => return value
  | none => failAt (.undefinedVariable name) pos

def assign (name : String) (value : Value) (pos : Position) (scope : ScopeRef) : Eval Unit := do
  match (← get).store.resolve? scope name with
  | some (owner, _) => modifyStore (·.define owner name value)
  | none => failAt (.undefinedVariable name) pos

def callPrimitive (p : Primitive) (args : List Value) : Eval Value := fun m =>
  match p.call args m with
  | (.ok value, m) => .ok value m
  | (.error fault, m) => .error (.error ⟨fault, none⟩) m

/-- Applies a label: an exit to its block run, while that lasts. -/
def exitTo (r : LabelRef) (args : List Value) : Eval Value := do
  match (← get).store.label? r with
  | none => fail .deadLabel
  | some label =>
    if !label.active then fail .deadLabel
    else
      match args with
      | [] => throw (.exit label.id .null)
      | [value] => throw (.exit label.id value)
      | args => fail (.labelArity args.length)

/-- The bindings of a call: later parameters of one name win. -/
def frame (params : List String) (args : List Value) : Bindings :=
  (params.zip args).foldl (fun bs (name, value) => bs.insert name value) []

/-- Gives an error the place of the application it comes from, unless it has one. -/
def locating (pos : Position) (x : Eval Value) : Eval Value := fun m =>
  match x m with
  | .error (.error e) m => .error (.error (e.locate pos)) m
  | r => r

/-- Runs the body of a block under its label, which ends with the body whatever
the outcome. An exit to this run is the block's value. -/
def catching (label : LabelRef) (id : Nat) (body : Eval Value) : Eval Value := fun m =>
  let close (m : Machine) : Machine :=
    let ⟨store, sink⟩ := m
    ⟨store.closeLabel label, sink⟩
  match body m with
  | .ok value m => .ok value (close m)
  | .error (.exit target value) m =>
    if target = id then .ok value (close m) else .error (.exit target value) (close m)
  | .error signal m => .error signal (close m)

end Eval

/-! ## 2. Evaluation -/

open Eval

mutual

def eval : Nat → Expr → ScopeRef → Eval Value
  | 0, _, _ => throw .exhausted
  | n + 1, e, scope =>
    match e with
    | .literal l => return l.value
    | .primitive p => return .primitive p
    | .array items => do
      let values ← evalAll n items scope
      return .array (← allocate (·.newArray values.toArray))
    | .var name pos => lookup name pos scope
    | .store name value => do
      let value ← eval n value scope
      modifyStore (·.define scope name value)
      return .null
    | .update name value pos => do
      let value ← eval n value scope
      assign name value pos scope
      return .null
    | .seq first rest => do
      discard (eval n first scope)
      eval n rest scope
    | .and left right => do
      if ← truthy (← eval n left scope) then
        return .bool (← truthy (← eval n right scope))
      else return .bool false
    | .or left right => do
      if ← truthy (← eval n left scope) then return .bool true
      else return .bool (← truthy (← eval n right scope))
    | .cond condition consequent alternate => do
      if ← truthy (← eval n condition scope) then eval n consequent scope
      else eval n alternate scope
    | .loop condition body => evalLoop n condition body scope
    | .func params body => return .closure (← allocate (·.newClosure ⟨params, body, scope⟩))
    | .apply callee args pos => do
      let callee ← eval n callee scope
      let args ← evalAll n args scope
      locating pos (applyValue n callee args)
    | .block name body => do
      let id := (← get).store.nextLabel
      let label ← allocate (·.openLabel name)
      let bindings := name.elim [] fun name => [(name, .label label)]
      let inner ← allocate (·.newScope (some scope) bindings)
      catching label id (eval n body inner)

/-- Evaluates from left to right. -/
def evalAll : Nat → List Expr → ScopeRef → Eval (List Value)
  | 0, _, _ => throw .exhausted
  | _ + 1, [], _ => return []
  | n + 1, e :: es, scope => do
    let value ← eval n e scope
    let values ← evalAll n es scope
    return value :: values

def evalLoop : Nat → Expr → Expr → ScopeRef → Eval Value
  | 0, _, _, _ => throw .exhausted
  | n + 1, condition, body, scope => do
    if ← truthy (← eval n condition scope) then
      discard (eval n body scope)
      evalLoop n condition body scope
    else return .null

/-- Applies a value. The scope of a call lies inside the scope that the function
was made in. -/
def applyValue : Nat → Value → List Value → Eval Value
  | 0, _, _ => throw .exhausted
  | n + 1, callee, args =>
    match callee with
    | .closure r => do
      match (← get).store.closure? r with
      | none => fail (.notCallable callee.typeName)
      | some closure =>
        if closure.params.length = args.length then
          let scope ← allocate (·.newScope (some closure.scope) (frame closure.params args))
          eval n closure.body scope
        else fail (.arity (.exactly closure.params.length) args.length)
    | .primitive p => callPrimitive p args
    | .label r => exitTo r args
    | callee => fail (.notCallable callee.typeName)

end

end CalcScript
