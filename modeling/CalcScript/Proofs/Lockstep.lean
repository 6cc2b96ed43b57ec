/-
`Proofs/Lockstep.lean` -- two evaluations side by side.

A statement about two runs, of one tree on two machines or of a tree and the same tree
with its places moved, is a relation between evaluations. If the relation holds of single
steps and is kept by putting one evaluation behind another, by adding a place to an error,
by calling a function and by running a block, it holds of any two runs
(`Eval.Lockstep.within`). This is the induction of `Proofs/Evaluation.lean` with two runs
in the place of one.

Looking at the machine is not a step here, since the two machines differ. So a call, which
has to find its function first, gets a name of its own, `Eval.inCall`.
-/
import CalcScript.Proofs.Activations
import CalcScript.Proofs.Relocation

set_option autoImplicit false

namespace CalcScript

open Eval

namespace Eval

/-! ## 1. Calls -/

/-- The call of a function, with an evaluator for its body. -/
def inCall (r : ClosureRef) (args : List Value) (run : Expr → ScopeRef → Eval Value) :
    Eval Value := do
  match (← get).store.closure? r with
  | none => fail (.notCallable (Value.closure r).typeName)
  | some closure =>
    if closure.params.length = args.length then
      let scope ← allocate (·.newScope (some closure.scope) (frame closure.params args))
      run closure.body scope
    else fail (.arity (.exactly closure.params.length) args.length)

/-- A call runs the body in a scope of its own, if there is a function that takes so many
arguments. -/
theorem inCall_eq (r : ClosureRef) (args : List Value) (run : Expr → ScopeRef → Eval Value)
    (m : Machine) : inCall r args run m =
      match m.store.closure? r with
      | none => .error (.error ⟨.notCallable (Value.closure r).typeName, none⟩) m
      | some c =>
        if c.params.length = args.length then
          run c.body (m.enterCall c args).1 (m.enterCall c args).2
        else .error (.error ⟨.arity (.exactly c.params.length) args.length, none⟩) m := by
  rw [inCall, get_bind]
  cases m.store.closure? r with
  | none => rfl
  | some c =>
    by_cases hlength : c.params.length = args.length
    · simp only [hlength, if_true]
      rfl
    · simp only [hlength, if_false]
      rfl

/-! ## 2. Relations kept by evaluation -/

/-- The relation `R` holds of every single step, with the places of the second one moved by
`f`, and is kept where evaluations are put together. -/
structure Lockstep (f : Position → Position) (R : {α : Type} → Eval α → Eval α → Prop) :
    Prop where
  pure {α : Type} (a : α) : R (Pure.pure a) (Pure.pure a)
  bind {α β : Type} {x x' : Eval α} {k k' : α → Eval β} :
    R x x' → (∀ a, R (k a) (k' a)) → R (x >>= k) (x' >>= k')
  exhausted {α : Type} : R (throw .exhausted : Eval α) (throw .exhausted)
  notCallable (typeName : String) :
    R (Eval.fail (.notCallable typeName) : Eval Value) (Eval.fail (.notCallable typeName))
  truthy (v : Value) : R (Eval.truthy v) (Eval.truthy v)
  lookup (name : String) (pos : Position) (scope : ScopeRef) :
    R (Eval.lookup name pos scope) (Eval.lookup name (f pos) scope)
  define (scope : ScopeRef) (name : String) (value : Value) :
    R (modifyStore (·.define scope name value)) (modifyStore (·.define scope name value))
  assign (name : String) (value : Value) (pos : Position) (scope : ScopeRef) :
    R (Eval.assign name value pos scope) (Eval.assign name value (f pos) scope)
  newArray (items : Array Value) : R (allocate (·.newArray items)) (allocate (·.newArray items))
  newClosure (c : Closure) : R (allocate (·.newClosure c))
    (allocate (·.newClosure { c with body := c.body.relocate f }))
  callPrimitive (p : Primitive) (args : List Value) :
    R (Eval.callPrimitive p args) (Eval.callPrimitive p args)
  exitTo (r : LabelRef) (args : List Value) : R (Eval.exitTo r args) (Eval.exitTo r args)
  locating (pos : Position) {x x' : Eval Value} :
    R x x' → R (Eval.locating pos x) (Eval.locating (f pos) x')
  inBlock (name : Option String) (scope : ScopeRef) {body body' : ScopeRef → Eval Value} :
    (∀ inner, R (body inner) (body' inner)) →
      R (Eval.inBlock name scope body) (Eval.inBlock name scope body')
  inCall (r : ClosureRef) (args : List Value) {run run' : Expr → ScopeRef → Eval Value} :
    (∀ e scope, R (run e scope) (run' (e.relocate f) scope)) →
      R (Eval.inCall r args run) (Eval.inCall r args run')

namespace Lockstep

variable {f : Position → Position} {R : {α : Type} → Eval α → Eval α → Prop}

theorem discard (h : Lockstep f R) {α : Type} {x x' : Eval α} (hx : R x x') :
    R (discard x) (discard x') := by
  rw [discard_eq_bind, discard_eq_bind]
  exact h.bind hx fun _ => h.pure _

/-- All evaluations within a given depth are related. -/
structure Within (f : Position → Position) (R : {α : Type} → Eval α → Eval α → Prop) (n : Nat) :
    Prop where
  eval (e : Expr) (scope : ScopeRef) :
    R (CalcScript.eval n e scope) (CalcScript.eval n (e.relocate f) scope)
  all (es : List Expr) (scope : ScopeRef) :
    R (evalAll n es scope) (evalAll n (Expr.relocateAll f es) scope)
  loop (condition body : Expr) (scope : ScopeRef) :
    R (evalLoop n condition body scope) (evalLoop n (condition.relocate f) (body.relocate f) scope)
  apply (callee : Value) (args : List Value) :
    R (applyValue n callee args) (applyValue n callee args)

variable {n : Nat}

theorem eval_succ (h : Lockstep f R) (ih : Within f R n) (e : Expr) (scope : ScopeRef) :
    R (CalcScript.eval (n + 1) e scope) (CalcScript.eval (n + 1) (e.relocate f) scope) := by
  cases e with
  | literal l => exact h.pure _
  | primitive p => exact h.pure _
  | array items =>
    exact h.bind (ih.all items scope) fun _ => h.bind (h.newArray _) fun _ => h.pure _
  | var name pos => exact h.lookup name pos scope
  | store name value =>
    exact h.bind (ih.eval value scope) fun _ => h.bind (h.define scope name _) fun _ => h.pure _
  | update name value pos =>
    exact h.bind (ih.eval value scope) fun _ =>
      h.bind (h.assign name _ pos scope) fun _ => h.pure _
  | seq first rest =>
    exact h.bind (h.discard (ih.eval first scope)) fun _ => ih.eval rest scope
  | and left right =>
    refine h.bind (ih.eval left scope) fun v => h.bind (h.truthy v) fun b => ?_
    cases b with
    | true => exact h.bind (ih.eval right scope) fun w => h.bind (h.truthy w) fun _ => h.pure _
    | false => exact h.pure _
  | or left right =>
    refine h.bind (ih.eval left scope) fun v => h.bind (h.truthy v) fun b => ?_
    cases b with
    | true => exact h.pure _
    | false => exact h.bind (ih.eval right scope) fun w => h.bind (h.truthy w) fun _ => h.pure _
  | cond condition consequent alternate =>
    refine h.bind (ih.eval condition scope) fun v => h.bind (h.truthy v) fun b => ?_
    cases b with
    | true => exact ih.eval consequent scope
    | false => exact ih.eval alternate scope
  | loop condition body => exact ih.loop condition body scope
  | func params body => exact h.bind (h.newClosure ⟨params, body, scope⟩) fun _ => h.pure _
  | apply callee args pos =>
    exact h.bind (ih.eval callee scope) fun v => h.bind (ih.all args scope) fun vs =>
      h.locating pos (ih.apply v vs)
  | block name body => exact h.inBlock name scope fun inner => ih.eval body inner

theorem all_succ (h : Lockstep f R) (ih : Within f R n) (es : List Expr) (scope : ScopeRef) :
    R (evalAll (n + 1) es scope) (evalAll (n + 1) (Expr.relocateAll f es) scope) := by
  cases es with
  | nil => exact h.pure _
  | cons e es => exact h.bind (ih.eval e scope) fun _ => h.bind (ih.all es scope) fun _ => h.pure _

theorem loop_succ (h : Lockstep f R) (ih : Within f R n) (condition body : Expr)
    (scope : ScopeRef) : R (evalLoop (n + 1) condition body scope)
      (evalLoop (n + 1) (condition.relocate f) (body.relocate f) scope) := by
  refine h.bind (ih.eval condition scope) fun v => h.bind (h.truthy v) fun b => ?_
  cases b with
  | true => exact h.bind (h.discard (ih.eval body scope)) fun _ => ih.loop condition body scope
  | false => exact h.pure _

theorem apply_succ (h : Lockstep f R) (ih : Within f R n) (callee : Value) (args : List Value) :
    R (applyValue (n + 1) callee args) (applyValue (n + 1) callee args) := by
  cases callee with
  | closure r => exact h.inCall r args ih.eval
  | primitive p => exact h.callPrimitive p args
  | label r => exact h.exitTo r args
  | number _ | bool _ | null | str _ | array _ => exact h.notCallable _

/-- **A relation kept by evaluation relates all evaluations**, at any depth. The induction
is on the depth, which is the same for both runs. -/
theorem within (h : Lockstep f R) (n : Nat) : Within f R n := by
  induction n with
  | zero =>
    exact ⟨fun _ _ => h.exhausted, fun _ _ => h.exhausted, fun _ _ _ => h.exhausted,
      fun _ _ => h.exhausted⟩
  | succ n ih => exact ⟨h.eval_succ ih, h.all_succ ih, h.loop_succ ih, h.apply_succ ih⟩

end Lockstep

end Eval

end CalcScript
