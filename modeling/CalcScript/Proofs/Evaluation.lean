/-
`Proofs/Evaluation.lean` -- the induction over evaluations, once for all.

A property of evaluations that holds of the single steps and is kept by putting
one evaluation behind another, by adding a place to an error and by running a
block holds of every evaluation (`Eval.Closed.eval`). What a statement about all
programs has to show is then one small fact for each kind of step; no later
proof follows the trees again.

The block is the only construct that the language's own operations cannot be
cut into, because its label is opened before the body and closed behind it
whatever the body does. It gets a name of its own, `Eval.inBlock`.
-/
import CalcScript.Eval

set_option autoImplicit false

namespace CalcScript

open Eval

/-! ## 1. Computations and their outcomes -/

namespace Eval

variable {α β : Type}

theorem bind_of_ok {x : Eval α} {f : α → Eval β} {m m' : Machine} {a : α}
    (h : x m = .ok a m') : (x >>= f) m = f a m' := by
  show EStateM.bind x f m = f a m'
  rw [EStateM.bind, h]

theorem bind_of_error {x : Eval α} {f : α → Eval β} {m m' : Machine} {signal : Signal}
    (h : x m = .error signal m') : (x >>= f) m = .error signal m' := by
  show EStateM.bind x f m = .error signal m'
  rw [EStateM.bind, h]

/-- Where a composed evaluation that ends in a value has been on its way. -/
theorem bind_eq_ok {x : Eval α} {f : α → Eval β} {m m' : Machine} {b : β}
    (h : (x >>= f) m = .ok b m') : ∃ a m₁, x m = .ok a m₁ ∧ f a m₁ = .ok b m' := by
  cases hx : x m with
  | ok a m₁ => exact ⟨a, m₁, rfl, by rwa [bind_of_ok hx] at h⟩
  | error signal m₁ => rw [bind_of_error hx] at h; cases h

/-- Which half of a composed evaluation it was that ended without a value. -/
theorem bind_eq_error {x : Eval α} {f : α → Eval β} {m m' : Machine} {signal : Signal}
    (h : (x >>= f) m = .error signal m') :
    x m = .error signal m' ∨ ∃ a m₁, x m = .ok a m₁ ∧ f a m₁ = .error signal m' := by
  cases hx : x m with
  | ok a m₁ => exact .inr ⟨a, m₁, rfl, by rwa [bind_of_ok hx] at h⟩
  | error s m₁ =>
    rw [bind_of_error hx] at h
    cases h
    exact .inl rfl

theorem get_bind {f : Machine → Eval β} {m : Machine} :
    ((MonadState.get : Eval Machine) >>= f) m = f m m := rfl

theorem discard_eq_bind (x : Eval α) : (discard x : Eval PUnit) = x >>= fun _ => pure ⟨⟩ :=
  map_eq_pure_bind _ x

/-! ## 2. Blocks -/

/-- A run of a block in the given scope: a label is opened and bound in a scope of
its own, and closed behind the body. -/
def inBlock (name : Option String) (scope : ScopeRef) (body : ScopeRef → Eval Value) :
    Eval Value := do
  let id := (← get).store.nextLabel
  let label ← allocate (·.openLabel name)
  let bindings := name.elim [] fun name => [(name, .label label)]
  let inner ← allocate (·.newScope (some scope) bindings)
  catching label id (body inner)

/-! ## 3. Properties closed under evaluation -/

/-- The property `P` holds of every single step of an evaluation and is kept where
evaluations are put together. -/
structure Closed (P : {α : Type} → Eval α → Prop) : Prop where
  pure {α : Type} (a : α) : P (Pure.pure a)
  bind {α β : Type} {x : Eval α} {f : α → Eval β} : P x → (∀ a, P (f a)) → P (x >>= f)
  exhausted {α : Type} : P (throw .exhausted : Eval α)
  notCallable (typeName : String) : P (Eval.fail (.notCallable typeName) : Eval Value)
  arity (expected : Arity) (given : Nat) : P (Eval.fail (.arity expected given) : Eval Value)
  get : P (MonadState.get : Eval Machine)
  lookup (name : String) (pos : Position) (scope : ScopeRef) : P (Eval.lookup name pos scope)
  define (scope : ScopeRef) (name : String) (value : Value) :
    P (modifyStore (·.define scope name value))
  assign (name : String) (value : Value) (pos : Position) (scope : ScopeRef) :
    P (Eval.assign name value pos scope)
  newArray (items : Array Value) : P (allocate (·.newArray items))
  newClosure (c : Closure) : P (allocate (·.newClosure c))
  newScope (parent : Option ScopeRef) (bindings : Bindings) :
    P (allocate (·.newScope parent bindings))
  callPrimitive (p : Primitive) (args : List Value) : P (Eval.callPrimitive p args)
  exitTo (r : LabelRef) (args : List Value) : P (Eval.exitTo r args)
  locating (pos : Position) {x : Eval Value} : P x → P (Eval.locating pos x)
  inBlock (name : Option String) (scope : ScopeRef) {body : ScopeRef → Eval Value} :
    (∀ inner, P (body inner)) → P (Eval.inBlock name scope body)

namespace Closed

variable {P : {α : Type} → Eval α → Prop}

theorem truthy (h : Closed P) (v : Value) : P (Eval.truthy v) :=
  h.bind h.get fun _ => h.pure _

theorem discard (h : Closed P) {x : Eval α} (hx : P x) : P (discard x) := by
  rw [discard_eq_bind]
  exact h.bind hx fun _ => h.pure _

/-- Every evaluation within a given depth has a closed property. -/
def Within (P : {α : Type} → Eval α → Prop) (n : Nat) : Prop :=
  (∀ e scope, P (CalcScript.eval n e scope)) ∧
  (∀ es scope, P (evalAll n es scope)) ∧
  (∀ condition body scope, P (evalLoop n condition body scope)) ∧
  (∀ callee args, P (applyValue n callee args))

theorem eval_succ (h : Closed P) {n : Nat} (ih : Within P n) (e : Expr) (scope : ScopeRef) :
    P (CalcScript.eval (n + 1) e scope) := by
  obtain ⟨ihEval, ihAll, ihLoop, ihApply⟩ := ih
  cases e with
  | literal l => exact h.pure _
  | primitive p => exact h.pure _
  | array items => exact h.bind (ihAll items scope) fun _ => h.bind (h.newArray _) fun _ => h.pure _
  | var name pos => exact h.lookup name pos scope
  | store name value =>
    exact h.bind (ihEval value scope) fun _ => h.bind (h.define scope name _) fun _ => h.pure _
  | update name value pos =>
    exact h.bind (ihEval value scope) fun _ => h.bind (h.assign name _ pos scope) fun _ => h.pure _
  | seq first rest =>
    exact h.bind (h.discard (ihEval first scope)) fun _ => ihEval rest scope
  | and left right =>
    refine h.bind (ihEval left scope) fun v => h.bind (h.truthy v) fun b => ?_
    cases b with
    | true => exact h.bind (ihEval right scope) fun w => h.bind (h.truthy w) fun _ => h.pure _
    | false => exact h.pure _
  | or left right =>
    refine h.bind (ihEval left scope) fun v => h.bind (h.truthy v) fun b => ?_
    cases b with
    | true => exact h.pure _
    | false => exact h.bind (ihEval right scope) fun w => h.bind (h.truthy w) fun _ => h.pure _
  | cond condition consequent alternate =>
    refine h.bind (ihEval condition scope) fun v => h.bind (h.truthy v) fun b => ?_
    cases b with
    | true => exact ihEval consequent scope
    | false => exact ihEval alternate scope
  | loop condition body => exact ihLoop condition body scope
  | func params body => exact h.bind (h.newClosure _) fun _ => h.pure _
  | apply callee args pos =>
    exact h.bind (ihEval callee scope) fun v => h.bind (ihAll args scope) fun vs =>
      h.locating pos (ihApply v vs)
  | block name body => exact h.inBlock name scope fun inner => ihEval body inner

theorem evalAll_succ (h : Closed P) {n : Nat} (ih : Within P n) (es : List Expr)
    (scope : ScopeRef) : P (evalAll (n + 1) es scope) := by
  cases es with
  | nil => exact h.pure _
  | cons e es => exact h.bind (ih.1 e scope) fun _ => h.bind (ih.2.1 es scope) fun _ => h.pure _

theorem evalLoop_succ (h : Closed P) {n : Nat} (ih : Within P n) (condition body : Expr)
    (scope : ScopeRef) : P (evalLoop (n + 1) condition body scope) := by
  refine h.bind (ih.1 condition scope) fun v => h.bind (h.truthy v) fun b => ?_
  cases b with
  | true => exact h.bind (h.discard (ih.1 body scope)) fun _ => ih.2.2.1 condition body scope
  | false => exact h.pure _

theorem applyValue_succ (h : Closed P) {n : Nat} (ih : Within P n) (callee : Value)
    (args : List Value) : P (applyValue (n + 1) callee args) := by
  cases callee with
  | closure r =>
    refine h.bind h.get fun m => ?_
    split
    · exact h.notCallable _
    · next c _ =>
      by_cases hlen : c.params.length = args.length
      · simp only [hlen, if_true]
        exact h.bind (h.newScope _ _) fun inner => ih.1 c.body inner
      · simp only [hlen, if_false]
        exact h.arity _ _
  | primitive p => exact h.callPrimitive p args
  | label r => exact h.exitTo r args
  | number x => exact h.notCallable _
  | bool b => exact h.notCallable _
  | null => exact h.notCallable _
  | str s => exact h.notCallable _
  | array r => exact h.notCallable _

/-- **A closed property holds of every evaluation**, at any depth. The induction
is on the depth: each evaluation only starts evaluations of a smaller one. -/
theorem within (h : Closed P) (n : Nat) : Within P n := by
  induction n with
  | zero =>
    exact ⟨fun _ _ => h.exhausted, fun _ _ => h.exhausted, fun _ _ _ => h.exhausted,
      fun _ _ => h.exhausted⟩
  | succ n ih =>
    exact ⟨h.eval_succ ih, h.evalAll_succ ih, h.evalLoop_succ ih, h.applyValue_succ ih⟩

end Closed

end Eval

end CalcScript
