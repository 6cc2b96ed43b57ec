/-
`Proofs/Equivariance.lean` -- evaluation carries places along and never looks at them.

Move all places of a tree and of the functions that a machine has, by any function on
places: the run is the same run, with the places of its error and of the functions it makes
moved alike (`eval_relocate`). The function may well forget places, and then this says that
trees which differ in places only do the same things on machines that differ in places only
(`eval_bare_congr`).

`Proofs/Similarity.lean` compares runs in which some functions have moved and others have
not. Here everything moves, so the two runs need no relation between them: one is the image
of the other.
-/
import CalcScript.Proofs.Lockstep
import CalcScript.Proofs.Similarity

set_option autoImplicit false

namespace CalcScript

open Eval

/-! ## 1. Machines with their places moved -/

def Closure.relocate (f : Position → Position) (c : Closure) : Closure :=
  { c with body := c.body.relocate f }

/-- The machine with the places in all its functions moved. -/
def Machine.relocate (f : Position → Position) (m : Machine) : Machine :=
  m.patch (m.store.closures.map (Closure.relocate f)) m.sink.flushes

variable {f : Position → Position} {α β : Type}

theorem Machine.closure?_relocate (m : Machine) (r : ClosureRef) :
    (m.relocate f).store.closure? r = (m.store.closure? r).map (Closure.relocate f) :=
  Array.getElem?_map ..

theorem Machine.shows_relocate (m : Machine) :
    m.store.Shows (m.store.closures.map (Closure.relocate f)) := by
  intro i
  rw [Array.getElem?_map]
  cases m.store.closures[i]? <;> rfl

/-- The outcome with its places moved. -/
def Eval.outcomeAt (f : Position → Position) :
    EStateM.Result Signal Machine α → EStateM.Result Signal Machine α
  | .ok a m => .ok a (m.relocate f)
  | .error signal m => .error (signal.relocate f) (m.relocate f)

/-! ## 2. Steps -/

/-- The second evaluation is the first one, elsewhere. -/
def Eval.Equivariant (f : Position → Position) (x x' : Eval α) : Prop :=
  ∀ m, x' (m.relocate f) = outcomeAt f (x m)

namespace Eval.Equivariant

theorem bind {x x' : Eval α} {k k' : α → Eval β} (hx : Equivariant f x x')
    (hk : ∀ a, Equivariant f (k a) (k' a)) : Equivariant f (x >>= k) (x' >>= k') := by
  intro m
  have hfirst := hx m
  cases h : x m with
  | ok a m₁ =>
    rw [h] at hfirst
    rw [bind_of_ok h, bind_of_ok hfirst]
    exact hk a m₁
  | error signal m₁ =>
    rw [h] at hfirst
    rw [bind_of_error h, bind_of_error hfirst]
    rfl

theorem truthy (v : Value) : Equivariant f (Eval.truthy v) (Eval.truthy v) := by
  intro m
  have htruthy : (m.relocate f).store.truthy v = m.store.truthy v :=
    m.store.truthy_redress _ _ _ v
  show EStateM.Result.ok ((m.relocate f).store.truthy v) (m.relocate f) = _
  rw [htruthy]
  rfl

theorem lookup (name : String) (pos : Position) (scope : ScopeRef) :
    Equivariant f (Eval.lookup name pos scope) (Eval.lookup name (f pos) scope) := by
  intro m
  have hresolve : (m.relocate f).store.resolve? scope name = m.store.resolve? scope name :=
    m.store.resolve?_redress _ _ _ scope name
  rw [Eval.lookup, Eval.lookup, get_bind, get_bind, Store.lookup?, Store.lookup?, hresolve]
  cases m.store.resolve? scope name <;> rfl

theorem assign (name : String) (value : Value) (pos : Position) (scope : ScopeRef) :
    Equivariant f (Eval.assign name value pos scope) (Eval.assign name value (f pos) scope) := by
  intro m
  have hresolve : (m.relocate f).store.resolve? scope name = m.store.resolve? scope name :=
    m.store.resolve?_redress _ _ _ scope name
  cases h : m.store.resolve? scope name with
  | some found =>
    rw [assign_of_resolve? h, assign_of_resolve? (hresolve.trans h)]
    rfl
  | none =>
    rw [assign_of_unresolved h, assign_of_unresolved (hresolve.trans h)]
    rfl

theorem newClosure (c : Closure) : Equivariant f (allocate (·.newClosure c))
    (allocate (·.newClosure { c with body := c.body.relocate f })) := by
  intro m
  have hsize : (m.relocate f).store.closures.size = m.store.closures.size := Array.size_map ..
  have hpush : (m.relocate f).store.closures.push (c.relocate f) =
      (m.store.closures.push c).map (Closure.relocate f) := Array.map_push.symm
  show EStateM.Result.ok (ClosureRef.mk (m.relocate f).store.closures.size)
    ((m.relocate f).patch ((m.relocate f).store.closures.push (c.relocate f)) m.sink.flushes) = _
  rw [hsize, hpush]
  rfl

/-- A built-in operation sees of a function its parameters only. -/
theorem callPrimitive (p : Primitive) (args : List Value) :
    Equivariant f (Eval.callPrimitive p args) (Eval.callPrimitive p args) := by
  intro m
  obtain ⟨hclosures, hflushes⟩ := p.call_frame args m
  have hcall : p.call args (m.relocate f) =
      ((p.call args m).1, (p.call args m).2.relocate f) := by
    rw [Machine.relocate, p.call_patch m.shows_relocate, Machine.relocate, hclosures, hflushes]
  rw [Eval.callPrimitive, Eval.callPrimitive, hcall]
  generalize p.call args m = called
  obtain ⟨fault | value, m₁⟩ := called <;> rfl

theorem exitTo (r : LabelRef) (args : List Value) :
    Equivariant f (Eval.exitTo r args) (Eval.exitTo r args) := by
  intro m
  have hlabel : (m.relocate f).store.label? r = m.store.label? r := rfl
  rw [Settled.exitTo_eq, Settled.exitTo_eq, hlabel]
  cases m.store.label? r with
  | none => rfl
  | some label =>
    dsimp only
    split
    · split <;> rfl
    · rfl

theorem locating (pos : Position) {x x' : Eval Value} (hx : Equivariant f x x') :
    Equivariant f (Eval.locating pos x) (Eval.locating (f pos) x') := by
  intro m
  rw [Eval.locating, Eval.locating, hx m]
  cases x m with
  | ok v m₁ => rfl
  | error signal m₁ =>
    cases signal with
    | exit label value => rfl
    | exhausted => rfl
    | error e =>
      -- an error that has a place keeps it, one without gets that of the application
      obtain ⟨fault, place⟩ := e
      cases place <;> rfl

theorem inBlock (name : Option String) (scope : ScopeRef) {body body' : ScopeRef → Eval Value}
    (hbody : ∀ inner, Equivariant f (body inner) (body' inner)) :
    Equivariant f (Eval.inBlock name scope body) (Eval.inBlock name scope body') := by
  intro m
  have hinner : (m.relocate f).enterBlock name scope =
      ((m.enterBlock name scope).1, (m.enterBlock name scope).2.relocate f) := rfl
  have href : (m.relocate f).store.nextRef = m.store.nextRef := rfl
  have hnext : (m.relocate f).store.nextLabel = m.store.nextLabel := rfl
  rw [inBlock_eq, inBlock_eq, hinner, href, hnext]
  dsimp only
  rw [hbody _ (m.enterBlock name scope).2]
  cases body (m.enterBlock name scope).1 (m.enterBlock name scope).2 with
  | ok v m₁ => rfl
  | error signal m₁ =>
    cases signal with
    | error e => rfl
    | exhausted => rfl
    | exit target value =>
      simp only [outcomeAt, Signal.relocate]
      split <;> rfl

/-- The function that is called has moved with the machine. -/
theorem inCall (r : ClosureRef) (args : List Value) {run run' : Expr → ScopeRef → Eval Value}
    (hrun : ∀ e scope, Equivariant f (run e scope) (run' (e.relocate f) scope)) :
    Equivariant f (Eval.inCall r args run) (Eval.inCall r args run') := by
  intro m
  rw [inCall_eq, inCall_eq, m.closure?_relocate]
  cases m.store.closure? r with
  | none => rfl
  | some c =>
    have hparams : (c.relocate f).params = c.params := rfl
    have hinner : (m.relocate f).enterCall (c.relocate f) args =
        ((m.enterCall c args).1, (m.enterCall c args).2.relocate f) := rfl
    dsimp only [Option.map_some]
    rw [hparams, hinner]
    split
    · exact hrun c.body _ _
    · rfl

end Eval.Equivariant

/-! ## 3. All evaluations -/

theorem Eval.lockstep_equivariant (f : Position → Position) :
    Lockstep f (Equivariant f) where
  pure _ := fun _ => rfl
  bind := .bind
  exhausted := fun _ => rfl
  notCallable _ := fun _ => rfl
  truthy := .truthy
  lookup := .lookup
  define _ _ _ := fun _ => rfl
  assign := .assign
  newArray _ := fun _ => rfl
  newClosure := .newClosure
  callPrimitive := .callPrimitive
  exitTo := .exitTo
  locating := .locating
  inBlock := .inBlock
  inCall := .inCall

/-- **The run of a moved tree on a moved machine is the moved run.** -/
theorem eval_relocate (f : Position → Position) (n : Nat) (e : Expr) (scope : ScopeRef)
    (m : Machine) : eval n (e.relocate f) scope (m.relocate f) = outcomeAt f (eval n e scope m) :=
  ((lockstep_equivariant f).within n).eval e scope m

/-- The machine without the places in its functions. -/
def Machine.bare (m : Machine) : Machine := m.relocate fun _ => .start

/-- Trees that differ in places only have runs that differ in places only. -/
theorem eval_bare_congr {e e' : Expr} (h : e'.bare = e.bare) (n : Nat) (scope : ScopeRef)
    (m : Machine) : outcomeAt (fun _ => .start) (eval n e' scope m) =
      outcomeAt (fun _ => .start) (eval n e scope m) := by
  rw [← eval_relocate, ← eval_relocate]
  exact congrArg (fun e => eval n e scope m.bare) h

end CalcScript
