/-
`Proofs/Scopes.lean` -- which names an evaluation binds, and where.

An evaluation binds names in one scope only, the one it runs in, and only names that
its expression defines there (`Expr.bound`). Functions and blocks run in scopes of
their own, and a change of a variable finds a binding that exists; so neither adds a
name to a scope that was there before. Nothing ever removes one.

`Store.Binds` says this of a store before and a store behind an evaluation. It is
shown of the single steps, and it is transitive, so it holds of what is put together
from them. The induction is on the depth of the evaluation.
-/
import CalcScript.Session
import CalcScript.Proofs.Evaluation
import CalcScript.Proofs.Labels

set_option autoImplicit false

namespace CalcScript

open Eval

/-! ## 1. Names that an expression binds -/

mutual

/-- The names that an expression binds in the scope it is evaluated in: those of its
definitions, apart from what stands inside a function or a block. -/
def Expr.bound : Expr → List String
  | .literal _ | .primitive _ | .var .. | .func .. | .block .. => []
  | .array items => boundAll items
  | .store name value => name :: value.bound
  | .update _ value _ => value.bound
  | .seq first rest => first.bound ++ rest.bound
  | .and left right => left.bound ++ right.bound
  | .or left right => left.bound ++ right.bound
  | .cond condition consequent alternate =>
    condition.bound ++ (consequent.bound ++ alternate.bound)
  | .loop condition body => condition.bound ++ body.bound
  | .apply callee args _ => callee.bound ++ boundAll args

/-- The names that some of the expressions bind. -/
def Expr.boundAll : List Expr → List String
  | [] => []
  | e :: es => e.bound ++ boundAll es

end

/-! ## 2. Bindings before and after -/

namespace Store

/-- The name has a value in this very scope. -/
def Bound (s : Store) (r : ScopeRef) (name : String) : Prop :=
  (s.local? r name).isSome = true

/-- From `s` to `s'` no scope has lost a name, and none but `env` has got one; the names
that `env` has got are among `names`. -/
structure Binds (s s' : Store) (env : ScopeRef) (names : List String) : Prop where
  size_le : s.scopes.size ≤ s'.scopes.size
  other {r : ScopeRef} (hr : r.index < s.scopes.size) (hne : r ≠ env) (name : String) :
    s'.Bound r name ↔ s.Bound r name
  kept (name : String) : s.Bound env name → s'.Bound env name
  added (name : String) : s'.Bound env name → s.Bound env name ∨ name ∈ names

namespace Binds

variable {s s₁ s₂ : Store} {env : ScopeRef} {names names' : List String}

theorem refl : s.Binds s env names :=
  ⟨Nat.le_refl _, fun _ _ _ => .rfl, fun _ h => h, fun _ h => .inl h⟩

/-- One evaluation behind the other, in the same scope. -/
theorem trans (h₁ : s.Binds s₁ env names) (h₂ : s₁.Binds s₂ env names) : s.Binds s₂ env names where
  size_le := Nat.le_trans h₁.size_le h₂.size_le
  other hr hne name :=
    (h₂.other (Nat.lt_of_lt_of_le hr h₁.size_le) hne name).trans (h₁.other hr hne name)
  kept name h := h₂.kept name (h₁.kept name h)
  added name h := by
    rcases h₂.added name h with h | h
    · exact h₁.added name h
    · exact .inr h

theorem mono (h : s.Binds s₁ env names) (hsub : names ⊆ names') : s.Binds s₁ env names' :=
  { h with added := fun name hname => (h.added name hname).imp_right fun hmem => hsub hmem }

/-- With no names to add, every scope has the names it had. -/
theorem bound_iff (h : s.Binds s₁ env []) {r : ScopeRef} (hr : r.index < s.scopes.size)
    (name : String) : s₁.Bound r name ↔ s.Bound r name := by
  by_cases hne : r = env
  · subst hne
    constructor
    · intro hb
      rcases h.added name hb with hb | hmem
      · exact hb
      · cases hmem
    · exact h.kept name
  · exact h.other hr hne name

/-- Scopes that are there before keep exactly their names. -/
theorem of_bound_iff (hsize : s.scopes.size ≤ s₁.scopes.size) (henv : env.index < s.scopes.size)
    (h : ∀ r, r.index < s.scopes.size → ∀ name, s₁.Bound r name ↔ s.Bound r name) :
    s.Binds s₁ env names :=
  ⟨hsize, fun hr _ name => h _ hr name, fun name => (h env henv name).mpr,
    fun name hb => .inl ((h env henv name).mp hb)⟩

/-- Arrays, functions and labels bind no names. -/
theorem of_scopes_eq (h : s₁.scopes = s.scopes) : s.Binds s₁ env names := by
  have hlocal : ∀ r name, s₁.Bound r name ↔ s.Bound r name := by
    intro r name
    rw [Bound, Bound, local?, local?, scope?, scope?, h]
  exact ⟨Nat.le_of_eq (congrArg Array.size h.symm), fun _ _ name => hlocal _ name,
    fun name => (hlocal env name).mpr, fun name hb => .inl ((hlocal env name).mp hb)⟩

end Binds

/-! ## 3. Steps -/

/-- A definition changes the bindings of one scope. It never makes one. -/
theorem scope?_define (s : Store) (r r' : ScopeRef) (name : String) (value : Value) :
    (s.define r name value).scope? r' =
      if r' = r then
        (s.scope? r).map fun scope =>
          { scope with bindings := Bindings.insert name value scope.bindings }
      else s.scope? r' := by
  obtain ⟨i⟩ := r
  obtain ⟨j⟩ := r'
  simp only [define, scope?, Array.getElem?_modify, ScopeRef.mk.injEq]
  by_cases hij : i = j
  · subst hij
    simp
  · have hji : j ≠ i := fun h => hij h.symm
    rw [if_neg hij, if_neg hji]

/-- A definition binds one name in one scope, if the scope exists. -/
theorem bound_define (s : Store) (r r' : ScopeRef) (name name' : String) (value : Value) :
    (s.define r name value).Bound r' name' ↔
      s.Bound r' name' ∨ (r' = r ∧ name' = name ∧ (s.scope? r).isSome = true) := by
  rw [Bound, Bound, local?, local?, scope?_define]
  by_cases hr : r' = r
  · subst hr
    rw [if_pos rfl]
    cases s.scope? r' with
    | none => simp
    | some scope =>
      by_cases hname : name' = name
      · simp [Bindings.lookup_insert, hname]
      · simp [Bindings.lookup_insert, hname]
  · rw [if_neg hr]
    simp [hr]

theorem Binds.define (s : Store) (env : ScopeRef) (name : String) (value : Value) :
    s.Binds (s.define env name value) env [name] where
  size_le := by simp [Store.define]
  other _ hne name' := by
    rw [bound_define]
    simp [hne]
  kept name' h := (bound_define ..).mpr (.inl h)
  added name' h := by
    rcases (bound_define ..).mp h with h | ⟨-, rfl, -⟩
    · exact .inl h
    · exact .inr List.mem_cons_self

/-- The scope that a name resolves to binds it. -/
theorem local?_of_resolveWithin {s : Store} {name : String} {n : Nat} {r owner : ScopeRef}
    {value : Value} (h : s.resolveWithin name n r = some (owner, value)) :
    s.local? owner name = some value := by
  induction n generalizing r with
  | zero => cases h
  | succ n ih =>
    rw [resolveWithin] at h
    split at h
    · cases h
    next scope hscope =>
    split at h
    · next v hv =>
      cases h
      rw [local?, hscope, Option.bind_some, hv]
    · split at h
      · exact ih h
      · cases h

/-- Changing the binding that a name resolves to binds nothing new. -/
theorem bound_define_of_resolve? {s : Store} {r owner : ScopeRef} {name : String} {old : Value}
    (h : s.resolve? r name = some (owner, old)) (value : Value) (r' : ScopeRef) (name' : String) :
    (s.define owner name value).Bound r' name' ↔ s.Bound r' name' := by
  rw [bound_define]
  constructor
  · rintro (h' | ⟨rfl, rfl, -⟩)
    · exact h'
    · -- the name was bound there, or it would not have been found there
      rw [Bound, local?_of_resolveWithin h]
      rfl
  · exact .inl

/-- A scope that is added leaves those that were there alone. -/
theorem bound_newScope {s : Store} (parent : Option ScopeRef) (bindings : Bindings) {r : ScopeRef}
    (hr : r.index < s.scopes.size) (name : String) :
    (s.newScope parent bindings).2.Bound r name ↔ s.Bound r name := by
  have hne : r.index ≠ s.scopes.size := by omega
  have hscope : (s.newScope parent bindings).2.scope? r = s.scope? r := by
    simp [newScope, scope?, Array.getElem?_push, hne]
  rw [Bound, Bound, local?, local?, hscope]

end Store

/-! ## 4. Evaluations -/

namespace Eval

variable {α β : Type}

/-- A change of a variable defines it in the scope where it was found. -/
theorem assign_of_resolve? {m : Machine} {name : String} {scope : ScopeRef}
    {found : ScopeRef × Value} (h : m.store.resolve? scope name = some found) (value : Value)
    (pos : Position) :
    assign name value pos scope m = .ok ⟨⟩ ⟨m.store.define found.1 name value, m.sink⟩ := by
  rw [assign, get_bind, h]
  rfl

/-- A name with no binding is never changed, and nothing is defined. -/
theorem assign_of_unresolved {m : Machine} {name : String} {scope : ScopeRef}
    (h : m.store.resolve? scope name = none) (value : Value) (pos : Position) :
    assign name value pos scope m = .error (.error ⟨.undefinedVariable name, some pos⟩) m := by
  rw [assign, get_bind, h]
  rfl

/-- An evaluation that starts with the machine `m` leaves the machine `m'` behind, with
a value or without. -/
def Leaves (x : Eval α) (m m' : Machine) : Prop :=
  (∃ a, x m = .ok a m') ∨ ∃ signal, x m = .error signal m'

/-- The machine that is left behind comes from the first part or from the second one. -/
theorem Leaves.bind {x : Eval α} {f : α → Eval β} {m m' : Machine} (h : Leaves (x >>= f) m m') :
    Leaves x m m' ∨ ∃ a m₁, x m = .ok a m₁ ∧ Leaves (f a) m₁ m' := by
  rcases h with ⟨b, h⟩ | ⟨signal, h⟩
  · obtain ⟨a, m₁, h₁, h₂⟩ := bind_eq_ok h
    exact .inr ⟨a, m₁, h₁, .inl ⟨b, h₂⟩⟩
  · rcases bind_eq_error h with h | ⟨a, m₁, h₁, h₂⟩
    · exact .inl (.inr ⟨signal, h⟩)
    · exact .inr ⟨a, m₁, h₁, .inr ⟨signal, h₂⟩⟩

theorem Leaves.of_callPrimitive {p : Primitive} {args : List Value} {m m' : Machine}
    (h : Leaves (Eval.callPrimitive p args) m m') : m' = (p.call args m).2 := by
  unfold Leaves Eval.callPrimitive at h
  rcases h with ⟨_, h⟩ | ⟨_, h⟩ <;> split at h <;> cases h <;> simp [*]

/-- Giving an error its place does nothing to the machine. -/
theorem Leaves.of_locating {pos : Position} {x : Eval Value} {m m' : Machine}
    (h : Leaves (Eval.locating pos x) m m') : Leaves x m m' := by
  rcases h with ⟨a, h⟩ | ⟨signal, h⟩ <;> unfold Eval.locating at h <;> split at h
  · cases h
  · exact .inl ⟨a, h⟩
  · next hm =>
    cases h
    exact .inr ⟨_, hm⟩
  · exact .inr ⟨signal, h⟩

/-- A block leaves what its body has left, with its label closed. -/
theorem Leaves.of_inBlock {name : Option String} {scope : ScopeRef} {body : ScopeRef → Eval Value}
    {m m' : Machine} (h : Leaves (Eval.inBlock name scope body) m m') :
    ∃ m₁, Leaves (body (m.enterBlock name scope).1) (m.enterBlock name scope).2 m₁ ∧
      m' = m₁.leaveBlock m.store.nextRef := by
  unfold Leaves at h
  simp only [inBlock_eq] at h
  rcases h with ⟨a, h⟩ | ⟨signal, h⟩
  · split at h
    · next hm => cases h; exact ⟨_, .inl ⟨_, hm⟩, rfl⟩
    · next hm =>
      split at h
      · cases h; exact ⟨_, .inr ⟨_, hm⟩, rfl⟩
      · cases h
    · cases h
  · split at h
    · cases h
    · next hm =>
      split at h
      · cases h
      · cases h; exact ⟨_, .inr ⟨_, hm⟩, rfl⟩
    · next hm => cases h; exact ⟨_, .inr ⟨_, hm⟩, rfl⟩

/-- Whatever the outcome, the evaluation binds no names but `names`, in `env`. -/
def Confined (env : ScopeRef) (names : List String) (x : Eval α) : Prop :=
  ∀ m m', env.index < m.store.scopes.size → Leaves x m m' → m.store.Binds m'.store env names

namespace Confined

variable {env : ScopeRef} {names names' : List String}

theorem mono {x : Eval α} (h : Confined env names x) (hsub : names ⊆ names') :
    Confined env names' x :=
  fun m m' henv hleaves => (h m m' henv hleaves).mono hsub

/-- If the first part leaves by an error or an exit, the second one binds nothing. -/
theorem bind {x : Eval α} {f : α → Eval β} (hx : Confined env names x)
    (hf : ∀ a, Confined env names (f a)) : Confined env names (x >>= f) := by
  intro m m' henv hleaves
  rcases hleaves.bind with h | ⟨a, m₁, h₁, h₂⟩
  · exact hx m m' henv h
  · have hfirst := hx m m₁ henv (.inl ⟨a, h₁⟩)
    exact hfirst.trans (hf a m₁ m' (Nat.lt_of_lt_of_le henv hfirst.size_le) h₂)

/-- An evaluation that leaves the scopes alone. -/
theorem of_scopes_eq {x : Eval α} (h : ∀ m m', Leaves x m m' → m'.store.scopes = m.store.scopes) :
    Confined env names x :=
  fun m m' _ hleaves => .of_scopes_eq (h m m' hleaves)

theorem pure (a : α) : Confined env names (Pure.pure a : Eval α) := by
  refine of_scopes_eq fun m m' hleaves => ?_
  rcases hleaves with ⟨_, h⟩ | ⟨_, h⟩ <;> cases h
  rfl

theorem throw (signal : Signal) : Confined env names (MonadExcept.throw signal : Eval α) := by
  refine of_scopes_eq fun m m' hleaves => ?_
  rcases hleaves with ⟨_, h⟩ | ⟨_, h⟩ <;> cases h
  rfl

theorem get : Confined env names (MonadState.get : Eval Machine) := by
  refine of_scopes_eq fun m m' hleaves => ?_
  rcases hleaves with ⟨_, h⟩ | ⟨_, h⟩ <;> cases h
  rfl

theorem truthy (v : Value) : Confined env names (Eval.truthy v) :=
  get.bind fun _ => pure _

theorem discard {x : Eval α} (hx : Confined env names x) :
    Confined env names (Functor.discard x : Eval PUnit) := by
  rw [discard_eq_bind]
  exact hx.bind fun _ => pure _

/-- Arrays and functions have no names in scopes. -/
theorem newArray (items : Array Value) : Confined env names (allocate (·.newArray items)) := by
  refine of_scopes_eq fun m m' hleaves => ?_
  rcases hleaves with ⟨_, h⟩ | ⟨_, h⟩ <;> cases h
  rfl

theorem newClosure (c : Closure) : Confined env names (allocate (·.newClosure c)) := by
  refine of_scopes_eq fun m m' hleaves => ?_
  rcases hleaves with ⟨_, h⟩ | ⟨_, h⟩ <;> cases h
  rfl

theorem lookup (name : String) (pos : Position) (scope : ScopeRef) :
    Confined env names (Eval.lookup name pos scope) := by
  refine get.bind fun m => ?_
  cases m.store.lookup? scope name with
  | some value => exact pure value
  | none => exact throw _

/-- The one step that binds a new name. -/
theorem define (name : String) (value : Value) :
    Confined env [name] (modifyStore (·.define env name value)) := by
  intro m m' _ hleaves
  rcases hleaves with ⟨_, h⟩ | ⟨_, h⟩ <;> cases h
  exact .define m.store env name value

/-- The name is bound where it is changed, so no name is new. -/
theorem assign (name : String) (value : Value) (pos : Position) (scope : ScopeRef) :
    Confined env names (Eval.assign name value pos scope) := by
  intro m m' henv hleaves
  cases hresolve : m.store.resolve? scope name with
  | some found =>
    rw [Leaves, assign_of_resolve? hresolve] at hleaves
    rcases hleaves with ⟨_, h⟩ | ⟨_, h⟩ <;> cases h
    exact .of_bound_iff (by simp [Store.define]) henv fun r _ name' =>
      Store.bound_define_of_resolve? hresolve value r name'
  | none =>
    rw [Leaves, assign_of_unresolved hresolve] at hleaves
    rcases hleaves with ⟨_, h⟩ | ⟨_, h⟩ <;> cases h
    exact .refl

/-- Operations do not touch scopes at all. -/
theorem callPrimitive (p : Primitive) (args : List Value) :
    Confined env names (Eval.callPrimitive p args) := by
  refine of_scopes_eq fun m m' hleaves => ?_
  obtain ⟨arrays, hstore⟩ := p.call_store args m
  rw [hleaves.of_callPrimitive, hstore]

theorem exitTo (r : LabelRef) (args : List Value) : Confined env names (Eval.exitTo r args) := by
  refine get.bind fun m => ?_
  split
  · exact throw _
  · split
    · exact throw _
    · split <;> exact throw _

theorem locating (pos : Position) {x : Eval Value} (hx : Confined env names x) :
    Confined env names (Eval.locating pos x) := by
  intro m m' henv hleaves
  exact hx m m' henv hleaves.of_locating

/-- A scope added for an evaluation takes all that the evaluation binds. -/
theorem newScope {s : Store} {s' : Store} {parent : Option ScopeRef} {bindings : Bindings}
    (henv : env.index < s.scopes.size)
    (h : (s.newScope parent bindings).2.Binds s' (s.newScope parent bindings).1 names') :
    s.Binds s' env names := by
  have hsize : (s.newScope parent bindings).2.scopes.size = s.scopes.size + 1 := by
    simp [Store.newScope]
  refine .of_bound_iff (by have := h.size_le; omega) henv fun r hr name => ?_
  -- the scope that was added has an index of its own, above all that were there
  have hne : r ≠ (s.newScope parent bindings).1 := by
    rintro rfl
    exact Nat.lt_irrefl _ hr
  exact (h.other (by omega) hne name).trans (Store.bound_newScope parent bindings hr name)

/-- What the body binds, it binds in the scope of the block, which was not there before. -/
theorem inBlock (label : Option String) (scope : ScopeRef) {body : ScopeRef → Eval Value}
    (hbody : ∀ inner, Confined inner names' (body inner)) :
    Confined env names (Eval.inBlock label scope body) := by
  intro m m' henv hleaves
  obtain ⟨m₁, hm₁, rfl⟩ := hleaves.of_inBlock
  have hinner : (m.enterBlock label scope).1.index <
      (m.enterBlock label scope).2.store.scopes.size := by
    simp [Machine.enterBlock, Store.newScope]
  have hbinds := hbody _ _ m₁ hinner hm₁
  have hopen : m.store.Binds (m.store.openLabel label).2 env names := .of_scopes_eq rfl
  have hrun : (m.store.openLabel label).2.Binds m₁.store env names :=
    newScope (s := (m.store.openLabel label).2) henv hbinds
  -- closing the label leaves the scopes as the body left them
  exact hopen.trans (hrun.trans (.of_scopes_eq rfl))

end Confined

/-! ## 5. All evaluations -/

/-- Evaluations within a given depth bind only what their expressions do, in their own
scope; an application binds nothing in any scope there is. -/
structure Encapsulates (n : Nat) : Prop where
  eval (e : Expr) (env : ScopeRef) : Confined env e.bound (CalcScript.eval n e env)
  evalAll (es : List Expr) (env : ScopeRef) :
    Confined env (Expr.boundAll es) (CalcScript.evalAll n es env)
  evalLoop (condition body : Expr) (env : ScopeRef) :
    Confined env (condition.bound ++ body.bound) (CalcScript.evalLoop n condition body env)
  applyValue (callee : Value) (args : List Value) (env : ScopeRef) :
    Confined env [] (CalcScript.applyValue n callee args)

namespace Encapsulates

variable {n : Nat}

/-- One case for each kind of expression. The names are put together as `Expr.bound` does it. -/
theorem eval_succ (ih : Encapsulates n) (e : Expr) (env : ScopeRef) :
    Confined env e.bound (CalcScript.eval (n + 1) e env) := by
  cases e with
  | literal l => exact .pure _
  | primitive p => exact .pure _
  | array items =>
    exact (ih.evalAll items env).bind fun _ => (Confined.newArray _).bind fun _ => .pure _
  | var name pos => exact .lookup name pos env
  | store name value =>
    -- the only step that binds, behind the value, which may bind too
    refine ((ih.eval value env).mono (List.subset_cons_self _ _)).bind fun v => ?_
    exact ((Confined.define name v).mono (by simp)).bind fun _ => .pure _
  | update name value pos =>
    exact (ih.eval value env).bind fun v => (Confined.assign name v pos env).bind fun _ => .pure _
  | seq first rest =>
    exact ((ih.eval first env).mono (List.subset_append_left _ _)).discard.bind fun _ =>
      (ih.eval rest env).mono (List.subset_append_right _ _)
  | and left right =>
    refine ((ih.eval left env).mono (List.subset_append_left _ _)).bind fun v =>
      (Confined.truthy v).bind fun b => ?_
    cases b with
    | true =>
      exact ((ih.eval right env).mono (List.subset_append_right _ _)).bind fun w =>
        (Confined.truthy w).bind fun _ => .pure _
    | false => exact .pure _
  | or left right =>
    refine ((ih.eval left env).mono (List.subset_append_left _ _)).bind fun v =>
      (Confined.truthy v).bind fun b => ?_
    cases b with
    | true => exact .pure _
    | false =>
      exact ((ih.eval right env).mono (List.subset_append_right _ _)).bind fun w =>
        (Confined.truthy w).bind fun _ => .pure _
  | cond condition consequent alternate =>
    have hbranches : consequent.bound ++ alternate.bound ⊆
        (Expr.cond condition consequent alternate).bound := List.subset_append_right _ _
    refine ((ih.eval condition env).mono (List.subset_append_left _ _)).bind fun v =>
      (Confined.truthy v).bind fun b => ?_
    cases b with
    | true =>
      exact (ih.eval consequent env).mono
        (List.Subset.trans (List.subset_append_left _ _) hbranches)
    | false =>
      exact (ih.eval alternate env).mono
        (List.Subset.trans (List.subset_append_right _ _) hbranches)
  | loop condition body => exact ih.evalLoop condition body env
  | func params body => exact (Confined.newClosure _).bind fun _ => .pure _
  | apply callee args pos =>
    refine ((ih.eval callee env).mono (List.subset_append_left _ _)).bind fun v =>
      ((ih.evalAll args env).mono (List.subset_append_right _ _)).bind fun vs => ?_
    exact .locating pos ((ih.applyValue v vs env).mono (List.nil_subset _))
  | block label body =>
    exact Confined.inBlock label env fun inner => ih.eval body inner

theorem evalAll_succ (ih : Encapsulates n) (es : List Expr) (env : ScopeRef) :
    Confined env (Expr.boundAll es) (CalcScript.evalAll (n + 1) es env) := by
  cases es with
  | nil => exact .pure _
  | cons e es =>
    exact ((ih.eval e env).mono (List.subset_append_left _ _)).bind fun _ =>
      ((ih.evalAll es env).mono (List.subset_append_right _ _)).bind fun _ => .pure _

/-- A turn binds names of the condition and of the body, and so do all that follow. -/
theorem evalLoop_succ (ih : Encapsulates n) (condition body : Expr) (env : ScopeRef) :
    Confined env (condition.bound ++ body.bound)
      (CalcScript.evalLoop (n + 1) condition body env) := by
  refine ((ih.eval condition env).mono (List.subset_append_left _ _)).bind fun v =>
    (Confined.truthy v).bind fun b => ?_
  cases b with
  | true =>
    exact ((ih.eval body env).mono (List.subset_append_right _ _)).discard.bind fun _ =>
      ih.evalLoop condition body env
  | false => exact .pure _

/-- A call binds nothing in the scope it is made from: the body has a scope of its own. -/
theorem applyValue_succ (ih : Encapsulates n) (callee : Value) (args : List Value)
    (env : ScopeRef) : Confined env [] (CalcScript.applyValue (n + 1) callee args) := by
  cases callee with
  | closure r =>
    refine Confined.get.bind fun m => ?_
    split
    · exact .throw _
    next c _ =>
    by_cases hlength : c.params.length = args.length
    · simp only [hlength, if_true]
      -- the body runs in the scope that is added for it
      intro m m' henv hleaves
      rcases hleaves.bind with (⟨_, h⟩ | ⟨_, h⟩) | ⟨inner, m₁, h₁, h₂⟩
      · cases h
        exact .of_bound_iff (by simp) henv fun r hr name =>
          Store.bound_newScope _ _ hr name
      · cases h
      · cases h₁
        have hinner : (m.store.newScope (some c.scope) (frame c.params args)).1.index <
            (m.store.newScope (some c.scope) (frame c.params args)).2.scopes.size := by
          simp [Store.newScope]
        exact Confined.newScope henv (ih.eval c.body _ _ m' hinner h₂)
    · simp only [hlength, if_false]
      exact .throw _
  | primitive p => exact .callPrimitive p args
  | label r => exact .exitTo r args
  | number x => exact .throw _
  | bool b => exact .throw _
  | null => exact .throw _
  | str s => exact .throw _
  | array r => exact .throw _

end Encapsulates

/-- At any depth scopes are encapsulated: each evaluation only starts evaluations of a
smaller depth. -/
theorem encapsulates (n : Nat) : Encapsulates n := by
  induction n with
  | zero => exact ⟨fun _ _ => .throw _, fun _ _ => .throw _, fun _ _ _ => .throw _,
      fun _ _ _ => .throw _⟩
  | succ n ih => exact ⟨ih.eval_succ, ih.evalAll_succ, ih.evalLoop_succ, ih.applyValue_succ⟩

end Eval

/-- **Scopes are encapsulated.** Whatever the outcome of an evaluation, a scope other than
its own has the names it had before. Its own scope has lost none, and those it has got are
defined by the expression, outside of functions and blocks. An application gives no scope
that was there a name. -/
theorem eval_binds_in_own_scope (n : Nat) (m m' : Machine) :
    (∀ e env, env.index < m.store.scopes.size → Leaves (eval n e env) m m' →
      (∀ r, r.index < m.store.scopes.size → r ≠ env →
        ∀ name, m'.store.Bound r name ↔ m.store.Bound r name) ∧
      (∀ name, m.store.Bound env name → m'.store.Bound env name) ∧
      ∀ name, m'.store.Bound env name → m.store.Bound env name ∨ name ∈ e.bound) ∧
    ∀ callee args, Leaves (applyValue n callee args) m m' →
      ∀ r, r.index < m.store.scopes.size →
        ∀ name, m'.store.Bound r name ↔ m.store.Bound r name := by
  refine ⟨fun e env henv hleaves => ?_, fun callee args hleaves r hr => ?_⟩
  · have hbinds := (encapsulates n).eval e env m m' henv hleaves
    exact ⟨fun r hr hne => hbinds.other hr hne, hbinds.kept, hbinds.added⟩
  · exact ((encapsulates n).applyValue callee args r m m' hr hleaves).bound_iff hr

/-- A definition binds its name in the global scope; the one inside the block does not. -/
theorem eval_binds_outside_of_block :
    let s := Session.new .unlimited
    let e : Expr := .seq (.store "x" .null) (.block none (.store "y" .null))
    ∃ m', Leaves (eval 4 e Session.globals) s.machine m' ∧
      Session.globals.index < s.machine.store.scopes.size ∧
      m'.store.Bound Session.globals "x" ∧ ¬ m'.store.Bound Session.globals "y" := by
  intro s e
  -- what the run leaves, read off behind it
  let bindsX (_ : Value) : Eval Bool := return ((← get).store.local? Session.globals "x").isSome
  have hrun : EStateM.run' (eval 4 e Session.globals >>= bindsX) s.machine = some true := by
    decide +kernel
  delta EStateM.run' EStateM.run at hrun
  cases h : eval 4 e Session.globals s.machine with
  | error signal m' =>
    rw [bind_of_error h] at hrun
    cases hrun
  | ok v m' =>
    have hscope : Session.globals.index < s.machine.store.scopes.size := by decide
    refine ⟨m', .inl ⟨v, h⟩, hscope, ?_, fun hy => ?_⟩
    · rw [bind_of_ok h] at hrun
      exact Option.some.inj hrun
    · have hadded := ((eval_binds_in_own_scope 4 s.machine m').1 e Session.globals hscope
        (.inl ⟨v, h⟩)).2.2 "y" hy
      rcases hadded with hold | hmem
      · exact absurd hold (by rw [Store.Bound]; decide +kernel)
      · exact absurd hmem (by decide)

end CalcScript
