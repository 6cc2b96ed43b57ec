/-
`Proofs/StoreGrowth.lean` -- what stays of a store, and where its scopes come from.

Entries are added to a store and changed, but none is taken away, and two things about an entry
never change: which scope is around a scope, and all that a function is made of. `Store.Grows` says
so of a store before and a store behind. Every step has it, so every evaluation has it, whatever its
outcome (`Eval.closed_growing`).

The moments of a run are the starts and the ends of the evaluations inside it. An evaluation starts
behind the start of the one that starts it (`Point.Enters.grows`), and it is over before that one is
(`Point.Enters.final_grows`). So the store at any moment grows into the one at the end of the run
(`Point.grows_of_runs`), and any two moments agree about the links of the scopes there are at both.

Only two evaluations start another one in a scope that they make for it: the run of a block and the
call of a function (`Point.Opens`). No scope comes into being in another way
(`Point.exists_opens`).
-/
import CalcScript.Proofs.Regions
import CalcScript.Proofs.ScopeTree

set_option autoImplicit false

namespace CalcScript

open Eval

/-! ## 1. Stores that grow -/

namespace Store

/-- From `s` to `s'` no entry is taken away, no scope gets another scope around it, and no function
becomes another. -/
structure Grows (s s' : Store) : Prop where
  arrays_le : s.arrays.size ≤ s'.arrays.size
  labels_le : s.labels.size ≤ s'.labels.size
  scopes_le : s.scopes.size ≤ s'.scopes.size
  parent?_eq {r : ScopeRef} (hr : r.index < s.scopes.size) : s'.parent? r = s.parent? r
  closure? {r : ClosureRef} {c : Closure} (hc : s.closure? r = some c) : s'.closure? r = some c

namespace Grows

variable {s s₁ s₂ : Store}

theorem refl (s : Store) : s.Grows s :=
  ⟨Nat.le_refl _, Nat.le_refl _, Nat.le_refl _, fun _ => rfl, fun hc => hc⟩

/-- Growth composes. What is said of the scopes in `s` applies to `s₁` because they are in it too.
-/
theorem trans (h₁ : s.Grows s₁) (h₂ : s₁.Grows s₂) : s.Grows s₂ where
  arrays_le := Nat.le_trans h₁.arrays_le h₂.arrays_le
  labels_le := Nat.le_trans h₁.labels_le h₂.labels_le
  scopes_le := Nat.le_trans h₁.scopes_le h₂.scopes_le
  parent?_eq hr :=
    (h₂.parent?_eq (Nat.lt_of_lt_of_le hr h₁.scopes_le)).trans (h₁.parent?_eq hr)
  closure? hc := h₂.closure? (h₁.closure? hc)

/-- A change that leaves scopes and functions alone and takes nothing away. -/
theorem of_eq (hscopes : s₁.scopes = s.scopes) (hclosures : s₁.closures = s.closures)
    (harrays : s.arrays.size ≤ s₁.arrays.size) (hlabels : s.labels.size ≤ s₁.labels.size) :
    s.Grows s₁ where
  arrays_le := harrays
  labels_le := hlabels
  scopes_le := Nat.le_of_eq (congrArg Array.size hscopes.symm)
  parent?_eq _ := by rw [parent?, parent?, scope?, scope?, hscopes]
  closure? hc := by rwa [Store.closure?, hclosures]

theorem newArray (s : Store) (items : Array Value) : s.Grows (s.newArray items).2 :=
  .of_eq rfl rfl (by simp [Store.newArray]) (Nat.le_refl _)

theorem modifyArray (s : Store) (r : ArrayRef) (f : Array Value → Array Value) :
    s.Grows (s.modifyArray r f) :=
  .of_eq rfl rfl (by simp [Store.modifyArray]) (Nat.le_refl _)

theorem openLabel (s : Store) (name : Option String) : s.Grows (s.openLabel name).2 :=
  .of_eq rfl rfl (Nat.le_refl _) (by simp [Store.openLabel, Store.newLabel])

theorem closeLabel (s : Store) (r : LabelRef) : s.Grows (s.closeLabel r) :=
  .of_eq rfl rfl (Nat.le_refl _) (by simp [Store.closeLabel])

/-- A new function gets the next free place, so every one before it stays where it is. -/
theorem newClosure (s : Store) (c : Closure) : s.Grows (s.newClosure c).2 where
  arrays_le := Nat.le_refl _
  labels_le := Nat.le_refl _
  scopes_le := Nat.le_refl _
  parent?_eq _ := rfl
  closure? {r c'} hc := by
    have hlt : r.index < s.closures.size := (Array.getElem?_eq_some_iff.mp hc).1
    have hne : r.index ≠ s.closures.size := Nat.ne_of_lt hlt
    rw [Store.closure?, Store.newClosure, Array.getElem?_push, if_neg hne]
    exact hc

/-- Likewise a new scope: of those before it none gets another scope around it. -/
theorem newScope (s : Store) (parent : Option ScopeRef) (bindings : Bindings) :
    s.Grows (s.newScope parent bindings).2 where
  arrays_le := Nat.le_refl _
  labels_le := Nat.le_refl _
  scopes_le := by simp [Store.newScope]
  parent?_eq hr := by
    rw [parent?, parent?, scope?_newScope, if_neg (Nat.ne_of_lt hr)]
  closure? hc := hc

/-- A binding changes neither how many scopes there are nor what is around them. -/
theorem define (s : Store) (owner : ScopeRef) (name : String) (value : Value) :
    s.Grows (s.define owner name value) where
  arrays_le := Nat.le_refl _
  labels_le := Nat.le_refl _
  scopes_le := by simp [Store.define]
  parent?_eq {r} _ := by
    rw [parent?, parent?, scope?_define]
    by_cases hr : r = owner
    · subst hr
      cases s.scope? r <;> simp
    · rw [if_neg hr]
  closure? hc := hc

/-- A block run adds its label and its scope. -/
theorem enterBlock (m : Machine) (name : Option String) (scope : ScopeRef) :
    m.store.Grows (m.enterBlock name scope).2.store :=
  (openLabel m.store name).trans (newScope _ (some scope) _)

end Grows

end Store

/-- Built-in operations add and change arrays, and nothing else. -/
theorem Primitive.call_grows (p : Primitive) (args : List Value) (m : Machine) :
    m.store.Grows (p.call args m).2.store := by
  have hdoes := p.call_does args m
  generalize (p.call args m).1 = result, (p.call args m).2.store = s' at hdoes
  cases hdoes with
  | fails | reads => exact .refl _
  | makes => exact .newArray _ _
  | changes => exact .modifyArray _ _ _

/-! ## 2. Evaluations -/

namespace Eval

variable {α β : Type} {m m₁ m₂ : Machine}

/-- An evaluation is a function of the machine it starts with, so it leaves one machine. -/
theorem Leaves.unique {x : Eval α} (h₁ : Leaves x m m₁) (h₂ : Leaves x m m₂) : m₁ = m₂ := by
  -- two results and two failures agree, and there is no result where there is a failure
  rcases h₁ with ⟨a, h₁⟩ | ⟨signal, h₁⟩
  · rcases h₂ with ⟨b, h₂⟩ | ⟨signal, h₂⟩ <;> rw [h₁] at h₂ <;> cases h₂
    rfl
  · rcases h₂ with ⟨b, h₂⟩ | ⟨signal', h₂⟩ <;> rw [h₁] at h₂ <;> cases h₂
    rfl

theorem Leaves.discard {x : Eval α} (h : Leaves x m m₁) :
    Leaves (Functor.discard x : Eval PUnit) m m₁ := by
  rw [discard_eq_bind]
  rcases h with ⟨a, h⟩ | ⟨signal, h⟩
  · exact .inl ⟨⟨⟩, bind_of_ok h⟩
  · exact .inr ⟨signal, bind_of_error h⟩

/-- Behind a first half with a result, what is left is what the second half leaves. -/
theorem Leaves.of_bind_ok {x : Eval α} {f : α → Eval β} {a : α} (hx : x m = .ok a m₁)
    (h : Leaves (x >>= f) m m₂) : Leaves (f a) m₁ m₂ := by
  rwa [Leaves, bind_of_ok hx] at h

/-- Whatever the outcome of the evaluation, the relation holds of the store before and the store
behind it. -/
def Follows (R : Store → Store → Prop) (x : Eval α) : Prop :=
  ∀ m m', Leaves x m m' → R m.store m'.store

namespace Follows

variable {R : Store → Store → Prop} [Std.Refl R] [IsTrans Store R]

omit [IsTrans Store R] in
theorem pure (a : α) : Follows R (Pure.pure a : Eval α) := by
  intro m m' hleaves
  rcases hleaves with ⟨_, h⟩ | ⟨_, h⟩ <;> cases h
  exact Std.Refl.refl _

omit [IsTrans Store R] in
theorem throw (signal : Signal) : Follows R (MonadExcept.throw signal : Eval α) := by
  intro m m' hleaves
  rcases hleaves with ⟨_, h⟩ | ⟨_, h⟩ <;> cases h
  exact Std.Refl.refl _

omit [IsTrans Store R] in
theorem get : Follows R (MonadState.get : Eval Machine) := by
  intro m m' hleaves
  rcases hleaves with ⟨_, h⟩ | ⟨_, h⟩ <;> cases h
  exact Std.Refl.refl _

omit [Std.Refl R] in
/-- The relation has to be transitive: it holds of the first half and then of the second. -/
theorem bind {x : Eval α} {f : α → Eval β} (hx : Follows R x) (hf : ∀ a, Follows R (f a)) :
    Follows R (x >>= f) := by
  intro m m' hleaves
  rcases hleaves.bind with h | ⟨a, m₁, h₁, h₂⟩
  · exact hx m m' h
  · exact IsTrans.trans _ _ _ (hx m m₁ (.inl ⟨a, h₁⟩)) (hf a m₁ m' h₂)

omit [Std.Refl R] [IsTrans Store R] in
theorem allocate {f : Store → α × Store} (hf : ∀ s, R s (f s).2) : Follows R (Eval.allocate f) := by
  intro m m' hleaves
  rcases hleaves with ⟨_, h⟩ | ⟨_, h⟩ <;> cases h
  exact hf m.store

omit [Std.Refl R] [IsTrans Store R] in
theorem modifyStore {f : Store → Store} (hf : ∀ s, R s (f s)) :
    Follows R (Eval.modifyStore f) := by
  intro m m' hleaves
  rcases hleaves with ⟨_, h⟩ | ⟨_, h⟩ <;> cases h
  exact hf m.store

/-- A look-up reads, whether it finds something or not. -/
theorem lookup (name : String) (pos : Position) (scope : ScopeRef) :
    Follows R (Eval.lookup name pos scope) := by
  refine get.bind fun m => ?_
  cases m.store.lookup? scope name with
  | some value => exact pure value
  | none => exact throw _

/-- An assignment binds in the scope where the name is found, or fails and changes nothing. -/
theorem assign (hR : ∀ s owner name value, R s (s.define owner name value)) (name : String)
    (value : Value) (pos : Position) (scope : ScopeRef) :
    Follows R (Eval.assign name value pos scope) := by
  refine get.bind fun m => ?_
  cases m.store.resolve? scope name with
  | some found => exact modifyStore fun s => hR s found.1 name value
  | none => exact throw _

omit [Std.Refl R] [IsTrans Store R] in
theorem callPrimitive {p : Primitive} {args : List Value}
    (hR : ∀ m : Machine, R m.store (p.call args m).2.store) :
    Follows R (Eval.callPrimitive p args) := by
  intro m m' hleaves
  rw [hleaves.of_callPrimitive]
  exact hR m

/-- An exit leaves the store alone. It is the block it leads to that closes the label. -/
theorem exitTo (r : LabelRef) (args : List Value) : Follows R (Eval.exitTo r args) := by
  refine get.bind fun m => ?_
  split
  · exact throw _
  · split
    · exact throw _
    · split <;> exact throw _

end Follows

/-- This and the next instance are what the rules for `Follows` ask for. -/
instance : Std.Refl Store.Grows := ⟨.refl⟩

instance : IsTrans Store Store.Grows := ⟨fun _ _ _ => .trans⟩

/-- Whatever the outcome of the evaluation, the store has grown. -/
abbrev Growing (x : Eval α) : Prop := Follows Store.Grows x

/-- **Growth is closed under evaluation.** -/
theorem closed_growing : Closed @Growing where
  pure := .pure
  bind := .bind
  exhausted := .throw _
  notCallable _ := .throw _
  arity _ _ := .throw _
  get := .get
  lookup := .lookup
  define scope name value := .modifyStore fun s => .define s scope name value
  assign := .assign .define
  newArray items := .allocate fun s => .newArray s items
  newClosure c := .allocate fun s => .newClosure s c
  newScope parent bindings := .allocate fun s => .newScope s parent bindings
  callPrimitive p args := .callPrimitive fun m => p.call_grows args m
  exitTo := .exitTo
  locating _ _ hx := fun m m' hleaves => hx m m' hleaves.of_locating
  inBlock name scope _ hbody := by
    intro m m' hleaves
    -- the block makes its scope, runs its body, and closes its label
    obtain ⟨m₁, hm₁, rfl⟩ := hleaves.of_inBlock
    exact (Store.Grows.enterBlock m name scope).trans ((hbody _ _ _ hm₁).trans (.closeLabel _ _))

/-- Evaluation of a tree, at any depth and with any outcome. The next three say it of lists, loops
and calls. -/
theorem growing_eval (n : Nat) (e : Expr) (scope : ScopeRef) : Growing (eval n e scope) :=
  (closed_growing.within n).1 e scope

theorem growing_evalAll (n : Nat) (es : List Expr) (scope : ScopeRef) :
    Growing (evalAll n es scope) :=
  (closed_growing.within n).2.1 es scope

theorem growing_evalLoop (n : Nat) (condition body : Expr) (scope : ScopeRef) :
    Growing (evalLoop n condition body scope) :=
  (closed_growing.within n).2.2.1 condition body scope

theorem growing_applyValue (n : Nat) (callee : Value) (args : List Value) :
    Growing (applyValue n callee args) :=
  (closed_growing.within n).2.2.2 callee args

/-- What a composed evaluation leaves has grown from what its first half leaves. -/
theorem Leaves.grows_bind {x : Eval α} {f : α → Eval β} (hx : Leaves x m m₁)
    (h : Leaves (x >>= f) m m₂) (hf : ∀ a, Growing (f a)) : m₁.store.Grows m₂.store := by
  rcases hx with ⟨a, hx⟩ | ⟨signal, hx⟩
  · exact hf a m₁ m₂ (h.of_bind_ok hx)
  · rw [Leaves, bind_of_error hx] at h
    rcases h with ⟨_, h⟩ | ⟨_, h⟩ <;> cases h
    exact .refl _

/-- The same where the first half decides between two ways to go on. -/
theorem Leaves.grows_truthy {x : Eval Value} {f : Bool → Eval β} (hx : Leaves x m m₁)
    (h : Leaves (do f (← truthy (← x))) m m₂) (hf : ∀ b, Growing (f b)) :
    m₁.store.Grows m₂.store :=
  hx.grows_bind h fun v => (closed_growing.truthy v).bind hf

end Eval

/-! ## 3. Moments of a run -/

/-- Whatever a point has to evaluate. -/
theorem Task.growing_run (task : Task) (n : Nat) : Growing (task.run n) := by
  cases task with
  | expr e scope => exact (growing_eval n e scope).bind fun _ => .pure _
  | exprs es scope => exact growing_evalAll n es scope
  | turns condition body scope =>
    exact (growing_evalLoop n condition body scope).bind fun _ => .pure _
  | call callee args => exact (growing_applyValue n callee args).bind fun _ => .pure _

namespace Point

variable {p q start : Point}

/-- The machine at the end of a point is what its evaluation leaves. -/
theorem leaves_final (p : Point) : Leaves (p.task.run p.depth) p.machine p.final := by
  cases h : p.result with
  | ok vs m =>
    rw [final, h]
    exact .inl ⟨vs, h⟩
  | error signal m =>
    rw [final, h]
    exact .inr ⟨signal, h⟩

/-- So a point ends with a store grown from the one that it starts with. -/
theorem grows_final (p : Point) : p.machine.store.Grows p.final.store :=
  p.task.growing_run p.depth _ _ p.leaves_final

section Leaves

variable {n : Nat} {m m' : Machine} {rs : List LabelRef}

/-- Putting a value into a list changes nothing of what is left. -/
theorem leaves_of_singleton {x : Eval Value}
    (h : Leaves (do return [← x] : Eval (List Value)) m m') : Leaves x m m' := by
  rcases h.bind with h | ⟨v, m₁, hx, h⟩
  · exact h
  · rcases h with ⟨_, h⟩ | ⟨_, h⟩ <;> cases h
    exact .inl ⟨v, hx⟩

theorem leaves_expr (e : Expr) (scope : ScopeRef) :
    Leaves (eval n e scope) m (final ⟨.expr e scope, n, m, rs⟩) :=
  leaves_of_singleton (leaves_final ⟨.expr e scope, n, m, rs⟩)

theorem leaves_exprs (es : List Expr) (scope : ScopeRef) :
    Leaves (evalAll n es scope) m (final ⟨.exprs es scope, n, m, rs⟩) :=
  leaves_final ⟨.exprs es scope, n, m, rs⟩

theorem leaves_turns (condition body : Expr) (scope : ScopeRef) :
    Leaves (evalLoop n condition body scope) m (final ⟨.turns condition body scope, n, m, rs⟩) :=
  leaves_of_singleton (leaves_final ⟨.turns condition body scope, n, m, rs⟩)

theorem leaves_call (callee : Value) (args : List Value) :
    Leaves (applyValue n callee args) m (final ⟨.call callee args, n, m, rs⟩) :=
  leaves_of_singleton (leaves_final ⟨.call callee args, n, m, rs⟩)

end Leaves

/-- **An evaluation starts behind the start of the one it belongs to.** -/
theorem Enters.grows (h : p.Enters q) : p.machine.store.Grows q.machine.store := by
  have heval : ∀ {n e scope m v m'}, eval n e scope m = .ok v m' → m.store.Grows m'.store :=
    fun h => growing_eval _ _ _ _ _ (.inl ⟨_, h⟩)
  cases h with
  | rest hbefore | andRight hbefore | orRight hbefore | consequent hbefore | alternate hbefore
  | arguments hbefore | tail hbefore | turn hbefore => exact heval hbefore
  | application hcallee hargs =>
    exact (heval hcallee).trans (growing_evalAll _ _ _ _ _ (.inl ⟨_, hargs⟩))
  | again htest _ hturn => exact (heval htest).trans (heval hturn)
  | block => exact .enterBlock _ _ _
  | body => exact .newScope _ _ _
  | _ => exact .refl _

/-- **An evaluation is over before the one it belongs to is over.** What comes behind it there only
adds to the store. -/
theorem Enters.final_grows (h : p.Enters q) : q.final.store.Grows p.final.store := by
  have htruth : ∀ v, Growing (Eval.truthy v) := closed_growing.truthy
  have hbool : ∀ v, Growing (do return Value.bool (← Eval.truthy v)) := fun v =>
    (htruth v).bind fun _ => .pure _
  have hcall : ∀ pos n callee args, Growing (Eval.locating pos (applyValue n callee args)) :=
    fun pos n callee args => closed_growing.locating pos (growing_applyValue n callee args)
  -- where the evaluation inside is the last thing that happens
  have hlast : ∀ {α : Type} {x : Eval α} {m m₁ m₂ : Machine},
      Leaves x m m₁ → Leaves x m m₂ → m₁.store.Grows m₂.store :=
    fun h₁ h₂ => h₁.unique h₂ ▸ .refl _
  -- the evaluation around it, opened up to the place where the one inside starts
  have houter := p.leaves_final
  cases h with
  | array =>
    exact (leaves_exprs _ _).grows_bind (leaves_of_singleton houter) fun _ =>
      (closed_growing.newArray _).bind fun _ => .pure _
  | store =>
    exact (leaves_expr _ _).grows_bind (leaves_of_singleton houter) fun _ =>
      (closed_growing.define _ _ _).bind fun _ => .pure _
  | update =>
    exact (leaves_expr _ _).grows_bind (leaves_of_singleton houter) fun _ =>
      (closed_growing.assign _ _ _ _).bind fun _ => .pure _
  | first =>
    exact (leaves_expr _ _).discard.grows_bind (leaves_of_singleton houter) fun _ =>
      growing_eval _ _ _
  | rest hfirst =>
    have hrest := (leaves_of_singleton houter).of_bind_ok (discard_of_ok hfirst)
    exact hlast (leaves_expr _ _) hrest
  | andLeft =>
    refine (leaves_expr _ _).grows_truthy (leaves_of_singleton houter) fun b => ?_
    cases b with
    | true => exact (growing_eval _ _ _).bind hbool
    | false => exact .pure _
  | orLeft =>
    refine (leaves_expr _ _).grows_truthy (leaves_of_singleton houter) fun b => ?_
    cases b with
    | true => exact .pure _
    | false => exact (growing_eval _ _ _).bind hbool
  | andRight hleft htruthy | orRight hleft htruthy =>
    have hright := ((leaves_of_singleton houter).of_bind_ok hleft).of_bind_ok (truthy_of_eq htruthy)
    exact (leaves_expr _ _).grows_bind hright hbool
  | condition =>
    refine (leaves_expr _ _).grows_truthy (leaves_of_singleton houter) fun b => ?_
    cases b <;> exact growing_eval _ _ _
  | consequent hcondition htruthy | alternate hcondition htruthy =>
    have hdecided := (leaves_of_singleton houter).of_bind_ok hcondition
    have hbranch := hdecided.of_bind_ok (truthy_of_eq htruthy)
    exact hlast (leaves_expr _ _) hbranch
  | loop => exact hlast (leaves_turns _ _ _) (leaves_of_singleton houter)
  | callee =>
    exact (leaves_expr _ _).grows_bind (leaves_of_singleton houter) fun _ =>
      (growing_evalAll _ _ _).bind fun _ => hcall _ _ _ _
  | arguments hcallee =>
    have harguments := (leaves_of_singleton houter).of_bind_ok hcallee
    exact (leaves_exprs _ _).grows_bind harguments fun _ => hcall _ _ _ _
  | application hcallee hargs =>
    have happly := ((leaves_of_singleton houter).of_bind_ok hcallee).of_bind_ok hargs
    exact hlast (leaves_call _ _) happly.of_locating
  | @block name body scope n m rs =>
    have hblock : Leaves (inBlock name scope (eval n body)) m _ :=
      leaves_of_singleton houter
    obtain ⟨m₁, hbody, hfinal⟩ := hblock.of_inBlock
    rw [hfinal, (leaves_expr _ _).unique hbody]
    exact .closeLabel _ _
  | head =>
    exact (leaves_expr _ _).grows_bind houter fun _ =>
      (growing_evalAll _ _ _).bind fun _ => .pure _
  | tail hhead =>
    have htail := Leaves.of_bind_ok hhead houter
    exact (leaves_exprs _ _).grows_bind htail fun _ => .pure _
  | test =>
    refine (leaves_expr _ _).grows_truthy (leaves_of_singleton houter) fun b => ?_
    cases b with
    | true =>
      exact (closed_growing.discard (growing_eval _ _ _)).bind fun _ => growing_evalLoop _ _ _ _
    | false => exact .pure _
  | turn htest htruthy =>
    have hturn := ((leaves_of_singleton houter).of_bind_ok htest).of_bind_ok (truthy_of_eq htruthy)
    exact (leaves_expr _ _).discard.grows_bind hturn fun _ => growing_evalLoop _ _ _ _
  | again htest htruthy hturn =>
    have hbody := ((leaves_of_singleton houter).of_bind_ok htest).of_bind_ok (truthy_of_eq htruthy)
    have hagain := Leaves.of_bind_ok (discard_of_ok hturn) hbody
    exact hlast (leaves_turns _ _ _) hagain
  | @body r args n m rs c hclosure hlength =>
    have hcalled : Leaves (applyValue (n + 1) (.closure r) args) m _ := leaves_of_singleton houter
    rw [Leaves, applyValue_closure hclosure hlength] at hcalled
    exact hlast (leaves_expr _ _) hcalled

/-- All moments of a run lie between its start and its end. -/
theorem grows_of_runs (h : Relation.ReflTransGen Enters start p) :
    start.machine.store.Grows p.machine.store ∧ p.final.store.Grows start.final.store := by
  induction h with
  | refl => exact ⟨.refl _, .refl _⟩
  | tail _ henters ih => exact ⟨ih.1.trans henters.grows, henters.final_grows.trans ih.2⟩

/-! ## 4. Where scopes come from -/

/-- The evaluation at the first point starts the one at the second in a scope made for it, inside of
another one. The scope of a block run is inside the scope that the block is evaluated in, the scope
of a call inside the one that the function has captured. -/
inductive Opens : Point → Point → ScopeRef → ScopeRef → Prop
  | block {name body scope n m rs} :
    Opens ⟨.expr (.block name body) scope, n + 1, m, rs⟩
      ⟨.expr body (m.enterBlock name scope).1, n, (m.enterBlock name scope).2,
        m.store.nextRef :: rs⟩ ⟨m.store.scopes.size⟩ scope
  | call {r args n m rs c} (hclosure : m.store.closure? r = some c)
      (hlength : c.params.length = args.length) :
    Opens ⟨.call (.closure r) args, n + 1, m, rs⟩
      ⟨.expr c.body (m.enterCall c args).1, n, (m.enterCall c args).2, rs⟩
      ⟨m.store.scopes.size⟩ c.scope

variable {inner outer : ScopeRef}

/-- Opening a scope is one way of starting an evaluation. -/
theorem Opens.enters (h : p.Opens q inner outer) : p.Enters q := by
  cases h with
  | block => exact .block
  | call hclosure hlength => exact .body hclosure hlength

/-- The evaluation inside starts with the new scope linked to the one it is in. -/
theorem Opens.parent?_eq (h : p.Opens q inner outer) :
    q.machine.store.parent? inner = some outer := by
  have hnew : ∀ (s : Store) (bindings : Bindings),
      (s.newScope (some outer) bindings).2.parent? ⟨s.scopes.size⟩ = some outer :=
    fun s bindings => by
      rw [Store.parent?, Store.scope?_newScope, if_pos rfl, Option.bind_some]
  cases h with
  | block => exact hnew _ _
  | call => exact hnew _ _

/-- From `s` to `s'` the evaluation at the point makes scopes only by opening them for evaluations
that it comes to. -/
def Accounts (p : Point) (s s' : Store) : Prop :=
  ∀ r : ScopeRef, s.scopes.size ≤ r.index → r.index < s'.scopes.size →
    ∃ p' q parent, Relation.ReflTransGen Enters p p' ∧ p'.Opens q r parent

namespace Accounts

variable {s s₁ s₂ : Store}

theorem of_size_eq (h : s₁.scopes.size = s.scopes.size) : p.Accounts s s₁ := by
  intro r hle hlt
  omega

/-- A new scope is there at the moment in between, or it is made behind it. -/
theorem trans (h₁ : p.Accounts s s₁) (h₂ : p.Accounts s₁ s₂) : p.Accounts s s₂ := by
  intro r hle hlt
  by_cases hr : r.index < s₁.scopes.size
  · exact h₁ r hle hr
  · exact h₂ r (Nat.le_of_not_lt hr) hlt

/-- What an evaluation inside comes to, the one around it comes to. -/
theorem of_enters (henters : p.Enters q) (h : q.Accounts s s₁) : p.Accounts s s₁ := by
  intro r hle hlt
  obtain ⟨p', q', parent, hpath, hopens⟩ := h r hle hlt
  exact ⟨p', q', parent, hpath.head henters, hopens⟩

/-- The one scope that is made to start an evaluation in, and then those of this evaluation. -/
theorem of_opens (hopens : p.Opens q ⟨s.scopes.size⟩ outer)
    (hsize : q.machine.store.scopes.size = s.scopes.size + 1)
    (h : q.Accounts q.machine.store s₁) : p.Accounts s s₁ := by
  intro r hle hlt
  -- the scope opened here has the first free place, and all others come behind it
  by_cases hr : r.index = s.scopes.size
  · obtain rfl : r = ⟨s.scopes.size⟩ := by rw [← hr]
    exact ⟨p, q, outer, .refl, hopens⟩
  · exact h.of_enters hopens.enters r (by omega) hlt

end Accounts

/-- The scopes that `x` makes from the machine `m` on, as a part of the evaluation at the point. -/
def Makes {α : Type} (p : Point) (m : Machine) (x : Eval α) : Prop :=
  ∀ m', Leaves x m m' → p.Accounts m.store m'.store

namespace Makes

variable {α β : Type} {m : Machine} {x : Eval α}

/-- Two stores with equally many scopes. -/
def SameScopes (s s' : Store) : Prop := s'.scopes.size = s.scopes.size

/-- With these the rules for `Follows` hold of stores with equally many scopes. -/
instance : Std.Refl SameScopes := ⟨fun _ => rfl⟩

instance : IsTrans Store SameScopes := ⟨fun _ _ _ h₁ h₂ => h₂.trans h₁⟩

/-- A step that makes no scope at all. -/
theorem still (hx : Follows SameScopes x) : p.Makes m x :=
  fun _ hleaves => .of_size_eq (hx _ _ hleaves)

theorem pure (a : α) : p.Makes m (Pure.pure a) := still (.pure a)

theorem define (scope : ScopeRef) (name : String) (value : Value) :
    p.Makes m (modifyStore (·.define scope name value)) :=
  still (.modifyStore fun s => by simp [SameScopes, Store.define])

theorem assign (name : String) (value : Value) (pos : Position) (scope : ScopeRef) :
    p.Makes m (Eval.assign name value pos scope) :=
  still (.assign (fun s _ _ _ => by simp [SameScopes, Store.define]) name value pos scope)

/-- Built-in operations touch arrays only. -/
theorem callPrimitive (f : Primitive) (args : List Value) :
    p.Makes m (Eval.callPrimitive f args) := by
  refine still (.callPrimitive fun m => ?_)
  obtain ⟨arrays, hstore⟩ := f.call_store args m
  rw [SameScopes, hstore]

/-- What the first half has made was there before the second half starts. -/
theorem bind {f : α → Eval β} (hx : p.Makes m x)
    (hf : ∀ a m₁, x m = .ok a m₁ → p.Makes m₁ (f a)) : p.Makes m (x >>= f) := by
  intro m' hleaves
  rcases hleaves.bind with h | ⟨a, m₁, h₁, h₂⟩
  · exact hx m' h
  · exact (hx m₁ (.inl ⟨a, h₁⟩)).trans (hf a m₁ h₁ m' h₂)

theorem discard {x : Eval Value} (hx : p.Makes m x) :
    p.Makes m (Functor.discard x : Eval PUnit) := by
  rw [discard_eq_bind]
  exact hx.bind fun _ _ _ => pure _

/-- A test decides how to go on and makes nothing itself. -/
theorem truthy {f : Bool → Eval β} {v : Value}
    (hf : ∀ b, m.store.truthy v = b → p.Makes m (f b)) : p.Makes m (Eval.truthy v >>= f) :=
  hf _ rfl

theorem truth (v : Value) : p.Makes m (do return Value.bool (← Eval.truthy v)) :=
  truthy fun _ _ => pure _

/-- An evaluation that is started at another point accounts for its scopes there. -/
theorem enters (henters : p.Enters q) (hx : q.Makes m x) : p.Makes m x :=
  fun m' hleaves => (hx m' hleaves).of_enters henters

end Makes

/-- Every evaluation within the depth makes scopes only by opening them. -/
structure MakesWithin (n : Nat) : Prop where
  eval (e : Expr) (scope : ScopeRef) (m : Machine) (rs : List LabelRef) :
    Makes ⟨.expr e scope, n, m, rs⟩ m (CalcScript.eval n e scope)
  all (es : List Expr) (scope : ScopeRef) (m : Machine) (rs : List LabelRef) :
    Makes ⟨.exprs es scope, n, m, rs⟩ m (evalAll n es scope)
  loop (condition body : Expr) (scope : ScopeRef) (m : Machine) (rs : List LabelRef) :
    Makes ⟨.turns condition body scope, n, m, rs⟩ m (evalLoop n condition body scope)
  apply (callee : Value) (args : List Value) (m : Machine) (rs : List LabelRef) :
    Makes ⟨.call callee args, n, m, rs⟩ m (applyValue n callee args)

namespace MakesWithin

variable {n : Nat}

/-- One level deeper. Each kind of tree starts its parts by a rule of `Enters`, and only a block
opens a scope. -/
theorem eval_succ (ih : MakesWithin n) (e : Expr) (scope : ScopeRef) (m : Machine)
    (rs : List LabelRef) :
    Makes ⟨.expr e scope, n + 1, m, rs⟩ m (CalcScript.eval (n + 1) e scope) := by
  cases e with
  | literal l => exact .pure _
  | primitive p => exact .pure _
  | array items =>
    refine .bind (.enters .array (ih.all items scope m rs)) fun vs m₁ _ => ?_
    exact .bind (.still (.allocate fun s => rfl)) fun _ _ _ => .pure _
  | var name pos => exact .still (.lookup name pos scope)
  | store name value =>
    refine .bind (.enters .store (ih.eval value scope m rs)) fun v m₁ _ => ?_
    exact .bind (.define scope name v) fun _ _ _ => .pure _
  | update name value pos =>
    refine .bind (.enters .update (ih.eval value scope m rs)) fun v m₁ _ => ?_
    exact .bind (.assign name v pos scope) fun _ _ _ => .pure _
  | seq first rest =>
    refine .bind (.discard (.enters .first (ih.eval first scope m rs))) fun _ m₁ hfirst => ?_
    obtain ⟨v, hfirst⟩ := discard_eq_ok hfirst
    exact .enters (.rest hfirst) (ih.eval rest scope m₁ rs)
  | and left right =>
    refine .bind (.enters .andLeft (ih.eval left scope m rs)) fun v m₁ hleft =>
      .truthy fun b hb => ?_
    cases b with
    | true =>
      exact .bind (.enters (.andRight hleft hb) (ih.eval right scope m₁ rs)) fun w _ _ => .truth w
    | false => exact .pure _
  | or left right =>
    refine .bind (.enters .orLeft (ih.eval left scope m rs)) fun v m₁ hleft =>
      .truthy fun b hb => ?_
    cases b with
    | true => exact .pure _
    | false =>
      exact .bind (.enters (.orRight hleft hb) (ih.eval right scope m₁ rs)) fun w _ _ => .truth w
  | cond condition consequent alternate =>
    refine .bind (.enters .condition (ih.eval condition scope m rs)) fun v m₁ hcondition =>
      .truthy fun b hb => ?_
    cases b with
    | true => exact .enters (.consequent hcondition hb) (ih.eval consequent scope m₁ rs)
    | false => exact .enters (.alternate hcondition hb) (ih.eval alternate scope m₁ rs)
  | loop condition body => exact .enters .loop (ih.loop condition body scope m rs)
  | func params body => exact .bind (.still (.allocate fun s => rfl)) fun _ _ _ => .pure _
  | apply callee args pos =>
    refine .bind (.enters .callee (ih.eval callee scope m rs)) fun v m₁ hcallee => ?_
    refine .bind (.enters (.arguments hcallee) (ih.all args scope m₁ rs)) fun vs m₂ hargs => ?_
    have hcall :
        Makes ⟨.expr (.apply callee args pos) scope, n + 1, m, rs⟩ m₂ (applyValue n v vs) :=
      .enters (.application hcallee hargs) (ih.apply v vs m₂ rs)
    exact fun m' hleaves => hcall m' hleaves.of_locating
  | block name body =>
    intro m' hleaves
    replace hleaves : Leaves (inBlock name scope (CalcScript.eval n body)) m m' := hleaves
    obtain ⟨m₁, hbody, rfl⟩ := hleaves.of_inBlock
    have hopened : Accounts ⟨.expr (.block name body) scope, n + 1, m, rs⟩ m.store m₁.store := by
      refine .of_opens .block ?_ (ih.eval body _ _ _ m₁ hbody)
      simp [Machine.enterBlock, Store.newScope, Store.openLabel, Store.newLabel]
    -- closing the label changes no scope
    exact hopened.trans (.of_size_eq rfl)

theorem all_succ (ih : MakesWithin n) (es : List Expr) (scope : ScopeRef) (m : Machine)
    (rs : List LabelRef) : Makes ⟨.exprs es scope, n + 1, m, rs⟩ m (evalAll (n + 1) es scope) := by
  cases es with
  | nil => exact .pure _
  | cons e es =>
    refine .bind (.enters .head (ih.eval e scope m rs)) fun v m₁ hhead => ?_
    exact .bind (.enters (.tail hhead) (ih.all es scope m₁ rs)) fun _ _ _ => .pure _

theorem loop_succ (ih : MakesWithin n) (condition body : Expr) (scope : ScopeRef) (m : Machine)
    (rs : List LabelRef) :
    Makes ⟨.turns condition body scope, n + 1, m, rs⟩ m
      (evalLoop (n + 1) condition body scope) := by
  refine .bind (.enters .test (ih.eval condition scope m rs)) fun v m₁ htest =>
    .truthy fun b hb => ?_
  cases b with
  | true =>
    refine .bind (.discard (.enters (.turn htest hb) (ih.eval body scope m₁ rs)))
      fun _ m₂ hturn => ?_
    obtain ⟨w, hturn⟩ := discard_eq_ok hturn
    exact .enters (.again htest hb hturn) (ih.loop condition body scope m₂ rs)
  | false => exact .pure _

/-- A call opens a scope for the body of a function, and nothing else does. -/
theorem apply_succ (ih : MakesWithin n) (callee : Value) (args : List Value) (m : Machine)
    (rs : List LabelRef) :
    Makes ⟨.call callee args, n + 1, m, rs⟩ m (applyValue (n + 1) callee args) := by
  cases callee with
  | closure r =>
    intro m' hleaves
    replace hleaves : Leaves (inCall r args (CalcScript.eval n)) m m' := hleaves
    rw [Leaves, inCall_eq] at hleaves
    split at hleaves
    · rcases hleaves with ⟨_, h⟩ | ⟨_, h⟩ <;> cases h
      exact .of_size_eq rfl
    · next c hclosure =>
      split at hleaves
      · next hlength =>
        exact .of_opens (.call hclosure hlength) (by simp [Machine.enterCall, Store.newScope])
          (ih.eval c.body _ _ rs m' hleaves)
      · rcases hleaves with ⟨_, h⟩ | ⟨_, h⟩ <;> cases h
        exact .of_size_eq rfl
  | primitive p => exact .callPrimitive p args
  | label r => exact .still (.exitTo r args)
  | number _ | bool _ | null | str _ | array _ => exact .still (.throw _)

end MakesWithin

/-- The induction is on the depth; at none the evaluation is over before it has made anything. -/
theorem makesWithin (n : Nat) : MakesWithin n := by
  induction n with
  | zero =>
    exact ⟨fun _ _ _ _ => .still (.throw _), fun _ _ _ _ => .still (.throw _),
      fun _ _ _ _ _ => .still (.throw _), fun _ _ _ _ => .still (.throw _)⟩
  | succ n ih => exact ⟨ih.eval_succ, ih.all_succ, ih.loop_succ, ih.apply_succ⟩

/-- **Scopes come from blocks and calls only.** Whatever scope an evaluation has added to the store,
it was made for the run of a block or for a call, by some evaluation inside. -/
theorem exists_opens (p : Point) {r : ScopeRef} (hle : p.machine.store.scopes.size ≤ r.index)
    (hlt : r.index < p.final.store.scopes.size) :
    ∃ p' q parent, Relation.ReflTransGen Enters p p' ∧ p'.Opens q r parent := by
  obtain ⟨task, n, m, rs⟩ := p
  cases task with
  | expr e scope => exact (makesWithin n).eval e scope m rs _ (leaves_expr e scope) r hle hlt
  | exprs es scope => exact (makesWithin n).all es scope m rs _ (leaves_exprs es scope) r hle hlt
  | turns condition body scope =>
    have hmakes := (makesWithin n).loop condition body scope m rs
    exact hmakes _ (leaves_turns condition body scope) r hle hlt
  | call callee args =>
    have hmakes := (makesWithin n).apply callee args m rs
    exact hmakes _ (leaves_call callee args) r hle hlt

end Point

end CalcScript
