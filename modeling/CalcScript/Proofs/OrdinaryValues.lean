/-
`Proofs/OrdinaryValues.lean` -- the values that programs get hold of.

A value is ordinary if it is no operator: a primitive only counts if a session binds it to its
name. The trees of programs apply operators and do nothing else with them
(`Expr.WellFormed`), so evaluation never stores one. `Store.Orderly` says this of a store:
scopes and arrays hold ordinary values, and functions have well-formed bodies. Every step of an
evaluation keeps it, whatever the outcome (`Eval.Orderly`), and so it holds at every point that an
evaluation comes to (`Point.Enters.orderly`).
-/
import CalcScript.Proofs.Regions
import CalcScript.Proofs.WellFormed

set_option autoImplicit false

namespace CalcScript

/-! ## 1. Values that programs get hold of -/

/-- No operator: a primitive is one of those that have a name. -/
def Value.Ordinary : Value → Prop
  | .primitive p => p ∈ Primitive.named
  | _ => True

/-- Well-formed trees, each with all parts of it that are well formed themselves. -/
structure Trees where
  mem : Expr → Prop
  wellFormed {e : Expr} : mem e → e.WellFormed
  child {e part : Expr} : mem e → part ∈ e.children → part.WellFormed → mem part

/-- Scopes and arrays hold ordinary values only, and the bodies of all functions are among
the trees. -/
structure Store.Orderly (T : Trees) (s : Store) : Prop where
  bound : ∀ scope ∈ s.scopes, ∀ b ∈ scope.bindings, b.2.Ordinary
  item : ∀ items ∈ s.arrays, ∀ v ∈ items, v.Ordinary
  body : ∀ c ∈ s.closures, T.mem c.body

theorem mem_modify {α : Type} {xs : Array α} {i : Nat} {f : α → α} {x : α}
    (h : x ∈ xs.modify i f) : x ∈ xs ∨ ∃ y ∈ xs, x = f y := by
  obtain ⟨j, hj⟩ := Array.mem_iff_getElem?.mp h
  rw [Array.getElem?_modify] at hj
  split at hj
  · obtain ⟨y, hy, rfl⟩ := Option.map_eq_some_iff.mp hj
    exact .inr ⟨y, Array.mem_of_getElem? hy, rfl⟩
  · exact .inl (Array.mem_of_getElem? hj)

/-- What is bound after a definition was bound before, or it is the definition. -/
theorem Bindings.mem_insert {name : String} {value : Value} {bs : Bindings} {b : String × Value}
    (h : b ∈ Bindings.insert name value bs) : b = (name, value) ∨ b ∈ bs := by
  fun_induction Bindings.insert name value bs with
  | case1 => exact .inl (List.mem_singleton.mp h)
  | case2 v bs => exact (List.mem_cons.mp h).imp_right (List.mem_cons_of_mem _)
  | case3 n v bs _ ih =>
    rcases List.mem_cons.mp h with rfl | h
    · exact .inr List.mem_cons_self
    · exact (ih h).imp_right (List.mem_cons_of_mem _)

/-- The bindings of a call are its arguments. The induction is on the parameters with their
arguments, over what is bound already. -/
theorem mem_frame {params : List String} {args : List Value} {b : String × Value}
    (h : b ∈ Eval.frame params args) : b.2 ∈ args := by
  have hfold : ∀ (pairs : List (String × Value)) (bs : Bindings),
      b ∈ pairs.foldl (fun bs pair => Bindings.insert pair.1 pair.2 bs) bs →
      b ∈ pairs ∨ b ∈ bs := by
    intro pairs
    induction pairs with
    | nil => exact fun bs hb => .inr hb
    | cons pair pairs ih =>
      intro bs hb
      rcases ih _ hb with hb | hb
      · exact .inl (List.mem_cons_of_mem _ hb)
      · rcases Bindings.mem_insert hb with rfl | hb
        · exact .inl List.mem_cons_self
        · exact .inr hb
  rcases hfold _ [] h with hpair | hnil
  · exact (List.of_mem_zip hpair).2
  · cases hnil

namespace Store.Orderly

variable {T : Trees} {s : Store}

/-- Labels have no part in it. -/
theorem of_eq {s' : Store} (h : s.Orderly T) (hscopes : s'.scopes = s.scopes)
    (harrays : s'.arrays = s.arrays) (hclosures : s'.closures = s.closures) : s'.Orderly T :=
  ⟨hscopes ▸ h.bound, harrays ▸ h.item, hclosures ▸ h.body⟩

theorem define (h : s.Orderly T) {value : Value} (hvalue : value.Ordinary) (r : ScopeRef)
    (name : String) : (s.define r name value).Orderly T := by
  refine { h with bound := fun scope hscope b hb => ?_ }
  dsimp only [Store.define] at hscope
  rcases mem_modify hscope with hscope | ⟨old, hold, rfl⟩
  · exact h.bound scope hscope b hb
  · rcases Bindings.mem_insert hb with rfl | hb
    · exact hvalue
    · exact h.bound old hold b hb

theorem newScope (h : s.Orderly T) (parent : Option ScopeRef) {bindings : Bindings}
    (hbindings : ∀ b ∈ bindings, b.2.Ordinary) : (s.newScope parent bindings).2.Orderly T := by
  refine { h with bound := fun scope hscope => ?_ }
  rcases Array.mem_push.mp hscope with hscope | rfl
  · exact h.bound scope hscope
  · exact hbindings

/-- A new function needs a body among the trees. Its scope may be any. -/
theorem newClosure (h : s.Orderly T) {c : Closure} (hbody : T.mem c.body) :
    (s.newClosure c).2.Orderly T := by
  refine { h with body := fun c' hc' => ?_ }
  rcases Array.mem_push.mp hc' with hc' | rfl
  · exact h.body c' hc'
  · exact hbody

theorem newArray (h : s.Orderly T) {items : Array Value} (hitems : ∀ v ∈ items, v.Ordinary) :
    (s.newArray items).2.Orderly T := by
  refine { h with item := fun items' hitems' => ?_ }
  rcases Array.mem_push.mp hitems' with hitems' | rfl
  · exact h.item items' hitems'
  · exact hitems

/-- Elements may be taken away, and ordinary values may be added. -/
theorem modifyArray (h : s.Orderly T) (r : ArrayRef) {f : Array Value → Array Value}
    (hf : ∀ items, ∀ v ∈ f items, v ∈ items ∨ v.Ordinary) : (s.modifyArray r f).Orderly T := by
  refine { h with item := fun items hitems v hv => ?_ }
  rcases mem_modify hitems with hitems | ⟨old, hold, rfl⟩
  · exact h.item items hitems v hv
  · rcases hf old v hv with hv | hv
    · exact h.item old hold v hv
    · exact hv

/-- The scope of a block run binds a label at most. -/
theorem enterBlock {m : Machine} (h : m.store.Orderly T) (name : Option String)
    (scope : ScopeRef) : (m.enterBlock name scope).2.store.Orderly T := by
  have hopened : (m.store.openLabel name).2.Orderly T := h.of_eq rfl rfl rfl
  refine hopened.newScope (some scope) ?_
  cases name with
  | none => exact List.forall_mem_nil _
  | some name => exact List.forall_mem_singleton.mpr trivial

/-- The scope of a call holds the arguments and nothing else. -/
theorem enterCall {m : Machine} (h : m.store.Orderly T) (c : Closure) {args : List Value}
    (hargs : ∀ a ∈ args, a.Ordinary) : (m.enterCall c args).2.store.Orderly T :=
  h.newScope (some c.scope) fun b hb => hargs b.2 (mem_frame hb)

theorem body_of_closure? (h : s.Orderly T) {r : ClosureRef} {c : Closure}
    (hc : s.closure? r = some c) : T.mem c.body :=
  h.body c (Array.mem_of_getElem? hc)

theorem ordinary_of_mem_items (h : s.Orderly T) {r : ArrayRef} {v : Value} (hv : v ∈ s.items r) :
    v.Ordinary := by
  rw [items, Array.getD_eq_getD_getElem?] at hv
  cases hentry : s.arrays[r.index]? with
  | none => rw [hentry] at hv; simp at hv
  | some items =>
    rw [hentry] at hv
    exact h.item items (Array.mem_of_getElem? hentry) v hv

/-- What a name stands for is in the bindings of some scope. -/
theorem ordinary_of_local? (h : s.Orderly T) {r : ScopeRef} {name : String} {v : Value}
    (hv : s.local? r name = some v) : v.Ordinary := by
  obtain ⟨scope, hscope, hlookup⟩ := Option.bind_eq_some_iff.mp hv
  obtain ⟨before, behind, hbindings, -⟩ := List.lookup_eq_some_iff.mp hlookup
  refine h.bound scope (Array.mem_of_getElem? hscope) (name, v) ?_
  rw [hbindings]
  exact List.mem_append_right _ List.mem_cons_self

end Store.Orderly

/-! ## 2. Steps of an evaluation -/

/-- The value that an exit carries is ordinary. -/
def Signal.Ordinary : Signal → Prop
  | .exit _ v => v.Ordinary
  | _ => True

/-- A built-in operation on ordinary values leaves an orderly store behind, and its result is
ordinary. -/
theorem Store.Orderly.call {T : Trees} {m : Machine} (h : m.store.Orderly T) {args : List Value}
    (hargs : ∀ a ∈ args, a.Ordinary) (p : Primitive) :
    (p.call args m).2.store.Orderly T ∧ Region.Yields Value.Ordinary (p.call args m).1 := by
  have hoffer : ∀ {v}, Primitive.Offers m.store args v → v.Ordinary := by
    rintro v (_ | _ | _ | _ | hv | ⟨-, hv⟩)
    · trivial
    · trivial
    · trivial
    · trivial
    · exact hargs v hv
    · exact h.ordinary_of_mem_items hv
  have hdoes := p.call_does args m
  generalize (p.call args m).1 = result, (p.call args m).2.store = s' at hdoes
  cases hdoes with
  | fails fault => exact ⟨h, .error⟩
  | reads hv => exact ⟨h, .ok (hoffer hv)⟩
  | makes hitems => exact ⟨h.newArray fun v hv => hoffer (hitems v hv), .ok trivial⟩
  | changes _ hf hv =>
    exact ⟨h.modifyArray _ fun items w hw => (hf items w hw).imp_right hoffer, .ok (hoffer hv)⟩

namespace Eval

variable {T : Trees} {α β : Type}

/-- The outcome comes with an orderly store. A result has the property, and an exit carries an
ordinary value. -/
def Kept (T : Trees) (P : α → Prop) : EStateM.Result Signal Machine α → Prop
  | .ok a m => m.store.Orderly T ∧ P a
  | .error signal m => m.store.Orderly T ∧ signal.Ordinary

/-- From an orderly store the evaluation leads to an orderly store, whatever its outcome. -/
def Orderly (T : Trees) (P : α → Prop) (x : Eval α) : Prop :=
  ∀ m, m.store.Orderly T → Kept T P (x m)

namespace Orderly

variable {P : α → Prop} {Q : β → Prop} {x : Eval α}

theorem ok (h : Orderly T P x) {m m' : Machine} {a : α} (hm : m.store.Orderly T)
    (hx : x m = .ok a m') : m'.store.Orderly T ∧ P a := by
  have hkept := h m hm
  rwa [hx] at hkept

theorem error (h : Orderly T P x) {m m' : Machine} {signal : Signal} (hm : m.store.Orderly T)
    (hx : x m = .error signal m') : m'.store.Orderly T ∧ signal.Ordinary := by
  have hkept := h m hm
  rwa [hx] at hkept

theorem pure {a : α} (h : P a) : Orderly T P (Pure.pure a) := fun _ hm => ⟨hm, h⟩

theorem exhausted : Orderly T P (throw .exhausted) := fun _ hm => ⟨hm, trivial⟩

theorem fail (fault : Fault) : Orderly T P (Eval.fail fault) := fun _ hm => ⟨hm, trivial⟩

/-- Less may be said about the result; what is said about the store stays. -/
theorem imp {Q : α → Prop} (hx : Orderly T P x) (h : ∀ a, P a → Q a) : Orderly T Q x := by
  intro m hm
  have hkept := hx m hm
  cases hrun : x m with
  | ok a m' =>
    rw [hrun] at hkept
    exact ⟨hkept.1, h a hkept.2⟩
  | error signal m' =>
    rw [hrun] at hkept
    exact hkept

/-- The second part starts from an orderly store with a result of the first one. -/
theorem bind {f : α → Eval β} (hx : Orderly T P x) (hf : ∀ a, P a → Orderly T Q (f a)) :
    Orderly T Q (x >>= f) := by
  intro m hm
  cases hrun : x m with
  | ok a m₁ =>
    obtain ⟨hm₁, ha⟩ := hx.ok hm hrun
    rw [bind_of_ok hrun]
    exact hf a ha m₁ hm₁
  | error signal m₁ =>
    rw [bind_of_error hrun]
    exact hx.error hm hrun

theorem discard (hx : Orderly T P x) : Orderly T (fun _ => True) (Functor.discard x) := by
  rw [discard_eq_bind]
  exact hx.bind fun _ _ => pure trivial

theorem truthy (v : Value) : Orderly T (fun _ => True) (Eval.truthy v) :=
  fun _ hm => ⟨hm, trivial⟩

/-- What allocates has no outcome but the new object. -/
theorem allocate {f : Store → α × Store}
    (hf : ∀ s, s.Orderly T → (f s).2.Orderly T ∧ P (f s).1) : Orderly T P (Eval.allocate f) :=
  fun _ hm => hf _ hm

theorem lookup (name : String) (pos : Position) (scope : ScopeRef) :
    Orderly T Value.Ordinary (Eval.lookup name pos scope) := by
  intro m hm
  rw [Eval.lookup, get_bind, Store.lookup?]
  cases hresolve : m.store.resolve? scope name with
  | none => exact ⟨hm, trivial⟩
  | some found => exact ⟨hm, hm.ordinary_of_local? (Store.local?_of_resolveWithin hresolve)⟩

theorem define {value : Value} (hvalue : value.Ordinary) (scope : ScopeRef) (name : String) :
    Orderly T (fun _ => True) (Eval.modifyStore (·.define scope name value)) :=
  fun _ hm => ⟨hm.define hvalue scope name, trivial⟩

theorem assign (name : String) {value : Value} (hvalue : value.Ordinary) (pos : Position)
    (scope : ScopeRef) : Orderly T (fun _ => True) (Eval.assign name value pos scope) := by
  intro m hm
  cases hresolve : m.store.resolve? scope name with
  | none =>
    rw [assign_of_unresolved hresolve]
    exact ⟨hm, trivial⟩
  | some found =>
    rw [assign_of_resolve? hresolve]
    exact ⟨hm.define hvalue found.1 name, trivial⟩

/-- The store behind a failed operation is orderly as well. -/
theorem callPrimitive (p : Primitive) {args : List Value} (hargs : ∀ a ∈ args, a.Ordinary) :
    Orderly T Value.Ordinary (Eval.callPrimitive p args) := by
  intro m hm
  obtain ⟨hstore, hyields⟩ := hm.call hargs p
  rw [Eval.callPrimitive]
  split
  · next v m' hcall =>
    rw [hcall] at hstore hyields
    exact ⟨hstore, hyields v rfl⟩
  · next fault m' hcall =>
    rw [hcall] at hstore
    exact ⟨hstore, trivial⟩

/-- An exit carries its argument, or null if there is none. -/
theorem exitTo (r : LabelRef) {args : List Value} (hargs : ∀ a ∈ args, a.Ordinary) :
    Orderly T Value.Ordinary (Eval.exitTo r args) := by
  have hhead : (args.headD .null).Ordinary := by
    cases args with
    | nil => trivial
    | cons a args => exact hargs a List.mem_cons_self
  intro m hm
  rw [Settled.exitTo_eq]
  split
  · split
    · split
      · exact ⟨hm, hhead⟩
      · exact ⟨hm, trivial⟩
    · exact ⟨hm, trivial⟩
  · exact ⟨hm, trivial⟩

theorem locating (pos : Position) {x : Eval Value} (hx : Orderly T Value.Ordinary x) :
    Orderly T Value.Ordinary (Eval.locating pos x) := by
  intro m hm
  rw [Eval.locating]
  split
  · next hrun => exact ⟨(hx.error hm hrun).1, trivial⟩
  · exact hx m hm

/-- A block closes its label, whatever the outcome; what an exit has carried becomes its result. -/
theorem inBlock (name : Option String) (scope : ScopeRef) {body : ScopeRef → Eval Value}
    (hbody : ∀ inner, Orderly T Value.Ordinary (body inner)) :
    Orderly T Value.Ordinary (Eval.inBlock name scope body) := by
  intro m hm
  have hclose : ∀ {m : Machine} {r : LabelRef},
      m.store.Orderly T → (m.leaveBlock r).store.Orderly T := fun hm => hm.of_eq rfl rfl rfl
  have hkept := hbody (m.enterBlock name scope).1 _ (hm.enterBlock name scope)
  rw [inBlock_eq]
  split
  · next hrun =>
    rw [hrun] at hkept
    exact ⟨hclose hkept.1, hkept.2⟩
  · next hrun =>
    rw [hrun] at hkept
    split
    · exact ⟨hclose hkept.1, hkept.2⟩
    · exact ⟨hclose hkept.1, hkept.2⟩
  · next hrun =>
    rw [hrun] at hkept
    exact ⟨hclose hkept.1, hkept.2⟩

/-- The body runs in a scope that holds the arguments. -/
theorem inCall (r : ClosureRef) {args : List Value} (hargs : ∀ a ∈ args, a.Ordinary)
    {run : Expr → ScopeRef → Eval Value}
    (hrun : ∀ e scope, T.mem e → Orderly T Value.Ordinary (run e scope)) :
    Orderly T Value.Ordinary (Eval.inCall r args run) := by
  intro m hm
  rw [inCall_eq]
  split
  · exact ⟨hm, trivial⟩
  · next c hclosure =>
    split
    · exact hrun c.body _ (hm.body_of_closure? hclosure) _ (hm.enterCall c hargs)
    · exact ⟨hm, trivial⟩

end Orderly

/-! ## 3. All evaluations -/

/-- All evaluations within a given depth are orderly. A primitive may be called, but it is no
result. -/
structure OrderlyWithin (T : Trees) (n : Nat) : Prop where
  eval {e : Expr} (scope : ScopeRef) : T.mem e →
    Orderly T Value.Ordinary (CalcScript.eval n e scope)
  all {es : List Expr} (scope : ScopeRef) : (∀ e ∈ es, T.mem e) →
    Orderly T (fun vs => ∀ v ∈ vs, v.Ordinary) (evalAll n es scope)
  loop {condition body : Expr} (scope : ScopeRef) : T.mem condition → T.mem body →
    Orderly T Value.Ordinary (evalLoop n condition body scope)
  apply (callee : Value) {args : List Value} : (∀ a ∈ args, a.Ordinary) →
    Orderly T Value.Ordinary (applyValue n callee args)

/-- The primitive of an operator. -/
theorem eval_primitive (n : Nat) (p : Primitive) (scope : ScopeRef) :
    Orderly T (fun _ => True) (CalcScript.eval n (.primitive p) scope) := by
  cases n with
  | zero => exact .exhausted
  | succ n => exact .pure trivial

namespace OrderlyWithin

variable {n : Nat}

/-- Of an operator only the application is evaluated here: its primitive is applied and never
stored. -/
theorem eval_succ (ih : OrderlyWithin T n) {e : Expr} (scope : ScopeRef) (he : T.mem e) :
    Orderly T Value.Ordinary (CalcScript.eval (n + 1) e scope) := by
  have hpart : ∀ {part}, part ∈ e.children → part.WellFormed → T.mem part := T.child he
  cases T.wellFormed he with
  | number _ | str | bool | null => exact .pure trivial
  | array hes =>
    refine (ih.all scope fun e he => hpart he (hes e he)).bind fun vs hvs => ?_
    refine Orderly.bind (P := fun _ => True) (.allocate fun s hs => ?_) fun _ _ => .pure trivial
    exact ⟨hs.newArray fun v hv => hvs v (by simpa using hv), trivial⟩
  | @var name pos _ => exact .lookup name pos scope
  | @store name value _ hvalue =>
    refine (ih.eval scope (hpart (by simp [Expr.children]) hvalue)).bind fun v hv => ?_
    exact (Orderly.define hv scope name).bind fun _ _ => .pure trivial
  | @update name value pos _ hvalue =>
    refine (ih.eval scope (hpart (by simp [Expr.children]) hvalue)).bind fun v hv => ?_
    exact (Orderly.assign name hv pos scope).bind fun _ _ => .pure trivial
  | seq hfirst hrest =>
    have hfirst := ih.eval scope (hpart (by simp [Expr.children]) hfirst)
    exact hfirst.discard.bind fun _ _ => ih.eval scope (hpart (by simp [Expr.children]) hrest)
  | and hleft hright =>
    have hright := ih.eval scope (hpart (by simp [Expr.children]) hright)
    refine (ih.eval scope (hpart (by simp [Expr.children]) hleft)).bind fun v _ => ?_
    refine (Orderly.truthy v).bind fun b _ => ?_
    cases b with
    | true => exact hright.bind fun w _ => (Orderly.truthy w).bind fun _ _ => .pure trivial
    | false => exact .pure trivial
  | or hleft hright =>
    have hright := ih.eval scope (hpart (by simp [Expr.children]) hright)
    refine (ih.eval scope (hpart (by simp [Expr.children]) hleft)).bind fun v _ => ?_
    refine (Orderly.truthy v).bind fun b _ => ?_
    cases b with
    | true => exact .pure trivial
    | false => exact hright.bind fun w _ => (Orderly.truthy w).bind fun _ _ => .pure trivial
  | cond hcondition hconsequent halternate =>
    refine (ih.eval scope (hpart (by simp [Expr.children]) hcondition)).bind fun v _ => ?_
    refine (Orderly.truthy v).bind fun b _ => ?_
    cases b with
    | true => exact ih.eval scope (hpart (by simp [Expr.children]) hconsequent)
    | false => exact ih.eval scope (hpart (by simp [Expr.children]) halternate)
  | loop hcondition hbody =>
    exact ih.loop scope (hpart (by simp [Expr.children]) hcondition)
      (hpart (by simp [Expr.children]) hbody)
  | func _ _ hbody =>
    have hbody := hpart (by simp [Expr.children]) hbody
    refine Orderly.bind (P := fun _ => True) (.allocate fun s hs => ?_) fun _ _ => .pure trivial
    exact ⟨hs.newClosure hbody, trivial⟩
  | @operator p args pos _ hargs =>
    have hargs : ∀ e ∈ args, T.mem e := fun e he => hpart (by simp [Expr.children, he]) (hargs e he)
    refine (eval_primitive n p scope).bind fun v _ => (ih.all scope hargs).bind fun vs hvs => ?_
    exact .locating pos (ih.apply v hvs)
  | @apply callee args pos hcallee hargs =>
    have hargs : ∀ e ∈ args, T.mem e := fun e he => hpart (by simp [Expr.children, he]) (hargs e he)
    refine (ih.eval scope (hpart (by simp [Expr.children]) hcallee)).bind fun v _ => ?_
    exact (ih.all scope hargs).bind fun vs hvs => .locating pos (ih.apply v hvs)
  | @block name body _ hbody =>
    exact .inBlock name scope fun inner => ih.eval inner (hpart (by simp [Expr.children]) hbody)

theorem all_succ (ih : OrderlyWithin T n) {es : List Expr} (scope : ScopeRef)
    (hes : ∀ e ∈ es, T.mem e) :
    Orderly T (fun vs => ∀ v ∈ vs, v.Ordinary) (evalAll (n + 1) es scope) := by
  cases es with
  | nil => exact .pure (List.forall_mem_nil _)
  | cons e es =>
    obtain ⟨he, hes⟩ := List.forall_mem_cons.mp hes
    refine (ih.eval scope he).bind fun v hv => (ih.all scope hes).bind fun vs hvs => ?_
    exact .pure (List.forall_mem_cons.mpr ⟨hv, hvs⟩)

theorem loop_succ (ih : OrderlyWithin T n) {condition body : Expr} (scope : ScopeRef)
    (hcondition : T.mem condition) (hbody : T.mem body) :
    Orderly T Value.Ordinary (evalLoop (n + 1) condition body scope) := by
  refine (ih.eval scope hcondition).bind fun v _ => (Orderly.truthy v).bind fun b _ => ?_
  cases b with
  | true => exact (ih.eval scope hbody).discard.bind fun _ _ => ih.loop scope hcondition hbody
  | false => exact .pure trivial

/-- A function runs its body, which is one of the trees. The other values run nothing. -/
theorem apply_succ (ih : OrderlyWithin T n) (callee : Value) {args : List Value}
    (hargs : ∀ a ∈ args, a.Ordinary) :
    Orderly T Value.Ordinary (applyValue (n + 1) callee args) := by
  cases callee with
  | closure r => exact .inCall r hargs fun e scope he => ih.eval scope he
  | primitive p => exact .callPrimitive p hargs
  | label r => exact .exitTo r hargs
  | number _ | bool _ | null | str _ | array _ => exact .fail _

end OrderlyWithin

/-- **Evaluation keeps the store orderly.** The induction is on the depth. -/
theorem orderlyWithin (T : Trees) (n : Nat) : OrderlyWithin T n := by
  induction n with
  | zero =>
    exact ⟨fun _ _ => .exhausted, fun _ _ => .exhausted, fun _ _ _ => .exhausted,
      fun _ _ _ => .exhausted⟩
  | succ n ih => exact ⟨ih.eval_succ, ih.all_succ, ih.loop_succ, ih.apply_succ⟩

end Eval

/-- Of the evaluation of a primitive only the store is said to be orderly, not the result. -/
theorem Eval.eval_of_mem {T : Trees} (n : Nat) {e : Expr} (he : T.mem e ∨ ∃ p, e = .primitive p)
    (scope : ScopeRef) : Orderly T (fun _ => True) (CalcScript.eval n e scope) := by
  rcases he with he | ⟨p, rfl⟩
  · exact ((orderlyWithin T n).eval scope he).imp fun _ _ => trivial
  · exact eval_primitive n p scope

/-! ## 4. Every moment of an evaluation -/

/-- The parts of a well-formed tree are well formed, apart from the primitive of an operator. -/
theorem Expr.WellFormed.child {e part : Expr} (h : e.WellFormed) (hpart : part ∈ e.children) :
    part.WellFormed ∨ ∃ p, part = .primitive p := by
  cases h with
  | number _ | str | bool | null | var _ => cases hpart
  | array hes => exact .inl (hes part hpart)
  | store _ hvalue | update _ hvalue =>
    rw [List.mem_singleton.mp hpart]
    exact .inl hvalue
  | func _ _ hbody | block _ hbody =>
    rw [List.mem_singleton.mp hpart]
    exact .inl hbody
  | seq hleft hright | and hleft hright | or hleft hright | loop hleft hright =>
    rcases List.mem_cons.mp hpart with rfl | hpart
    · exact .inl hleft
    · rw [List.mem_singleton.mp hpart]
      exact .inl hright
  | cond hcondition hconsequent halternate =>
    rcases List.mem_cons.mp hpart with rfl | hpart
    · exact .inl hcondition
    · rcases List.mem_cons.mp hpart with rfl | hpart
      · exact .inl hconsequent
      · rw [List.mem_singleton.mp hpart]
        exact .inl halternate
  | @operator p _ _ _ hargs =>
    rcases List.mem_cons.mp hpart with rfl | hpart
    · exact .inr ⟨p, rfl⟩
    · exact .inl (hargs part hpart)
  | apply hcallee hargs =>
    rcases List.mem_cons.mp hpart with rfl | hpart
    · exact .inl hcallee
    · exact .inl (hargs part hpart)

/-- The induction is on the way down to the node. -/
theorem Expr.WellFormed.contains {e node : Expr} (h : e.WellFormed) (hcontains : e.Contains node) :
    node.WellFormed ∨ ∃ p, node = .primitive p := by
  induction hcontains with
  | refl => exact .inl h
  | tail _ hchild ih =>
    rcases ih with ih | ⟨p, rfl⟩
    · exact ih.child hchild
    · cases hchild

namespace Trees

variable {T : Trees}

/-- The lists of parts that the evaluator goes through are among the trees again. -/
theorem items {items : List Expr} (h : T.mem (.array items)) : ∀ e ∈ items, T.mem e := by
  cases T.wellFormed h with
  | array hes => exact fun e he => T.child h he (hes e he)

theorem args {callee : Expr} {args : List Expr} {pos : Position}
    (h : T.mem (.apply callee args pos)) : ∀ e ∈ args, T.mem e := by
  intro e he
  have hchild : e ∈ (Expr.apply callee args pos).children := List.mem_cons_of_mem _ he
  cases T.wellFormed h with
  | operator _ hargs => exact T.child h hchild (hargs e he)
  | apply _ hargs => exact T.child h hchild (hargs e he)

theorem parts_of_loop {condition body : Expr} (h : T.mem (.loop condition body)) :
    T.mem condition ∧ T.mem body := by
  cases T.wellFormed h with
  | loop hcondition hbody =>
    exact ⟨T.child h (by simp [Expr.children]) hcondition,
      T.child h (by simp [Expr.children]) hbody⟩

end Trees

def Expr.isPrimitive : Expr → Bool
  | .primitive _ => true
  | _ => false

/-- A task about the trees. A primitive may be evaluated, on its way to being applied. -/
def Task.Orderly (T : Trees) : Task → Prop
  | .expr e _ => T.mem e ∨ ∃ p, e = .primitive p
  | .exprs es _ => ∀ e ∈ es, T.mem e
  | .turns condition body _ => T.mem condition ∧ T.mem body
  | .call _ args => ∀ a ∈ args, a.Ordinary

/-- Whatever task about the trees is run, the store stays orderly. -/
theorem Task.Orderly.run {T : Trees} {task : Task} (h : task.Orderly T) (n : Nat) :
    Eval.Orderly T (fun _ => True) (task.run n) := by
  cases task with
  | expr e scope => exact (Eval.eval_of_mem n h scope).bind fun _ _ => .pure trivial
  | exprs es scope => exact ((Eval.orderlyWithin T n).all scope h).imp fun _ _ => trivial
  | turns condition body scope =>
    exact ((Eval.orderlyWithin T n).loop scope h.1 h.2).bind fun _ _ => .pure trivial
  | call callee args =>
    exact ((Eval.orderlyWithin T n).apply callee h).bind fun _ _ => .pure trivial

/-- The task is about the trees, and the store is orderly at this moment. -/
structure Point.Orderly (T : Trees) (p : Point) : Prop where
  task : p.task.Orderly T
  store : p.machine.store.Orderly T

namespace Point

variable {T : Trees} {p q : Point}

open Eval

/-- The store behind the evaluation of a tree is orderly, also if the tree is a primitive. -/
theorem orderly_of_eval {e : Expr} {scope : ScopeRef} {n : Nat} {m m' : Machine} {v : Value}
    (he : T.mem e ∨ ∃ p, e = .primitive p) (hm : m.store.Orderly T)
    (h : eval n e scope m = .ok v m') : m'.store.Orderly T :=
  ((eval_of_mem n he scope).ok hm h).1

/-- **An evaluation with an orderly store starts others with an orderly store.** -/
theorem Enters.orderly (h : p.Enters q) (hp : p.Orderly T) : q.Orderly T := by
  obtain ⟨htask, hstore⟩ := hp
  -- a primitive has no parts, so the node that starts another evaluation is one of the trees
  have hnode : ∀ {e : Expr}, (T.mem e ∨ ∃ p, e = .primitive p) → e.isPrimitive = false →
      T.mem e := by
    rintro e (he | ⟨p, rfl⟩) hne
    · exact he
    · cases hne
  have hpart : ∀ {e part}, T.mem e → part ∈ e.children → T.mem part ∨ ∃ p, part = .primitive p :=
    fun he hpart => ((T.wellFormed he).child hpart).imp_left (T.child he hpart)
  cases h with
  | store | update | first | andLeft | orLeft | condition | callee =>
    exact ⟨hpart (hnode htask rfl) (by simp [Expr.children]), hstore⟩
  | rest hbefore | andRight hbefore | orRight hbefore | consequent hbefore | alternate hbefore =>
    have hmem := hnode htask rfl
    have hstore := orderly_of_eval (hpart hmem (by simp [Expr.children])) hstore hbefore
    exact ⟨hpart hmem (by simp [Expr.children]), hstore⟩
  | array => exact ⟨T.items (hnode htask rfl), hstore⟩
  | loop => exact ⟨T.parts_of_loop (hnode htask rfl), hstore⟩
  | arguments hcallee =>
    have hmem := hnode htask rfl
    have hstore := orderly_of_eval (hpart hmem List.mem_cons_self) hstore hcallee
    exact ⟨T.args hmem, hstore⟩
  | @application _ _ _ scope n _ _ _ _ _ _ hcallee hargs =>
    have hmem := hnode htask rfl
    have hstore := orderly_of_eval (hpart hmem List.mem_cons_self) hstore hcallee
    obtain ⟨hstore, hvs⟩ := ((orderlyWithin T n).all scope (T.args hmem)).ok hstore hargs
    exact ⟨hvs, hstore⟩
  | block => exact ⟨hpart (hnode htask rfl) List.mem_cons_self, hstore.enterBlock _ _⟩
  | head => exact ⟨.inl (htask _ List.mem_cons_self), hstore⟩
  | tail hhead =>
    obtain ⟨he, hes⟩ := List.forall_mem_cons.mp htask
    exact ⟨hes, orderly_of_eval (.inl he) hstore hhead⟩
  | test => exact ⟨.inl htask.1, hstore⟩
  | turn htest _ => exact ⟨.inl htask.2, orderly_of_eval (.inl htask.1) hstore htest⟩
  | again htest _ hturn =>
    have hstore := orderly_of_eval (.inl htask.1) hstore htest
    exact ⟨htask, orderly_of_eval (.inl htask.2) hstore hturn⟩
  | body hclosure _ => exact ⟨.inl (hstore.body_of_closure? hclosure), hstore.enterCall _ htask⟩

/-- So is everything that it comes to. -/
theorem Orderly.of_enters (hp : p.Orderly T) (h : Relation.ReflTransGen Enters p q) :
    q.Orderly T := by
  induction h with
  | refl => exact hp
  | tail _ henters ih => exact henters.orderly ih

/-- And it is orderly at the end, whatever the outcome. -/
theorem Orderly.final (hp : p.Orderly T) : p.final.store.Orderly T := by
  have hrun := hp.task.run p.depth
  rw [Point.final]
  split
  · next hresult => exact (hrun.ok hp.store hresult).1
  · next hresult => exact (hrun.error hp.store hresult).1

end Point

end CalcScript
