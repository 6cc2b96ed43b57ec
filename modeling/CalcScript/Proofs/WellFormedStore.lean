/-
`Proofs/WellFormedStore.lean` -- a store in which every reference leads somewhere.

Closures stand in the scopes that they have captured, so what refers to what has cycles. The walk
from a scope outwards has none: every scope but the global one lies inside an older one
(`Store.WellFormed.inner`), so the walk ends, and it ends at the global scope
(`Store.WellFormed.exists_walk`).

A store is well formed if its scopes lie so and every value, in a scope or in an array, refers to
something that is there. Each change of a store that a program can make (`Store.Change`) keeps that,
if what it puts in is there already. What an evaluation puts in are values that it has got in the
same store or in an older one, and a store only grows. So the rules for evaluations say what is
there in some store before (`w` below), and they put a younger one in its place where one evaluation
comes behind another (`Eval.KeepsWellFormed.bind`).
-/
import CalcScript.Proofs.OrdinaryValues
import CalcScript.Proofs.StoreGrowth

set_option autoImplicit false

namespace CalcScript

/-! ## 1. Well-formed stores -/

namespace Store

/-- What a value refers to is in the store. -/
def Has (s : Store) : Value → Prop
  | .array r => r.index < s.arrays.size
  | .closure r => r.index < s.closures.size
  | .label r => r.index < s.labels.size
  | .number _ | .bool _ | .null | .str _ | .primitive _ => True

def HasAll (s : Store) (vs : List Value) : Prop := ∀ v ∈ vs, s.Has v

def HasScope (s : Store) (r : ScopeRef) : Prop := r.index < s.scopes.size

/-- What an exit carries is in the store. -/
def HasSignal (s : Store) : Signal → Prop
  | .exit _ v => s.Has v
  | .error _ | .exhausted => True

/-- What an evaluation works with is in the store. -/
def HasTask (s : Store) : Task → Prop
  | .expr _ scope | .exprs _ scope | .turns _ _ scope => s.HasScope scope
  | .call callee args => s.Has callee ∧ s.HasAll args

/-- A value stands in a scope or in an array. -/
inductive Holds (s : Store) (v : Value) : Prop
  | bound {scope : Scope} {name : String} (hscope : scope ∈ s.scopes)
    (hbinding : (name, v) ∈ scope.bindings)
  | item {items : Array Value} (hitems : items ∈ s.arrays) (hv : v ∈ items)

/-- The global scope lies inside no other, every other scope lies inside an older one, and whatever
stands in the store refers to something in it. -/
structure WellFormed (s : Store) : Prop where
  globals : s.HasScope Session.globals
  outermost : s.parent? Session.globals = none
  inner {r : ScopeRef} (hr : s.HasScope r) (hne : r ≠ Session.globals) :
    ∃ parent, s.parent? r = some parent ∧ parent.index < r.index
  held {v : Value} (hv : s.Holds v) : s.Has v
  captured {r : ClosureRef} {c : Closure} (hc : s.closure? r = some c) : s.HasScope c.scope

namespace Grows

variable {s s' : Store}

/-- What a value refers to stays there. For a function that is so because it stays the same. -/
theorem has (h : s.Grows s') {v : Value} (hv : s.Has v) : s'.Has v := by
  cases v with
  | array r => exact Nat.lt_of_lt_of_le hv h.arrays_le
  | closure r =>
    have hc := h.closure? (r := r) (Array.getElem?_eq_getElem hv)
    exact (Array.getElem?_eq_some_iff.mp hc).1
  | label r => exact Nat.lt_of_lt_of_le hv h.labels_le
  | number _ | bool _ | null | str _ | primitive _ => trivial

theorem hasAll (h : s.Grows s') {vs : List Value} (hvs : s.HasAll vs) : s'.HasAll vs :=
  fun v hv => h.has (hvs v hv)

theorem hasScope (h : s.Grows s') {r : ScopeRef} (hr : s.HasScope r) : s'.HasScope r :=
  Nat.lt_of_lt_of_le hr h.scopes_le

theorem hasTask (h : s.Grows s') {task : Task} (htask : s.HasTask task) : s'.HasTask task := by
  cases task with
  | expr _ scope | exprs _ scope | turns _ _ scope => exact h.hasScope htask
  | call callee args => exact ⟨h.has htask.1, h.hasAll htask.2⟩

theorem hasSignal (h : s.Grows s') {signal : Signal} (hsignal : s.HasSignal signal) :
    s'.HasSignal signal := by
  cases signal with
  | exit id v => exact h.has hsignal
  | error _ | exhausted => trivial

end Grows

/-! ## 2. The walk outwards -/

/-- The walk outwards from a scope passes the scopes of the chain and ends at the global one. A
look-up finds the first of them that binds the name, however many steps it is allowed beyond these,
and that is the one that a change of the name changes. -/
structure Walk (s : Store) (r : ScopeRef) (chain : List ScopeRef) : Prop where
  scopes : s.Chain r chain
  ends : chain.getLast? = some Session.globals
  resolve (name : String) {n : Nat} (hn : chain.length ≤ n) :
    s.resolveWithin name n r = s.resolve? r name
  lookup (name : String) : s.lookup? r name = chain.findSome? (s.local? · name)
  assign (name : String) (value : Value) : s.assign? r name value =
    (chain.find? fun q => (s.local? q name).isSome).map (s.define · name value)

/-- Where a search finds something, and what is done there. -/
theorem map_findSome? {β : Type} (found : ScopeRef → Option Value) (f : ScopeRef → β)
    (chain : List ScopeRef) :
    (chain.findSome? fun q => (found q).map (q, ·)).map (fun x => f x.1)
      = (chain.find? fun q => (found q).isSome).map f := by
  induction chain with
  | nil => rfl
  | cons q rest ih =>
    rw [List.findSome?_cons, List.find?_cons]
    cases hq : found q with
    | some v => simp
    | none => simpa using ih

namespace WellFormed

variable {s s' : Store}

/-- In the terms of `Proofs/ScopeTree.lean`: a scope that has one around it comes behind that one.
-/
theorem nested (h : s.WellFormed) : s.Nested := by
  intro i scope parent hscope hparent
  -- the global scope has none around it, so this one is not the global scope
  have hlink : s.parent? ⟨i⟩ = some parent := by
    rw [parent?, scope?, hscope, Option.bind_some, hparent]
  by_cases hglobal : (⟨i⟩ : ScopeRef) = Session.globals
  · rw [hglobal, h.outermost] at hlink
    cases hlink
  · have hlt : s.HasScope ⟨i⟩ := (Array.getElem?_eq_some_iff.mp hscope).1
    obtain ⟨older, holder, hindex⟩ := h.inner hlt hglobal
    rw [hlink] at holder
    cases holder
    exact hindex

/-- The induction is on the place of the scope, since the one around it has a smaller place. -/
theorem exists_chain (h : s.WellFormed) {r : ScopeRef} (hr : s.HasScope r) :
    ∃ chain, s.Chain r chain ∧ chain.getLast? = some Session.globals := by
  induction hindex : r.index using Nat.strongRecOn generalizing r with
  | ind i ih =>
    obtain ⟨scope, hscope⟩ : ∃ scope, s.scope? r = some scope :=
      ⟨_, Array.getElem?_eq_getElem hr⟩
    have hlink : s.parent? r = scope.parent := by rw [parent?, hscope, Option.bind_some]
    by_cases hglobal : r = Session.globals
    · subst hglobal
      rw [h.outermost] at hlink
      exact ⟨[Session.globals], .root (by rw [hscope, hlink]), rfl⟩
    · obtain ⟨parent, hparent, hlt⟩ := h.inner hr hglobal
      have hin : s.HasScope parent := Nat.lt_trans hlt hr
      -- the chain of the scope around it, with this scope in front
      obtain ⟨chain, hchain, hends⟩ := ih parent.index (hindex ▸ hlt) hin rfl
      refine ⟨r :: chain, .inner (by rw [hscope, ← hparent, hlink]) hchain, ?_⟩
      rw [List.getLast?_cons, hends]
      rfl

/-- **From every scope the walk outwards ends, at the global scope.** -/
theorem exists_walk (h : s.WellFormed) {r : ScopeRef} (hr : s.HasScope r) :
    ∃ chain, s.Walk r chain := by
  obtain ⟨chain, hchain, hends⟩ := h.exists_chain hr
  have hresolve := hchain.resolve?_eq h.nested
  refine ⟨chain, hchain, hends, fun name n hn => ?_, fun name => ?_, fun name value => ?_⟩
  · rw [hchain.resolveWithin_eq name hn, hresolve]
  · rw [lookup?, hresolve, List.map_findSome?]
    simp [Function.comp_def]
  · rw [assign?, hresolve]
    exact map_findSome? (s.local? · name) (s.define · name value) chain

end WellFormed

/-! ## 3. Changes of a store -/

/-- The changes that programs make to a store, with values and scopes that are in it already. -/
inductive Change (s : Store) : Store → Prop
  | newArray {items : Array Value} (hitems : ∀ v ∈ items, s.Has v) : Change s (s.newArray items).2
  | modifyArray (r : ArrayRef) {f : Array Value → Array Value}
    (hf : ∀ items, ∀ v ∈ f items, v ∈ items ∨ s.Has v) : Change s (s.modifyArray r f)
  | newClosure {c : Closure} (hscope : s.HasScope c.scope) : Change s (s.newClosure c).2
  | openLabel (name : Option String) : Change s (s.openLabel name).2
  | closeLabel (r : LabelRef) : Change s (s.closeLabel r)
  | newScope {parent : ScopeRef} {bindings : Bindings} (hparent : s.HasScope parent)
    (hbindings : ∀ b ∈ bindings, s.Has b.2) : Change s (s.newScope (some parent) bindings).2
  | define (r : ScopeRef) (name : String) {value : Value} (hvalue : s.Has value) :
    Change s (s.define r name value)

/-- No change takes an entry away. -/
theorem Change.grows {s s' : Store} (h : s.Change s') : s.Grows s' := by
  cases h with
  | newArray => exact .newArray _ _
  | modifyArray => exact .modifyArray _ _ _
  | newClosure => exact .newClosure _ _
  | openLabel => exact .openLabel _ _
  | closeLabel => exact .closeLabel _ _
  | newScope => exact .newScope _ _ _
  | define => exact .define _ _ _ _

/-- A block and a call start with the scope that they have made. -/
theorem hasScope_enterBlock (m : Machine) (name : Option String) (scope : ScopeRef) :
    (m.enterBlock name scope).2.store.HasScope (m.enterBlock name scope).1 := by
  simp [HasScope, Machine.enterBlock, Store.newScope]

theorem hasScope_enterCall (m : Machine) (c : Closure) (args : List Value) :
    (m.enterCall c args).2.store.HasScope (m.enterCall c args).1 := by
  simp [HasScope, Machine.enterCall, Store.newScope]

namespace WellFormed

variable {s s' : Store}

/-- A store stays well formed as it grows if every scope that is new lies inside an older one, and
every value and every function that is new in a place refers to something that was there. -/
theorem of_grows (h : s.WellFormed) (hgrows : s.Grows s')
    (hinner : ∀ r, ¬ s.HasScope r → s'.HasScope r →
      ∃ parent, s'.parent? r = some parent ∧ parent.index < r.index)
    (hheld : ∀ v, s'.Holds v → s.Holds v ∨ s.Has v)
    (hcaptured : ∀ r c, s'.closure? r = some c → s.closure? r = some c ∨ s.HasScope c.scope) :
    s'.WellFormed where
  globals := hgrows.hasScope h.globals
  outermost := (hgrows.parent?_eq h.globals).trans h.outermost
  inner {r} hr hne := by
    by_cases hold : s.HasScope r
    · rw [hgrows.parent?_eq hold]
      exact h.inner hold hne
    · exact hinner r hold hr
  held {v} hv := by
    rcases hheld v hv with hv | hv
    · exact hgrows.has (h.held hv)
    · exact hgrows.has hv
  captured {r c} hc := by
    rcases hcaptured r c hc with hc | hscope
    · exact hgrows.hasScope (h.captured hc)
    · exact hgrows.hasScope hscope

/-- **Every change keeps a store well formed.** -/
theorem change (h : s.WellFormed) (hchange : s.Change s') : s'.WellFormed := by
  have hgrows := hchange.grows
  cases hchange with
  | newArray hitems =>
    refine h.of_grows hgrows (fun r hold hr => absurd hr hold) ?_ fun _ _ hc => .inl hc
    rintro v (⟨hscope, hbinding⟩ | ⟨hmem, hv⟩)
    · exact .inl (.bound hscope hbinding)
    · rcases Array.mem_push.mp hmem with hmem | rfl
      · exact .inl (.item hmem hv)
      · exact .inr (hitems v hv)
  | modifyArray r hf =>
    -- an array that was there before, or the changed one with old elements and given ones
    refine h.of_grows hgrows (fun r hold hr => absurd hr hold) ?_ fun _ _ hc => .inl hc
    rintro v (⟨hscope, hbinding⟩ | ⟨hmem, hv⟩)
    · exact .inl (.bound hscope hbinding)
    · rcases mem_modify hmem with hmem | ⟨old, hold, rfl⟩
      · exact .inl (.item hmem hv)
      · exact (hf old v hv).imp_left (.item hold)
  | @newClosure c hscope =>
    refine h.of_grows hgrows (fun r hold hr => absurd hr hold) ?_ fun r c' hc => ?_
    · rintro v (⟨hscope, hbinding⟩ | ⟨hmem, hv⟩)
      · exact .inl (.bound hscope hbinding)
      · exact .inl (.item hmem hv)
    · rw [closure?, Store.newClosure, Array.getElem?_push] at hc
      split at hc
      · cases hc
        exact .inr hscope
      · exact .inl hc
  | openLabel | closeLabel =>
    refine h.of_grows hgrows (fun r hold hr => absurd hr hold) ?_ fun _ _ hc => .inl hc
    rintro v (⟨hscope, hbinding⟩ | ⟨hmem, hv⟩)
    · exact .inl (.bound hscope hbinding)
    · exact .inl (.item hmem hv)
  | @newScope parent bindings hparent hbindings =>
    refine h.of_grows hgrows (fun r hold hr => ?_) ?_ fun _ _ hc => .inl hc
    · -- the new scope has the next free place, and the one around it was there
      have hplace : r.index = s.scopes.size := by
        simp only [HasScope, Store.newScope, Array.size_push] at hold hr
        omega
      refine ⟨parent, ?_, hplace ▸ hparent⟩
      rw [parent?, scope?_newScope, if_pos hplace, Option.bind_some]
    · rintro v (⟨hscope, hbinding⟩ | ⟨hmem, hv⟩)
      · rcases Array.mem_push.mp hscope with hscope | rfl
        · exact .inl (.bound hscope hbinding)
        · exact .inr (hbindings _ hbinding)
      · exact .inl (.item hmem hv)
  | @define r name value hvalue =>
    have hsame : ∀ q, (s.define r name value).HasScope q → s.HasScope q := fun q hq => by
      simpa [HasScope, Store.define] using hq
    refine h.of_grows hgrows (fun q hold hq => absurd (hsame q hq) hold) ?_ fun _ _ hc => .inl hc
    rintro v (⟨hscope, hbinding⟩ | ⟨hmem, hv⟩)
    · dsimp only [Store.define] at hscope
      rcases mem_modify hscope with hscope | ⟨old, hold, rfl⟩
      · exact .inl (.bound hscope hbinding)
      · rcases Bindings.mem_insert hbinding with heq | hbinding
        · cases heq
          exact .inr hvalue
        · exact .inl (.bound hold hbinding)
    · exact .inl (.item hmem hv)

/-- The scope of a block run binds a label at most, which is made before it. -/
theorem enterBlock {m : Machine} (h : m.store.WellFormed) (name : Option String) {scope : ScopeRef}
    (hscope : m.store.HasScope scope) : (m.enterBlock name scope).2.store.WellFormed := by
  have hopen : m.store.Change (m.store.openLabel name).2 := .openLabel name
  refine (h.change hopen).change (.newScope (hopen.grows.hasScope hscope) ?_)
  cases name with
  | none => exact List.forall_mem_nil _
  | some name =>
    refine List.forall_mem_singleton.mpr ?_
    simp [Has, Store.openLabel, newLabel]

/-- The scope of a call binds its arguments, inside the scope that the function has captured. -/
theorem enterCall {m : Machine} (h : m.store.WellFormed) {r : ClosureRef} {c : Closure}
    (hclosure : m.store.closure? r = some c) {args : List Value} (hargs : m.store.HasAll args) :
    (m.enterCall c args).2.store.WellFormed :=
  h.change (.newScope (h.captured hclosure) fun b hb => hargs b.2 (mem_frame hb))

/-- What a look-up finds in a scope stands there, so it is in the store. -/
theorem has_of_local? (h : s.WellFormed) {r : ScopeRef} {name : String} {v : Value}
    (hv : s.local? r name = some v) : s.Has v := by
  obtain ⟨scope, hscope, hlookup⟩ := Option.bind_eq_some_iff.mp hv
  obtain ⟨before, behind, hbindings, -⟩ := List.lookup_eq_some_iff.mp hlookup
  have hbinding : (name, v) ∈ scope.bindings := by
    rw [hbindings]
    exact List.mem_append_right _ List.mem_cons_self
  exact h.held (.bound (Array.mem_of_getElem? hscope) hbinding)

/-- Likewise what an array holds. A reference to no array stands for an empty one. -/
theorem has_of_mem_items (h : s.WellFormed) {r : ArrayRef} {v : Value} (hv : v ∈ s.items r) :
    s.Has v := by
  rw [items, Array.getD_eq_getD_getElem?] at hv
  cases hentry : s.arrays[r.index]? with
  | none => rw [hentry] at hv; simp at hv
  | some items =>
    rw [hentry] at hv
    exact h.held (.item (Array.mem_of_getElem? hentry) hv)

end WellFormed

end Store

/-! ## 4. Built-in operations -/

/-- **A built-in operation keeps the store well formed**, and its result is in the store. -/
theorem Store.WellFormed.call {m : Machine} (h : m.store.WellFormed) {args : List Value}
    (hargs : m.store.HasAll args) (p : Primitive) :
    (p.call args m).2.store.WellFormed ∧
      Region.Yields (p.call args m).2.store.Has (p.call args m).1 := by
  have hoffer : ∀ {v}, Primitive.Offers m.store args v → m.store.Has v := by
    rintro v (_ | _ | _ | _ | hv | ⟨-, hv⟩)
    · trivial
    · trivial
    · trivial
    · trivial
    · exact hargs v hv
    · exact h.has_of_mem_items hv
  have hdoes := p.call_does args m
  generalize (p.call args m).1 = result, (p.call args m).2.store = s' at hdoes
  cases hdoes with
  | fails fault => exact ⟨h, .error⟩
  | reads hv => exact ⟨h, .ok (hoffer hv)⟩
  | makes hitems =>
    refine ⟨h.change (.newArray fun v hv => hoffer (hitems v hv)), .ok ?_⟩
    simp [Has, Store.newArray]
  | @changes r f v _ hf hv =>
    have hchange : m.store.Change (m.store.modifyArray r f) :=
      .modifyArray r fun items w hw => (hf items w hw).imp_right hoffer
    exact ⟨h.change hchange, .ok (hchange.grows.has (hoffer hv))⟩

/-! ## 5. Steps of an evaluation -/

namespace Eval

variable {α β : Type}

/-- The outcome comes with a store that has grown from `w` and is well formed. A result has the
property there, and what an exit carries is there. -/
def EndsWellFormed (w : Store) (P : Store → α → Prop) : EStateM.Result Signal Machine α → Prop
  | .ok a m => w.Grows m.store ∧ m.store.WellFormed ∧ P m.store a
  | .error signal m => w.Grows m.store ∧ m.store.WellFormed ∧ m.store.HasSignal signal

/-- From every well-formed store that has grown from `w` the evaluation leads to such a store,
whatever its outcome. -/
def KeepsWellFormed (w : Store) (P : Store → α → Prop) (x : Eval α) : Prop :=
  ∀ m, w.Grows m.store → m.store.WellFormed → EndsWellFormed w P (x m)

/-- A younger store may be replaced by an older one: less is demanded of what was there before. -/
theorem EndsWellFormed.of_grows {w w' : Store} {P : Store → α → Prop}
    {r : EStateM.Result Signal Machine α} (h : EndsWellFormed w' P r) (hgrows : w.Grows w') :
    EndsWellFormed w P r := by
  cases r with
  | ok a m => exact ⟨hgrows.trans h.1, h.2⟩
  | error signal m => exact ⟨hgrows.trans h.1, h.2⟩

namespace KeepsWellFormed

variable {w : Store} {P : Store → α → Prop} {Q : Store → β → Prop} {x : Eval α}

theorem pure {a : α} (h : ∀ s, w.Grows s → P s a) : KeepsWellFormed w P (Pure.pure a) :=
  fun _ hgrows hm => ⟨hgrows, hm, h _ hgrows⟩

theorem exhausted : KeepsWellFormed w P (throw .exhausted) :=
  fun _ hgrows hm => ⟨hgrows, hm, trivial⟩

theorem fail (fault : Fault) : KeepsWellFormed w P (Eval.fail fault) :=
  fun _ hgrows hm => ⟨hgrows, hm, trivial⟩

/-- What comes behind an evaluation may count on its result and on all that was there before. -/
theorem bind {f : α → Eval β} (hx : KeepsWellFormed w P x)
    (hf : ∀ w' a, w.Grows w' → P w' a → KeepsWellFormed w' Q (f a)) :
    KeepsWellFormed w Q (x >>= f) := by
  intro m hgrows hm
  have hends := hx m hgrows hm
  cases hrun : x m with
  | ok a m₁ =>
    rw [hrun] at hends
    obtain ⟨hgrows₁, hm₁, ha⟩ := hends
    rw [bind_of_ok hrun]
    exact (hf m₁.store a hgrows₁ ha m₁ (.refl _) hm₁).of_grows hgrows₁
  | error signal m₁ =>
    rw [hrun] at hends
    rw [bind_of_error hrun]
    exact hends

theorem discard (hx : KeepsWellFormed w P x) :
    KeepsWellFormed w (fun _ _ => True) (Functor.discard x) := by
  rw [discard_eq_bind]
  exact hx.bind fun _ _ _ _ => pure fun _ _ => trivial

theorem truthy (v : Value) : KeepsWellFormed w (fun _ _ => True) (Eval.truthy v) :=
  fun _ hgrows hm => ⟨hgrows, hm, trivial⟩

theorem allocate {f : Store → α × Store}
    (hf : ∀ s, w.Grows s → s.Change (f s).2 ∧ P (f s).2 (f s).1) :
    KeepsWellFormed w P (Eval.allocate f) := by
  intro m hgrows hm
  obtain ⟨hchange, hP⟩ := hf m.store hgrows
  exact ⟨hgrows.trans hchange.grows, hm.change hchange, hP⟩

/-- A look-up finds a value that stands in some scope. -/
theorem lookup (name : String) (pos : Position) (scope : ScopeRef) :
    KeepsWellFormed w Store.Has (Eval.lookup name pos scope) := by
  intro m hgrows hm
  rw [Eval.lookup, get_bind, Store.lookup?]
  cases hresolve : m.store.resolve? scope name with
  | none => exact ⟨hgrows, hm, trivial⟩
  | some found => exact ⟨hgrows, hm, hm.has_of_local? (Store.local?_of_resolveWithin hresolve)⟩

/-- The value was there in `w`, so it is there when it is bound. -/
theorem define {value : Value} (hvalue : w.Has value) (scope : ScopeRef) (name : String) :
    KeepsWellFormed w (fun _ _ => True) (Eval.modifyStore (·.define scope name value)) := by
  intro m hgrows hm
  have hchange := Store.Change.define scope name (hgrows.has hvalue)
  exact ⟨hgrows.trans hchange.grows, hm.change hchange, trivial⟩

theorem assign (name : String) {value : Value} (hvalue : w.Has value) (pos : Position)
    (scope : ScopeRef) :
    KeepsWellFormed w (fun _ _ => True) (Eval.assign name value pos scope) := by
  intro m hgrows hm
  cases hresolve : m.store.resolve? scope name with
  | none =>
    rw [assign_of_unresolved hresolve]
    exact ⟨hgrows, hm, trivial⟩
  | some found =>
    have hchange := Store.Change.define found.1 name (hgrows.has hvalue)
    rw [assign_of_resolve? hresolve]
    exact ⟨hgrows.trans hchange.grows, hm.change hchange, trivial⟩

/-- What an operation gets from the store or from its arguments is all that its result can refer to.
-/
theorem callPrimitive (p : Primitive) {args : List Value} (hargs : w.HasAll args) :
    KeepsWellFormed w Store.Has (Eval.callPrimitive p args) := by
  intro m hgrows hm
  have hcall := p.call_grows args m
  obtain ⟨hstore, hyields⟩ := hm.call (hgrows.hasAll hargs) p
  rw [Eval.callPrimitive]
  split
  · next v m' hrun =>
    rw [hrun] at hcall hstore hyields
    exact ⟨hgrows.trans hcall, hstore, hyields v rfl⟩
  · next fault m' hrun =>
    rw [hrun] at hcall hstore
    exact ⟨hgrows.trans hcall, hstore, trivial⟩

/-- An exit carries its argument, or null where there is none. -/
theorem exitTo (r : LabelRef) {args : List Value} (hargs : w.HasAll args) :
    KeepsWellFormed w Store.Has (Eval.exitTo r args) := by
  have hhead : w.Has (args.headD .null) := by
    cases args with
    | nil => trivial
    | cons a args => exact hargs a List.mem_cons_self
  intro m hgrows hm
  rw [Settled.exitTo_eq]
  split
  · split
    · split
      · exact ⟨hgrows, hm, hgrows.has hhead⟩
      · exact ⟨hgrows, hm, trivial⟩
    · exact ⟨hgrows, hm, trivial⟩
  · exact ⟨hgrows, hm, trivial⟩

theorem locating (pos : Position) {x : Eval Value} (hx : KeepsWellFormed w Store.Has x) :
    KeepsWellFormed w Store.Has (Eval.locating pos x) := by
  intro m hgrows hm
  have hends := hx m hgrows hm
  rw [Eval.locating]
  split
  · next hrun =>
    rw [hrun] at hends
    exact ⟨hends.1, hends.2.1, trivial⟩
  · exact hends

/-- The body starts in a younger store, and what it ends with, result or exit, outlives the block.
-/
theorem inBlock (name : Option String) {scope : ScopeRef} (hscope : w.HasScope scope)
    {body : ScopeRef → Eval Value}
    (hbody : ∀ w' inner, w.Grows w' → w'.HasScope inner →
      KeepsWellFormed w' Store.Has (body inner)) :
    KeepsWellFormed w Store.Has (Eval.inBlock name scope body) := by
  intro m hgrows hm
  have hopen := hgrows.trans (.enterBlock m name scope)
  have hm₁ := hm.enterBlock name (hgrows.hasScope hscope)
  have hends := hbody _ _ hopen (Store.hasScope_enterBlock m name scope) _ (.refl _) hm₁
  replace hends := hends.of_grows hopen
  -- closing the label takes nothing out of what the body has left
  have hclose : ∀ {m' : Machine} {r : LabelRef}, w.Grows m'.store → m'.store.WellFormed →
      m'.store.Grows (m'.leaveBlock r).store ∧ w.Grows (m'.leaveBlock r).store ∧
        (m'.leaveBlock r).store.WellFormed := by
    intro m' r hbehind hm'
    have hchange : m'.store.Change (m'.store.closeLabel r) := .closeLabel r
    exact ⟨hchange.grows, hbehind.trans hchange.grows, hm'.change hchange⟩
  rw [inBlock_eq]
  split
  · next hrun =>
    rw [hrun] at hends
    obtain ⟨hbehind, hm', hv⟩ := hends
    obtain ⟨hleave, hall, hleft⟩ := hclose hbehind hm'
    exact ⟨hall, hleft, hleave.has hv⟩
  · next hrun =>
    rw [hrun] at hends
    obtain ⟨hbehind, hm', hv⟩ := hends
    obtain ⟨hleave, hall, hleft⟩ := hclose hbehind hm'
    -- caught here or not, the exit carries the same value
    split
    · exact ⟨hall, hleft, hleave.has hv⟩
    · exact ⟨hall, hleft, hleave.has hv⟩
  · next hrun =>
    rw [hrun] at hends
    obtain ⟨hbehind, hm', hsignal⟩ := hends
    obtain ⟨hleave, hall, hleft⟩ := hclose hbehind hm'
    exact ⟨hall, hleft, hleave.hasSignal hsignal⟩

/-- The body of a function runs in a scope with the arguments, inside the one that was captured. -/
theorem inCall (r : ClosureRef) {args : List Value} (hargs : w.HasAll args)
    {run : Expr → ScopeRef → Eval Value}
    (hrun : ∀ w' e scope, w.Grows w' → w'.HasScope scope →
      KeepsWellFormed w' Store.Has (run e scope)) :
    KeepsWellFormed w Store.Has (Eval.inCall r args run) := by
  intro m hgrows hm
  rw [inCall_eq]
  split
  · exact ⟨hgrows, hm, trivial⟩
  · next c hclosure =>
    split
    · have hopen : w.Grows (m.enterCall c args).2.store := hgrows.trans (.newScope _ _ _)
      have hm₁ := hm.enterCall hclosure (hgrows.hasAll hargs)
      have hends := hrun _ c.body _ hopen (Store.hasScope_enterCall m c args) _ (.refl _) hm₁
      exact hends.of_grows hopen
    · exact ⟨hgrows, hm, trivial⟩

end KeepsWellFormed

/-! ## 6. All evaluations -/

/-- All evaluations within the depth keep the store well formed, if what they work with is there. -/
structure WellFormedWithin (n : Nat) : Prop where
  eval {w : Store} (e : Expr) {scope : ScopeRef} (hscope : w.HasScope scope) :
    KeepsWellFormed w Store.Has (CalcScript.eval n e scope)
  all {w : Store} (es : List Expr) {scope : ScopeRef} (hscope : w.HasScope scope) :
    KeepsWellFormed w Store.HasAll (evalAll n es scope)
  loop {w : Store} (condition body : Expr) {scope : ScopeRef} (hscope : w.HasScope scope) :
    KeepsWellFormed w Store.Has (evalLoop n condition body scope)
  apply {w : Store} {callee : Value} {args : List Value} (hcallee : w.Has callee)
    (hargs : w.HasAll args) : KeepsWellFormed w Store.Has (applyValue n callee args)

namespace WellFormedWithin

variable {n : Nat} {w : Store} {scope : ScopeRef}

/-- Values that refer to nothing are in every store. -/
theorem plain {v : Value} (hv : ∀ s : Store, s.Has v) : KeepsWellFormed w Store.Has (pure v) :=
  .pure fun s _ => hv s

theorem truth (v : Value) :
    KeepsWellFormed w Store.Has (do return Value.bool (← Eval.truthy v)) :=
  (KeepsWellFormed.truthy v).bind fun _ _ _ _ => plain fun _ => trivial

/-- One level deeper. A part that is evaluated behind others finds their values in the store. -/
theorem eval_succ (ih : WellFormedWithin n) (e : Expr) (hscope : w.HasScope scope) :
    KeepsWellFormed w Store.Has (CalcScript.eval (n + 1) e scope) := by
  cases e with
  | literal l => exact plain fun s => by cases l <;> trivial
  | primitive p => exact plain fun _ => trivial
  | array items =>
    refine (ih.all items hscope).bind fun w' vs _ hvs => ?_
    refine KeepsWellFormed.bind (P := fun s r => s.Has (.array r)) (.allocate fun s hs => ?_)
      fun _ r _ hr => .pure fun _ hgrows => hgrows.has hr
    refine ⟨.newArray fun v hv => hs.has (hvs v (by simpa using hv)), ?_⟩
    simp [Store.Has, Store.newArray]
  | var name pos => exact .lookup name pos scope
  | store name value =>
    refine (ih.eval value hscope).bind fun w' v _ hv => ?_
    exact (KeepsWellFormed.define hv scope name).bind fun _ _ _ _ => plain fun _ => trivial
  | update name value pos =>
    refine (ih.eval value hscope).bind fun w' v _ hv => ?_
    exact (KeepsWellFormed.assign name hv pos scope).bind fun _ _ _ _ => plain fun _ => trivial
  | seq first rest =>
    exact (ih.eval first hscope).discard.bind fun _ _ hgrows _ =>
      ih.eval rest (hgrows.hasScope hscope)
  | and left right =>
    refine (ih.eval left hscope).bind fun w₁ v h₁ _ => ?_
    refine (KeepsWellFormed.truthy v).bind fun w₂ b h₂ _ => ?_
    -- the scope was there before the left operand, and stores only grow
    have hscope := (h₁.trans h₂).hasScope hscope
    cases b with
    | true => exact (ih.eval right hscope).bind fun _ w _ _ => truth w
    | false => exact plain fun _ => trivial
  | or left right =>
    refine (ih.eval left hscope).bind fun w₁ v h₁ _ => ?_
    refine (KeepsWellFormed.truthy v).bind fun w₂ b h₂ _ => ?_
    have hscope := (h₁.trans h₂).hasScope hscope
    cases b with
    | true => exact plain fun _ => trivial
    | false => exact (ih.eval right hscope).bind fun _ w _ _ => truth w
  | cond condition consequent alternate =>
    refine (ih.eval condition hscope).bind fun w₁ v h₁ _ => ?_
    refine (KeepsWellFormed.truthy v).bind fun w₂ b h₂ _ => ?_
    have hscope := (h₁.trans h₂).hasScope hscope
    cases b with
    | true => exact ih.eval consequent hscope
    | false => exact ih.eval alternate hscope
  | loop condition body => exact ih.loop condition body hscope
  | func params body =>
    refine KeepsWellFormed.bind (P := fun s r => s.Has (.closure r)) (.allocate fun s hs => ?_)
      fun _ r _ hr => .pure fun _ hgrows => hgrows.has hr
    -- the scope that the function captures is the one it is made in
    refine ⟨.newClosure (hs.hasScope hscope), ?_⟩
    simp [Store.Has, Store.newClosure]
  | apply callee args pos =>
    refine (ih.eval callee hscope).bind fun w₁ v h₁ hv => ?_
    refine (ih.all args (h₁.hasScope hscope)).bind fun w₂ vs h₂ hvs => ?_
    -- the callee was found in an earlier store, and it is still there
    exact .locating pos (ih.apply (h₂.has hv) hvs)
  | block name body =>
    exact .inBlock name hscope fun w' inner _ hinner => ih.eval body hinner

/-- The values of a list are kept while the rest of it is evaluated. -/
theorem all_succ (ih : WellFormedWithin n) (es : List Expr) (hscope : w.HasScope scope) :
    KeepsWellFormed w Store.HasAll (evalAll (n + 1) es scope) := by
  cases es with
  | nil => exact .pure fun _ _ => List.forall_mem_nil _
  | cons e es =>
    refine (ih.eval e hscope).bind fun w₁ v h₁ hv => ?_
    refine (ih.all es (h₁.hasScope hscope)).bind fun w₂ vs h₂ hvs => ?_
    refine .pure fun s hgrows => List.forall_mem_cons.mpr ⟨?_, hgrows.hasAll hvs⟩
    exact (h₂.trans hgrows).has hv

theorem loop_succ (ih : WellFormedWithin n) (condition body : Expr) (hscope : w.HasScope scope) :
    KeepsWellFormed w Store.Has (evalLoop (n + 1) condition body scope) := by
  refine (ih.eval condition hscope).bind fun w₁ v h₁ _ => ?_
  refine (KeepsWellFormed.truthy v).bind fun w₂ b h₂ _ => ?_
  have hscope := (h₁.trans h₂).hasScope hscope
  cases b with
  | true =>
    exact (ih.eval body hscope).discard.bind fun _ _ hgrows _ =>
      ih.loop condition body (hgrows.hasScope hscope)
  | false => exact plain fun _ => trivial

/-- Of what is applied only a function, an operation or a label does anything. -/
theorem apply_succ (ih : WellFormedWithin n) {callee : Value} {args : List Value}
    (hargs : w.HasAll args) : KeepsWellFormed w Store.Has (applyValue (n + 1) callee args) := by
  cases callee with
  | closure r => exact .inCall r hargs fun w' e inner _ hinner => ih.eval e hinner
  | primitive p => exact .callPrimitive p hargs
  | label r => exact .exitTo r hargs
  | number _ | bool _ | null | str _ | array _ => exact .fail _

end WellFormedWithin

/-- **Evaluation keeps the store well formed.** The induction is on the depth. -/
theorem wellFormedWithin (n : Nat) : WellFormedWithin n := by
  induction n with
  | zero =>
    exact ⟨fun _ _ _ => .exhausted, fun _ _ _ => .exhausted, fun _ _ _ _ => .exhausted,
      fun _ _ => .exhausted⟩
  | succ n ih =>
    exact ⟨fun e _ => ih.eval_succ e, fun es _ => ih.all_succ es,
      fun condition body _ => ih.loop_succ condition body, fun _ => ih.apply_succ⟩

end Eval

/-! ## 7. Every moment of a run -/

/-- Whatever a point has to evaluate. -/
theorem Store.HasTask.run {w : Store} {task : Task} (h : w.HasTask task) (n : Nat) :
    Eval.KeepsWellFormed w Store.HasAll (task.run n) := by
  have hsingle : ∀ {x : Eval Value}, Eval.KeepsWellFormed w Store.Has x →
      Eval.KeepsWellFormed w Store.HasAll (do return [← x]) := fun hx =>
    hx.bind fun _ v _ hv => .pure fun _ hgrows => List.forall_mem_singleton.mpr (hgrows.has hv)
  have hwithin := Eval.wellFormedWithin n
  cases task with
  | expr e scope => exact hsingle (hwithin.eval e h)
  | exprs es scope => exact hwithin.all es h
  | turns condition body scope => exact hsingle (hwithin.loop condition body h)
  | call callee args => exact hsingle (hwithin.apply h.1 h.2)

namespace Point

open Eval

variable {p q start : Point}

/-- An evaluation with what it works with, in a well-formed store. -/
structure WellFormed (p : Point) : Prop where
  store : p.machine.store.WellFormed
  task : p.machine.store.HasTask p.task

theorem WellFormed.ends (hp : p.WellFormed) :
    EndsWellFormed p.machine.store Store.HasAll p.result :=
  hp.task.run p.depth p.machine (.refl _) hp.store

/-- So the store at the end of a well-formed point is well formed, whatever the outcome. -/
theorem WellFormed.final (hp : p.WellFormed) : p.final.store.WellFormed := by
  have hends := hp.ends
  rw [Point.final]
  split
  · next hresult =>
    rw [hresult] at hends
    exact hends.2.1
  · next hresult =>
    rw [hresult] at hends
    exact hends.2.1

theorem wellFormed_of_eval {e : Expr} {scope : ScopeRef} {n : Nat} {m m' : Machine} {v : Value}
    (hm : m.store.WellFormed) (hscope : m.store.HasScope scope) (h : eval n e scope m = .ok v m') :
    m.store.Grows m'.store ∧ m'.store.WellFormed ∧ m'.store.Has v := by
  have hends := (wellFormedWithin n).eval e hscope m (.refl _) hm
  rwa [h] at hends

theorem wellFormed_of_evalAll {es : List Expr} {scope : ScopeRef} {n : Nat} {m m' : Machine}
    {vs : List Value} (hm : m.store.WellFormed) (hscope : m.store.HasScope scope)
    (h : evalAll n es scope m = .ok vs m') :
    m.store.Grows m'.store ∧ m'.store.WellFormed ∧ m'.store.HasAll vs := by
  have hends := (wellFormedWithin n).all es hscope m (.refl _) hm
  rwa [h] at hends

/-- **A well-formed evaluation starts well-formed evaluations.** -/
theorem Enters.wellFormed (h : p.Enters q) (hp : p.WellFormed) : q.WellFormed := by
  obtain ⟨hstore, htask⟩ := hp
  cases h with
  | array | store | update | first | andLeft | orLeft | condition | loop | callee | head | test =>
    exact ⟨hstore, htask⟩
  | rest hbefore | andRight hbefore | orRight hbefore | consequent hbefore | alternate hbefore
  | arguments hbefore | tail hbefore | turn hbefore =>
    obtain ⟨hgrows, hstore, -⟩ := wellFormed_of_eval hstore htask hbefore
    exact ⟨hstore, hgrows.hasScope htask⟩
  | application hcallee hargs =>
    obtain ⟨hgrows, hstore, hv⟩ := wellFormed_of_eval hstore htask hcallee
    obtain ⟨hgrows', hstore', hvs⟩ := wellFormed_of_evalAll hstore (hgrows.hasScope htask) hargs
    exact ⟨hstore', hgrows'.has hv, hvs⟩
  | again htest _ hturn =>
    obtain ⟨hgrows, hstore, -⟩ := wellFormed_of_eval hstore htask htest
    obtain ⟨hgrows', hstore', -⟩ := wellFormed_of_eval hstore (hgrows.hasScope htask) hturn
    exact ⟨hstore', (hgrows.trans hgrows').hasScope htask⟩
  | block => exact ⟨hstore.enterBlock _ htask, Store.hasScope_enterBlock _ _ _⟩
  | body hclosure _ => exact ⟨hstore.enterCall hclosure htask.2, Store.hasScope_enterCall _ _ _⟩

/-- Along a run, by induction on the evaluations that lead to a point. -/
theorem WellFormed.of_runs (hstart : start.WellFormed) (h : Relation.ReflTransGen Enters start p) :
    p.WellFormed := by
  induction h with
  | refl => exact hstart
  | tail _ henters ih => exact henters.wellFormed ih

variable {inner outer : ScopeRef}

theorem Opens.not_hasScope (h : p.Opens q inner outer) : ¬ p.machine.store.HasScope inner := by
  cases h with
  | block | call => exact Nat.lt_irrefl _

/-- Both scopes are there when the evaluation inside starts, and the outer one was there before. -/
theorem Opens.hasScope (h : p.Opens q inner outer) (hp : p.WellFormed) :
    p.machine.store.HasScope outer ∧ q.machine.store.HasScope inner := by
  have hq := (h.enters.wellFormed hp).task
  obtain ⟨hstore, htask⟩ := hp
  cases h with
  | block => exact ⟨htask, hq⟩
  | call hclosure _ => exact ⟨hstore.captured hclosure, hq⟩

/-! ## 8. Values that wait -/

/-- While the evaluation at the second point runs, the one at the first, which has started it, keeps
a value for later: the callee and the elements before, when a list is evaluated, and what it
applies, when the body of a function runs. -/
inductive Keeps : Point → Point → Value → Prop
  | callee {callee args pos scope n m rs v m₁} (hcallee : eval n callee scope m = .ok v m₁) :
    Keeps ⟨.expr (.apply callee args pos) scope, n + 1, m, rs⟩ ⟨.exprs args scope, n, m₁, rs⟩ v
  | element {e es scope n m rs v m₁} (hhead : eval n e scope m = .ok v m₁) :
    Keeps ⟨.exprs (e :: es) scope, n + 1, m, rs⟩ ⟨.exprs es scope, n, m₁, rs⟩ v
  | call {callee args n m rs q v} (henters : Enters ⟨.call callee args, n, m, rs⟩ q)
      (hv : v ∈ callee :: args) : Keeps ⟨.call callee args, n, m, rs⟩ q v

/-- In the run from `start` a value waits at the point, for the evaluation there to be over. -/
def Pending (start p : Point) (v : Value) : Prop :=
  ∃ outer inner, Relation.ReflTransGen Enters start outer ∧ outer.Keeps inner v ∧
    Relation.ReflTransGen Enters inner p

/-- A value that is kept has come from the store as it was, and the store has only grown. -/
theorem Keeps.has {v : Value} (h : p.Keeps q v) (hp : p.WellFormed) : q.machine.store.Has v := by
  obtain ⟨hstore, htask⟩ := hp
  cases h with
  | callee hbefore | element hbefore => exact (wellFormed_of_eval hstore htask hbefore).2.2
  | call henters hv =>
    have hgrows := henters.grows
    rcases List.mem_cons.mp hv with rfl | hv
    · exact hgrows.has htask.1
    · exact hgrows.has (htask.2 _ hv)

/-- **What waits stays in the store.** -/
theorem Pending.has {v : Value} (h : start.Pending p v) (hstart : start.WellFormed) :
    p.machine.store.Has v := by
  obtain ⟨outer, inner, hbefore, hkeeps, hbehind⟩ := h
  exact (grows_of_runs hbehind).1.has (hkeeps.has (hstart.of_runs hbefore))

end Point

end CalcScript
