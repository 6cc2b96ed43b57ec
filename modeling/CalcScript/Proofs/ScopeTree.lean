/-
`Proofs/ScopeTree.lean` -- what a name means in a tree of scopes.

A tree of scopes begins with one scope and changes in three ways: a scope is put inside
another, a name is defined in a scope, the nearest binding of a name gets another value. A
`ScopeHistory` is any sequence of such changes to scopes that exist.

What a name means from a scope can be read off the history alone. A scope has the chain of
scopes that it was put into; it binds the names that were defined in it; the value of a
binding is the last one written there, by a definition or by a change that found this
binding to be the nearest (`ScopeHistory.written`). The store does not keep its history, and
a look-up walks from scope to scope within a bound. The two agree
(`ScopeHistory.lookup?_store`), so a write is seen exactly from the scopes whose nearest
binding it has hit.

Every scope is younger than the one around it (`Store.Nested`), so a walk outwards ends, and
the bound is long enough for it.
-/
import CalcScript.Proofs.Scopes

set_option autoImplicit false

namespace CalcScript

/-! ## 1. Chains of scopes -/

namespace Store

/-- Every scope is younger than the one around it. -/
def Nested (s : Store) : Prop :=
  ∀ (i : Nat) (scope : Scope) (parent : ScopeRef),
    s.scopes[i]? = some scope → scope.parent = some parent → parent.index < i

theorem Nested.newScope {s : Store} (h : s.Nested) {parent : ScopeRef}
    (hparent : parent.index < s.scopes.size) (bindings : Bindings) :
    (s.newScope (some parent) bindings).2.Nested := by
  intro i scope p hscope hp
  rw [Store.newScope, Array.getElem?_push] at hscope
  split at hscope
  · next hi =>
    cases hscope
    cases hp
    omega
  · exact h i scope p hscope hp

theorem Nested.define {s : Store} (h : s.Nested) (r : ScopeRef) (name : String)
    (value : Value) : (s.define r name value).Nested := by
  intro i scope p hscope hp
  rw [Store.define, Array.getElem?_modify] at hscope
  split at hscope
  · obtain ⟨old, hold, rfl⟩ := Option.map_eq_some_iff.mp hscope
    exact h i old p hold hp
  · exact h i scope p hscope hp

/-- The scopes from the given one outwards, up to one that has none around it. -/
inductive Chain (s : Store) : ScopeRef → List ScopeRef → Prop
  | root {r : ScopeRef} {bindings : Bindings} (h : s.scope? r = some ⟨none, bindings⟩) :
    Chain s r [r]
  | inner {r parent : ScopeRef} {bindings : Bindings} {rest : List ScopeRef}
      (h : s.scope? r = some ⟨some parent, bindings⟩) (hrest : Chain s parent rest) :
    Chain s r (r :: rest)

variable {s : Store} {r : ScopeRef} {chain : List ScopeRef}

/-- A walk outwards goes to older scopes, so it has no more steps than the scope's place. -/
theorem Chain.length_le (h : s.Chain r chain) (hnested : s.Nested) :
    chain.length ≤ r.index + 1 := by
  induction h with
  | root => simp
  | @inner r parent bindings rest hscope _ ih =>
    have hlt : parent.index < r.index := hnested r.index _ parent hscope rfl
    rw [List.length_cons]
    omega

/-- A walk that is long enough finds the first scope of the chain that binds the name. -/
theorem Chain.resolveWithin_eq (h : s.Chain r chain) (name : String) {n : Nat}
    (hn : chain.length ≤ n) :
    s.resolveWithin name n r = chain.findSome? fun q => (s.local? q name).map (q, ·) := by
  induction h generalizing n with
  | @root r bindings hscope =>
    obtain ⟨n, rfl⟩ : ∃ k, n = k + 1 := Nat.exists_eq_add_of_le' hn
    rw [resolveWithin, hscope]
    cases hvalue : bindings.lookup name <;> simp [local?, hscope, hvalue]
  | @inner r parent bindings rest hscope _ ih =>
    rw [List.length_cons] at hn
    obtain ⟨n, rfl⟩ : ∃ k, n = k + 1 := Nat.exists_eq_add_of_le' (by omega : 1 ≤ n)
    have hrest := ih (n := n) (by omega)
    rw [resolveWithin, hscope]
    cases hvalue : bindings.lookup name with
    | some value => simp [local?, hscope, hvalue]
    | none => simp [local?, hscope, hvalue, hrest]

/-- A look-up finds the first scope of the chain that binds the name. -/
theorem Chain.resolve?_eq (h : s.Chain r chain) (hnested : s.Nested) (name : String) :
    s.resolve? r name = chain.findSome? fun q => (s.local? q name).map (q, ·) :=
  h.resolveWithin_eq name (h.length_le hnested)

/-! ## 2. One binding -/

/-- The second store has one value in the place of another, or of none: that of a name in
a scope. All other bindings and the scopes around scopes are the same. -/
structure Sets (s s' : Store) (owner : ScopeRef) (name : String) (value : Value) : Prop where
  local?_eq (r : ScopeRef) (other : String) :
    s'.local? r other = if r = owner ∧ other = name then some value else s.local? r other
  parent?_eq (r : ScopeRef) : s'.parent? r = s.parent? r

theorem lt_size_of_local? {name : String} {value : Value} (h : s.local? r name = some value) :
    r.index < s.scopes.size := by
  obtain ⟨scope, hscope, -⟩ := Option.bind_eq_some_iff.mp h
  exact (Array.getElem?_eq_some_iff.mp hscope).1

theorem sets_define {owner : ScopeRef} (howner : owner.index < s.scopes.size) (name : String)
    (value : Value) : s.Sets (s.define owner name value) owner name value := by
  obtain ⟨scope, hscope⟩ : ∃ scope, s.scope? owner = some scope :=
    ⟨_, Array.getElem?_eq_getElem howner⟩
  constructor
  · intro r other
    rw [local?, local?, scope?_define]
    by_cases hr : r = owner
    · subst hr
      by_cases hother : other = name <;> simp [hscope, Bindings.lookup_insert, hother]
    · simp [hr]
  · intro r
    rw [parent?, parent?, scope?_define]
    by_cases hr : r = owner
    · subst hr
      simp [hscope]
    · simp [hr]

/-- A definition leaves every chain as it is. -/
theorem Chain.define (h : s.Chain r chain) (owner : ScopeRef) (name : String) (value : Value) :
    (s.define owner name value).Chain r chain := by
  induction h with
  | @root r bindings hscope =>
    by_cases hr : r = owner
    · exact .root (by rw [scope?_define, if_pos hr, ← hr, hscope]; rfl)
    · exact .root (by rw [scope?_define, if_neg hr, hscope])
  | @inner r parent bindings rest hscope _ ih =>
    by_cases hr : r = owner
    · exact .inner (by rw [scope?_define, if_pos hr, ← hr, hscope]; rfl) ih
    · exact .inner (by rw [scope?_define, if_neg hr, hscope]) ih

theorem scope?_newScope (s : Store) (parent : Option ScopeRef) (bindings : Bindings)
    (r : ScopeRef) : (s.newScope parent bindings).2.scope? r =
      if r.index = s.scopes.size then some ⟨parent, bindings⟩ else s.scope? r := by
  rw [newScope, scope?, Array.getElem?_push]
  rfl

theorem Chain.newScope (h : s.Chain r chain) (parent : Option ScopeRef) (bindings : Bindings) :
    (s.newScope parent bindings).2.Chain r chain := by
  have hkeep : ∀ {q scope}, s.scope? q = some scope →
      (s.newScope parent bindings).2.scope? q = some scope := by
    intro q scope hq
    have hlt := (Array.getElem?_eq_some_iff.mp hq).1
    rw [scope?_newScope, if_neg (Nat.ne_of_lt hlt), hq]
  induction h with
  | root hscope => exact .root (hkeep hscope)
  | inner hscope _ ih => exact .inner (hkeep hscope) ih

end Store

/-! ## 3. Histories -/

/-- What has been done to a tree of `n` scopes since it was one scope with nothing in it. -/
inductive ScopeHistory : Nat → Type
  | root : ScopeHistory 1
  /-- a scope is put inside another -/
  | enclose {n : Nat} (h : ScopeHistory n) (parent : ScopeRef) (hparent : parent.index < n) :
    ScopeHistory (n + 1)
  | define {n : Nat} (h : ScopeHistory n) (scope : ScopeRef) (hscope : scope.index < n)
      (name : String) (value : Value) : ScopeHistory n
  /-- the nearest binding of a name gets another value, if there is one -/
  | assign {n : Nat} (h : ScopeHistory n) (scope : ScopeRef) (hscope : scope.index < n)
      (name : String) (value : Value) : ScopeHistory n

namespace ScopeHistory

/-- The store that a history leads to. -/
def store : {n : Nat} → ScopeHistory n → Store
  | _, .root => (Store.empty.newScope none []).2
  | _, .enclose h parent _ => (h.store.newScope (some parent) []).2
  | _, .define h scope _ name value => h.store.define scope name value
  | _, .assign h scope _ name value => (h.store.assign? scope name value).getD h.store

/-- A scope and those that it was put into, from the inside outwards. -/
def chain : {n : Nat} → ScopeHistory n → ScopeRef → List ScopeRef
  | _, .root, r => [r]
  | n + 1, .enclose h parent _, r => if r.index = n then r :: h.chain parent else h.chain r
  | _, .define h .., r => h.chain r
  | _, .assign h .., r => h.chain r

/-- The name has been defined in this very scope. -/
def binds : {n : Nat} → ScopeHistory n → ScopeRef → String → Bool
  | _, .root, _, _ => false
  | _, .enclose h .., r, x => h.binds r x
  | _, .define h scope _ name _, r, x => (r = scope ∧ x = name) || h.binds r x
  | _, .assign h .., r, x => h.binds r x

variable {n : Nat}

/-- The nearest scope that binds a name, on the chain of a scope. -/
def nearest? (h : ScopeHistory n) (r : ScopeRef) (x : String) : Option ScopeRef :=
  (h.chain r).find? (h.binds · x)

/-- The value last written to the binding of a name in a scope: by a definition there, or by
a change from a scope whose nearest binding of the name, at that time, was this one. -/
def written : {n : Nat} → ScopeHistory n → ScopeRef → String → Option Value
  | _, .root, _, _ => none
  | _, .enclose h .., r, x => h.written r x
  | _, .define h scope _ name value, r, x =>
    if r = scope ∧ x = name then some value else h.written r x
  | _, .assign h scope _ name value, r, x =>
    if h.nearest? scope name = some r ∧ x = name then some value else h.written r x

/-! ## 4. The store has what the history says -/

theorem size_store (h : ScopeHistory n) : h.store.scopes.size = n := by
  induction h with
  | root => rfl
  | enclose h parent hparent ih => simp [store, Store.newScope, ih]
  | define h scope hscope name value ih => simpa [store, Store.define] using ih
  | assign h scope hscope name value ih =>
    rw [store, Store.assign?]
    cases h.store.resolve? scope name with
    | none => exact ih
    | some found => simpa [Store.define] using ih

theorem nested_store (h : ScopeHistory n) : h.store.Nested := by
  induction h with
  | root =>
    intro i scope parent hscope hparent
    obtain rfl := Array.mem_singleton.mp (Array.mem_of_getElem? hscope)
    cases hparent
  | enclose h parent hparent ih => exact ih.newScope (by rwa [h.size_store]) []
  | define h scope hscope name value ih => exact ih.define scope name value
  | assign h scope hscope name value ih =>
    rw [store, Store.assign?]
    cases h.store.resolve? scope name with
    | none => exact ih
    | some found => exact ih.define found.1 name value

/-- The scopes around a scope are those that it was put into. -/
theorem chain_store (h : ScopeHistory n) {r : ScopeRef} (hr : r.index < n) :
    h.store.Chain r (h.chain r) := by
  induction h generalizing r with
  | root =>
    obtain ⟨i⟩ := r
    obtain rfl : i = 0 := Nat.lt_one_iff.mp hr
    exact .root rfl
  | @enclose n h parent hparent ih =>
    rw [store, chain]
    by_cases hnew : r.index = n
    · have hscope : (h.store.newScope (some parent) []).2.scope? r = some ⟨some parent, []⟩ := by
        rw [Store.scope?_newScope, h.size_store, if_pos hnew]
      rw [if_pos hnew]
      exact .inner hscope ((ih hparent).newScope _ _)
    · rw [if_neg hnew]
      exact (ih (by omega)).newScope _ _
  | define h scope hscope name value ih => exact (ih hr).define scope name value
  | assign h scope hscope name value ih =>
    rw [store, chain, Store.assign?]
    cases h.store.resolve? scope name with
    | none => exact ih hr
    | some found => exact (ih hr).define found.1 name value

theorem binds_of_nearest? {h : ScopeHistory n} {r owner : ScopeRef} {x : String}
    (hnearest : h.nearest? r x = some owner) : h.binds owner x = true :=
  List.find?_some (p := (h.binds · x)) hnearest

/-- A name has a value exactly where it was defined: to change a binding, it must be there. -/
theorem isSome_written (h : ScopeHistory n) (r : ScopeRef) (x : String) :
    (h.written r x).isSome = h.binds r x := by
  induction h with
  | root => rfl
  | enclose h parent hparent ih => exact ih
  | define h scope hscope name value ih =>
    rw [written, binds]
    by_cases hslot : r = scope ∧ x = name
    · simp [hslot]
    · simp [hslot, ih]
  | assign h scope hscope name value ih =>
    rw [written, binds]
    by_cases hslot : h.nearest? scope name = some r ∧ x = name
    · obtain ⟨hnearest, rfl⟩ := hslot
      simp [hnearest, binds_of_nearest? hnearest]
    · rw [if_neg hslot, ih]

/-- Where the bindings are those that the history says, so is what a look-up finds. -/
theorem resolve?_of_local? {h : ScopeHistory n}
    (hlocal : ∀ r x, h.store.local? r x = h.written r x) {r : ScopeRef} (hr : r.index < n)
    (x : String) :
    h.store.resolve? r x = (h.nearest? r x).bind fun q => (h.written q x).map (q, ·) := by
  rw [(h.chain_store hr).resolve?_eq h.nested_store x, nearest?]
  induction h.chain r with
  | nil => rfl
  | cons q rest ih =>
    rw [List.findSome?_cons, List.find?_cons, hlocal, ← h.isSome_written q x]
    cases hvalue : h.written q x with
    | some value => simp [hvalue]
    | none => simpa using ih

/-- Every binding has the value last written to it. -/
theorem local?_store (h : ScopeHistory n) (r : ScopeRef) (x : String) :
    h.store.local? r x = h.written r x := by
  induction h generalizing r x with
  | root =>
    rw [store, Store.local?, Store.scope?_newScope]
    split <;> rfl
  | @enclose n h parent hparent ih =>
    rw [store, written, ← ih, Store.local?, Store.local?, Store.scope?_newScope]
    by_cases hnew : r.index = h.store.scopes.size
    · -- the new scope binds nothing, and there was none in its place before
      have hnone : h.store.scope? r = none := Array.getElem?_eq_none (Nat.le_of_eq hnew.symm)
      rw [if_pos hnew, hnone]
      rfl
    · rw [if_neg hnew]
  | define h scope hscope name value ih =>
    rw [store, written, (Store.sets_define (by rwa [h.size_store]) name value).local?_eq, ih]
  | assign h scope hscope name value ih =>
    -- by the hypothesis the store finds the scope that the history names as the nearest
    have hresolve := resolve?_of_local? ih hscope name
    rw [store, written, Store.assign?, hresolve]
    cases hnearest : h.nearest? scope name with
    | none => simp [ih]
    | some owner =>
      obtain ⟨old, hold⟩ : ∃ old, h.written owner name = some old := by
        rw [← Option.isSome_iff_exists, isSome_written, binds_of_nearest? hnearest]
      have hlt := Store.lt_size_of_local? ((ih owner name).trans hold)
      simp only [Option.bind_some, hold, Option.map_some, Option.getD_some, Option.some.injEq]
      rw [(Store.sets_define hlt name value).local?_eq, ih]
      simp only [eq_comm]

theorem resolve?_store (h : ScopeHistory n) {r : ScopeRef} (hr : r.index < n) (x : String) :
    h.store.resolve? r x = (h.nearest? r x).bind fun q => (h.written q x).map (q, ·) :=
  resolve?_of_local? h.local?_store hr x

/-- **A look-up gives the value last written to the nearest binding.** -/
theorem lookup?_store (h : ScopeHistory n) {r : ScopeRef} (hr : r.index < n) (x : String) :
    h.store.lookup? r x = (h.nearest? r x).bind (h.written · x) := by
  rw [Store.lookup?, h.resolve?_store hr]
  cases h.nearest? r x with
  | none => rfl
  | some owner => cases hvalue : h.written owner x <;> simp [hvalue]

theorem lookup?_eq_none_iff (h : ScopeHistory n) {r : ScopeRef} (hr : r.index < n) (x : String) :
    h.store.lookup? r x = none ↔ ∀ q ∈ h.chain r, h.binds q x = false := by
  rw [h.lookup?_store hr]
  cases hnearest : h.nearest? r x with
  | none =>
    rw [nearest?, List.find?_eq_none] at hnearest
    simpa using hnearest
  | some owner =>
    have hmem : owner ∈ h.chain r := List.mem_of_find?_eq_some hnearest
    have hbinds := binds_of_nearest? hnearest
    have hsome : (h.written owner x).isSome = true := by rw [isSome_written, hbinds]
    constructor
    · intro hnone
      rw [Option.bind_some] at hnone
      simp [hnone] at hsome
    · intro hall
      rw [hall owner hmem] at hbinds
      cases hbinds

/-! ## 5. Changing a binding -/

/-- A change that finds a nearest binding sets this one, and it is seen from the scopes that
find the same one. -/
theorem assign?_of_nearest? (h : ScopeHistory n) {r owner : ScopeRef} (hr : r.index < n)
    {x : String} (hnearest : h.nearest? r x = some owner) (value : Value) :
    ∃ s', h.store.assign? r x value = some s' ∧ h.store.Sets s' owner x value ∧
      ∀ q y, q.index < n → s'.lookup? q y =
        if h.nearest? q y = some owner ∧ y = x then some value else h.store.lookup? q y := by
  obtain ⟨old, hold⟩ : ∃ old, h.written owner x = some old := by
    rw [← Option.isSome_iff_exists, isSome_written, binds_of_nearest? hnearest]
  have hresolve : h.store.resolve? r x = some (owner, old) := by
    rw [h.resolve?_store hr, hnearest, Option.bind_some, hold, Option.map_some]
  have hassign : h.store.assign? r x value = some (h.store.define owner x value) := by
    rw [Store.assign?, hresolve, Option.map_some]
  have hlt := Store.lt_size_of_local? ((h.local?_store owner x).trans hold)
  refine ⟨_, hassign, Store.sets_define hlt x value, fun q y hq => ?_⟩
  -- the change is one more event of the history, which leaves chains and names as they are
  have hstore : (h.assign r hr x value).store = h.store.define owner x value := by
    rw [store, hassign, Option.getD_some]
  have hsame : (h.assign r hr x value).nearest? q y = h.nearest? q y := rfl
  rw [← hstore, lookup?_store _ hq, h.lookup?_store hq, hsame]
  cases h.nearest? q y with
  | none => simp
  | some found =>
    rw [Option.bind_some, Option.bind_some, written, hnearest]
    simp only [Option.some.injEq, eq_comm]

theorem assign?_of_nearest?_eq_none (h : ScopeHistory n) {r : ScopeRef} (hr : r.index < n)
    {x : String} (hnearest : h.nearest? r x = none) (value : Value) :
    h.store.assign? r x value = none := by
  rw [Store.assign?, h.resolve?_store hr, hnearest]
  rfl

end ScopeHistory

/-! ## 6. Variables of programs -/

namespace Eval

/-- A variable has the value that its name has from the scope; without one it is an error. -/
theorem lookup_eq (name : String) (pos : Position) (scope : ScopeRef) (m : Machine) :
    lookup name pos scope m = (m.store.lookup? scope name).elim
      (.error (.error ⟨.undefinedVariable name, some pos⟩) m) (.ok · m) := by
  rw [lookup, get_bind]
  cases m.store.lookup? scope name <;> rfl

/-- A change of a variable changes the nearest binding; without one it is an error, and the
machine is as before. -/
theorem assign_eq (name : String) (value : Value) (pos : Position) (scope : ScopeRef)
    (m : Machine) : assign name value pos scope m = (m.store.assign? scope name value).elim
      (.error (.error ⟨.undefinedVariable name, some pos⟩) m) (.ok ⟨⟩ ⟨·, m.sink⟩) := by
  rw [Store.assign?]
  cases hresolve : m.store.resolve? scope name with
  | none => exact assign_of_unresolved hresolve value pos
  | some found => exact assign_of_resolve? hresolve value pos

end Eval

/-- **Names follow the chain of scopes.** Whatever has been done to a tree of scopes, from
each of them the walk outwards ends. A name has the value last written to the nearest binding
on the way, and none iff no scope on the way binds it; then a program that reads or changes it
fails with an undefined variable and has changed nothing. A change succeeds iff the name has a
value. It sets the nearest binding and no other, and it is seen from those scopes whose nearest
binding is the same one. A definition sets the binding in its own scope and no other. -/
theorem ScopeHistory.names_follow_chains {n : Nat} (h : ScopeHistory n) (r : ScopeRef)
    (hr : r.index < n) (x : String) :
    h.store.Chain r (h.chain r) ∧
    h.store.lookup? r x = (h.nearest? r x).bind (h.written · x) ∧
    (h.store.lookup? r x = none ↔ ∀ q ∈ h.chain r, h.binds q x = false) ∧
    (∀ sink pos, Eval.lookup x pos r ⟨h.store, sink⟩ = (h.store.lookup? r x).elim
      (.error (.error ⟨.undefinedVariable x, some pos⟩) ⟨h.store, sink⟩)
      (.ok · ⟨h.store, sink⟩)) ∧
    ∀ value,
      (h.store.assign? r x value).isSome = (h.store.lookup? r x).isSome ∧
      (∀ sink pos, Eval.assign x value pos r ⟨h.store, sink⟩ = (h.store.assign? r x value).elim
        (.error (.error ⟨.undefinedVariable x, some pos⟩) ⟨h.store, sink⟩)
        (.ok ⟨⟩ ⟨·, sink⟩)) ∧
      (∀ s', h.store.assign? r x value = some s' → ∃ owner, h.nearest? r x = some owner ∧
        h.store.Sets s' owner x value ∧
        ∀ q y, q.index < n → s'.lookup? q y =
          if h.nearest? q y = some owner ∧ y = x then some value else h.store.lookup? q y) ∧
      h.store.Sets (h.store.define r x value) r x value := by
  refine ⟨h.chain_store hr, h.lookup?_store hr x, h.lookup?_eq_none_iff hr x,
    fun sink pos => Eval.lookup_eq x pos r _, fun value => ⟨?_, ?_, ?_, ?_⟩⟩
  · rw [Store.assign?, Store.lookup?, Option.isSome_map, Option.isSome_map]
  · exact fun sink pos => Eval.assign_eq x value pos r _
  · intro s' hs'
    cases hnearest : h.nearest? r x with
    | none =>
      rw [h.assign?_of_nearest?_eq_none hr hnearest] at hs'
      cases hs'
    | some owner =>
      obtain ⟨s'', hs'', hsets, hseen⟩ := h.assign?_of_nearest? hr hnearest value
      rw [hs''] at hs'
      cases hs'
      exact ⟨owner, rfl, hsets, hseen⟩
  · exact Store.sets_define (by rwa [h.size_store]) x value

/-- A name changed from the inside and then defined there as well: the outer binding keeps the
value of the change. -/
theorem ScopeHistory.names_follow_chains_shadowed :
    let changed := (ScopeHistory.root.define ⟨0⟩ Nat.one_pos "x" (.bool true)).enclose ⟨0⟩
      Nat.one_pos |>.assign ⟨1⟩ Nat.one_lt_two "x" (.bool false)
    let h := changed.define ⟨1⟩ Nat.one_lt_two "x" .null
    (⟨1⟩ : ScopeRef).index < 2 ∧ (⟨0⟩ : ScopeRef).index < 2 ∧
      h.store.lookup? ⟨1⟩ "x" = some .null ∧ h.store.lookup? ⟨0⟩ "x" = some (.bool false) := by
  intro changed h
  have hinner : (⟨1⟩ : ScopeRef).index < 2 := by decide
  have houter : (⟨0⟩ : ScopeRef).index < 2 := by decide
  refine ⟨hinner, houter, ?_, ?_⟩
  · rw [(h.names_follow_chains ⟨1⟩ hinner "x").2.1]
    rfl
  · rw [(h.names_follow_chains ⟨0⟩ houter "x").2.1]
    rfl

end CalcScript
