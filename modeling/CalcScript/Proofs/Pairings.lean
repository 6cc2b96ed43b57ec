/-
`Proofs/Pairings.lean` -- stores that are equal up to the names of things.

The numbers of labels, and the places of arrays, functions, labels and scopes in their tables,
are names: what a store stands for does not depend on them. A `Pairing` gives the things of one
store partners in another, one to one. It holds of the two stores (`Pairing.Holds`) if partners
are equal but for what they refer to, and that again are partners. Things without a partner may
be anything; nothing leads from a pair to one of them.

A new thing is paired with a new thing, so the pairing grows with the stores. What can be seen of
a value does not change with its names: its truth, its text (`Holds.text_eq`) and whether it is
equal to another (`Holds.equal_eq`). The last two walk through arrays within a bound that depends
on the size of the store, and the two stores differ in size; but each bound is sufficient.
-/
import CalcScript.Proofs.Bisimilarity
import CalcScript.Proofs.Containment
import CalcScript.Proofs.ScopeTree
import Mathlib.Data.List.Forall2

set_option autoImplicit false

namespace CalcScript

/-! ## 1. Partners -/

/-- A relation between numbers that gives none of them two partners. -/
structure OneToOne where
  rel : Nat → Nat → Prop
  unique {i j i' j' : Nat} : rel i j → rel i' j' → (i = i' ↔ j = j')

namespace OneToOne

instance : LE OneToOne := ⟨fun ρ σ => ∀ i j, ρ.rel i j → σ.rel i j⟩

/-- Nothing has a partner. -/
protected def none : OneToOne := ⟨fun _ _ => False, fun h => h.elim⟩

variable (ρ : OneToOne)

/-- Makes two numbers partners of each other and of nothing else. -/
def adjoin (i j : Nat) : OneToOne where
  rel x y := (ρ.rel x y ∧ x ≠ i ∧ y ≠ j) ∨ (x = i ∧ y = j)
  unique := by
    rintro x y x' y' (⟨h, hx, hy⟩ | ⟨rfl, rfl⟩) (⟨h', hx', hy'⟩ | ⟨rfl, rfl⟩)
    · exact ρ.unique h h'
    · simp [hx, hy]
    · simp [hx'.symm, hy'.symm]
    · simp

theorem adjoin_self (i j : Nat) : (ρ.adjoin i j).rel i j := .inr ⟨rfl, rfl⟩

variable {ρ} in
/-- Numbers that have no partner yet can be made partners of each other. -/
theorem le_adjoin {i j : Nat} (h : ∀ x y, ρ.rel x y → x < i ∧ y < j) : ρ ≤ ρ.adjoin i j := by
  intro x y hxy
  obtain ⟨hx, hy⟩ := h x y hxy
  exact .inl ⟨hxy, by omega, by omega⟩

end OneToOne

/-- Partners have entries in the two tables, and these are related. -/
def Linked {α : Type} (ρ : OneToOne) (E : α → α → Prop) (xs ys : Array α) : Prop :=
  ∀ i j, ρ.rel i j → ∃ x y, xs[i]? = some x ∧ ys[j]? = some y ∧ E x y

namespace Linked

variable {α : Type} {ρ : OneToOne} {E E' : α → α → Prop} {xs ys : Array α} {x y : α}

theorem lt (h : Linked ρ E xs ys) (i j : Nat) (hij : ρ.rel i j) : i < xs.size ∧ j < ys.size := by
  obtain ⟨x, y, hx, hy, -⟩ := h i j hij
  exact ⟨(Array.getElem?_eq_some_iff.mp hx).1, (Array.getElem?_eq_some_iff.mp hy).1⟩

theorem imp (h : Linked ρ E xs ys) (hE : ∀ x y, E x y → E' x y) : Linked ρ E' xs ys := by
  intro i j hij
  obtain ⟨x, y, hx, hy, hxy⟩ := h i j hij
  exact ⟨x, y, hx, hy, hE x y hxy⟩

/-- Entries that are added behind the others become partners. -/
theorem push (h : Linked ρ E xs ys) (hxy : E x y) :
    Linked (ρ.adjoin xs.size ys.size) E (xs.push x) (ys.push y) := by
  rintro i j (⟨hij, hi, hj⟩ | ⟨rfl, rfl⟩)
  · obtain ⟨a, b, ha, hb, hab⟩ := h i j hij
    exact ⟨a, b, by rw [Array.getElem?_push, if_neg hi, ha],
      by rw [Array.getElem?_push, if_neg hj, hb], hab⟩
  · exact ⟨x, y, Array.getElem?_push_size, Array.getElem?_push_size, hxy⟩

/-- An entry on one side alone has no partner. -/
theorem push_right (h : Linked ρ E xs ys) (y : α) : Linked ρ E xs (ys.push y) := by
  intro i j hij
  obtain ⟨a, b, ha, hb, hab⟩ := h i j hij
  have hj : j ≠ ys.size := Nat.ne_of_lt (h.lt i j hij).2
  exact ⟨a, b, ha, by rw [Array.getElem?_push, if_neg hj, hb], hab⟩

/-- An entry without a partner may be changed in any way. -/
theorem modify_right (h : Linked ρ E xs ys) {j : Nat} (hj : ∀ i, ¬ ρ.rel i j) {g : α → α} :
    Linked ρ E xs (ys.modify j g) := by
  intro i' j' hij'
  obtain ⟨a, b, ha, hb, hab⟩ := h i' j' hij'
  have hne : j ≠ j' := by
    rintro rfl
    exact hj i' hij'
  exact ⟨a, b, ha, by rw [Array.getElem?_modify, if_neg hne, hb], hab⟩

/-- Partners may be changed in the same way. -/
theorem modify (h : Linked ρ E xs ys) {i j : Nat} (hij : ρ.rel i j) {f g : α → α}
    (hfg : ∀ x y, E x y → E (f x) (g y)) : Linked ρ E (xs.modify i f) (ys.modify j g) := by
  intro i' j' hij'
  obtain ⟨a, b, ha, hb, hab⟩ := h i' j' hij'
  rw [Array.getElem?_modify, Array.getElem?_modify, ha, hb]
  by_cases hi : i = i'
  · have hj : j = j' := (ρ.unique hij hij').mp hi
    rw [if_pos hi, if_pos hj]
    exact ⟨f a, g b, rfl, rfl, hfg a b hab⟩
  · have hj : j ≠ j' := fun hj => hi ((ρ.unique hij hij').mpr hj)
    rw [if_neg hi, if_neg hj]
    exact ⟨a, b, rfl, rfl, hab⟩

end Linked

/-! ## 2. Pairings of stores -/

/-- Partners among the arrays, functions, labels and scopes of two stores, by their places, and
among the numbers of labels. -/
structure Pairing where
  array : OneToOne
  closure : OneToOne
  label : OneToOne
  scope : OneToOne
  id : OneToOne

namespace Pairing

/-- The second pairing keeps all partners of the first. -/
structure Grows (R R' : Pairing) : Prop where
  array : R.array ≤ R'.array
  closure : R.closure ≤ R'.closure
  label : R.label ≤ R'.label
  scope : R.scope ≤ R'.scope
  id : R.id ≤ R'.id

instance : LE Pairing := ⟨Grows⟩

variable {R R' R'' : Pairing}

theorem le_refl (R : Pairing) : R ≤ R :=
  ⟨fun _ _ h => h, fun _ _ h => h, fun _ _ h => h, fun _ _ h => h, fun _ _ h => h⟩

theorem le_trans (h : R ≤ R') (h' : R' ≤ R'') : R ≤ R'' :=
  ⟨fun i j hij => h'.array i j (h.array i j hij), fun i j hij => h'.closure i j (h.closure i j hij),
    fun i j hij => h'.label i j (h.label i j hij), fun i j hij => h'.scope i j (h.scope i j hij),
    fun i j hij => h'.id i j (h.id i j hij)⟩

/-- The values are the same, or refer to partners. -/
inductive Alike (R : Pairing) : Value → Value → Prop
  | number (x : Float) : Alike R (.number x) (.number x)
  | bool (b : Bool) : Alike R (.bool b) (.bool b)
  | null : Alike R .null .null
  | str (s : String) : Alike R (.str s) (.str s)
  | array {r r' : ArrayRef} (h : R.array.rel r.index r'.index) : Alike R (.array r) (.array r')
  | closure {r r' : ClosureRef} (h : R.closure.rel r.index r'.index) :
    Alike R (.closure r) (.closure r')
  | primitive (p : Primitive) : Alike R (.primitive p) (.primitive p)
  | label {r r' : LabelRef} (h : R.label.rel r.index r'.index) : Alike R (.label r) (.label r')

/-- Values in the same order. -/
def Lists (R : Pairing) : List Value → List Value → Prop := List.Forall₂ R.Alike

/-- The same names, with values that are alike, in the same order. -/
def Binds (R : Pairing) : Bindings → Bindings → Prop :=
  List.Forall₂ fun b b' => b.1 = b'.1 ∧ R.Alike b.2 b'.2

structure Closures (R : Pairing) (c c' : Closure) : Prop where
  params_eq : c.params = c'.params
  body_eq : c.body = c'.body
  scope : R.scope.rel c.scope.index c'.scope.index

structure Labels (R : Pairing) (l l' : Label) : Prop where
  name_eq : l.name = l'.name
  active_eq : l.active = l'.active
  id : R.id.rel l.id l'.id

structure Scopes (R : Pairing) (scope scope' : Scope) : Prop where
  parent : Option.Rel (fun r r' => R.scope.rel r.index r'.index) scope.parent scope'.parent
  bindings : R.Binds scope.bindings scope'.bindings

/-! A larger pairing makes more values alike. -/

theorem Alike.mono (hle : R ≤ R') {v v' : Value} (h : R.Alike v v') : R'.Alike v v' := by
  cases h with
  | number x => exact .number x
  | bool b => exact .bool b
  | null => exact .null
  | str s => exact .str s
  | array h => exact .array (hle.array _ _ h)
  | closure h => exact .closure (hle.closure _ _ h)
  | primitive p => exact .primitive p
  | label h => exact .label (hle.label _ _ h)

theorem Lists.mono (hle : R ≤ R') {xs ys : List Value} (h : R.Lists xs ys) : R'.Lists xs ys :=
  List.Forall₂.imp (fun _ _ hxy => hxy.mono hle) h

theorem Binds.mono (hle : R ≤ R') {bs bs' : Bindings} (h : R.Binds bs bs') : R'.Binds bs bs' :=
  List.Forall₂.imp (fun _ _ hb => ⟨hb.1, hb.2.mono hle⟩) h

theorem Closures.mono (hle : R ≤ R') {c c' : Closure} (h : R.Closures c c') : R'.Closures c c' :=
  ⟨h.params_eq, h.body_eq, hle.scope _ _ h.scope⟩

theorem Labels.mono (hle : R ≤ R') {l l' : Label} (h : R.Labels l l') : R'.Labels l l' :=
  ⟨h.name_eq, h.active_eq, hle.id _ _ h.id⟩

theorem Scopes.mono (hle : R ≤ R') {scope scope' : Scope} (h : R.Scopes scope scope') :
    R'.Scopes scope scope' := by
  obtain ⟨parent, bindings⟩ := scope
  obtain ⟨parent', bindings'⟩ := scope'
  refine ⟨?_, h.bindings.mono hle⟩
  cases h.parent with
  | some hparent => exact .some (hle.scope _ _ hparent)
  | none => exact .none

end Pairing

/-- Partners are equal in the two stores but for what they refer to, which are partners again.
The counters are above all numbers with a partner. -/
structure Pairing.Holds (R : Pairing) (s s' : Store) : Prop where
  arrays : Linked R.array (fun xs ys => R.Lists xs.toList ys.toList) s.arrays s'.arrays
  closures : Linked R.closure R.Closures s.closures s'.closures
  labels : Linked R.label R.Labels s.labels s'.labels
  scopes : Linked R.scope R.Scopes s.scopes s'.scopes
  ids (i j : Nat) : R.id.rel i j → i < s.nextLabel ∧ j < s'.nextLabel
  nested : s.Nested
  nested' : s'.Nested

/-! ## 3. New things and changes -/

namespace Pairing

variable {R : Pairing} {s s' : Store}

def withArray (R : Pairing) (i j : Nat) : Pairing := { R with array := R.array.adjoin i j }

def withClosure (R : Pairing) (i j : Nat) : Pairing := { R with closure := R.closure.adjoin i j }

def withLabel (R : Pairing) (i j id id' : Nat) : Pairing :=
  { R with label := R.label.adjoin i j, id := R.id.adjoin id id' }

def withScope (R : Pairing) (i j : Nat) : Pairing := { R with scope := R.scope.adjoin i j }

namespace Holds

/-- Under a larger pairing the entries of old partners are still related. -/
theorem entries (h : R.Holds s s') {R' : Pairing} (hle : R ≤ R') :
    Linked R.array (fun xs ys => R'.Lists xs.toList ys.toList) s.arrays s'.arrays ∧
      Linked R.closure R'.Closures s.closures s'.closures ∧
      Linked R.label R'.Labels s.labels s'.labels ∧
      Linked R.scope R'.Scopes s.scopes s'.scopes :=
  ⟨h.arrays.imp fun _ _ hxy => hxy.mono hle, h.closures.imp fun _ _ hc => hc.mono hle,
    h.labels.imp fun _ _ hl => hl.mono hle, h.scopes.imp fun _ _ hscope => hscope.mono hle⟩

theorem newArray (h : R.Holds s s') {xs ys : Array Value} (hitems : R.Lists xs.toList ys.toList) :
    ∃ R', R ≤ R' ∧ R'.Holds (s.newArray xs).2 (s'.newArray ys).2 ∧
      R'.Alike (.array (s.newArray xs).1) (.array (s'.newArray ys).1) := by
  have hle : R ≤ R.withArray s.arrays.size s'.arrays.size :=
    { le_refl R with array := OneToOne.le_adjoin h.arrays.lt }
  obtain ⟨harrays, hclosures, hlabels, hscopes⟩ := h.entries hle
  have harrays' := harrays.push (hitems.mono hle)
  exact ⟨_, hle, ⟨harrays', hclosures, hlabels, hscopes, h.ids, h.nested, h.nested'⟩,
    .array (OneToOne.adjoin_self _ _ _)⟩

theorem newClosure (h : R.Holds s s') {c c' : Closure} (hc : R.Closures c c') :
    ∃ R', R ≤ R' ∧ R'.Holds (s.newClosure c).2 (s'.newClosure c').2 ∧
      R'.Alike (.closure (s.newClosure c).1) (.closure (s'.newClosure c').1) := by
  have hle : R ≤ R.withClosure s.closures.size s'.closures.size :=
    { le_refl R with closure := OneToOne.le_adjoin h.closures.lt }
  obtain ⟨harrays, hclosures, hlabels, hscopes⟩ := h.entries hle
  have hclosures' := hclosures.push (hc.mono hle)
  exact ⟨_, hle, ⟨harrays, hclosures', hlabels, hscopes, h.ids, h.nested, h.nested'⟩,
    .closure (OneToOne.adjoin_self _ _ _)⟩

theorem newScope (h : R.Holds s s') {parent parent' : ScopeRef} {bs bs' : Bindings}
    (hparent : R.scope.rel parent.index parent'.index) (hbindings : R.Binds bs bs') :
    ∃ R', R ≤ R' ∧
      R'.Holds (s.newScope (some parent) bs).2 (s'.newScope (some parent') bs').2 ∧
      R'.scope.rel (s.newScope (some parent) bs).1.index
        (s'.newScope (some parent') bs').1.index := by
  have hle : R ≤ R.withScope s.scopes.size s'.scopes.size :=
    { le_refl R with scope := OneToOne.le_adjoin h.scopes.lt }
  have hscope : R.Scopes ⟨some parent, bs⟩ ⟨some parent', bs'⟩ := ⟨.some hparent, hbindings⟩
  obtain ⟨hlt, hlt'⟩ := h.scopes.lt _ _ hparent
  obtain ⟨harrays, hclosures, hlabels, hscopes⟩ := h.entries hle
  have hscopes' := hscopes.push (hscope.mono hle)
  exact ⟨_, hle, ⟨harrays, hclosures, hlabels, hscopes', h.ids, h.nested.newScope hlt bs,
    h.nested'.newScope hlt' bs'⟩, OneToOne.adjoin_self _ _ _⟩

/-- A label for a block run has the next free number on each side. -/
theorem openLabel (h : R.Holds s s') (name : Option String) :
    ∃ R', R ≤ R' ∧ R'.Holds (s.openLabel name).2 (s'.openLabel name).2 ∧
      R'.label.rel s.nextRef.index s'.nextRef.index ∧ R'.id.rel s.nextLabel s'.nextLabel := by
  have hle : R ≤ R.withLabel s.labels.size s'.labels.size s.nextLabel s'.nextLabel :=
    { le_refl R with
      label := OneToOne.le_adjoin h.labels.lt
      id := OneToOne.le_adjoin h.ids }
  obtain ⟨harrays, hclosures, hlabels, hscopes⟩ := h.entries hle
  refine ⟨_, hle, ⟨harrays, hclosures, ?_, hscopes, ?_, h.nested, h.nested'⟩,
    OneToOne.adjoin_self _ _ _, OneToOne.adjoin_self _ _ _⟩
  · exact hlabels.push ⟨rfl, rfl, OneToOne.adjoin_self _ _ _⟩
  · rintro i j (⟨hij, -, -⟩ | ⟨rfl, rfl⟩)
    · obtain ⟨hi, hj⟩ := h.ids i j hij
      exact ⟨Nat.lt_succ_of_lt hi, Nat.lt_succ_of_lt hj⟩
    · exact ⟨Nat.lt_succ_self _, Nat.lt_succ_self _⟩

theorem closeLabel (h : R.Holds s s') {r r' : LabelRef} (hr : R.label.rel r.index r'.index) :
    R.Holds (s.closeLabel r) (s'.closeLabel r') :=
  { h with labels := h.labels.modify hr fun _ _ hl => ⟨hl.name_eq, rfl, hl.id⟩ }

theorem modifyArray (h : R.Holds s s') {r r' : ArrayRef} (hr : R.array.rel r.index r'.index)
    {f g : Array Value → Array Value}
    (hfg : ∀ xs ys : Array Value, R.Lists xs.toList ys.toList →
      R.Lists (f xs).toList (g ys).toList) :
    R.Holds (s.modifyArray r f) (s'.modifyArray r' g) :=
  { h with arrays := h.arrays.modify hr hfg }

end Holds

theorem Binds.insert {bs bs' : Bindings} (h : R.Binds bs bs') (name : String) {v v' : Value}
    (hv : R.Alike v v') : R.Binds (bs.insert name v) (bs'.insert name v') := by
  induction h with
  | nil => exact .cons ⟨rfl, hv⟩ .nil
  | @cons b b' bs bs' hb _ ih =>
    obtain ⟨n, w⟩ := b
    obtain ⟨n', w'⟩ := b'
    obtain rfl : n = n' := hb.1
    rw [Bindings.insert, Bindings.insert]
    by_cases hn : n = name
    · rw [if_pos hn, if_pos hn]
      exact .cons ⟨rfl, hv⟩ ‹_›
    · rw [if_neg hn, if_neg hn]
      exact .cons ⟨rfl, hb.2⟩ ih

theorem Holds.define (h : R.Holds s s') {r r' : ScopeRef} (hr : R.scope.rel r.index r'.index)
    (name : String) {v v' : Value} (hv : R.Alike v v') :
    R.Holds (s.define r name v) (s'.define r' name v') :=
  { h with
    scopes := h.scopes.modify hr fun _ _ hscope => ⟨hscope.parent, hscope.bindings.insert name hv⟩
    nested := h.nested.define r name v
    nested' := h.nested'.define r' name v' }

/-- The bindings of a call, from parameters with their arguments, over what is bound already. -/
theorem Binds.frame (params : List String) {args args' : List Value} (h : R.Lists args args') :
    R.Binds (Eval.frame params args) (Eval.frame params args') := by
  have hfold : ∀ (params : List String) {args args' : List Value}, R.Lists args args' →
      ∀ {bs bs' : Bindings}, R.Binds bs bs' →
      R.Binds ((params.zip args).foldl (fun bs b => Bindings.insert b.1 b.2 bs) bs)
        ((params.zip args').foldl (fun bs b => Bindings.insert b.1 b.2 bs) bs') := by
    intro params
    induction params with
    | nil => exact fun _ _ _ hbs => hbs
    | cons name params ih =>
      intro args args' hargs bs bs' hbs
      cases hargs with
      | nil => exact hbs
      | cons hv hargs => exact ih hargs (hbs.insert name hv)
  exact hfold params h .nil

/-! ## 4. Looking at values -/

section Looking

variable {v v' w w' : Value}

theorem Alike.toNumber_eq (h : R.Alike v v') : v.toNumber = v'.toNumber := by
  cases h <;> rfl

theorem Alike.toIndex_eq (h : R.Alike v v') (what : Indexed) :
    v.toIndex what = v'.toIndex what := by
  rw [Value.toIndex, Value.toIndex, h.toNumber_eq]

theorem Alike.toLength_eq (h : R.Alike v v') : Primitive.toLength v = Primitive.toLength v' := by
  rw [Primitive.toLength, Primitive.toLength, h.toNumber_eq]

/-- Partners have the same number of elements, which are alike. -/
theorem Holds.items (h : R.Holds s s') {r r' : ArrayRef} (hr : R.array.rel r.index r'.index) :
    R.Lists (s.items r).toList (s'.items r').toList := by
  obtain ⟨xs, ys, hxs, hys, hlists⟩ := h.arrays _ _ hr
  rw [Store.items, Store.items, Array.getD_eq_getD_getElem?, Array.getD_eq_getD_getElem?, hxs, hys]
  exact hlists

theorem Holds.size_eq (h : R.Holds s s') {r r' : ArrayRef} (hr : R.array.rel r.index r'.index) :
    (s.items r).size = (s'.items r').size := by
  have hlength := (h.items hr).length_eq
  rwa [Array.length_toList, Array.length_toList] at hlength

theorem Holds.truthy_eq (h : R.Holds s s') (hv : R.Alike v v') : s.truthy v = s'.truthy v' := by
  cases hv with
  | array hr =>
    have hsize := h.size_eq hr
    rw [Store.truthy, Store.truthy, Array.isEmpty, Array.isEmpty, hsize]
  | _ => rfl

theorem Binds.lookup {bs bs' : Bindings} (h : R.Binds bs bs') (name : String) :
    Option.Rel R.Alike (bs.lookup name) (bs'.lookup name) := by
  induction h with
  | nil => exact .none
  | @cons b b' bs bs' hb _ ih =>
    obtain ⟨n, w⟩ := b
    obtain ⟨n', w'⟩ := b'
    obtain rfl : n = n' := hb.1
    rw [List.lookup_cons, List.lookup_cons]
    cases name == n with
    | true => exact .some hb.2
    | false => exact ih

/-- A name leads from partners to partners. Both walks are long enough, because each step goes to
an older scope. The induction is on the length of the first. -/
theorem Holds.resolveWithin (h : R.Holds s s') (name : String) {n n' : Nat} {r r' : ScopeRef}
    (hr : R.scope.rel r.index r'.index) (hn : r.index < n) (hn' : r'.index < n') :
    Option.Rel (fun x x' => R.scope.rel x.1.index x'.1.index ∧ R.Alike x.2 x'.2)
      (s.resolveWithin name n r) (s'.resolveWithin name n' r') := by
  induction n generalizing n' r r' with
  | zero => omega
  | succ n ih =>
    cases n' with
    | zero => omega
    | succ n' =>
      -- partners bind the same names, and to values that are alike
      obtain ⟨scope, scope', hscope, hscope', hscopes⟩ := h.scopes _ _ hr
      have hget : s.scope? r = some scope := hscope
      have hget' : s'.scope? r' = some scope' := hscope'
      have hlookup := hscopes.bindings.lookup name
      have hparent := hscopes.parent
      rw [Store.resolveWithin, Store.resolveWithin, hget, hget']
      dsimp only
      generalize scope.bindings.lookup name = found at hlookup ⊢
      generalize scope'.bindings.lookup name = found' at hlookup ⊢
      cases hlookup with
      | some hv => exact .some ⟨hr, hv⟩
      | none =>
        generalize hp : scope.parent = parent at hparent ⊢
        generalize hp' : scope'.parent = parent' at hparent ⊢
        cases hparent with
        | none => exact .none
        | some hparent =>
          -- else both go on in their parents, which are partners and lie below
          have hlt := h.nested _ _ _ hscope hp
          have hlt' := h.nested' _ _ _ hscope' hp'
          exact ih hparent (by omega) (by omega)

theorem Holds.resolve? (h : R.Holds s s') (name : String) {r r' : ScopeRef}
    (hr : R.scope.rel r.index r'.index) :
    Option.Rel (fun x x' => R.scope.rel x.1.index x'.1.index ∧ R.Alike x.2 x'.2)
      (s.resolve? r name) (s'.resolve? r' name) :=
  h.resolveWithin name hr (Nat.lt_succ_self _) (Nat.lt_succ_self _)

end Looking

end Pairing

/-! ## 5. Texts -/

namespace Pairing

variable {R : Pairing} {s s' : Store}

theorem map_eq_of_forall₂ {α β γ : Type} {P : α → β → Prop} {xs : List α} {ys : List β}
    (h : List.Forall₂ P xs ys) {f : α → γ} {g : β → γ} (hfg : ∀ x y, P x y → f x = g y) :
    xs.map f = ys.map g := by
  have hmap : List.Forall₂ Eq (xs.map f) (ys.map g) := List.rel_map hfg h
  rwa [List.forall₂_eq_eq_eq] at hmap

/-- Arrays that are partners, in the same order. -/
def Arrays (R : Pairing) : List ArrayRef → List ArrayRef → Prop :=
  List.Forall₂ fun r r' => R.array.rel r.index r'.index

theorem array_eq_iff {a b a' b' : ArrayRef} (ha : R.array.rel a.index a'.index)
    (hb : R.array.rel b.index b'.index) : a = b ↔ a' = b' := by
  rw [ArrayRef.ext_iff, ArrayRef.ext_iff, R.array.unique ha hb]

theorem Arrays.mem_iff {rs rs' : List ArrayRef} (h : R.Arrays rs rs') {r r' : ArrayRef}
    (hr : R.array.rel r.index r'.index) : r ∈ rs ↔ r' ∈ rs' := by
  induction h with
  | nil => simp
  | cons hab _ ih => rw [List.mem_cons, List.mem_cons, ih, array_eq_iff hr hab]

/-- Values that are alike have the same text, inside arrays that are partners. The two walks have
different bounds, both large enough. The induction is on the first bound. -/
theorem Holds.textWithin_eq (h : R.Holds s s') {n n' : Nat} {opened opened' : List ArrayRef}
    (hopened : R.Arrays opened opened') (hroom : s.Room n opened) (hroom' : s'.Room n' opened')
    {v v' : Value} (hv : R.Alike v v') :
    s.textWithin n opened v = s'.textWithin n' opened' v' := by
  induction n generalizing n' opened opened' v v' with
  | zero => exact absurd hroom.pos (Nat.lt_irrefl 0)
  | succ n ih =>
    cases n' with
    | zero => exact absurd hroom'.pos (Nat.lt_irrefl 0)
    | succ n' =>
      cases hv with
      | number _ | null | str _ | primitive _ => simp only [Store.textWithin]
      | bool b => cases b <;> simp only [Store.textWithin]
      | @closure r r' hr =>
        obtain ⟨c, c', hc, hc', hcc⟩ := h.closures _ _ hr
        have hget : s.closure? r = some c := hc
        have hget' : s'.closure? r' = some c' := hc'
        simp only [Store.textWithin, hget, hget', Option.elim_some, Closure.text, hcc.params_eq]
      | @label r r' hr =>
        obtain ⟨l, l', hl, hl', hll⟩ := h.labels _ _ hr
        have hget : s.label? r = some l := hl
        have hget' : s'.label? r' = some l' := hl'
        simp only [Store.textWithin, hget, hget', Option.elim_some, Label.text, hll.name_eq]
      | @array r r' hr =>
        -- a partner is open just if the array is, so the mark for cycles stands at the same places
        have hmem := hopened.mem_iff hr
        simp only [Store.textWithin, List.contains_iff_mem]
        by_cases hin : r ∈ opened
        · rw [if_pos hin, if_pos (hmem.mp hin)]
        · obtain ⟨hlt, hlt'⟩ := h.arrays.lt _ _ hr
          have hnext := hroom.cons hin hlt
          have hnext' := hroom'.cons (fun hin' => hin (hmem.mpr hin')) hlt'
          have htexts := map_eq_of_forall₂ (h.items hr) fun x y hxy =>
            ih (.cons hr hopened) hnext hnext' hxy
          rw [if_neg hin, if_neg fun hin' => hin (hmem.mpr hin'), htexts]

theorem Holds.text_eq (h : R.Holds s s') {v v' : Value} (hv : R.Alike v v') :
    s.text v = s'.text v' :=
  h.textWithin_eq .nil (.start s) (.start s') hv

theorem Holds.printed_eq (h : R.Holds s s') {vs vs' : List Value} (hvs : R.Lists vs vs') :
    Primitive.printed s vs = Primitive.printed s' vs' := by
  rw [Primitive.printed, Primitive.printed, map_eq_of_forall₂ hvs fun _ _ hv => h.text_eq hv]

/-! ## 6. Comparisons -/

/-- What is compared is alike. -/
inductive Comparisons (R : Pairing) : Comparison → Comparison → Prop
  | values {x x' y y'} (hx : R.Alike x x') (hy : R.Alike y y') :
    Comparisons R (.values x y) (.values x' y')
  | elements {xs xs' ys ys'} (hxs : R.Lists xs xs') (hys : R.Lists ys ys') :
    Comparisons R (.elements xs ys) (.elements xs' ys')

/-- Pairs of arrays that are partners, in the same order. -/
def Begun (R : Pairing) : Pairs → Pairs → Prop :=
  List.Forall₂ fun p p' => R.array.rel p.1.index p'.1.index ∧ R.array.rel p.2.index p'.2.index

theorem Begun.mem_iff {seen seen' : Pairs} (h : R.Begun seen seen') {a b a' b' : ArrayRef}
    (ha : R.array.rel a.index a'.index) (hb : R.array.rel b.index b'.index) :
    (a, b) ∈ seen ↔ (a', b') ∈ seen' := by
  induction h with
  | nil => simp
  | @cons p p' _ _ hp _ ih =>
    obtain ⟨c, d⟩ := p
    obtain ⟨c', d'⟩ := p'
    rw [List.mem_cons, List.mem_cons, ih, Prod.mk.injEq, Prod.mk.injEq, array_eq_iff ha hp.1,
      array_eq_iff hb hp.2]

/-- The same answer, or the same fault. -/
inductive Ends {ε : Type} (R : Pairing) :
    Except ε (Bool × Pairs) → Except ε (Bool × Pairs) → Prop
  | ok (same : Bool) {seen seen'} (h : R.Begun seen seen') :
    Ends R (.ok (same, seen)) (.ok (same, seen'))
  | error (e : ε) : Ends R (.error e) (.error e)

end Pairing

/-- A comparison of two arrays, by what it finds first. -/
theorem Compares.arrays_cases {ε : Type} {s : Store} {leaf : Value → Value → Except ε Bool}
    {a b : ArrayRef} {seen : Pairs} {answer : Except ε (Bool × Pairs)}
    (h : Compares s leaf (.values (.array a) (.array b)) seen answer) :
    ((a = b ∨ (a, b) ∈ seen) ∧ answer = .ok (true, seen)) ∨
      ((a ≠ b ∧ (a, b) ∉ seen) ∧
        (((s.items a).size ≠ (s.items b).size ∧ answer = .ok (false, (a, b) :: seen)) ∨
          ((s.items a).size = (s.items b).size ∧
            Compares s leaf (.elements (s.items a).toList (s.items b).toList) ((a, b) :: seen)
              answer))) := by
  cases h with
  | leaf hleaves => exact absurd ⟨rfl, rfl⟩ (hleaves a b)
  | identical => exact .inl ⟨.inl rfl, rfl⟩
  | begun hmem => exact .inl ⟨.inr hmem, rfl⟩
  | lengths hne hnew hsize => exact .inr ⟨⟨hne, hnew⟩, .inl ⟨hsize, rfl⟩⟩
  | arrays hne hnew hsize hrun => exact .inr ⟨⟨hne, hnew⟩, .inr ⟨hsize, hrun⟩⟩

namespace Pairing

variable {R : Pairing} {s s' : Store} {ε : Type} {leaf : Value → Value → Except ε Bool}

theorem Comparisons.arrays {a b : ArrayRef} {task : Comparison}
    (h : R.Comparisons (.values (.array a) (.array b)) task) :
    ∃ a' b', task = .values (.array a') (.array b') ∧
      R.array.rel a.index a'.index ∧ R.array.rel b.index b'.index := by
  cases h with
  | values hx hy =>
    cases hx with
    | array ha =>
      cases hy with
      | array hb => exact ⟨_, _, rfl, ha, hb⟩

/-- Comparisons of what is alike end alike. The induction is on the first run, and what it finds
at each step the second one finds too. -/
theorem Holds.compares (h : R.Holds s s')
    (hleaf : ∀ {x x' y y'}, R.Alike x x' → R.Alike y y' → leaf x y = leaf x' y')
    {task task' : Comparison} {seen seen' : Pairs} {answer answer' : Except ε (Bool × Pairs)}
    (hrun : Compares s leaf task seen answer) (htask : R.Comparisons task task')
    (hseen : R.Begun seen seen') (hrun' : Compares s' leaf task' seen' answer') :
    R.Ends answer answer' := by
  induction hrun generalizing task' seen' answer' with
  | @leaf x y seen hleaves =>
    cases htask with
    | @values _ x' _ y' hx hy =>
      cases hrun' with
      | leaf _ =>
        rw [hleaf hx hy]
        cases leaf x' y' with
        | ok same => exact .ok same hseen
        | error e => exact .error e
      | identical | begun _ | lengths _ _ _ | arrays _ _ _ _ =>
        cases hx
        cases hy
        exact absurd ⟨rfl, rfl⟩ (hleaves _ _)
  | identical =>
    obtain ⟨a', b', rfl, ha, hb⟩ := htask.arrays
    rcases hrun'.arrays_cases with ⟨-, rfl⟩ | ⟨⟨hne, -⟩, -⟩
    · exact .ok true hseen
    · exact absurd ((array_eq_iff ha hb).mp rfl) hne
  | begun hmem =>
    obtain ⟨a', b', rfl, ha, hb⟩ := htask.arrays
    rcases hrun'.arrays_cases with ⟨-, rfl⟩ | ⟨⟨-, hnew⟩, -⟩
    · exact .ok true hseen
    · exact absurd ((hseen.mem_iff ha hb).mp hmem) hnew
  | lengths hne hnew hsize =>
    obtain ⟨a', b', rfl, ha, hb⟩ := htask.arrays
    rw [Ne, array_eq_iff ha hb] at hne
    rw [hseen.mem_iff ha hb] at hnew
    rw [h.size_eq ha, h.size_eq hb] at hsize
    rcases hrun'.arrays_cases with ⟨hsame | hmem, -⟩ | ⟨-, ⟨-, rfl⟩ | ⟨heq, -⟩⟩
    · exact absurd hsame hne
    · exact absurd hmem hnew
    · exact .ok false (.cons ⟨ha, hb⟩ hseen)
    · exact absurd heq hsize
  | arrays hne hnew hsize _ ih =>
    obtain ⟨a', b', rfl, ha, hb⟩ := htask.arrays
    rw [Ne, array_eq_iff ha hb] at hne
    rw [hseen.mem_iff ha hb] at hnew
    rw [h.size_eq ha, h.size_eq hb] at hsize
    rcases hrun'.arrays_cases with ⟨hsame | hmem, -⟩ | ⟨-, ⟨hdiffer, -⟩ | ⟨-, hitems⟩⟩
    · exact absurd hsame hne
    · exact absurd hmem hnew
    · exact absurd hsize hdiffer
    · exact ih (.elements (h.items ha) (h.items hb)) (.cons ⟨ha, hb⟩ hseen) hitems
  | none =>
    cases htask with
    | elements hxs hys =>
      cases hxs
      cases hys
      cases hrun'
      exact .ok true hseen
  -- of two lists the first elements are compared first, and that ends alike
  | fails _ ih | differs _ ih =>
    cases htask with
    | elements hxs hys =>
      cases hxs with
      | cons hx hxs =>
        cases hys with
        | cons hy hys =>
          cases hrun' with
          | fails hfirst | differs hfirst | agrees hfirst _ =>
            cases ih (.values hx hy) hseen hfirst <;> constructor <;> assumption
  | agrees _ _ ih ihrest =>
    cases htask with
    | elements hxs hys =>
      cases hxs with
      | cons hx hxs =>
        cases hys with
        | cons hy hys =>
          cases hrun' with
          | fails hfirst | differs hfirst => cases ih (.values hx hy) hseen hfirst
          | agrees hfirst hrest =>
            cases ih (.values hx hy) hseen hfirst with
            | ok _ hbegun => exact ihrest (.elements hxs hys) hbegun hrest

theorem Alike.sameType?_eq {x x' y y' : Value} (hx : R.Alike x x') (hy : R.Alike y y') :
    x.sameType? y = x'.sameType? y' := by
  cases hx with
  | @closure r r' hr =>
    cases hy with
    | @closure q q' hq =>
      have hsame : (r == q) = (r' == q') := by
        rw [Bool.eq_iff_iff, beq_iff_eq, beq_iff_eq, ClosureRef.ext_iff, ClosureRef.ext_iff,
          R.closure.unique hr hq]
      exact congrArg some hsame
    | _ => rfl
  | @label r r' hr =>
    cases hy with
    | @label q q' hq =>
      have hsame : (r == q) = (r' == q') := by
        rw [Bool.eq_iff_iff, beq_iff_eq, beq_iff_eq, LabelRef.ext_iff, LabelRef.ext_iff,
          R.label.unique hr hq]
      exact congrArg some hsame
    | _ => rfl
  | _ => cases hy <;> rfl

theorem Alike.equalLeaf_eq {x x' y y' : Value} (hx : R.Alike x x') (hy : R.Alike y y') :
    x.equalLeaf y = x'.equalLeaf y' := by
  rw [Value.equalLeaf, Value.equalLeaf, hx.sameType?_eq hy, hx.toNumber_eq, hy.toNumber_eq]

/-- Whether values are equal does not depend on the names of what they refer to. -/
theorem Holds.equal_eq (h : R.Holds s s') {x x' y y' : Value} (hx : R.Alike x x')
    (hy : R.Alike y y') : s.equal x y = s'.equal x' y' := by
  obtain ⟨answer, hrun, hanswer⟩ := s.compare_compares Value.equalLeaf x y
  obtain ⟨answer', hrun', hanswer'⟩ := s'.compare_compares Value.equalLeaf x' y'
  rw [Store.equal, Store.equal, hanswer, hanswer']
  cases h.compares Alike.equalLeaf_eq hrun (.values hx hy) .nil hrun' <;> rfl

end Pairing

end CalcScript
