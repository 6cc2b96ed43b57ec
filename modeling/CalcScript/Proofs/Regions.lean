/-
`Proofs/Regions.lean` -- what an evaluation can get hold of.

A `Region` is a part of the store, with trees, that nothing inside it leads out of: the scope
around a scope of the region, the values bound there, the elements of its arrays, the scope
and the body of its functions are all in it (`Region.Holds`). What is made later is in it as
well. Evaluation of a tree of the region, in a scope of the region, stays inside: it starts
from values in it, and every step leads from there to values in it (`Region.Keeps`).

The region that matters is the one that a tree and a scope span (`Store.region`). So whatever
an evaluation comes to (`Point.Enters.inside`), it is a node of this tree or of the body of a
function that could be reached from this scope before.
-/
import CalcScript.Proofs.Activations
import CalcScript.Proofs.Lockstep
import CalcScript.Proofs.Scopes

set_option autoImplicit false

namespace CalcScript

open Eval

/-! ## 1. Nodes of trees and references in stores -/

/-- The expressions right below a node. -/
def Expr.children : Expr → List Expr
  | .literal _ | .primitive _ | .var .. => []
  | .array items => items
  | .store _ value | .update _ value _ => [value]
  | .seq first rest => [first, rest]
  | .and left right | .or left right => [left, right]
  | .cond condition consequent alternate => [condition, consequent, alternate]
  | .loop condition body => [condition, body]
  | .func _ body | .block _ body => [body]
  | .apply callee args _ => callee :: args

/-- The node occurs in the tree, at its root or anywhere below. -/
def Expr.Contains (e node : Expr) : Prop :=
  Relation.ReflTransGen (fun parent child => child ∈ parent.children) e node

/-- What references lead from and to. -/
inductive Entity where
  | scope (r : ScopeRef)
  | value (v : Value)

/-- The first has a reference to the second, in its entry of the store. -/
inductive Store.Refers (s : Store) : Entity → Entity → Prop
  | parent {r r' : ScopeRef} (h : s.parent? r = some r') : Refers s (.scope r) (.scope r')
  | bound {r : ScopeRef} {name : String} {v : Value} (h : s.local? r name = some v) :
    Refers s (.scope r) (.value v)
  | item {r : ArrayRef} {v : Value} (h : v ∈ s.items r) : Refers s (.value (.array r)) (.value v)
  | captured {r : ClosureRef} {c : Closure} (h : s.closure? r = some c) :
    Refers s (.value (.closure r)) (.scope c.scope)

def Store.Reaches (s : Store) (x y : Entity) : Prop := Relation.ReflTransGen s.Refers x y

/-! ## 2. Regions -/

/-- Trees, scopes, arrays and functions. -/
structure Region where
  tree : Expr → Prop
  scope : ScopeRef → Prop
  array : ArrayRef → Prop
  closure : ClosureRef → Prop
  tree_of_child {e child : Expr} : tree e → child ∈ e.children → tree child

namespace Region

variable {R : Region} {s : Store}

/-- Only arrays and functions lead on. -/
def value (R : Region) : Value → Prop
  | .array r => R.array r
  | .closure r => R.closure r
  | _ => True

/-- Nothing in the region leads out of it, and all that is not there yet is in it. -/
structure Holds (R : Region) (s : Store) : Prop where
  newScope {r : ScopeRef} : s.scopes.size ≤ r.index → R.scope r
  newArray {r : ArrayRef} : s.arrays.size ≤ r.index → R.array r
  newClosure {r : ClosureRef} : s.closures.size ≤ r.index → R.closure r
  parent {r r' : ScopeRef} : R.scope r → s.parent? r = some r' → R.scope r'
  bound {r : ScopeRef} {name : String} {v : Value} :
    R.scope r → s.local? r name = some v → R.value v
  item {r : ArrayRef} {v : Value} : R.array r → v ∈ s.items r → R.value v
  captured {r : ClosureRef} {c : Closure} : R.closure r → s.closure? r = some c → R.scope c.scope
  body {r : ClosureRef} {c : Closure} : R.closure r → s.closure? r = some c → R.tree c.body

namespace Holds

/-- Labels lead nowhere. -/
theorem of_eq {s' : Store} (h : R.Holds s) (harrays : s'.arrays = s.arrays)
    (hclosures : s'.closures = s.closures) (hscopes : s'.scopes = s.scopes) : R.Holds s' := by
  have hscope : ∀ r, s'.scope? r = s.scope? r := fun r => by rw [Store.scope?, hscopes]; rfl
  have hitems : ∀ r, s'.items r = s.items r := fun r => by rw [Store.items, harrays]; rfl
  have hclosure : ∀ r, s'.closure? r = s.closure? r := fun r => by
    rw [Store.closure?, hclosures]; rfl
  constructor
  · rw [hscopes]; exact h.newScope
  · rw [harrays]; exact h.newArray
  · rw [hclosures]; exact h.newClosure
  · simp only [Store.parent?, hscope]; exact h.parent
  · simp only [Store.local?, hscope]; exact h.bound
  · simp only [hitems]; exact h.item
  · simp only [hclosure]; exact h.captured
  · simp only [hclosure]; exact h.body

theorem define (h : R.Holds s) {value : Value} (hvalue : R.value value) (r : ScopeRef)
    (name : String) : R.Holds (s.define r name value) := by
  have hsize : (s.define r name value).scopes.size = s.scopes.size := Array.size_modify ..
  refine { h with newScope := fun hr => h.newScope (hsize ▸ hr), parent := ?_, bound := ?_ }
  · -- parents stay as they are
    intro r₁ r₂ hr₁ hparent
    refine h.parent hr₁ ?_
    rw [Store.parent?, Store.scope?_define] at hparent
    by_cases hr : r₁ = r
    · subst hr
      rw [if_pos rfl] at hparent
      rw [Store.parent?]
      cases hscope : s.scope? r₁ with
      | none => rw [hscope] at hparent; cases hparent
      | some scope => rw [hscope] at hparent; exact hparent
    · rwa [if_neg hr] at hparent
  · -- a binding is the new one or an old one
    intro r₁ name₁ v hr₁ hlocal
    rw [Store.local?, Store.scope?_define] at hlocal
    by_cases hr : r₁ = r
    · subst hr
      rw [if_pos rfl] at hlocal
      cases hscope : s.scope? r₁ with
      | none => rw [hscope] at hlocal; cases hlocal
      | some scope =>
        rw [hscope, Option.map_some, Option.bind_some, Bindings.lookup_insert] at hlocal
        by_cases hname : name₁ = name
        · rw [if_pos hname] at hlocal
          cases hlocal
          exact hvalue
        · rw [if_neg hname] at hlocal
          have hold : s.local? r₁ name₁ = some v := by
            rw [Store.local?, hscope]
            exact hlocal
          exact h.bound hr₁ hold
    · rw [if_neg hr] at hlocal
      exact h.bound hr₁ hlocal

theorem newScope_snd (h : R.Holds s) {parent : ScopeRef} (hparent : R.scope parent)
    {bindings : Bindings} (hbindings : ∀ name v, bindings.lookup name = some v → R.value v) :
    R.Holds (s.newScope (some parent) bindings).2 := by
  have hscope : ∀ r, (s.newScope (some parent) bindings).2.scope? r =
      if r.index = s.scopes.size then some ⟨some parent, bindings⟩ else s.scope? r := fun _ =>
    Array.getElem?_push ..
  refine { h with newScope := fun hr => h.newScope ?_, parent := ?_, bound := ?_ }
  · rw [Store.newScope, Array.size_push] at hr
    omega
  · intro r r' hr hparent'
    rw [Store.parent?, hscope] at hparent'
    by_cases hnew : r.index = s.scopes.size
    · rw [if_pos hnew] at hparent'
      cases hparent'
      exact hparent
    · rw [if_neg hnew] at hparent'
      exact h.parent hr hparent'
  · intro r name v hr hlocal
    rw [Store.local?, hscope] at hlocal
    by_cases hnew : r.index = s.scopes.size
    · rw [if_pos hnew] at hlocal
      exact hbindings name v hlocal
    · rw [if_neg hnew] at hlocal
      exact h.bound hr hlocal

theorem newClosure_snd (h : R.Holds s) {c : Closure} (hscope : R.scope c.scope)
    (hbody : R.tree c.body) : R.Holds (s.newClosure c).2 := by
  have hclosure : ∀ r, (s.newClosure c).2.closure? r =
      if r.index = s.closures.size then some c else s.closure? r := fun _ => Array.getElem?_push ..
  have hcases : ∀ {r c'}, (s.newClosure c).2.closure? r = some c' →
      c' = c ∨ s.closure? r = some c' := by
    intro r c' hc'
    rw [hclosure] at hc'
    split at hc'
    · exact .inl (Option.some.inj hc').symm
    · exact .inr hc'
  refine { h with newClosure := fun hr => h.newClosure ?_, captured := ?_, body := ?_ }
  · rw [Store.newClosure, Array.size_push] at hr
    omega
  · intro r c' hr hc'
    rcases hcases hc' with rfl | hold
    · exact hscope
    · exact h.captured hr hold
  · intro r c' hr hc'
    rcases hcases hc' with rfl | hold
    · exact hbody
    · exact h.body hr hold

theorem newArray_snd (h : R.Holds s) {items : Array Value} (hitems : ∀ v ∈ items, R.value v) :
    R.Holds (s.newArray items).2 := by
  refine { h with newArray := fun hr => h.newArray ?_, item := ?_ }
  · rw [Store.newArray, Array.size_push] at hr
    omega
  · intro r v hr hv
    rw [Store.newArray, Store.items, Array.getD_eq_getD_getElem?, Array.getElem?_push] at hv
    split at hv
    · exact hitems v hv
    · rw [← Array.getD_eq_getD_getElem?] at hv
      exact h.item hr hv

/-- An array of the region may get any elements that are in the region. -/
theorem modifyArray (h : R.Holds s) {r : ArrayRef} {f : Array Value → Array Value}
    (hf : ∀ v ∈ f (s.items r), R.value v) : R.Holds (s.modifyArray r f) := by
  have hsize : (s.modifyArray r f).arrays.size = s.arrays.size := Array.size_modify ..
  refine { h with newArray := fun hr => h.newArray (hsize ▸ hr), item := ?_ }
  intro r' v hr' hv
  rw [Store.modifyArray, Store.items, Array.getD_eq_getD_getElem?, Array.getElem?_modify] at hv
  by_cases hr : r.index = r'.index
  · rw [if_pos hr] at hv
    have heq : r' = r := by
      obtain ⟨i⟩ := r
      obtain ⟨j⟩ := r'
      exact ArrayRef.ext hr.symm
    subst heq
    cases hentry : s.arrays[r'.index]? with
    | none => rw [hentry] at hv; simp at hv
    | some items =>
      have hitems : s.items r' = items := by
        rw [Store.items, Array.getD_eq_getD_getElem?, hentry]
        rfl
      rw [hentry] at hv
      rw [hitems] at hf
      exact hf v hv
  · rw [if_neg hr, ← Array.getD_eq_getD_getElem?] at hv
    exact h.item hr' hv

/-- A name leads from a scope of the region to a scope and a value in it. -/
theorem resolveWithin (h : R.Holds s) {name : String} {n : Nat} {r owner : ScopeRef} {v : Value}
    (hr : R.scope r) (hresolve : s.resolveWithin name n r = some (owner, v)) :
    R.scope owner ∧ R.value v := by
  induction n generalizing r with
  | zero => cases hresolve
  | succ n ih =>
    rw [Store.resolveWithin] at hresolve
    cases hscope : s.scope? r with
    | none => rw [hscope] at hresolve; cases hresolve
    | some scope =>
      rw [hscope] at hresolve
      dsimp only at hresolve
      split at hresolve
      · next w hw =>
        cases hresolve
        exact ⟨hr, h.bound hr (by rw [Store.local?, hscope]; exact hw)⟩
      · split at hresolve
        · next parent hparent =>
          exact ih (h.parent hr (by rw [Store.parent?, hscope]; exact hparent)) hresolve
        · cases hresolve

end Holds

/-! ## 3. Built-in operations -/

/-- A result that, if there is one, has the property. -/
def Yields (P : Value → Prop) (r : Except Fault Value) : Prop := ∀ v, r = .ok v → P v

namespace Yields

variable {P : Value → Prop} {α : Type}

theorem ok {v : Value} (h : P v) : Yields P (.ok v) := by
  intro w hw
  cases hw
  exact h

theorem error {fault : Fault} : Yields P (.error fault) := fun _ h => nomatch h

theorem bind {x : Except Fault α} {f : α → Except Fault Value} (hf : ∀ a, Yields P (f a)) :
    Yields P (x >>= f) := by
  cases x with
  | ok a => exact hf a
  | error fault => exact error

theorem map {x : Except Fault α} {f : α → Value} (hf : ∀ a, P (f a)) : Yields P (x.map f) := by
  cases x with
  | ok a => exact ok (hf a)
  | error fault => exact error

end Yields

end Region

namespace Primitive

/-- What an operation can get hold of: its arguments, the elements of arrays among them, and values
that refer to nothing. -/
inductive Offers (s : Store) (args : List Value) : Value → Prop
  | number (x : Float) : Offers s args (.number x)
  | bool (b : Bool) : Offers s args (.bool b)
  | null : Offers s args .null
  | str (text : String) : Offers s args (.str text)
  | arg {v : Value} (hv : v ∈ args) : Offers s args v
  | item {r : ArrayRef} {v : Value} (hr : .array r ∈ args) (hv : v ∈ s.items r) : Offers s args v

/-- What an operation can do to a store: nothing, or it adds an array, or it changes one of its
arguments; and all that it puts there and answers with it has got hold of. -/
inductive Does (s : Store) (args : List Value) : Except Fault Value → Store → Prop
  | fails (fault : Fault) : Does s args (.error fault) s
  | reads {v : Value} (hv : Offers s args v) : Does s args (.ok v) s
  | makes {items : Array Value} (hitems : ∀ v ∈ items, Offers s args v) :
    Does s args (.ok (.array ⟨s.arrays.size⟩)) (s.newArray items).2
  | changes {r : ArrayRef} {f : Array Value → Array Value} {v : Value} (hr : .array r ∈ args)
    (hf : ∀ items, ∀ w ∈ f items, w ∈ items ∨ Offers s args w) (hv : Offers s args v) :
    Does s args (.ok v) (s.modifyArray r f)

namespace Does

variable {s : Store} {args : List Value}

theorem of_yields {r : Except Fault Value} (h : Region.Yields (Offers s args) r) :
    Does s args r s := by
  cases r with
  | ok v => exact .reads (h v rfl)
  | error fault => exact .fails fault

theorem arithmetic (op : Float → Float → Except Fault Float) (a b : Value) :
    Does s args (Primitive.arithmetic op a b) s :=
  of_yields (.bind fun _ => .bind fun _ => .bind fun _ => .ok (.number _))

theorem comparison (op : Float → Float → Bool) (a b : Value) :
    Does s args (Primitive.comparison op a b) s :=
  of_yields (.bind fun _ => .bind fun _ => .ok (.bool _))

theorem get {v : Value} (hv : v ∈ args) (index : Value) : Does s args (s.get v index) s := by
  refine of_yields ?_
  unfold Store.get
  split
  · refine .bind fun i => ?_
    dsimp only
    split
    · exact .ok (.number _)
    · exact .error
  · refine .bind fun i => ?_
    dsimp only
    split
    · next item hitem => exact .ok (.item hv (Array.mem_of_getElem? hitem))
    · exact .error
  · exact .error

theorem length (v : Value) : Does s args (Primitive.length s v) s := by
  refine of_yields ?_
  unfold Primitive.length
  split
  · exact .ok (.number _)
  · exact .ok (.number _)
  · exact .error

theorem output (m : Machine) (text : String) :
    Does m.store args (Primitive.output m text).1 (Primitive.output m text).2.store := by
  cases h : (m.sink.write text).1 with
  | ok =>
    rw [Primitive.output_of_ok h]
    exact .reads .null
  | error reason =>
    rw [Primitive.output_of_error h]
    exact .fails _

end Does

/-- A slot is one of the array that was asked for. -/
theorem slot_fst {s : Store} {v index : Value} {slot : ArrayRef × Nat}
    (h : s.slot v index = .ok slot) : v = .array slot.1 := by
  unfold Store.slot at h
  split at h
  · next r =>
    cases hindex : index.toIndex .array with
    | error fault => rw [hindex] at h; cases h
    | ok i =>
      rw [hindex] at h
      replace h : (if i < (s.items r).size then .ok (r, i)
        else .error (.outOfRange i (s.items r).size)) = (.ok slot : Except Fault _) := h
      split at h
      · cases h
        rfl
      · cases h
  · cases h
  · cases h

/-- **All that a built-in operation can do.** The cases are those of the operations. -/
theorem call_does (p : Primitive) (args : List Value) (m : Machine) :
    Does m.store args (p.call args m).1 (p.call args m).2.store := by
  unfold Primitive.call
  split
  -- numbers and truth values: nothing is taken from the store
  case h_1 | h_2 | h_3 | h_4 | h_5 | h_6 | h_7 => exact .arithmetic _ _ _
  case h_8 | h_9 => exact .of_yields (.map fun _ => .number _)
  case h_10 => exact .reads (.bool _)
  case h_11 | h_12 | h_13 | h_14 => exact .comparison _ _ _
  case h_15 | h_16 => exact .of_yields (.map fun _ => .bool _)
  case h_17 | h_18 => exact .output _ _
  case h_19 => exact .makes fun v hv => by simp at hv
  case h_20 n =>
    cases Primitive.toLength n with
    | ok k => exact .makes fun v hv => (Array.mem_replicate.mp hv).2 ▸ .null
    | error fault => exact .fails fault
  case h_21 n fill =>
    cases Primitive.toLength n with
    | ok k => exact .makes fun v hv => (Array.mem_replicate.mp hv).2 ▸ .arg (by simp)
    | error fault => exact .fails fault
  case h_22 v index => exact .get (by simp) index
  -- the operations that change an array put in an argument, or what was in an array before
  case h_23 v index value =>
    cases hslot : m.store.slot v index with
    | error fault => exact .fails fault
    | ok slot =>
      refine .changes (r := slot.1) (by simp [slot_fst hslot]) (fun items w hw => ?_) .null
      rcases Array.mem_or_eq_of_mem_setIfInBounds hw with hw | rfl
      · exact .inl hw
      · exact .inr (.arg (by simp))
  case h_24 v item =>
    cases v with
    | array r =>
      refine .changes (r := r) (by simp) (fun items w hw => ?_) .null
      rcases Array.mem_push.mp hw with hw | rfl
      · exact .inl hw
      · exact .inr (.arg (by simp))
    | _ => exact .fails _
  case h_25 v =>
    cases v with
    | array r =>
      dsimp only
      split
      · next item hitem =>
        refine .changes (r := r) (by simp) (fun items w hw => .inl ?_)
          (.item (r := r) (by simp) (Array.mem_of_back? hitem))
        rw [Array.mem_def, Array.toList_pop] at hw
        exact Array.mem_def.mpr ((List.dropLast_sublist _).subset hw)
      · exact .fails _
    | _ => exact .fails _
  case h_26 v w =>
    split
    · next r other =>
      refine .changes (r := r) (by simp) (fun items w hw => ?_) .null
      rcases Array.mem_append.mp hw with hw | hw
      · exact .inl hw
      · exact .inr (.item (r := other) (by simp) hw)
    · exact .fails _
  case h_27 v => exact .length v
  case h_28 => exact .fails _

end Primitive

/-- A built-in operation on values of the region has its result there and leads nowhere
else. -/
theorem Region.Holds.call {R : Region} {m : Machine} (h : R.Holds m.store) {args : List Value}
    (hargs : ∀ a ∈ args, R.value a) (p : Primitive) :
    R.Holds (p.call args m).2.store ∧ Yields R.value (p.call args m).1 := by
  have hoffer : ∀ {v}, Primitive.Offers m.store args v → R.value v := by
    rintro v (_ | _ | _ | _ | hv | ⟨hr, hv⟩)
    · trivial
    · trivial
    · trivial
    · trivial
    · exact hargs v hv
    · exact h.item (hargs _ hr) hv
  have hdoes := p.call_does args m
  generalize (p.call args m).1 = result, (p.call args m).2.store = s' at hdoes
  cases hdoes with
  | fails fault => exact ⟨h, .error⟩
  | reads hv => exact ⟨h, .ok (hoffer hv)⟩
  | makes hitems =>
    exact ⟨h.newArray_snd fun v hv => hoffer (hitems v hv), .ok (h.newArray (Nat.le_refl _))⟩
  | changes hr hf hv =>
    refine ⟨h.modifyArray fun w hw => ?_, .ok (hoffer hv)⟩
    rcases hf _ w hw with hw | hw
    · exact h.item (hargs _ hr) hw
    · exact hoffer hw

namespace Region

variable {R : Region} {s : Store}

/-! ## 4. Evaluations -/

/-- The scope of a block run binds a label at most, which leads nowhere. -/
theorem Holds.enterBlock {m : Machine} (h : R.Holds m.store) (name : Option String)
    {scope : ScopeRef} (hscope : R.scope scope) :
    R.scope (m.enterBlock name scope).1 ∧ R.Holds (m.enterBlock name scope).2.store := by
  have hopened : R.Holds (m.store.openLabel name).2 := h.of_eq rfl rfl rfl
  refine ⟨h.newScope (Nat.le_refl _), hopened.newScope_snd hscope fun label v hv => ?_⟩
  cases name with
  | none => cases hv
  | some own =>
    rw [Option.elim_some, List.lookup_cons, List.lookup_nil] at hv
    split at hv
    · cases hv
      trivial
    · cases hv

variable {α β : Type}

/-- The evaluation stays inside the region: from a store that the region holds it leads to
one, and its result has the property. The value that an exit carries is in the region. -/
structure Keeps (R : Region) (P : α → Prop) (x : Eval α) : Prop where
  ok {m m' : Machine} {a : α} : R.Holds m.store → x m = .ok a m' → R.Holds m'.store ∧ P a
  exit {m m' : Machine} {id : Nat} {v : Value} :
    R.Holds m.store → x m = .error (.exit id v) m' → R.Holds m'.store ∧ R.value v

namespace Keeps

variable {P : α → Prop} {Q : β → Prop}

theorem pure {a : α} (h : P a) : Keeps R P (Pure.pure a) where
  ok hm hx := by
    cases hx
    exact ⟨hm, h⟩
  exit _ hx := nomatch hx

theorem error (e : RuntimeError) : Keeps R P (throw (.error e)) where
  ok _ hx := nomatch hx
  exit _ hx := nomatch hx

theorem exhausted : Keeps R P (throw .exhausted) where
  ok _ hx := nomatch hx
  exit _ hx := nomatch hx

theorem bind {x : Eval α} {f : α → Eval β} (hx : Keeps R P x) (hf : ∀ a, P a → Keeps R Q (f a)) :
    Keeps R Q (x >>= f) where
  ok hm h := by
    obtain ⟨a, m₁, h₁, h₂⟩ := bind_eq_ok h
    obtain ⟨hm₁, ha⟩ := hx.ok hm h₁
    exact (hf a ha).ok hm₁ h₂
  exit hm h := by
    rcases bind_eq_error h with h | ⟨a, m₁, h₁, h₂⟩
    · exact hx.exit hm h
    · obtain ⟨hm₁, ha⟩ := hx.ok hm h₁
      exact (hf a ha).exit hm₁ h₂

theorem discard {x : Eval α} (hx : Keeps R P x) : Keeps R (fun _ => True) (discard x) := by
  rw [discard_eq_bind]
  exact hx.bind fun _ _ => pure trivial

/-- What may be assumed of the store while a step is taken. -/
theorem of_holds {x : Eval α} (h : ∀ m, R.Holds m.store → ∃ y, Keeps R P y ∧ x m = y m) :
    Keeps R P x where
  ok {m _ _} hm hx := by
    obtain ⟨y, hy, heq⟩ := h m hm
    exact hy.ok hm (heq ▸ hx)
  exit {m _ _ _} hm hx := by
    obtain ⟨y, hy, heq⟩ := h m hm
    exact hy.exit hm (heq ▸ hx)

theorem truthy (v : Value) : Keeps R (fun _ => True) (Eval.truthy v) :=
  of_holds fun _ _ => ⟨_, pure trivial, Point.truthy_of_eq rfl⟩

theorem lookup (name : String) (pos : Position) {scope : ScopeRef} (hscope : R.scope scope) :
    Keeps R R.value (Eval.lookup name pos scope) := by
  refine of_holds fun m hm => ?_
  rw [Eval.lookup, get_bind, Store.lookup?]
  cases hresolve : m.store.resolve? scope name with
  | none => exact ⟨_, error _, rfl⟩
  | some found => exact ⟨_, pure (hm.resolveWithin hscope hresolve).2, rfl⟩

theorem modifyStore {f : Store → Store} (hf : ∀ s, R.Holds s → R.Holds (f s)) :
    Keeps R (fun _ => True) (Eval.modifyStore f) where
  ok hm h := by
    cases h
    exact ⟨hf _ hm, trivial⟩
  exit _ h := nomatch h

theorem define {value : Value} (hvalue : R.value value) (scope : ScopeRef) (name : String) :
    Keeps R (fun _ => True) (Eval.modifyStore (·.define scope name value)) :=
  modifyStore fun _ hs => hs.define hvalue scope name

theorem assign (name : String) {value : Value} (hvalue : R.value value) (pos : Position)
    (scope : ScopeRef) : Keeps R (fun _ => True) (Eval.assign name value pos scope) := by
  refine of_holds fun m _ => ?_
  rw [Eval.assign, get_bind]
  cases m.store.resolve? scope name with
  | none => exact ⟨_, error _, rfl⟩
  | some found => exact ⟨_, define hvalue found.1 name, rfl⟩

theorem allocate {f : Store → α × Store}
    (hf : ∀ s, R.Holds s → R.Holds (f s).2 ∧ P (f s).1) : Keeps R P (Eval.allocate f) where
  ok hm h := by
    cases h
    exact hf _ hm
  exit _ h := nomatch h

theorem callPrimitive (p : Primitive) {args : List Value} (hargs : ∀ a ∈ args, R.value a) :
    Keeps R R.value (Eval.callPrimitive p args) where
  ok {m m' a} hm h := by
    obtain ⟨hholds, hyields⟩ := hm.call hargs p
    unfold Eval.callPrimitive at h
    split at h
    · next hcall =>
      cases h
      rw [hcall] at hholds hyields
      exact ⟨hholds, hyields _ rfl⟩
    · cases h
  exit hm h := by
    unfold Eval.callPrimitive at h
    split at h <;> cases h

theorem exitTo (r : LabelRef) {args : List Value} (hargs : ∀ a ∈ args, R.value a) :
    Keeps R R.value (Eval.exitTo r args) := by
  have hhead : R.value (args.headD .null) := by
    cases args with
    | nil => trivial
    | cons a args => exact hargs a List.mem_cons_self
  constructor
  · intro m m' a hm h
    rw [Settled.exitTo_eq] at h
    split at h
    · split at h
      · split at h <;> cases h
      · cases h
    · cases h
  · intro m m' id v hm h
    rw [Settled.exitTo_eq] at h
    split at h
    · split at h
      · split at h
        · cases h
          exact ⟨hm, hhead⟩
        · cases h
      · cases h
    · cases h

theorem locating (pos : Position) {x : Eval Value} (hx : Keeps R R.value x) :
    Keeps R R.value (Eval.locating pos x) where
  ok hm h := by
    unfold Eval.locating at h
    split at h
    · cases h
    · exact hx.ok hm h
  exit hm h := hx.exit hm (Point.locating_eq_exit h)

theorem inBlock (name : Option String) {scope : ScopeRef} (hscope : R.scope scope)
    {body : ScopeRef → Eval Value} (hbody : ∀ inner, R.scope inner → Keeps R R.value (body inner)) :
    Keeps R R.value (Eval.inBlock name scope body) := by
  have hclose : ∀ {m : Machine} {r : LabelRef}, R.Holds m.store → R.Holds (m.leaveBlock r).store :=
    fun hm => hm.of_eq rfl rfl rfl
  constructor
  · intro m m' a hm h
    obtain ⟨hinner, henter⟩ := hm.enterBlock name hscope
    rw [inBlock_eq] at h
    split at h
    · next hrun =>
      cases h
      obtain ⟨hm', ha⟩ := (hbody _ hinner).ok henter hrun
      exact ⟨hclose hm', ha⟩
    · next hrun =>
      split at h
      · cases h
        obtain ⟨hm', hv⟩ := (hbody _ hinner).exit henter hrun
        exact ⟨hclose hm', hv⟩
      · cases h
    · cases h
  · intro m m' id v hm h
    obtain ⟨hinner, henter⟩ := hm.enterBlock name hscope
    rw [inBlock_eq] at h
    split at h
    · cases h
    · next hrun =>
      split at h
      · cases h
      · cases h
        obtain ⟨hm', hv⟩ := (hbody _ hinner).exit henter hrun
        exact ⟨hclose hm', hv⟩
    · next hne _ =>
      cases h
      exact absurd rfl (hne _ _)

end Keeps

/-- The bindings of a call are its arguments. The induction is on the parameters with their
arguments, over what is bound already. -/
theorem value_of_lookup_frame {params : List String} {args : List Value}
    (hargs : ∀ a ∈ args, R.value a) {name : String} {v : Value}
    (h : (frame params args).lookup name = some v) : R.value v := by
  have hfold : ∀ (pairs : List (String × Value)) (bs : Bindings),
      (∀ pair ∈ pairs, R.value pair.2) → (∀ v, bs.lookup name = some v → R.value v) →
      ∀ v, (pairs.foldl (fun bs pair => Bindings.insert pair.1 pair.2 bs) bs).lookup name = some v →
        R.value v := by
    intro pairs
    induction pairs with
    | nil => exact fun bs _ hbs => hbs
    | cons pair pairs ih =>
      intro bs hpairs hbs
      obtain ⟨hpair, hpairs⟩ := List.forall_mem_cons.mp hpairs
      refine ih _ hpairs fun w hw => ?_
      rw [Bindings.lookup_insert] at hw
      split at hw
      · cases hw
        exact hpair
      · exact hbs w hw
  refine hfold (params.zip args) [] (fun pair hpair => ?_) (fun v hv => nomatch hv) v h
  exact hargs pair.2 (List.of_mem_zip hpair).2

/-- A call starts in a scope inside that of its function. -/
theorem Holds.enterCall {m : Machine} (h : R.Holds m.store) {r : ClosureRef} {c : Closure}
    (hr : R.closure r) (hclosure : m.store.closure? r = some c) {args : List Value}
    (hargs : ∀ a ∈ args, R.value a) :
    R.scope (m.enterCall c args).1 ∧ R.Holds (m.enterCall c args).2.store :=
  ⟨h.newScope (Nat.le_refl _),
    h.newScope_snd (h.captured hr hclosure) fun _ _ hv => value_of_lookup_frame hargs hv⟩

theorem Keeps.inCall {r : ClosureRef} (hr : R.closure r) {args : List Value}
    (hargs : ∀ a ∈ args, R.value a) {run : Expr → ScopeRef → Eval Value}
    (hrun : ∀ e scope, R.tree e → R.scope scope → Keeps R R.value (run e scope)) :
    Keeps R R.value (Eval.inCall r args run) := by
  constructor
  · intro m m' a hm h
    rw [inCall_eq] at h
    split at h
    · cases h
    · next c hclosure =>
      split at h
      · obtain ⟨hscope, henter⟩ := hm.enterCall hr hclosure hargs
        exact (hrun _ _ (hm.body hr hclosure) hscope).ok henter h
      · cases h
  · intro m m' id v hm h
    rw [inCall_eq] at h
    split at h
    · cases h
    · next c hclosure =>
      split at h
      · obtain ⟨hscope, henter⟩ := hm.enterCall hr hclosure hargs
        exact (hrun _ _ (hm.body hr hclosure) hscope).exit henter h
      · cases h

/-! ## 5. All evaluations -/

/-- All evaluations within a given depth stay inside the region. -/
structure Within (R : Region) (n : Nat) : Prop where
  eval {e : Expr} {scope : ScopeRef} : R.tree e → R.scope scope →
    Keeps R R.value (CalcScript.eval n e scope)
  all {es : List Expr} {scope : ScopeRef} : (∀ e ∈ es, R.tree e) → R.scope scope →
    Keeps R (fun vs => ∀ v ∈ vs, R.value v) (evalAll n es scope)
  loop {condition body : Expr} {scope : ScopeRef} : R.tree condition → R.tree body →
    R.scope scope → Keeps R R.value (evalLoop n condition body scope)
  apply {callee : Value} {args : List Value} : R.value callee → (∀ a ∈ args, R.value a) →
    Keeps R R.value (applyValue n callee args)

namespace Within

variable {n : Nat}

theorem eval_succ (ih : Within R n) {e : Expr} {scope : ScopeRef} (he : R.tree e)
    (hscope : R.scope scope) : Keeps R R.value (CalcScript.eval (n + 1) e scope) := by
  have hchild : ∀ c ∈ e.children, R.tree c := fun c hc => R.tree_of_child he hc
  cases e with
  | literal l =>
    refine .pure ?_
    cases l <;> trivial
  | primitive p => exact .pure trivial
  | array items =>
    refine (ih.all hchild hscope).bind fun vs hvs => ?_
    -- a new array is in the region because its elements are
    refine Keeps.bind (P := R.array) (.allocate fun s hs => ?_) fun r hr => .pure hr
    exact ⟨hs.newArray_snd fun v hv => hvs v (by simpa using hv), hs.newArray (Nat.le_refl _)⟩
  | var name pos => exact .lookup name pos hscope
  | store name value =>
    refine (ih.eval (hchild value (by simp [Expr.children])) hscope).bind fun v hv => ?_
    exact (Keeps.define hv scope name).bind fun _ _ => .pure trivial
  | update name value pos =>
    refine (ih.eval (hchild value (by simp [Expr.children])) hscope).bind fun v hv => ?_
    exact (Keeps.assign name hv pos scope).bind fun _ _ => .pure trivial
  | seq first rest =>
    refine (ih.eval (hchild first (by simp [Expr.children])) hscope).discard.bind fun _ _ => ?_
    exact ih.eval (hchild rest (by simp [Expr.children])) hscope
  | and left right =>
    refine (ih.eval (hchild left (by simp [Expr.children])) hscope).bind fun v _ => ?_
    refine (Keeps.truthy v).bind fun b _ => ?_
    cases b with
    | true =>
      refine (ih.eval (hchild right (by simp [Expr.children])) hscope).bind fun w _ => ?_
      exact (Keeps.truthy w).bind fun _ _ => .pure trivial
    | false => exact .pure trivial
  | or left right =>
    refine (ih.eval (hchild left (by simp [Expr.children])) hscope).bind fun v _ => ?_
    refine (Keeps.truthy v).bind fun b _ => ?_
    cases b with
    | true => exact .pure trivial
    | false =>
      refine (ih.eval (hchild right (by simp [Expr.children])) hscope).bind fun w _ => ?_
      exact (Keeps.truthy w).bind fun _ _ => .pure trivial
  | cond condition consequent alternate =>
    refine (ih.eval (hchild condition (by simp [Expr.children])) hscope).bind fun v _ => ?_
    refine (Keeps.truthy v).bind fun b _ => ?_
    cases b with
    | true => exact ih.eval (hchild consequent (by simp [Expr.children])) hscope
    | false => exact ih.eval (hchild alternate (by simp [Expr.children])) hscope
  | loop condition body =>
    exact ih.loop (hchild condition (by simp [Expr.children]))
      (hchild body (by simp [Expr.children])) hscope
  | func params body =>
    -- so is a new function, for its body and its scope are
    have hbody := hchild body (by simp [Expr.children])
    refine Keeps.bind (P := R.closure) (.allocate fun s hs => ?_) fun r hr => .pure hr
    exact ⟨hs.newClosure_snd hscope hbody, hs.newClosure (Nat.le_refl _)⟩
  | apply callee args pos =>
    refine (ih.eval (hchild callee (by simp [Expr.children])) hscope).bind fun v hv => ?_
    have hargs : ∀ e ∈ args, R.tree e := fun e he => hchild e (by simp [Expr.children, he])
    -- what is applied is in the region, and so is what it is applied to
    exact (ih.all hargs hscope).bind fun vs hvs => .locating pos (ih.apply hv hvs)
  | block name body =>
    exact .inBlock name hscope fun inner hinner =>
      ih.eval (hchild body (by simp [Expr.children])) hinner

theorem all_succ (ih : Within R n) {es : List Expr} {scope : ScopeRef}
    (hes : ∀ e ∈ es, R.tree e) (hscope : R.scope scope) :
    Keeps R (fun vs => ∀ v ∈ vs, R.value v) (evalAll (n + 1) es scope) := by
  cases es with
  | nil => exact .pure fun v hv => nomatch hv
  | cons e es =>
    obtain ⟨he, hes⟩ := List.forall_mem_cons.mp hes
    refine (ih.eval he hscope).bind fun v hv => (ih.all hes hscope).bind fun vs hvs => ?_
    exact .pure (List.forall_mem_cons.mpr ⟨hv, hvs⟩)

theorem loop_succ (ih : Within R n) {condition body : Expr} {scope : ScopeRef}
    (hcondition : R.tree condition) (hbody : R.tree body) (hscope : R.scope scope) :
    Keeps R R.value (evalLoop (n + 1) condition body scope) := by
  refine (ih.eval hcondition hscope).bind fun v _ => (Keeps.truthy v).bind fun b _ => ?_
  cases b with
  | true => exact (ih.eval hbody hscope).discard.bind fun _ _ => ih.loop hcondition hbody hscope
  | false => exact .pure trivial

theorem apply_succ (ih : Within R n) {callee : Value} {args : List Value}
    (hcallee : R.value callee) (hargs : ∀ a ∈ args, R.value a) :
    Keeps R R.value (applyValue (n + 1) callee args) := by
  cases callee with
  | closure r => exact .inCall hcallee hargs fun _ _ => ih.eval
  | primitive p => exact .callPrimitive p hargs
  | label r => exact .exitTo r hargs
  | number _ | bool _ | null | str _ | array _ => exact .error _

end Within

/-- **Evaluation stays inside a region.** The induction is on the depth. -/
theorem within (R : Region) (n : Nat) : Within R n := by
  induction n with
  | zero =>
    exact ⟨fun _ _ => .exhausted, fun _ _ => .exhausted, fun _ _ _ => .exhausted,
      fun _ _ => .exhausted⟩
  | succ n ih => exact ⟨ih.eval_succ, ih.all_succ, ih.loop_succ, ih.apply_succ⟩

end Region

/-! ## 6. Points -/

/-- The task is about trees, scopes and values of the region. -/
def Region.task (R : Region) : Task → Prop
  | .expr e scope => R.tree e ∧ R.scope scope
  | .exprs es scope => (∀ e ∈ es, R.tree e) ∧ R.scope scope
  | .turns condition body scope => R.tree condition ∧ R.tree body ∧ R.scope scope
  | .call callee args => R.value callee ∧ ∀ a ∈ args, R.value a

/-- The point lies in the region, with all it can lead to. -/
structure Point.Inside (R : Region) (p : Point) : Prop where
  task : R.task p.task
  holds : R.Holds p.machine.store

/-- **An evaluation inside a region starts evaluations inside it only.** -/
theorem Point.Enters.inside {R : Region} {p q : Point} (h : p.Enters q) (hp : p.Inside R) :
    q.Inside R := by
  obtain ⟨htask, hholds⟩ := hp
  have hchild : ∀ {e c}, R.tree e → c ∈ e.children → R.tree c := R.tree_of_child
  cases h with
  | array => exact ⟨⟨fun _ => hchild htask.1, htask.2⟩, hholds⟩
  | store | update | first | andLeft | orLeft | condition | callee =>
    exact ⟨⟨hchild htask.1 (by simp [Expr.children]), htask.2⟩, hholds⟩
  | loop =>
    exact ⟨⟨hchild htask.1 (by simp [Expr.children]), hchild htask.1 (by simp [Expr.children]),
      htask.2⟩, hholds⟩
  -- what is evaluated before leaves a store that the region holds
  | @rest _ _ _ n _ _ _ _ hbefore | @andRight _ _ _ n _ _ _ _ hbefore
  | @orRight _ _ _ n _ _ _ _ hbefore | @consequent _ _ _ _ n _ _ _ _ hbefore
  | @alternate _ _ _ _ n _ _ _ _ hbefore =>
    have hrun := (R.within n).eval (hchild htask.1 List.mem_cons_self) htask.2
    exact ⟨⟨hchild htask.1 (by simp [Expr.children]), htask.2⟩, (hrun.ok hholds hbefore).1⟩
  | @arguments _ _ _ _ n _ _ _ _ hcallee =>
    have hrun := (R.within n).eval (hchild htask.1 List.mem_cons_self) htask.2
    exact ⟨⟨fun e he => hchild htask.1 (by simp [Expr.children, he]), htask.2⟩,
      (hrun.ok hholds hcallee).1⟩
  | @application callee args _ _ n _ _ v m₁ vs m₂ hcallee hargs =>
    have hcalled := (R.within n).eval (hchild htask.1 List.mem_cons_self) htask.2
    obtain ⟨hholds₁, hv⟩ := hcalled.ok hholds hcallee
    have hes : ∀ e ∈ args, R.tree e := fun e he => hchild htask.1 (by simp [Expr.children, he])
    obtain ⟨hholds₂, hvs⟩ := ((R.within n).all hes htask.2).ok hholds₁ hargs
    exact ⟨⟨hv, hvs⟩, hholds₂⟩
  | @block name body scope =>
    obtain ⟨hinner, henter⟩ := hholds.enterBlock name htask.2
    exact ⟨⟨hchild htask.1 (by simp [Expr.children]), hinner⟩, henter⟩
  | head => exact ⟨⟨htask.1 _ List.mem_cons_self, htask.2⟩, hholds⟩
  | @tail _ _ _ n _ _ _ _ hhead =>
    obtain ⟨he, hes⟩ := List.forall_mem_cons.mp htask.1
    exact ⟨⟨hes, htask.2⟩, (((R.within n).eval he htask.2).ok hholds hhead).1⟩
  | test => exact ⟨⟨htask.1, htask.2.2⟩, hholds⟩
  | @turn _ _ _ n _ _ _ _ htest _ =>
    exact ⟨htask.2, (((R.within n).eval htask.1 htask.2.2).ok hholds htest).1⟩
  | @again _ _ _ n _ _ _ _ _ _ htest _ hturn =>
    obtain ⟨hcondition, hbody, hscope⟩ := htask
    have hholds₁ := (((R.within n).eval hcondition hscope).ok hholds htest).1
    exact ⟨⟨hcondition, hbody, hscope⟩, (((R.within n).eval hbody hscope).ok hholds₁ hturn).1⟩
  | body hclosure _ =>
    obtain ⟨hinner, henter⟩ := hholds.enterCall htask.1 hclosure htask.2
    exact ⟨⟨hholds.body htask.1 hclosure, hinner⟩, henter⟩

/-- So does everything that it comes to. -/
theorem Point.Inside.of_enters {R : Region} {p q : Point} (hp : p.Inside R)
    (h : Relation.ReflTransGen Point.Enters p q) : q.Inside R := by
  induction h with
  | refl => exact hp
  | tail _ henters ih => exact henters.inside ih

/-! ## 7. The region of a tree in a scope -/

/-- The node is one of the tree, or of the body of a function that the store reaches from the
given scope. -/
def Store.Knows (s : Store) (e : Expr) (scope : ScopeRef) (node : Expr) : Prop :=
  e.Contains node ∨ ∃ r c, s.Reaches (.scope scope) (.value (.closure r)) ∧
    s.closure? r = some c ∧ c.body.Contains node

/-- What a tree in a scope has to do with: the scope and all that the store reaches from it,
and all that is not in the store yet. -/
def Store.region (s : Store) (e : Expr) (scope : ScopeRef) : Region where
  tree := s.Knows e scope
  scope r := s.Reaches (.scope scope) (.scope r) ∨ s.scopes.size ≤ r.index
  array r := s.Reaches (.scope scope) (.value (.array r)) ∨ s.arrays.size ≤ r.index
  closure r := s.Reaches (.scope scope) (.value (.closure r)) ∨ s.closures.size ≤ r.index
  tree_of_child h hchild := by
    rcases h with h | ⟨r, c, hr, hc, h⟩
    · exact .inl (h.tail hchild)
    · exact .inr ⟨r, c, hr, hc, h.tail hchild⟩

theorem Store.region_value {s : Store} {e : Expr} {scope : ScopeRef} {v : Value}
    (h : s.Reaches (.scope scope) (.value v)) : (s.region e scope).value v := by
  cases v with
  | array r => exact .inl h
  | closure r => exact .inl h
  | _ => trivial

theorem Store.region_holds (s : Store) (e : Expr) (scope : ScopeRef) :
    (s.region e scope).Holds s := by
  -- an entity that is not in the store yet has no references
  have hscope : ∀ {r : ScopeRef}, s.scopes.size ≤ r.index → s.scope? r = none := fun hr =>
    Array.getElem?_eq_none hr
  have hitems : ∀ {r : ArrayRef}, s.arrays.size ≤ r.index → s.items r = #[] := by
    intro r hr
    rw [items, Array.getD_eq_getD_getElem?, Array.getElem?_eq_none hr]
    rfl
  have hclosure : ∀ {r : ClosureRef}, s.closures.size ≤ r.index → s.closure? r = none := fun hr =>
    Array.getElem?_eq_none hr
  constructor
  · exact .inr
  · exact .inr
  · exact .inr
  · rintro r r' (hr | hr) h
    · exact .inl (hr.tail (.parent h))
    · rw [parent?, hscope hr] at h
      cases h
  · rintro r name v (hr | hr) h
    · exact region_value (hr.tail (.bound h))
    · rw [local?, hscope hr] at h
      cases h
  · rintro r v (hr | hr) h
    · exact region_value (hr.tail (.item h))
    · rw [hitems hr] at h
      simp at h
  · rintro r c (hr | hr) h
    · exact .inl (hr.tail (.captured h))
    · rw [hclosure hr] at h
      cases h
  · rintro r c (hr | hr) h
    · exact .inr ⟨r, c, hr, h, .refl⟩
    · rw [hclosure hr] at h
      cases h

/-- Every node that an evaluation comes to is known before. -/
theorem Point.knows_of_enters {e node : Expr} {scope scope' : ScopeRef} {n : Nat} {m : Machine}
    {rs : List LabelRef} {q : Point}
    (h : Relation.ReflTransGen Point.Enters ⟨.expr e scope, n, m, rs⟩ q)
    (hq : q.task = .expr node scope') : m.store.Knows e scope node := by
  have hstart : Point.Inside (m.store.region e scope) ⟨.expr e scope, n, m, rs⟩ :=
    ⟨⟨.inl .refl, .inl .refl⟩, m.store.region_holds e scope⟩
  have htask := (hstart.of_enters h).task
  rw [hq] at htask
  exact htask.1

end CalcScript
