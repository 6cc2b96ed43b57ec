/-
`Proofs/Renaming.lean` -- runs that are equal up to the names of things.

`Proofs/Pairings.lean` says when two stores are equal up to names. Here a program is run on both.
The two runs take the same steps: each finds the partner of what the other finds, makes a partner
of what the other makes, and writes the same text (`Pairing.within`). So the pairing grows along
the runs, and behind them it holds again.

What is in a store without a partner plays no part. Thus blocks that did nothing, run in one
session and not in the other, leave labels and scopes behind that make no difference later on
(`Session.Idled.exists_sessions`).
-/
import CalcScript.Proofs.LabelNumbers
import CalcScript.Proofs.Pairings
import CalcScript.Proofs.Regions

set_option autoImplicit false

namespace CalcScript

open Eval

namespace Pairing

variable {R R' R₁ : Pairing} {s s' : Store} {m m' : Machine} {α β : Type}

/-! ## 1. Lists of values -/

namespace Lists

theorem one {a : Value} {args : List Value} (h : R.Lists [a] args) :
    ∃ a', args = [a'] ∧ R.Alike a a' := by
  obtain ⟨a', rest, ha, hrest, rfl⟩ := List.forall₂_cons_left_iff.mp h
  obtain rfl := List.forall₂_nil_left_iff.mp hrest
  exact ⟨a', rfl, ha⟩

theorem two {a b : Value} {args : List Value} (h : R.Lists [a, b] args) :
    ∃ a' b', args = [a', b'] ∧ R.Alike a a' ∧ R.Alike b b' := by
  obtain ⟨a', rest, ha, hrest, rfl⟩ := List.forall₂_cons_left_iff.mp h
  obtain ⟨b', rfl, hb⟩ := one hrest
  exact ⟨a', b', rfl, ha, hb⟩

theorem three {a b c : Value} {args : List Value} (h : R.Lists [a, b, c] args) :
    ∃ a' b' c', args = [a', b', c'] ∧ R.Alike a a' ∧ R.Alike b b' ∧ R.Alike c c' := by
  obtain ⟨a', rest, ha, hrest, rfl⟩ := List.forall₂_cons_left_iff.mp h
  obtain ⟨b', c', rfl, hb, hc⟩ := two hrest
  exact ⟨a', b', c', rfl, ha, hb, hc⟩

theorem getElem? {xs ys : List Value} (h : R.Lists xs ys) (i : Nat) :
    Option.Rel R.Alike xs[i]? ys[i]? := by
  induction h generalizing i with
  | nil => exact .none
  | cons hxy _ ih =>
    cases i with
    | zero => exact .some hxy
    | succ i => exact ih i

theorem set {xs ys : List Value} (h : R.Lists xs ys) (i : Nat) {v v' : Value}
    (hv : R.Alike v v') : R.Lists (xs.set i v) (ys.set i v') := by
  induction h generalizing i with
  | nil => exact .nil
  | cons hxy hrest ih =>
    cases i with
    | zero => exact .cons hv hrest
    | succ i => exact .cons hxy (ih i)

theorem replicate (n : Nat) {v v' : Value} (hv : R.Alike v v') :
    R.Lists (List.replicate n v) (List.replicate n v') := by
  induction n with
  | zero => exact .nil
  | succ n ih => exact .cons hv ih

theorem dropLast {xs ys : List Value} (h : R.Lists xs ys) : R.Lists xs.dropLast ys.dropLast := by
  rw [List.dropLast_eq_take, List.dropLast_eq_take, h.length_eq]
  exact List.forall₂_take _ h

/-- The value of an exit: the argument, or null. -/
theorem headD {xs ys : List Value} (h : R.Lists xs ys) :
    R.Alike (xs.headD .null) (ys.headD .null) := by
  cases h with
  | nil => exact .null
  | cons hxy _ => exact hxy

end Lists

/-! ## 2. Built-in operations -/

/-- Machines with stores that are equal up to names, and the same output. -/
structure Machines (R : Pairing) (m m' : Machine) : Prop where
  holds : R.Holds m.store m'.store
  sink_eq : m.sink = m'.sink

/-- Values that are alike, or the same fault. -/
inductive Results (R : Pairing) : Except Fault Value → Except Fault Value → Prop
  | ok {v v'} (h : R.Alike v v') : Results R (.ok v) (.ok v')
  | error (fault : Fault) : Results R (.error fault) (.error fault)

namespace Results

/-- A result that refers to nothing is alike to itself. -/
theorem of_yields {r : Except Fault Value} (h : Region.Yields (fun v => R.Alike v v) r) :
    R.Results r r := by
  cases r with
  | ok v => exact .ok (h v rfl)
  | error fault => exact .error fault

theorem bind {x : Except Fault α} {f f' : α → Except Fault Value}
    (h : ∀ a, R.Results (f a) (f' a)) : R.Results (x >>= f) (x >>= f') := by
  cases x with
  | ok a => exact h a
  | error fault => exact .error fault

variable {a a' b b' : Value}

theorem arithmetic (op : Float → Float → Except Fault Float) (ha : R.Alike a a')
    (hb : R.Alike b b') :
    R.Results (Primitive.arithmetic op a b) (Primitive.arithmetic op a' b') := by
  rw [Primitive.arithmetic, Primitive.arithmetic, ha.toNumber_eq, hb.toNumber_eq]
  exact of_yields (.bind fun _ => .bind fun _ => .bind fun _ => .ok (.number _))

theorem comparison (op : Float → Float → Bool) (ha : R.Alike a a') (hb : R.Alike b b') :
    R.Results (Primitive.comparison op a b) (Primitive.comparison op a' b') := by
  rw [Primitive.comparison, Primitive.comparison, ha.toNumber_eq, hb.toNumber_eq]
  exact of_yields (.bind fun _ => .bind fun _ => .ok (.bool _))

theorem length (h : R.Holds s s') (ha : R.Alike a a') :
    R.Results (Primitive.length s a) (Primitive.length s' a') := by
  cases ha with
  | array hr =>
    rw [Primitive.length, Primitive.length, h.size_eq hr]
    exact .ok (.number _)
  | str _ => exact .ok (.number _)
  | _ => exact .error _

theorem get (h : R.Holds s s') (ha : R.Alike a a') (hb : R.Alike b b') :
    R.Results (s.get a b) (s'.get a' b') := by
  cases ha with
  | @array r r' hr =>
    rw [Store.get, Store.get, hb.toIndex_eq]
    refine bind fun i => ?_
    have hitem := (h.items hr).getElem? i
    rw [Array.getElem?_toList, Array.getElem?_toList] at hitem
    dsimp only
    rw [h.size_eq hr]
    generalize (s.items r)[i]? = item, (s'.items r')[i]? = item' at hitem
    cases hitem with
    | some hv => exact .ok hv
    | none => exact .error _
  | str text =>
    rw [Store.get, Store.get, hb.toIndex_eq]
    refine of_yields (.bind fun i => ?_)
    dsimp only
    split
    · exact .ok (.number _)
    · exact .error
  | _ => exact .error _

end Results

/-- The slot of an array, and the same slot of its partner. -/
theorem Holds.slot (h : R.Holds s s') {v v' index index' : Value} (hv : R.Alike v v')
    (hindex : R.Alike index index') :
    (∃ fault, s.slot v index = .error fault ∧ s'.slot v' index' = .error fault) ∨
      ∃ r r' i, R.array.rel r.index r'.index ∧ s.slot v index = .ok (r, i) ∧
        s'.slot v' index' = .ok (r', i) := by
  cases hv with
  | @array r r' hr =>
    rw [Store.slot, Store.slot, hindex.toIndex_eq]
    cases index'.toIndex .array with
    | error fault => exact .inl ⟨fault, rfl, rfl⟩
    | ok i =>
      have hsize := h.size_eq hr
      by_cases hlt : i < (s.items r).size
      · have hlt' : i < (s'.items r').size := hsize ▸ hlt
        exact .inr ⟨r, r', i, hr, if_pos hlt, if_pos hlt'⟩
      · have hlt' : ¬ i < (s'.items r').size := hsize ▸ hlt
        refine .inl ⟨.outOfRange i (s'.items r').size, ?_, if_neg hlt'⟩
        rw [← hsize]
        exact if_neg hlt
  | _ => exact .inl ⟨_, rfl, rfl⟩

/-- Operations end alike, with machines that are equal up to names again. -/
def Performs (R : Pairing) (r r' : Except Fault Value × Machine) : Prop :=
  ∃ R', R ≤ R' ∧ R'.Machines r.2 r'.2 ∧ R'.Results r.1 r'.1

namespace Performs

theorem of_results (hm : R.Machines m m') {r r' : Except Fault Value} (hr : R.Results r r') :
    R.Performs (r, m) (r', m') :=
  ⟨R, le_refl R, hm, hr⟩

theorem output (hm : R.Machines m m') (text : String) :
    R.Performs (Primitive.output m text) (Primitive.output m' text) := by
  have hwritten : R.Machines ⟨m.store, (m.sink.write text).2⟩
      ⟨m'.store, (m'.sink.write text).2⟩ := ⟨hm.holds, by rw [hm.sink_eq]⟩
  cases h : (m'.sink.write text).1 with
  | ok =>
    rw [Primitive.output_of_ok h, Primitive.output_of_ok (by rw [hm.sink_eq, h])]
    exact of_results hwritten (.ok .null)
  | error reason =>
    rw [Primitive.output_of_error h, Primitive.output_of_error (by rw [hm.sink_eq, h])]
    exact of_results hwritten (.error _)

theorem allocate (hm : R.Machines m m') {xs ys : Array Value}
    (hitems : R.Lists xs.toList ys.toList) :
    R.Performs (Primitive.allocate m xs) (Primitive.allocate m' ys) := by
  obtain ⟨R', hle, hholds, hv⟩ := hm.holds.newArray hitems
  exact ⟨R', hle, ⟨hholds, hm.sink_eq⟩, .ok hv⟩

theorem modify (hm : R.Machines m m') {r r' : ArrayRef} (hr : R.array.rel r.index r'.index)
    {f g : Array Value → Array Value} {v v' : Value} (hv : R.Alike v v')
    (hfg : ∀ xs ys : Array Value, R.Lists xs.toList ys.toList →
      R.Lists (f xs).toList (g ys).toList) :
    R.Performs (.ok v, Primitive.change m (·.modifyArray r f))
      (.ok v', Primitive.change m' (·.modifyArray r' g)) := by
  have hchanged : R.Machines (Primitive.change m (·.modifyArray r f))
      (Primitive.change m' (·.modifyArray r' g)) :=
    ⟨hm.holds.modifyArray hr hfg, hm.sink_eq⟩
  exact of_results hchanged (.ok hv)

/-- A new array of so many equal elements. -/
theorem makeArray (hm : R.Machines m m') {n n' fill fill' : Value} (hn : R.Alike n n')
    (hfill : R.Alike fill fill') :
    R.Performs (Primitive.makeArray.call [n, fill] m)
      (Primitive.makeArray.call [n', fill'] m') := by
  rw [Primitive.call, Primitive.call, hn.toLength_eq]
  cases Primitive.toLength n' with
  | error fault => exact of_results hm (.error fault)
  | ok k =>
    refine allocate hm ?_
    rw [Array.toList_replicate, Array.toList_replicate]
    exact .replicate k hfill

end Performs

/-- A built-in operation does on partners what it does on their partners. -/
theorem Machines.call (hm : R.Machines m m') {args args' : List Value} (hargs : R.Lists args args')
    (p : Primitive) : R.Performs (p.call args m) (p.call args' m') := by
  cases hcount : p.arity.accepts args.length with
  | false =>
    -- both sides are given equally many arguments, so both fail and report the same number
    have hcount' : p.arity.accepts args'.length = false := by rw [← hargs.length_eq, hcount]
    rw [p.call_of_not_accepts m hcount, p.call_of_not_accepts m' hcount', hargs.length_eq]
    exact .of_results hm (.error _)
  | true =>
    cases p with
    | add | sub | mul | div | intDiv | mod | pow =>
      obtain ⟨a, b, rfl⟩ := List.length_eq_two.mp (eq_of_beq hcount)
      obtain ⟨a', b', rfl, ha, hb⟩ := hargs.two
      exact .of_results hm (.arithmetic _ ha hb)
    | lt | le | gt | ge =>
      obtain ⟨a, b, rfl⟩ := List.length_eq_two.mp (eq_of_beq hcount)
      obtain ⟨a', b', rfl, ha, hb⟩ := hargs.two
      exact .of_results hm (.comparison _ ha hb)
    | neg | pos =>
      obtain ⟨a, rfl⟩ := List.length_eq_one_iff.mp (eq_of_beq hcount)
      obtain ⟨a', rfl, ha⟩ := hargs.one
      rw [Primitive.call, Primitive.call, ha.toNumber_eq]
      exact .of_results hm (.of_yields (.map fun _ => .number _))
    | not =>
      obtain ⟨a, rfl⟩ := List.length_eq_one_iff.mp (eq_of_beq hcount)
      obtain ⟨a', rfl, ha⟩ := hargs.one
      rw [Primitive.call, Primitive.call, hm.holds.truthy_eq ha]
      exact .of_results hm (.ok (.bool _))
    | eq | ne =>
      obtain ⟨a, b, rfl⟩ := List.length_eq_two.mp (eq_of_beq hcount)
      obtain ⟨a', b', rfl, ha, hb⟩ := hargs.two
      rw [Primitive.call, Primitive.call, hm.holds.equal_eq ha hb]
      exact .of_results hm (.of_yields (.map fun _ => .bool _))
    | print | printLine =>
      rw [Primitive.call, Primitive.call, hm.holds.printed_eq hargs]
      exact .output hm _
    | makeArray =>
      rcases args with _ | ⟨n, _ | ⟨fill, _ | ⟨a, args⟩⟩⟩
      · obtain rfl := List.forall₂_nil_left_iff.mp hargs
        exact .allocate hm .nil
      · obtain ⟨n', rfl, hn⟩ := hargs.one
        exact .makeArray hm hn .null
      · obtain ⟨n', fill', rfl, hn, hfill⟩ := hargs.two
        exact .makeArray hm hn hfill
      · simp [Primitive.arity, Arity.accepts] at hcount
    | get =>
      obtain ⟨v, index, rfl⟩ := List.length_eq_two.mp (eq_of_beq hcount)
      obtain ⟨v', index', rfl, hv, hindex⟩ := hargs.two
      exact .of_results hm (.get hm.holds hv hindex)
    | set =>
      obtain ⟨v, index, value, rfl⟩ := List.length_eq_three.mp (eq_of_beq hcount)
      obtain ⟨v', index', value', rfl, hv, hindex, hvalue⟩ := hargs.three
      rw [Primitive.call, Primitive.call]
      rcases hm.holds.slot hv hindex with ⟨fault, hslot, hslot'⟩ | ⟨r, r', i, hr, hslot, hslot'⟩
      · rw [hslot, hslot']
        exact .of_results hm (.error fault)
      · rw [hslot, hslot']
        refine .modify hm hr .null fun xs ys hxy => ?_
        rw [Array.toList_setIfInBounds, Array.toList_setIfInBounds]
        exact hxy.set i hvalue
    | push =>
      obtain ⟨v, item, rfl⟩ := List.length_eq_two.mp (eq_of_beq hcount)
      obtain ⟨v', item', rfl, hv, hitem⟩ := hargs.two
      cases hv with
      | array hr =>
        refine .modify hm hr .null fun xs ys hxy => ?_
        rw [Array.toList_push, Array.toList_push]
        exact List.rel_append hxy (.cons hitem .nil)
      | _ => exact .of_results hm (.error _)
    | pop =>
      obtain ⟨v, rfl⟩ := List.length_eq_one_iff.mp (eq_of_beq hcount)
      obtain ⟨v', rfl, hv⟩ := hargs.one
      cases hv with
      | @array r r' hr =>
        -- arrays that are alike are equally long, so their last elements are at the same index
        have hlast := (hm.holds.items hr).getElem? ((m'.store.items r').size - 1)
        rw [Array.getElem?_toList, Array.getElem?_toList] at hlast
        rw [Primitive.call, Primitive.call, Array.back?_eq_getElem?, Array.back?_eq_getElem?,
          hm.holds.size_eq hr]
        generalize (m.store.items r)[(m'.store.items r').size - 1]? = last,
          (m'.store.items r')[(m'.store.items r').size - 1]? = last' at hlast
        cases hlast with
        | none => exact .of_results hm (.error _)
        | some hitem =>
          refine .modify hm hr hitem fun xs ys hxy => ?_
          rw [Array.toList_pop, Array.toList_pop]
          exact hxy.dropLast
      | _ => exact .of_results hm (.error _)
    | extend =>
      obtain ⟨v, w, rfl⟩ := List.length_eq_two.mp (eq_of_beq hcount)
      obtain ⟨v', w', rfl, hv, hw⟩ := hargs.two
      cases hv with
      | array hr =>
        cases hw with
        | array hother =>
          refine .modify hm hr .null fun xs ys hxy => ?_
          rw [Array.toList_append, Array.toList_append]
          exact List.rel_append hxy (hm.holds.items hother)
        | _ => exact .of_results hm (.error _)
      | _ => cases hw <;> exact .of_results hm (.error _)
    | len =>
      obtain ⟨v, rfl⟩ := List.length_eq_one_iff.mp (eq_of_beq hcount)
      obtain ⟨v', rfl, hv⟩ := hargs.one
      exact .of_results hm (.length hm.holds hv)

/-! ## 3. Evaluations that agree -/

/-- The same error, or an exit to partners. -/
inductive Signals (R : Pairing) : Signal → Signal → Prop
  | error (e : RuntimeError) : Signals R (.error e) (.error e)
  | exit {id id' : Nat} {v v' : Value} (hid : R.id.rel id id') (hv : R.Alike v v') :
    Signals R (.exit id v) (.exit id' v')
  | exhausted : Signals R .exhausted .exhausted

/-- Outcomes that are equal up to names, by a pairing that keeps all partners. What `P` says is
said of the values. -/
inductive Agree (R : Pairing) (P : Pairing → α → α → Prop) :
    EStateM.Result Signal Machine α → EStateM.Result Signal Machine α → Prop
  | ok {R' : Pairing} (hle : R ≤ R') {a a' : α} {m m' : Machine} (hm : R'.Machines m m')
    (ha : P R' a a') : Agree R P (.ok a m) (.ok a' m')
  | error {R' : Pairing} (hle : R ≤ R') {signal signal' : Signal} {m m' : Machine}
    (hm : R'.Machines m m') (h : R'.Signals signal signal') :
    Agree R P (.error signal m) (.error signal' m')

/-- Both have values, or neither has. -/
theorem Agree.cases {P : Pairing → α → α → Prop} {r r' : EStateM.Result Signal Machine α}
    (h : R.Agree P r r') :
    (∃ R' a a' m m', R ≤ R' ∧ R'.Machines m m' ∧ P R' a a' ∧ r = .ok a m ∧ r' = .ok a' m') ∨
      ∃ R' signal signal' m m', R ≤ R' ∧ R'.Machines m m' ∧ R'.Signals signal signal' ∧
        r = .error signal m ∧ r' = .error signal' m' := by
  cases h with
  | ok hle hm ha => exact .inl ⟨_, _, _, _, _, hle, hm, ha, rfl, rfl⟩
  | error hle hm hsignal => exact .inr ⟨_, _, _, _, _, hle, hm, hsignal, rfl, rfl⟩

theorem Agree.weaken {P : Pairing → α → α → Prop} {r r' : EStateM.Result Signal Machine α}
    (h : R₁.Agree P r r') (hle : R ≤ R₁) : R.Agree P r r' := by
  cases h with
  | ok hle₁ hm ha => exact .ok (le_trans hle hle₁) hm ha
  | error hle₁ hm h => exact .error (le_trans hle hle₁) hm h

/-- On machines that are equal up to names, by this pairing or one that has grown from it, the
evaluations agree. -/
def Relates (R : Pairing) (P : Pairing → α → α → Prop) (x x' : Eval α) : Prop :=
  ∀ ⦃R₁ : Pairing⦄, R ≤ R₁ → ∀ m m', R₁.Machines m m' → R₁.Agree P (x m) (x' m')

/-- Scopes that are partners. -/
def Places (R : Pairing) (r r' : ScopeRef) : Prop := R.scope.rel r.index r'.index

theorem Places.mono (hle : R ≤ R₁) {r r' : ScopeRef} (h : R.Places r r') : R₁.Places r r' :=
  hle.scope _ _ h

/-- The same in both runs. -/
def Same (_ : Pairing) (a a' : α) : Prop := a = a'

namespace Relates

variable {P : Pairing → α → α → Prop} {Q : Pairing → β → β → Prop}

theorem pure {a a' : α} (h : ∀ ⦃R₁⦄, R ≤ R₁ → P R₁ a a') :
    R.Relates P (Pure.pure a) (Pure.pure a') :=
  fun R₁ hle _ _ hm => .ok (le_refl R₁) hm (h hle)

theorem throw {signal : Signal} (h : ∀ R : Pairing, R.Signals signal signal) :
    R.Relates P (MonadExcept.throw signal) (MonadExcept.throw signal) :=
  fun R₁ _ _ _ hm => .error (le_refl R₁) hm (h R₁)

theorem bind {x x' : Eval α} {k k' : α → Eval β} (hx : R.Relates P x x')
    (hk : ∀ ⦃R₁⦄, R ≤ R₁ → ∀ a a', P R₁ a a' → R₁.Relates Q (k a) (k' a')) :
    R.Relates Q (x >>= k) (x' >>= k') := by
  intro R₁ hle m m' hm
  rcases (hx hle m m' hm).cases with ⟨R₂, a, a', m₁, m₁', hle₁, hm₁, ha, hr, hr'⟩ |
    ⟨R₂, signal, signal', m₁, m₁', hle₁, hm₁, hsignal, hr, hr'⟩
  · -- the second half starts from the pairing that the first one has left
    rw [bind_of_ok hr, bind_of_ok hr']
    exact (hk (le_trans hle hle₁) a a' ha (le_refl R₂) m₁ m₁' hm₁).weaken hle₁
  · rw [bind_of_error hr, bind_of_error hr']
    exact .error hle₁ hm₁ hsignal

theorem discard {x x' : Eval α} (hx : R.Relates P x x') :
    R.Relates Same (Functor.discard x : Eval PUnit) (Functor.discard x') := by
  rw [discard_eq_bind, discard_eq_bind]
  exact hx.bind fun _ _ _ _ _ => pure fun _ _ => rfl

/-! Single steps. -/

theorem truthy {v v' : Value} (hv : R.Alike v v') :
    R.Relates Same (Eval.truthy v) (Eval.truthy v') :=
  fun R₁ hle _ _ hm => .ok (le_refl R₁) hm (hm.holds.truthy_eq (hv.mono hle))

theorem lookup (name : String) (pos : Position) {scope scope' : ScopeRef}
    (hscope : R.Places scope scope') :
    R.Relates Alike (Eval.lookup name pos scope) (Eval.lookup name pos scope') := by
  intro R₁ hle m m' hm
  have hresolve := hm.holds.resolve? name (hscope.mono hle)
  rw [Eval.lookup, Eval.lookup, get_bind, get_bind, Store.lookup?, Store.lookup?]
  generalize m.store.resolve? scope name = found, m'.store.resolve? scope' name = found'
    at hresolve
  cases hresolve with
  | some hfound => exact .ok (le_refl R₁) hm hfound.2
  | none => exact .error (le_refl R₁) hm (.error _)

theorem define {scope scope' : ScopeRef} (hscope : R.Places scope scope') (name : String)
    {v v' : Value} (hv : R.Alike v v') :
    R.Relates Same (modifyStore (·.define scope name v)) (modifyStore (·.define scope' name v')) :=
  fun R₁ hle _ _ hm => .ok (le_refl R₁)
    ⟨hm.holds.define (hscope.mono hle) name (hv.mono hle), hm.sink_eq⟩ rfl

theorem assign (name : String) (pos : Position) {scope scope' : ScopeRef}
    (hscope : R.Places scope scope') {v v' : Value} (hv : R.Alike v v') :
    R.Relates Same (Eval.assign name v pos scope) (Eval.assign name v' pos scope') := by
  intro R₁ hle m m' hm
  have hresolve := hm.holds.resolve? name (hscope.mono hle)
  rw [Eval.assign, Eval.assign, get_bind, get_bind]
  generalize m.store.resolve? scope name = found, m'.store.resolve? scope' name = found'
    at hresolve
  cases hresolve with
  | some hfound =>
    exact .ok (le_refl R₁) ⟨hm.holds.define hfound.1 name (hv.mono hle), hm.sink_eq⟩ rfl
  | none => exact .error (le_refl R₁) hm (.error _)

theorem newArray {xs ys : List Value} (hitems : R.Lists xs ys) :
    R.Relates (fun R r r' => R.Alike (.array r) (.array r')) (allocate (·.newArray xs.toArray))
      (allocate (·.newArray ys.toArray)) := by
  intro R₁ hle m m' hm
  obtain ⟨R₂, hle₁, hholds, hr⟩ := hm.holds.newArray (hitems.mono hle)
  exact .ok hle₁ ⟨hholds, hm.sink_eq⟩ hr

theorem newClosure {c c' : Closure} (hc : R.Closures c c') :
    R.Relates (fun R r r' => R.Alike (.closure r) (.closure r')) (allocate (·.newClosure c))
      (allocate (·.newClosure c')) := by
  intro R₁ hle m m' hm
  obtain ⟨R₂, hle₁, hholds, hr⟩ := hm.holds.newClosure (hc.mono hle)
  exact .ok hle₁ ⟨hholds, hm.sink_eq⟩ hr

theorem callPrimitive (p : Primitive) {args args' : List Value} (hargs : R.Lists args args') :
    R.Relates Alike (Eval.callPrimitive p args) (Eval.callPrimitive p args') := by
  intro R₁ hle m m' hm
  have hcall := hm.call (hargs.mono hle) p
  rw [Eval.callPrimitive, Eval.callPrimitive]
  generalize p.call args m = called, p.call args' m' = called' at hcall
  obtain ⟨result, m₁⟩ := called
  obtain ⟨result', m₁'⟩ := called'
  obtain ⟨R₂, hle₁, hm₁, hresult⟩ := hcall
  cases hresult with
  | ok hv => exact .ok hle₁ hm₁ hv
  | error fault => exact .error hle₁ hm₁ (.error _)

/-- Labels that are partners are both active or both not, and their numbers are partners. -/
theorem exitTo {r r' : LabelRef} (hr : R.label.rel r.index r'.index) {args args' : List Value}
    (hargs : R.Lists args args') :
    R.Relates Alike (Eval.exitTo r args) (Eval.exitTo r' args') := by
  intro R₁ hle m m' hm
  obtain ⟨l, l', hl, hl', hlabels⟩ := hm.holds.labels _ _ (hle.label _ _ hr)
  have hget : m.store.label? r = some l := hl
  have hget' : m'.store.label? r' = some l' := hl'
  rw [Settled.exitTo_eq, Settled.exitTo_eq, hget, hget']
  dsimp only
  rw [hlabels.active_eq, hargs.length_eq]
  split
  · split
    · exact .error (le_refl R₁) hm (.exit hlabels.id (hargs.mono hle).headD)
    · exact .error (le_refl R₁) hm (.error _)
  · exact .error (le_refl R₁) hm (.error _)

theorem locating (pos : Position) {x x' : Eval Value} (hx : R.Relates Alike x x') :
    R.Relates Alike (Eval.locating pos x) (Eval.locating pos x') := by
  intro R₁ hle m m' hm
  have hagree := hx hle m m' hm
  rw [Eval.locating, Eval.locating]
  generalize x m = result, x' m' = result' at hagree
  cases hagree with
  | ok hle₁ hm₁ hv => exact .ok hle₁ hm₁ hv
  | error hle₁ hm₁ hsignal =>
    cases hsignal with
    | error e => exact .error hle₁ hm₁ (.error _)
    | exit hid hv => exact .error hle₁ hm₁ (.exit hid hv)
    | exhausted => exact .error hle₁ hm₁ .exhausted

end Relates

/-! ## 4. Blocks and calls -/

/-- The bodies of two runs of a block start with scopes that are partners, and so are the labels
of the runs and their numbers. -/
theorem Machines.enterBlock (hm : R.Machines m m') (name : Option String) {scope scope' : ScopeRef}
    (hscope : R.Places scope scope') :
    ∃ R', R ≤ R' ∧ R'.Machines (m.enterBlock name scope).2 (m'.enterBlock name scope').2 ∧
      R'.Places (m.enterBlock name scope).1 (m'.enterBlock name scope').1 ∧
      R'.label.rel m.store.nextRef.index m'.store.nextRef.index ∧
      R'.id.rel m.store.nextLabel m'.store.nextLabel := by
  obtain ⟨R₁, hle₁, hopened, hlabel, hid⟩ := hm.holds.openLabel name
  have hbindings : R₁.Binds (name.elim [] fun name => [(name, .label m.store.nextRef)])
      (name.elim [] fun name => [(name, .label m'.store.nextRef)]) := by
    cases name with
    | none => exact .nil
    | some name => exact .cons ⟨rfl, .label hlabel⟩ .nil
  obtain ⟨R₂, hle₂, hinner, hplaces⟩ := hopened.newScope (hscope.mono hle₁) hbindings
  exact ⟨R₂, le_trans hle₁ hle₂, ⟨hinner, hm.sink_eq⟩, hplaces, hle₂.label _ _ hlabel,
    hle₂.id _ _ hid⟩

theorem Machines.leaveBlock (hm : R.Machines m m') {r r' : LabelRef}
    (hr : R.label.rel r.index r'.index) : R.Machines (m.leaveBlock r) (m'.leaveBlock r') :=
  ⟨hm.holds.closeLabel hr, hm.sink_eq⟩

/-- Both runs of a block take the exit, or neither does: an exit and a run have one number if
their partners do. -/
theorem Relates.inBlock (name : Option String) {scope scope' : ScopeRef}
    (hscope : R.Places scope scope') {body body' : ScopeRef → Eval Value}
    (hbody : ∀ ⦃R₁⦄, R ≤ R₁ → ∀ inner inner', R₁.Places inner inner' →
      R₁.Relates Alike (body inner) (body' inner')) :
    R.Relates Alike (Eval.inBlock name scope body) (Eval.inBlock name scope' body') := by
  intro R₁ hle m m' hm
  obtain ⟨R₂, hle₂, hinner, hplaces, hlabel, hid⟩ := hm.enterBlock name (hscope.mono hle)
  have hagree := hbody (le_trans hle hle₂) _ _ hplaces (le_refl R₂) _ _ hinner
  rw [inBlock_eq, inBlock_eq]
  generalize body (m.enterBlock name scope).1 (m.enterBlock name scope).2 = result,
    body' (m'.enterBlock name scope').1 (m'.enterBlock name scope').2 = result' at hagree
  refine Agree.weaken ?_ hle₂
  cases hagree with
  | ok hle₃ hm₃ hv => exact .ok hle₃ (hm₃.leaveBlock (hle₃.label _ _ hlabel)) hv
  | @error R₃ hle₃ _ _ _ _ hm₃ hsignal =>
    have hleft := hm₃.leaveBlock (hle₃.label _ _ hlabel)
    cases hsignal with
    | error e => exact .error hle₃ hleft (.error e)
    | exhausted => exact .error hle₃ hleft .exhausted
    | @exit target target' v v' htarget hv =>
      -- the number of the run has kept its partner while the body was running
      have hiff := R₃.id.unique htarget (hle₃.id _ _ hid)
      dsimp only
      by_cases hown : target = m.store.nextLabel
      · rw [if_pos hown, if_pos (hiff.mp hown)]
        exact .ok hle₃ hleft hv
      · rw [if_neg hown, if_neg fun hown' => hown (hiff.mpr hown')]
        exact .error hle₃ hleft (.exit htarget hv)

theorem Machines.enterCall (hm : R.Machines m m') {c c' : Closure} (hc : R.Closures c c')
    {args args' : List Value} (hargs : R.Lists args args') :
    ∃ R', R ≤ R' ∧ R'.Machines (m.enterCall c args).2 (m'.enterCall c' args').2 ∧
      R'.Places (m.enterCall c args).1 (m'.enterCall c' args').1 := by
  have hframe : R.Binds (frame c.params args) (frame c'.params args') := by
    rw [hc.params_eq]
    exact .frame c'.params hargs
  obtain ⟨R₁, hle, hinner, hplaces⟩ := hm.holds.newScope hc.scope hframe
  exact ⟨R₁, hle, ⟨hinner, hm.sink_eq⟩, hplaces⟩

/-- The functions that are called are partners, and the scopes of the calls become partners. -/
theorem Relates.inCall {r r' : ClosureRef} (hr : R.closure.rel r.index r'.index)
    {args args' : List Value} (hargs : R.Lists args args')
    {run run' : Expr → ScopeRef → Eval Value}
    (hrun : ∀ ⦃R₁⦄, R ≤ R₁ → ∀ e inner inner', R₁.Places inner inner' →
      R₁.Relates Alike (run e inner) (run' e inner')) :
    R.Relates Alike (Eval.inCall r args run) (Eval.inCall r' args' run') := by
  intro R₁ hle m m' hm
  obtain ⟨c, c', hc, hc', hclosures⟩ := hm.holds.closures _ _ (hle.closure _ _ hr)
  have hget : m.store.closure? r = some c := hc
  have hget' : m'.store.closure? r' = some c' := hc'
  rw [inCall_eq, inCall_eq, hget, hget']
  dsimp only
  rw [hclosures.params_eq, hargs.length_eq, hclosures.body_eq]
  split
  · obtain ⟨R₂, hle₂, hinner, hplaces⟩ := hm.enterCall hclosures (hargs.mono hle)
    exact (hrun (le_trans hle hle₂) c'.body _ _ hplaces (le_refl R₂) _ _ hinner).weaken hle₂
  · exact .error (le_refl R₁) hm (.error _)

/-! ## 5. All evaluations -/

/-- Evaluations within a given depth agree, whatever the pairing. -/
structure Within (n : Nat) : Prop where
  eval (R : Pairing) (e : Expr) {scope scope' : ScopeRef} (hscope : R.Places scope scope') :
    R.Relates Alike (CalcScript.eval n e scope) (CalcScript.eval n e scope')
  all (R : Pairing) (es : List Expr) {scope scope' : ScopeRef} (hscope : R.Places scope scope') :
    R.Relates Lists (evalAll n es scope) (evalAll n es scope')
  loop (R : Pairing) (condition body : Expr) {scope scope' : ScopeRef}
    (hscope : R.Places scope scope') :
    R.Relates Alike (evalLoop n condition body scope) (evalLoop n condition body scope')
  apply (R : Pairing) {callee callee' : Value} (hcallee : R.Alike callee callee')
    {args args' : List Value} (hargs : R.Lists args args') :
    R.Relates Alike (applyValue n callee args) (applyValue n callee' args')

namespace Within

variable {n : Nat} {scope scope' : ScopeRef}

/-- A choice by a truth value, which is the same in both runs. -/
theorem choice {x x' : Eval Value} (hx : R.Relates Alike x x') {k k' : Bool → Eval Value}
    (hk : ∀ ⦃R₁⦄, R ≤ R₁ → ∀ b, R₁.Relates Alike (k b) (k' b)) :
    R.Relates Alike (x >>= fun v => Eval.truthy v >>= k)
      (x' >>= fun v => Eval.truthy v >>= k') := by
  refine hx.bind fun R₁ hle₁ v v' hv => (Relates.truthy hv).bind fun R₂ hle₂ b b' hb => ?_
  obtain rfl : b = b' := hb
  exact hk (le_trans hle₁ hle₂) b

theorem truth (ih : Within n) (e : Expr) (hscope : R.Places scope scope') :
    R.Relates Alike
      (CalcScript.eval n e scope >>= fun v => Eval.truthy v >>= fun b => Pure.pure (.bool b))
      (CalcScript.eval n e scope' >>= fun v => Eval.truthy v >>= fun b => Pure.pure (.bool b)) :=
  choice (ih.eval R e hscope) fun _ _ b => .pure fun _ _ => .bool b

theorem eval_succ (ih : Within n) (R : Pairing) (e : Expr) {scope scope' : ScopeRef}
    (hscope : R.Places scope scope') :
    R.Relates Alike (CalcScript.eval (n + 1) e scope) (CalcScript.eval (n + 1) e scope') := by
  cases e with
  | literal l => cases l <;> exact .pure fun _ _ => by constructor
  | primitive p => exact .pure fun _ _ => .primitive p
  | array items =>
    exact (ih.all R items hscope).bind fun _ _ _ _ hvs =>
      (Relates.newArray hvs).bind fun _ _ _ _ hr => .pure fun _ hle => hr.mono hle
  | var name pos => exact .lookup name pos hscope
  | store name value =>
    exact (ih.eval R value hscope).bind fun _ hle _ _ hv =>
      (Relates.define (hscope.mono hle) name hv).bind fun _ _ _ _ _ => .pure fun _ _ => .null
  | update name value pos =>
    exact (ih.eval R value hscope).bind fun _ hle _ _ hv =>
      (Relates.assign name pos (hscope.mono hle) hv).bind fun _ _ _ _ _ => .pure fun _ _ => .null
  | seq first rest =>
    exact (ih.eval R first hscope).discard.bind fun R₁ hle _ _ _ =>
      ih.eval R₁ rest (hscope.mono hle)
  | and left right =>
    refine choice (ih.eval R left hscope) fun R₁ hle b => ?_
    cases b with
    | true => exact ih.truth right (hscope.mono hle)
    | false => exact .pure fun _ _ => .bool false
  | or left right =>
    refine choice (ih.eval R left hscope) fun R₁ hle b => ?_
    cases b with
    | true => exact .pure fun _ _ => .bool true
    | false => exact ih.truth right (hscope.mono hle)
  | cond condition consequent alternate =>
    refine choice (ih.eval R condition hscope) fun R₁ hle b => ?_
    cases b with
    | true => exact ih.eval R₁ consequent (hscope.mono hle)
    | false => exact ih.eval R₁ alternate (hscope.mono hle)
  | loop condition body => exact ih.loop R condition body hscope
  | func params body =>
    have hclosures : R.Closures ⟨params, body, scope⟩ ⟨params, body, scope'⟩ := ⟨rfl, rfl, hscope⟩
    exact (Relates.newClosure hclosures).bind fun _ _ _ _ hr => .pure fun _ hle => hr.mono hle
  | apply callee args pos =>
    refine (ih.eval R callee hscope).bind fun R₁ hle₁ v v' hv => ?_
    refine (ih.all R₁ args (hscope.mono hle₁)).bind fun R₂ hle₂ vs vs' hvs => ?_
    exact .locating pos (ih.apply R₂ (hv.mono hle₂) hvs)
  | block name body =>
    exact .inBlock name hscope fun R₁ _ inner inner' hinner => ih.eval R₁ body hinner

theorem all_succ (ih : Within n) (R : Pairing) (es : List Expr) {scope scope' : ScopeRef}
    (hscope : R.Places scope scope') :
    R.Relates Lists (evalAll (n + 1) es scope) (evalAll (n + 1) es scope') := by
  cases es with
  | nil => exact .pure fun _ _ => .nil
  | cons e es =>
    refine (ih.eval R e hscope).bind fun R₁ hle₁ v v' hv => ?_
    refine (ih.all R₁ es (hscope.mono hle₁)).bind fun R₂ hle₂ vs vs' hvs => ?_
    exact .pure fun R₃ hle₃ => .cons (hv.mono (le_trans hle₂ hle₃)) (hvs.mono hle₃)

theorem loop_succ (ih : Within n) (R : Pairing) (condition body : Expr)
    {scope scope' : ScopeRef} (hscope : R.Places scope scope') :
    R.Relates Alike (evalLoop (n + 1) condition body scope)
      (evalLoop (n + 1) condition body scope') := by
  refine choice (ih.eval R condition hscope) fun R₁ hle b => ?_
  cases b with
  | true =>
    exact (ih.eval R₁ body (hscope.mono hle)).discard.bind fun R₂ hle₂ _ _ _ =>
      ih.loop R₂ condition body (hscope.mono (le_trans hle hle₂))
  | false => exact .pure fun _ _ => .null

theorem apply_succ (ih : Within n) (R : Pairing) {callee callee' : Value}
    (hcallee : R.Alike callee callee') {args args' : List Value} (hargs : R.Lists args args') :
    R.Relates Alike (applyValue (n + 1) callee args) (applyValue (n + 1) callee' args') := by
  cases hcallee with
  | closure hr =>
    exact .inCall hr hargs fun R₁ _ e inner inner' hinner => ih.eval R₁ e hinner
  | primitive p => exact .callPrimitive p hargs
  | label hr => exact .exitTo hr hargs
  | number _ | bool _ | null | str _ | array _ => exact .throw fun _ => .error _

end Within

/-- **Runs of a program are equal up to names**, at any depth. The induction is on the depth,
which is the same for both runs; the pairing grows along them. -/
theorem within (n : Nat) : Within n := by
  induction n with
  | zero =>
    constructor
    all_goals
      intros
      exact .throw fun _ => .exhausted
  | succ n ih => exact ⟨ih.eval_succ, ih.all_succ, ih.loop_succ, ih.apply_succ⟩

/-! ## 6. Sessions -/

/-- The same error, or values that are alike. -/
inductive Answers (R : Pairing) : Except Error Value → Except Error Value → Prop
  | value {v v' : Value} (h : R.Alike v v') : Answers R (.ok v) (.ok v')
  | error (e : Error) : Answers R (.error e) (.error e)

/-- Sessions that are equal up to names, with the same output. -/
structure Sessions (R : Pairing) (s s' : Session) : Prop where
  machines : R.Machines s.machine s'.machine
  globals : R.Places Session.globals Session.globals

/-- Answers to the same evaluation are alike if no label works outside of it. -/
theorem Sessions.finish {s s' : Session} (h : R.Sessions s s') (hs : s.machine.store.Tracks [])
    {x x' : Eval Value} (hx : R.Relates Alike x x') (hsettled : Settled x) :
    ∃ R', R ≤ R' ∧ R'.Answers (s.finish x).1 (s'.finish x').1 ∧
      R'.Sessions (s.finish x).2 (s'.finish x').2 := by
  -- both sinks are flushed, and they are the same
  have hflush : ∀ {R₁ : Pairing} {m m' : Machine}, R ≤ R₁ → R₁.Machines m m' →
      R₁.Sessions ⟨m.store, m'.sink.flush.2⟩ ⟨m'.store, m'.sink.flush.2⟩ :=
    fun hle hm => ⟨⟨hm.holds, rfl⟩, h.globals.mono hle⟩
  rcases (hx (le_refl R) _ _ h.machines).cases with ⟨R₁, v, v', m, m', hle, hm, hv, hr, hr'⟩ |
    ⟨R₁, signal, signal', m, m', hle, hm, hsignal, hr, hr'⟩
  · rw [Session.finish_of_ok hr, Session.finish_of_ok hr', hm.sink_eq]
    refine ⟨R₁, hle, ?_, hflush hle hm⟩
    dsimp only
    cases m'.sink.flush.1 with
    | ok => exact .value hv
    | error reason => exact .error _
  · have herror : signal.toError = signal'.toError := by
      cases hsignal with
      | error e => rfl
      | exhausted => rfl
      -- an exit would need a label that still works
      | exit _ _ => exact absurd hr (hsettled.ne_exit hs _ _ m)
    rw [Session.finish_of_error hr, Session.finish_of_error hr', hm.sink_eq, herror]
    refine ⟨R₁, hle, ?_, hflush hle hm⟩
    dsimp only
    cases m'.sink.flush.1 with
    | ok => exact .error _
    | error reason => exact .error _

theorem Sessions.evaluate {s s' : Session} (h : R.Sessions s s')
    (hs : s.machine.store.Tracks []) (source : String) :
    ∃ R', R ≤ R' ∧ R'.Answers (s.evaluate source).1 (s'.evaluate source).1 ∧
      R'.Sessions (s.evaluate source).2 (s'.evaluate source).2 := by
  unfold Session.evaluate
  split
  · next e _ =>
    exact h.finish hs ((within Session.depth).eval R e h.globals) (eval_settled _ e _)
  · exact ⟨R, le_refl R, .error _, h⟩

/-- The global scopes are partners, and nothing else is. -/
def ofGlobals : Pairing where
  array := .none
  closure := .none
  label := .none
  scope := OneToOne.none.adjoin 0 0
  id := .none

theorem alike_of_mem_builtins {b : String × Value} (hb : b ∈ Session.builtins) :
    R.Alike b.2 b.2 := by
  rcases List.mem_append.mp hb with hb | hb
  · simp only [List.mem_cons, List.not_mem_nil, or_false] at hb
    rcases hb with rfl | rfl
    · exact .number _
    · exact .number _
  · obtain ⟨p, -, rfl⟩ := List.mem_map.mp hb
    exact .primitive p

/-- A new session is equal to itself, with nothing but the global scope. -/
theorem sessions_new (sink : Sink) : ofGlobals.Sessions (.new sink) (.new sink) := by
  have hnested : (Session.new sink).machine.store.Nested := by
    intro i scope parent hscope hparent
    have hscopes : (Session.new sink).machine.store.scopes = #[⟨none, Session.builtins⟩] := rfl
    rw [hscopes] at hscope
    obtain rfl := Array.mem_singleton.mp (Array.mem_of_getElem? hscope)
    cases hparent
  have hscope : ofGlobals.Scopes ⟨none, Session.builtins⟩ ⟨none, Session.builtins⟩ :=
    ⟨.none, List.forall₂_same.mpr fun b hb => ⟨rfl, alike_of_mem_builtins hb⟩⟩
  refine ⟨⟨⟨?_, ?_, ?_, ?_, ?_, hnested, hnested⟩, rfl⟩, OneToOne.adjoin_self _ _ _⟩
  · exact fun i j hij => hij.elim
  · exact fun i j hij => hij.elim
  · exact fun i j hij => hij.elim
  · rintro i j (⟨hij, -, -⟩ | ⟨rfl, rfl⟩)
    · exact hij.elim
    · exact ⟨_, _, rfl, rfl, hscope⟩
  · exact fun i j hij => hij.elim

/-- A label and a scope that a block has left behind have no partners. -/
theorem Machines.leaveBlock_right (hm : R.Machines m m') (name : Option String)
    {scope : ScopeRef} (hscope : scope.index < m'.store.scopes.size) :
    R.Machines m ((m'.enterBlock name scope).2.leaveBlock m'.store.nextRef) := by
  refine ⟨⟨hm.holds.arrays, hm.holds.closures, ?_, hm.holds.scopes.push_right _, ?_,
    hm.holds.nested, ?_⟩, hm.sink_eq⟩
  · refine (hm.holds.labels.push_right _).modify_right fun i hi => ?_
    exact Nat.lt_irrefl _ (hm.holds.labels.lt _ _ hi).2
  · intro i j hij
    obtain ⟨hi, hj⟩ := hm.holds.ids i j hij
    exact ⟨hi, Nat.lt_succ_of_lt hj⟩
  · exact hm.holds.nested'.newScope hscope _

end Pairing

/-- What the run of a block that does nothing leaves. -/
theorem eval_idle_block {n : Nat} {name : Option String} {scope : ScopeRef} {v : Value}
    {m m' : Machine} (h : eval n (.block name .null) scope m = .ok v m') :
    m' = (m.enterBlock name scope).2.leaveBlock m.store.nextRef := by
  cases n with
  | zero => cases h
  | succ n =>
    cases n with
    | zero => cases h
    | succ n =>
      cases h
      rfl

namespace Session

/-- The second session has done what the first one has, and in between it has run blocks that do
nothing. -/
inductive Idled : Session → Session → Prop
  | new (sink : Sink) : Idled (new sink) (new sink)
  | evaluate {s s' : Session} (source : String) :
    Idled s s' → Idled (s.evaluate source).2 (s'.evaluate source).2
  | block {s s' : Session} {n : Nat} {name : Option String} {m : Machine} :
    Idled s s' → eval n (.block name .null) globals s'.machine = .ok .null m → Idled s ⟨m⟩

variable {s s' : Session}

/-- Sessions that differ in such blocks are equal up to names. -/
theorem Idled.exists_sessions (h : Idled s s') :
    s.machine.store.Tracks [] ∧ ∃ R : Pairing, R.Sessions s s' := by
  induction h with
  | new sink => exact ⟨(Reachable.new sink).tracks_nil, _, Pairing.sessions_new sink⟩
  | @evaluate s s' source _ ih =>
    obtain ⟨htracks, R, hsessions⟩ := ih
    obtain ⟨R', -, -, hafter⟩ := hsessions.evaluate htracks source
    refine ⟨?_, R', hafter⟩
    unfold Session.evaluate
    split
    · exact htracks.of_settles (finish_settles (eval_settled _ _ _) s)
    · exact htracks
  | block _ hrun ih =>
    obtain ⟨htracks, R, hsessions⟩ := ih
    obtain rfl := eval_idle_block hrun
    obtain ⟨-, hglobals⟩ := hsessions.machines.holds.scopes.lt _ _ hsessions.globals
    exact ⟨htracks, R, hsessions.machines.leaveBlock_right _ hglobals, hsessions.globals⟩

/-- **The numbers of labels are unobservable.** Two sessions that differ in nothing but the
numbers of labels, where no label works any more, give the same answer to a program. Afterwards
they have the same arrays, functions, scopes and output, and labels that differ in their numbers
only; those that were there before differ as they did.

Nor do blocks that were run before, in one session and not in the other, make a difference: the
answers are the same error or values that are equal up to the places of things, and so are the
sessions behind them. -/
theorem label_numbers_are_unobservable (source : String) :
    (∀ (f : Nat → Nat) (s s' : Session), Renumbered f s s' →
      (∀ l ∈ s.machine.store.labels, l.active = false) →
      (s'.evaluate source).1 = (s.evaluate source).1 ∧
        ∃ g : Nat → Nat, (∀ l ∈ s.machine.store.labels, g l.id = f l.id) ∧
          Renumbered g (s.evaluate source).2 (s'.evaluate source).2) ∧
    ∀ s s' : Session, Idled s s' →
      ∃ R : Pairing, R.Answers (s.evaluate source).1 (s'.evaluate source).1 ∧
        R.Sessions (s.evaluate source).2 (s'.evaluate source).2 := by
  refine ⟨fun f s s' h hs => evaluate_renumbered h hs source, fun s s' h => ?_⟩
  obtain ⟨htracks, R, hsessions⟩ := h.exists_sessions
  obtain ⟨R', -, hanswers, hafter⟩ := hsessions.evaluate htracks source
  exact ⟨R', hanswers, hafter⟩

/-- A label with the number 5 instead of 0 and a counter at 7 instead of 1; and a new session in
which a block was run before. -/
theorem label_numbers_of_one_label :
    (∃ s s' : Session, Renumbered (· + 5) s s' ∧ s.machine.store.nextLabel = 1 ∧
      s'.machine.store.nextLabel = 7 ∧ s.machine.store.labels.size = 1 ∧
      (s'.evaluate "block k do k(1) end").1 = (s.evaluate "block k do k(1) end").1) ∧
    ∃ m, eval 2 (.block none .null) globals (new .unlimited).machine = .ok .null m ∧
      ∃ R : Pairing, R.Answers ((new .unlimited).evaluate "block k do k(1) end").1
        (Session.evaluate ⟨m⟩ "block k do k(1) end").1 := by
  have hboth := label_numbers_are_unobservable "block k do k(1) end"
  have hrenumbered : ∀ store : Store, Renumbered (· + 5)
      ⟨{ store with labels := #[⟨0, some "k", false⟩], nextLabel := 1 }, .unlimited⟩
      ⟨{ store with labels := #[⟨5, some "k", false⟩], nextLabel := 7 }, .unlimited⟩ := by
    intro store
    refine ⟨rfl, rfl, rfl, rfl, ?_, ?_, ?_⟩
    · simp [Label.renumber]
    · simp
    · simp
  refine ⟨?_, ?_⟩
  · refine ⟨_, _, hrenumbered (new .unlimited).machine.store, rfl, rfl, rfl, ?_⟩
    exact (hboth.1 _ _ _ (hrenumbered (new .unlimited).machine.store) (by simp)).1
  · have hrun : eval 2 (.block none .null) globals (new .unlimited).machine = .ok .null _ := rfl
    obtain ⟨R, hanswers, -⟩ := hboth.2 _ _ (.block (.new .unlimited) hrun)
    exact ⟨_, hrun, R, hanswers⟩

end Session

end CalcScript
