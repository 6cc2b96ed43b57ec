/-
`Proofs/Faults.lean` -- which faults the built-in operations raise.

A built-in operation fails because of its arguments or because the sink is full.
It never complains about a variable, about something that is not a function or
about a label: those faults belong to the evaluator, and the one of an exit that
met no block run belongs to the session. Nor does it complain about the number of
its arguments if that is one it takes. The file walks once through everything an
operation calls.
-/
import CalcScript.Machine
import Mathlib.Data.List.Basic

set_option autoImplicit false

namespace CalcScript

/-- Faults of built-in operations, as opposed to those of the evaluator and of the
session. -/
def Fault.isOperational : Fault → Bool
  | .notCallable _ | .labelArity _ | .undefinedVariable _ | .deadLabel | .strayExit _ => false
  | _ => true

/-- Faults of a built-in operation that has got as many arguments as it takes. -/
def Fault.isProper (fault : Fault) : Bool := fault.isOperational && fault.kind != .arity

/-- A result that can only fail with such a fault. -/
def Proper {α : Type} (r : Except Fault α) : Prop :=
  ∀ fault, r = .error fault → fault.isProper = true

namespace Proper

variable {α β : Type}

/-! ## 1. Putting results together -/

theorem ok (a : α) : Proper (.ok a : Except Fault α) := fun _ h => nomatch h

theorem error {fault : Fault} (hfault : fault.isProper = true) :
    Proper (.error fault : Except Fault α) := by
  intro f h
  cases h
  exact hfault

/-- Operations are chains of parts that may fail, and a chain fails where one of its parts does. -/
theorem bind {x : Except Fault α} {f : α → Except Fault β} (hx : Proper x)
    (hf : ∀ a, Proper (f a)) : Proper (x >>= f) := by
  intro fault h
  cases x with
  | ok a => exact hf a fault h
  | error _ =>
    cases h
    exact hx fault rfl

theorem map {x : Except Fault α} {f : α → β} (hx : Proper x) : Proper (x.map f) := by
  intro fault h
  cases x with
  | ok a => cases h
  | error _ =>
    cases h
    exact hx fault rfl

/-! ## 2. Conversions -/

theorem toNumber (v : Value) : Proper v.toNumber := by
  unfold Value.toNumber
  split
  · exact ok _
  · exact ok _
  · exact ok _
  · exact ok _
  · split
    · exact ok _
    · exact error rfl
  · exact error rfl

theorem toIndex (what : Indexed) (v : Value) : Proper (v.toIndex what) := by
  refine (toNumber v).bind fun x => ?_
  split
  · exact error rfl
  · split
    · exact error rfl
    · exact ok _

theorem toLength (v : Value) : Proper (Primitive.toLength v) := by
  refine (toNumber v).bind fun x => ?_
  split
  · exact error rfl
  · split
    · exact error rfl
    · split
      · exact error rfl
      · exact ok _

/-! ## 3. Elements of arrays and strings -/

theorem get (s : Store) (v index : Value) : Proper (s.get v index) := by
  unfold Store.get
  split
  · refine (toIndex _ index).bind fun i => ?_
    dsimp only
    split
    · exact ok _
    · exact error rfl
  · refine (toIndex _ index).bind fun i => ?_
    dsimp only
    split
    · exact ok _
    · exact error rfl
  · exact error rfl

/-- A slot is looked up as an element is, except that strings have none. -/
theorem slot (s : Store) (v index : Value) : Proper (s.slot v index) := by
  unfold Store.slot
  split
  · refine (toIndex _ index).bind fun i => ?_
    dsimp only
    split
    · exact ok _
    · exact error rfl
  · exact error rfl
  · exact error rfl

theorem length (s : Store) (v : Value) : Proper (Primitive.length s v) := by
  unfold Primitive.length
  split
  · exact ok _
  · exact ok _
  · exact error rfl

/-! ## 4. Numbers -/

/-- Both operands are converted first, so only the operation itself may add a fault. -/
theorem arithmetic {op : Float → Float → Except Fault Float} (hop : ∀ x y, Proper (op x y))
    (a b : Value) : Proper (Primitive.arithmetic op a b) :=
  (toNumber a).bind fun x => (toNumber b).bind fun y => (hop x y).bind fun _ => ok _

theorem comparison (op : Float → Float → Bool) (a b : Value) :
    Proper (Primitive.comparison op a b) :=
  (toNumber a).bind fun _ => (toNumber b).bind fun _ => ok _

theorem nonzero (y : Float) : Proper (Primitive.nonzero y) := by
  unfold Primitive.nonzero
  split
  · exact error rfl
  · exact ok _

/-! ## 5. Equality -/

theorem equalLeaf (x y : Value) : Proper (x.equalLeaf y) := by
  unfold Value.equalLeaf
  split
  · exact ok _
  · exact (toNumber x).bind fun _ => (toNumber y).bind fun _ => ok _

/-- Elements are compared pair by pair, and the first fault is that of the whole. -/
theorem everyPair {compare : Value → Value → Pairs → Except Fault (Bool × Pairs)}
    (h : ∀ x y seen, Proper (compare x y seen)) (xs ys : List Value) (seen : Pairs) :
    Proper (CalcScript.everyPair compare xs ys seen) := by
  fun_induction CalcScript.everyPair compare xs ys seen with
  | case1 x xs y ys seen ih =>
    refine (h x y seen).bind fun ⟨same, seen'⟩ => ?_
    cases same with
    | true => exact ih seen'
    | false => exact ok _
  | case2 => exact ok _

/-- The induction is on the depth. Arrays by themselves fail nothing, so only the rule for leaves
matters. -/
theorem compareWithin (s : Store) {leaf : Value → Value → Except Fault Bool}
    (h : ∀ x y, Proper (leaf x y)) (n : Nat) (x y : Value) (seen : Pairs) :
    Proper (s.compareWithin leaf n x y seen) := by
  induction n generalizing x y seen with
  | zero => exact ok _
  | succ n ih =>
    unfold Store.compareWithin
    split
    · split
      · exact ok _
      · dsimp only
        split
        · exact everyPair ih _ _ _
        · exact ok _
    · exact (h _ _).bind fun _ => ok _

theorem equal (s : Store) (x y : Value) : Proper (s.equal x y) :=
  (compareWithin s equalLeaf _ x y []).bind fun _ => ok _

/-! ## 6. All operations -/

/-- A refused write is such a fault, whatever the sink says about it. -/
theorem output (m : Machine) (text : String) : Proper (Primitive.output m text).1 := by
  cases h : (m.sink.write text).1 with
  | ok =>
    rw [Primitive.output_of_ok h]
    exact ok _
  | error reason =>
    rw [Primitive.output_of_error h]
    exact error rfl

/-- With as many arguments as it takes, a built-in operation complains about something else. -/
theorem call {p : Primitive} {args : List Value} (h : p.arity.accepts args.length = true)
    (m : Machine) : Proper (p.call args m).1 := by
  cases p with
  | add | sub | mul | pow =>
    obtain ⟨a, b, rfl⟩ := List.length_eq_two.mp (eq_of_beq h)
    exact arithmetic (fun _ _ => ok _) a b
  | div | intDiv | mod =>
    obtain ⟨a, b, rfl⟩ := List.length_eq_two.mp (eq_of_beq h)
    exact arithmetic (fun _ _ => (nonzero _).bind fun _ => ok _) a b
  | neg | pos =>
    obtain ⟨a, rfl⟩ := List.length_eq_one_iff.mp (eq_of_beq h)
    exact (toNumber a).map
  | not =>
    obtain ⟨a, rfl⟩ := List.length_eq_one_iff.mp (eq_of_beq h)
    exact ok _
  | lt | le | gt | ge =>
    obtain ⟨a, b, rfl⟩ := List.length_eq_two.mp (eq_of_beq h)
    exact comparison _ a b
  | eq | ne =>
    obtain ⟨a, b, rfl⟩ := List.length_eq_two.mp (eq_of_beq h)
    exact (equal _ a b).map
  | print | printLine => exact output m _
  | makeArray =>
    -- the optional arguments: without any, nothing is converted and nothing can fail
    match args, h with
    | [], _ => exact ok _
    | [n], _ | [n, fill], _ =>
      rw [Primitive.call]
      cases hlength : Primitive.toLength n with
      | ok k => exact ok _
      | error fault => exact error (toLength n fault hlength)
  | get =>
    obtain ⟨v, index, rfl⟩ := List.length_eq_two.mp (eq_of_beq h)
    exact get _ v index
  | set =>
    obtain ⟨v, index, value, rfl⟩ := List.length_eq_three.mp (eq_of_beq h)
    rw [Primitive.call]
    cases hslot : m.store.slot v index with
    | ok place => exact ok _
    | error fault => exact error (slot _ v index fault hslot)
  | push =>
    obtain ⟨v, item, rfl⟩ := List.length_eq_two.mp (eq_of_beq h)
    cases v with
    | array r => exact ok _
    | _ => exact error rfl
  | pop =>
    obtain ⟨v, rfl⟩ := List.length_eq_one_iff.mp (eq_of_beq h)
    cases v with
    | array r =>
      rw [Primitive.call]
      split
      · exact ok _
      · exact error rfl
    | _ => exact error rfl
  | extend =>
    obtain ⟨v, w, rfl⟩ := List.length_eq_two.mp (eq_of_beq h)
    unfold Primitive.call
    dsimp only
    split
    · exact ok _
    · exact error rfl
  | len =>
    obtain ⟨v, rfl⟩ := List.length_eq_one_iff.mp (eq_of_beq h)
    exact length _ v

end Proper

/-- Every built-in operation fails with a fault of its own. -/
theorem Primitive.isOperational_of_call {p : Primitive} {args : List Value} {m : Machine}
    {fault : Fault} (h : (p.call args m).1 = .error fault) : fault.isOperational = true := by
  cases hcount : p.arity.accepts args.length with
  | true => exact (Bool.and_eq_true_iff.mp (Proper.call hcount m fault h)).1
  | false =>
    rw [Primitive.call_of_not_accepts m hcount] at h
    cases h
    rfl

end CalcScript
