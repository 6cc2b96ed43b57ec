/-
`Machine.lean` -- the state that programs act on, and what the built-in
operations do to it.

A machine is a store and a sink. An operation gets its arguments already
evaluated; it changes the machine only if it succeeds, except that a sink may
take part of a text before it fails.
-/
import CalcScript.Sink
import CalcScript.Store.Equality
import CalcScript.Store.Text

set_option autoImplicit false

namespace CalcScript

structure Machine where
  store : Store
  sink : Sink

/-- The greatest length of an array made by `make_array`. -/
def maxArrayLength : Nat := Nat.pow 2 28

namespace Primitive

/-! ## 1. Operations on numbers -/

/-- An operation on two numbers. The first argument is converted first. -/
def arithmetic (op : Float → Float → Except Fault Float) (a b : Value) : Except Fault Value := do
  let x ← a.toNumber
  let y ← b.toNumber
  return .number (← op x y)

/-- A comparison of two numbers. -/
def comparison (op : Float → Float → Bool) (a b : Value) : Except Fault Value := do
  let x ← a.toNumber
  let y ← b.toNumber
  return .bool (op x y)

/-- A divisor must not be zero. -/
def nonzero (y : Float) : Except Fault Float :=
  if y == 0.0 then .error .divisionByZero else .ok y

def quotient (x y : Float) : Except Fault Float := do
  return x / (← nonzero y)

/-- Integer division: both operands and the quotient lose what is behind the
point. -/
def wholeQuotient (x y : Float) : Except Fault Float := do
  return Number.trunc (Number.trunc x / (← nonzero (Number.trunc y)))

def remainder (x y : Float) : Except Fault Float := do
  return Number.remainder x (← nonzero y)

/-! ## 2. Operations on arrays -/

/-- A value where the length of a new array is needed. -/
def toLength (v : Value) : Except Fault Nat := do
  let x ← v.toNumber
  match Number.integer? x with
  | none => .error .badLength
  | some i =>
    if i < 0 then .error .badLength
    else if (maxArrayLength : Int) < i then .error (.lengthTooLarge x maxArrayLength)
    else .ok i.toNat

/-- The number of elements or characters. -/
def length (s : Store) : Value → Except Fault Value
  | .array r => .ok (.number (Float.ofNat (s.items r).size))
  | .str text => .ok (.number (Float.ofNat text.length))
  | v => .error (.noLength v.typeName)

/-- An operation that only reads the store. -/
def read (m : Machine) (r : Except Fault Value) : Except Fault Value × Machine := (r, m)

def allocate (m : Machine) (items : Array Value) : Except Fault Value × Machine :=
  let ⟨store, sink⟩ := m
  let (r, store) := store.newArray items
  (.ok (.array r), ⟨store, sink⟩)

/-- Changes the store and leaves the sink alone. -/
def change (m : Machine) (f : Store → Store) : Machine :=
  let ⟨store, sink⟩ := m
  ⟨f store, sink⟩

/-! ## 3. Output -/

/-- Values with a space between them. -/
def printed (s : Store) (values : List Value) : String :=
  " ".intercalate (values.map s.text)

/-- Writes to the sink. An error of the sink is passed on in its own words. -/
def output (m : Machine) (text : String) : Except Fault Value × Machine :=
  let ⟨store, sink⟩ := m
  let (written, sink) := sink.write text
  ((written.map fun _ => .null).mapError .sinkFull, ⟨store, sink⟩)

theorem output_of_ok {m : Machine} {text : String} (h : (m.sink.write text).1 = .ok ()) :
    output m text = (.ok .null, ⟨m.store, (m.sink.write text).2⟩) := by
  dsimp only [output]
  rw [h]
  rfl

theorem output_of_error {m : Machine} {text reason : String}
    (h : (m.sink.write text).1 = .error reason) :
    output m text = (.error (.sinkFull reason), ⟨m.store, (m.sink.write text).2⟩) := by
  dsimp only [output]
  rw [h]
  rfl

/-! ## 4. All operations -/

/-- Performs an operation. An argument count that it does not take is a fault
whatever the arguments are. -/
def call (p : Primitive) (args : List Value) (m : Machine) : Except Fault Value × Machine :=
  match p, args with
  | .add, [a, b] => read m (arithmetic (fun x y => .ok (x + y)) a b)
  | .sub, [a, b] => read m (arithmetic (fun x y => .ok (x - y)) a b)
  | .mul, [a, b] => read m (arithmetic (fun x y => .ok (x * y)) a b)
  | .div, [a, b] => read m (arithmetic quotient a b)
  | .intDiv, [a, b] => read m (arithmetic wholeQuotient a b)
  | .mod, [a, b] => read m (arithmetic remainder a b)
  | .pow, [a, b] => read m (arithmetic (fun x y => .ok (Float.pow x y)) a b)
  | .neg, [a] => read m (a.toNumber.map fun x => .number (-x))
  | .pos, [a] => read m (a.toNumber.map .number)
  | .not, [a] => (.ok (.bool (!m.store.truthy a)), m)
  | .lt, [a, b] => read m (comparison (fun x y => decide (x < y)) a b)
  | .le, [a, b] => read m (comparison (fun x y => decide (x ≤ y)) a b)
  | .gt, [a, b] => read m (comparison (fun x y => decide (y < x)) a b)
  | .ge, [a, b] => read m (comparison (fun x y => decide (y ≤ x)) a b)
  | .eq, [a, b] => read m ((m.store.equal a b).map .bool)
  | .ne, [a, b] => read m ((m.store.equal a b).map fun same => .bool (!same))
  | .print, values => output m (printed m.store values)
  | .printLine, values => output m (printed m.store values ++ "\n")
  | .makeArray, [] => allocate m #[]
  | .makeArray, [n] =>
    match toLength n with
    | .ok n => allocate m (Array.replicate n .null)
    | .error f => (.error f, m)
  | .makeArray, [n, fill] =>
    match toLength n with
    | .ok n => allocate m (Array.replicate n fill)
    | .error f => (.error f, m)
  | .get, [v, index] => read m (m.store.get v index)
  | .set, [v, index, value] =>
    match m.store.slot v index with
    | .ok slot => (.ok .null, change m (·.fill slot value))
    | .error f => (.error f, m)
  | .push, [v, item] =>
    match v with
    | .array r => (.ok .null, change m (·.modifyArray r (·.push item)))
    | _ => (.error .firstNotArray, m)
  | .pop, [v] =>
    match v with
    | .array r =>
      match (m.store.items r).back? with
      | some item => (.ok item, change m (·.modifyArray r (·.pop)))
      | none => (.error .popEmpty, m)
    | _ => (.error .firstNotArray, m)
  | .extend, [v, w] =>
    match v, w with
    | .array r, .array other =>
      let items := m.store.items other
      (.ok .null, change m (·.modifyArray r (· ++ items)))
    | _, _ => (.error .notBothArrays, m)
  | .len, [v] => read m (length m.store v)
  | p, args => (.error (.arity p.arity args.length), m)

/-- An argument count outside the arity is a fault and changes nothing. -/
theorem call_of_not_accepts {p : Primitive} {args : List Value} (m : Machine)
    (h : p.arity.accepts args.length = false) :
    p.call args m = (.error (.arity p.arity args.length), m) := by
  cases p <;> rcases args with _ | ⟨a, _ | ⟨b, _ | ⟨c, _ | ⟨d, args⟩⟩⟩⟩ <;> try rfl
  -- what is left are counts that the operation takes
  all_goals simp [arity, Arity.accepts] at h

end Primitive

end CalcScript
