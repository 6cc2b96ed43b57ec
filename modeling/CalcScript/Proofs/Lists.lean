/-
`Proofs/Lists.lean` -- the operations on arrays and strings as operations on lists.

Seen from outside, the arrays of a machine are a heap of lists: each reference has a list
or none (`Store.heap`). The operations on arrays change this heap at one place, whatever
else refers to that place, and nothing but the heap. `Primitive.RefinesLists` says so
clause by clause.

Indices and lengths are values that stand for a whole number. What that means is said with
exact rational numbers (`Binary.value`), so that zeros of both signs, fractions, numbers that
are not finite and numbers beyond every index need no clause of their own.
-/
import CalcScript.Machine
import Mathlib.Data.Nat.Cast.Field
import Mathlib.Data.Rat.Cast.CharZero
import Mathlib.Tactic.NormNum

set_option autoImplicit false

namespace CalcScript

/-! ## 1. Whole numbers -/

namespace Binary

/-- The number without its sign. -/
def magnitude (b : Binary) : ℚ := b.significand * 2 ^ b.exponent

/-- The number that the fields of a double stand for, exactly. -/
def value (b : Binary) : ℚ := if b.negative then -b.magnitude else b.magnitude

variable {b : Binary}

theorem magnitude_of_nonneg (h : 0 ≤ b.exponent) : b.magnitude = b.whole := by
  obtain ⟨n, hn⟩ := Int.eq_ofNat_of_zero_le h
  rw [magnitude, whole, if_pos h, hn]
  simp

theorem magnitude_of_neg (h : ¬ 0 ≤ b.exponent) :
    b.magnitude = b.significand / (Nat.pow 2 (-b.exponent).toNat : ℕ) := by
  obtain ⟨n, hn⟩ := Int.eq_ofNat_of_zero_le (a := -b.exponent) (by omega)
  have hexponent : b.exponent = -(n : ℤ) := by omega
  rw [magnitude, hexponent]
  simp [div_eq_mul_inv]

/-- With nothing behind the point, the part in front of it is all. -/
theorem magnitude_of_isWhole (h : b.isWhole = true) : b.magnitude = b.whole := by
  by_cases hexp : 0 ≤ b.exponent
  · exact magnitude_of_nonneg hexp
  · have hdvd : Nat.pow 2 (-b.exponent).toNat ∣ b.significand := by
      apply Nat.dvd_of_mod_eq_zero
      simpa [isWhole, hexp] using h
    rw [magnitude_of_neg hexp, whole, if_neg hexp, Nat.cast_div hdvd]
    exact_mod_cast (Nat.pow_pos two_pos).ne'

/-- A number that is equal to an integer has nothing behind the point. -/
theorem isWhole_of_magnitude_eq {i : ℤ} (h : b.magnitude = i) : b.isWhole = true := by
  by_cases hexp : 0 ≤ b.exponent
  · simp [isWhole, hexp]
  · have hpos : ((Nat.pow 2 (-b.exponent).toNat : ℕ) : ℚ) ≠ 0 := by
      exact_mod_cast (Nat.pow_pos two_pos).ne'
    rw [magnitude_of_neg hexp, div_eq_iff hpos] at h
    have hint : (b.significand : ℤ) = i * (Nat.pow 2 (-b.exponent).toNat : ℕ) := by
      exact_mod_cast h
    have hdvd : Nat.pow 2 (-b.exponent).toNat ∣ b.significand :=
      Int.natCast_dvd_natCast.mp ⟨i, by rw [hint, mul_comm]⟩
    simpa [isWhole, hexp] using Nat.mod_eq_zero_of_dvd hdvd

theorem value_eq_intCast_iff {i : ℤ} :
    b.value = i ↔ b.isWhole = true ∧ (if b.negative then -(b.whole : ℤ) else b.whole) = i := by
  constructor
  · intro h
    have hwhole : b.isWhole = true := by
      rw [value] at h
      split at h
      · exact isWhole_of_magnitude_eq (i := -i) (by rw [Int.cast_neg, ← h, neg_neg])
      · exact isWhole_of_magnitude_eq h
    refine ⟨hwhole, ?_⟩
    rw [value, magnitude_of_isWhole hwhole] at h
    split at h
    · rw [if_pos ‹_›]
      exact_mod_cast h
    · rw [if_neg ‹_›]
      exact_mod_cast h
  · rintro ⟨hwhole, rfl⟩
    rw [value, magnitude_of_isWhole hwhole]
    split <;> simp

end Binary

/-- The integer read off a double is the one that the double is exactly equal to. -/
theorem Number.integer?_eq_some_iff {x : Float} {i : ℤ} :
    Number.integer? x = some i ↔ ∃ b, Binary.ofFloat? x = some b ∧ b.value = i := by
  simp only [Number.integer?, Option.bind_eq_some_iff, Option.ite_none_right_eq_some,
    Option.some.injEq, Binary.value_eq_intCast_iff]

/-- Where a number is needed, the value gives one that is finite and equal to `k`. -/
def Value.StandsFor (v : Value) (k : ℤ) : Prop :=
  ∃ x b, v.toNumber = .ok x ∧ Binary.ofFloat? x = some b ∧ b.value = k

theorem Value.standsFor_iff {v : Value} {k : ℤ} :
    v.StandsFor k ↔ ∃ x, v.toNumber = .ok x ∧ Number.integer? x = some k := by
  simp only [StandsFor, Number.integer?_eq_some_iff, exists_and_left]

theorem Fault.bind_eq_ok_iff {α β : Type} {x : Except Fault α} {f : α → Except Fault β} {b : β} :
    (x >>= f) = .ok b ↔ ∃ a, x = .ok a ∧ f a = .ok b := by
  cases x with
  | ok a => simp [bind, Except.bind]
  | error fault => simp [bind, Except.bind]

/-- A value is an index if it stands for a natural number; great numbers are cut down. -/
theorem Value.toIndex_eq_ok_iff {what : Indexed} {v : Value} {i : ℕ} :
    v.toIndex what = .ok i ↔ ∃ k : ℕ, v.StandsFor k ∧ i = min k maxIndex := by
  simp only [toIndex, Fault.bind_eq_ok_iff, standsFor_iff]
  constructor
  · rintro ⟨x, hx, h⟩
    split at h
    · cases h
    · next j hj =>
      split at h
      · cases h
      · next hsign =>
        cases h
        exact ⟨j.toNat, ⟨x, hx, by rw [hj, Int.toNat_of_nonneg (by omega)]⟩, rfl⟩
  · rintro ⟨k, ⟨x, hx, hk⟩, rfl⟩
    refine ⟨x, hx, ?_⟩
    simp [hk]

/-- A value is a length if it stands for a natural number that is not too large. -/
theorem Primitive.toLength_eq_ok_iff {v : Value} {n : ℕ} :
    toLength v = .ok n ↔ v.StandsFor n ∧ n ≤ maxArrayLength := by
  simp only [toLength, Fault.bind_eq_ok_iff, Value.standsFor_iff]
  constructor
  · rintro ⟨x, hx, h⟩
    split at h
    · cases h
    · next j hj =>
      split at h
      · cases h
      · split at h
        · cases h
        · next hsign hmost =>
          cases h
          exact ⟨⟨x, hx, by rw [hj, Int.toNat_of_nonneg (by omega)]⟩, by omega⟩
  · rintro ⟨⟨x, hx, hn⟩, hmost⟩
    have hle : ¬ (maxArrayLength : ℤ) < n := by omega
    refine ⟨x, hx, ?_⟩
    simp [hn, hle]

/-! ## 2. The heap of lists -/

/-- The arrays of a store, each as the list of its elements. -/
def Store.heap (s : Store) : ArrayRef → Option (List Value) :=
  fun r => s.arrays[r.index]?.map Array.toList

/-- `m'` is `m` but for its arrays, which are those of the given heap. -/
structure Machine.ChangesHeap (m m' : Machine) (heap : ArrayRef → Option (List Value)) : Prop where
  heap_eq : m'.store.heap = heap
  store_eq : ∃ arrays, m'.store = { m.store with arrays := arrays }
  sink_eq : m'.sink = m.sink

namespace Store

variable {s : Store} {r : ArrayRef} {xs : List Value}

theorem items_of_heap (h : s.heap r = some xs) : s.items r = xs.toArray := by
  obtain ⟨elements, helements, rfl⟩ := Option.map_eq_some_iff.mp h
  rw [items, Array.getD_eq_getD_getElem?, helements]
  rfl

/-- A change of one array is a change of the heap at one place. -/
theorem heap_modifyArray (h : s.heap r = some xs) (f : Array Value → Array Value) :
    (s.modifyArray r f).heap = Function.update s.heap r (some (f xs.toArray).toList) := by
  funext other
  by_cases hr : other = r
  · subst hr
    obtain ⟨elements, helements, rfl⟩ := Option.map_eq_some_iff.mp h
    simp [heap, modifyArray, Array.getElem?_modify, helements]
  · have hindex : r.index ≠ other.index := fun h => hr (ArrayRef.ext h.symm)
    simp [heap, modifyArray, Array.getElem?_modify, hr, hindex]

/-- A new array was not there before. -/
theorem heap_newArray_fst (s : Store) (elements : Array Value) :
    s.heap (s.newArray elements).1 = none := by
  simp [heap, newArray]

theorem heap_newArray (s : Store) (elements : Array Value) :
    (s.newArray elements).2.heap
      = Function.update s.heap (s.newArray elements).1 (some elements.toList) := by
  funext other
  by_cases hr : other = ⟨s.arrays.size⟩
  · subst hr
    simp [heap, newArray]
  · have hindex : other.index ≠ s.arrays.size := fun h => hr (ArrayRef.ext h)
    simp [heap, newArray, Array.getElem?_push, hr, hindex]

/-! ## 3. Elements -/

theorem get_array_eq_ok_iff {index v : Value} :
    s.get (.array r) index = .ok v ↔
      ∃ i, index.toIndex .array = .ok i ∧ (s.items r)[i]? = some v := by
  simp only [get, Fault.bind_eq_ok_iff]
  constructor
  · rintro ⟨i, hi, h⟩
    split at h
    · next hitem =>
      cases h
      exact ⟨i, hi, hitem⟩
    · cases h
  · rintro ⟨i, hi, h⟩
    refine ⟨i, hi, ?_⟩
    rw [h]
    rfl

theorem get_str_eq_ok_iff {text : String} {index v : Value} :
    s.get (.str text) index = .ok v ↔
      ∃ i c, index.toIndex .string = .ok i ∧ text.toList[i]? = some c ∧
        v = .number (Float.ofNat c.toNat) := by
  simp only [get, Fault.bind_eq_ok_iff]
  constructor
  · rintro ⟨i, hi, h⟩
    split at h
    · next c hc =>
      cases h
      exact ⟨i, c, hi, hc, rfl⟩
    · cases h
  · rintro ⟨i, c, hi, hc, rfl⟩
    refine ⟨i, hi, ?_⟩
    rw [hc]
    rfl

theorem slot_eq_ok_iff {v index : Value} {place : ArrayRef × ℕ} :
    s.slot v index = .ok place ↔
      v = .array place.1 ∧ index.toIndex .array = .ok place.2 ∧
        place.2 < (s.items place.1).size := by
  constructor
  · intro h
    unfold slot at h
    split at h
    · obtain ⟨i, hi, h⟩ := Fault.bind_eq_ok_iff.mp h
      dsimp only at h
      split at h
      · next hlt =>
        cases h
        exact ⟨rfl, hi, hlt⟩
      · cases h
    · cases h
    · cases h
  · rintro ⟨rfl, hi, hlt⟩
    refine Fault.bind_eq_ok_iff.mpr ⟨_, hi, ?_⟩
    rw [if_pos hlt]
    rfl

end Store

/-- The cut of great indices is not seen in a list that an index can reach the end of. -/
theorem getElem?_min_maxIndex {α : Type} {xs : List α} (h : xs.length ≤ maxIndex) (k : ℕ) :
    xs[min k maxIndex]? = xs[k]? := by
  by_cases hk : k ≤ maxIndex
  · rw [Nat.min_eq_left hk]
  · rw [Nat.min_eq_right (by omega), List.getElem?_eq_none h, List.getElem?_eq_none (by omega)]

/-! ## 4. Operations -/

namespace Primitive

variable {m m' : Machine} {p : Primitive} {args : List Value} {r : ArrayRef} {xs : List Value}

/-- What the operations do to the heap of lists of a machine. A length is a machine word:
clauses about an index are for lists of at most `maxIndex` elements. -/
structure RefinesLists (m : Machine) : Prop where
  /-- an argument count that the operation does not take -/
  arity (p : Primitive) (args : List Value) : p.arity.accepts args.length = false →
    ∃ fault, fault.kind = .arity ∧ p.call args m = (.error fault, m)
  /-- an operation that fails has changed nothing and written nothing -/
  failure (p : Primitive) (args : List Value) (fault : Fault) (m' : Machine) :
    p.call args m = (.error fault, m') → m' = m
  get_array (r : ArrayRef) (xs : List Value) (index v : Value) (m' : Machine) :
    m.store.heap r = some xs → xs.length ≤ maxIndex →
    (get.call [.array r, index] m = (.ok v, m') ↔
      m' = m ∧ ∃ k : ℕ, index.StandsFor k ∧ xs[k]? = some v)
  get_string (text : String) (index v : Value) (m' : Machine) : text.length ≤ maxIndex →
    (get.call [.str text, index] m = (.ok v, m') ↔
      m' = m ∧ ∃ (k : ℕ) (c : Char), index.StandsFor k ∧ text.toList[k]? = some c ∧
        v = .number (Float.ofNat c.toNat))
  set_succeeds (a index v : Value) :
    (∃ w m', set.call [a, index, v] m = (.ok w, m')) ↔
      (∃ r, a = .array r) ∧ ∃ w m', get.call [a, index] m = (.ok w, m')
  set_array (r : ArrayRef) (xs : List Value) (index v : Value) (k : ℕ) :
    m.store.heap r = some xs → xs.length ≤ maxIndex → index.StandsFor k → k < xs.length →
    ∃ m', set.call [.array r, index, v] m = (.ok .null, m') ∧
      m.ChangesHeap m' (Function.update m.store.heap r (some (xs.set k v)))
  push_array (r : ArrayRef) (xs : List Value) (v : Value) : m.store.heap r = some xs →
    ∃ m', push.call [.array r, v] m = (.ok .null, m') ∧
      m.ChangesHeap m' (Function.update m.store.heap r (some (xs ++ [v])))
  pop_last (r : ArrayRef) (xs : List Value) (v : Value) : m.store.heap r = some (xs ++ [v]) →
    ∃ m', pop.call [.array r] m = (.ok v, m') ∧
      m.ChangesHeap m' (Function.update m.store.heap r (some xs))
  pop_empty (r : ArrayRef) : m.store.heap r = some [] →
    pop.call [.array r] m = (.error .popEmpty, m)
  /-- the two arrays may be one -/
  extend_array (r other : ArrayRef) (xs ys : List Value) :
    m.store.heap r = some xs → m.store.heap other = some ys →
    ∃ m', extend.call [.array r, .array other] m = (.ok .null, m') ∧
      m.ChangesHeap m' (Function.update m.store.heap r (some (xs ++ ys)))
  /-- an element that is not given is null -/
  makeArray_succeeds (n : Value) (fill : Option Value) :
    (∃ v m', makeArray.call (n :: fill.toList) m = (.ok v, m')) ↔
      ∃ k : ℕ, n.StandsFor k ∧ k ≤ maxArrayLength
  makeArray_fresh (n : Value) (fill : Option Value) (k : ℕ) : n.StandsFor k → k ≤ maxArrayLength →
    ∃ r m', makeArray.call (n :: fill.toList) m = (.ok (.array r), m') ∧
      m.store.heap r = none ∧
      m.ChangesHeap m' (Function.update m.store.heap r (some (List.replicate k (fill.getD .null))))
  makeArray_empty :
    ∃ r m', makeArray.call [] m = (.ok (.array r), m') ∧ m.store.heap r = none ∧
      m.ChangesHeap m' (Function.update m.store.heap r (some []))
  len_array (r : ArrayRef) (xs : List Value) : m.store.heap r = some xs →
    len.call [.array r] m = (.ok (.number (Float.ofNat xs.length)), m)
  len_string (text : String) :
    len.call [.str text] m = (.ok (.number (Float.ofNat text.length)), m)
  /-- all other operations leave the store as it is -/
  others (p : Primitive) (args : List Value) :
    p ∉ [.makeArray, .set, .push, .pop, .extend] → (p.call args m).2.store = m.store

/-- With a sink that takes everything, an operation that fails leaves the machine as it is. -/
theorem call_snd_of_error (hsink : ∀ text, (m.sink.write text).1 = .ok ()) {fault : Fault}
    (h : (p.call args m).1 = .error fault) : (p.call args m).2 = m := by
  revert h
  unfold call
  split
  -- `print` and `print_line` change the sink also if they fail, but this sink takes everything
  case h_17 | h_18 =>
    intro h
    rw [output_of_ok (hsink _)] at h
    cases h
  case h_19 => intro h; cases h
  case h_20 n | h_21 n fill =>
    cases toLength n with
    | ok k => intro h; cases h
    | error fault => intro _; rfl
  case h_23 v index value =>
    cases m.store.slot v index with
    | ok place => intro h; cases h
    | error fault => intro _; rfl
  case h_24 v item =>
    cases v with
    | array r => intro h; cases h
    | _ => intro _; rfl
  case h_25 v =>
    cases v with
    | array r =>
      dsimp only
      cases (m.store.items r).back? with
      | some item => intro h; cases h
      | none => intro _; rfl
    | _ => intro _; rfl
  case h_26 v w =>
    dsimp only
    split
    · intro h; cases h
    · intro _; rfl
  -- the others only look at the machine
  all_goals
    intro _
    rfl

theorem call_store_of_notMem (h : p ∉ [makeArray, set, push, pop, extend]) :
    (p.call args m).2.store = m.store := by
  unfold call
  split <;> first | rfl | simp at h

theorem change_modifyArray (h : m.store.heap r = some xs) (f : Array Value → Array Value) :
    m.ChangesHeap (change m (·.modifyArray r f))
      (Function.update m.store.heap r (some (f xs.toArray).toList)) :=
  ⟨Store.heap_modifyArray h f, ⟨_, rfl⟩, rfl⟩

theorem allocate_eq (m : Machine) (elements : Array Value) :
    ∃ r m', allocate m elements = (.ok (.array r), m') ∧ m.store.heap r = none ∧
      m.ChangesHeap m' (Function.update m.store.heap r (some elements.toList)) :=
  ⟨_, _, rfl, Store.heap_newArray_fst m.store elements,
    ⟨Store.heap_newArray m.store elements, ⟨_, rfl⟩, rfl⟩⟩

theorem call_get_eq_ok_iff {v index w : Value} :
    get.call [v, index] m = (.ok w, m') ↔ m' = m ∧ m.store.get v index = .ok w := by
  change (m.store.get v index, m) = _ ↔ _
  rw [Prod.mk.injEq, and_comm, eq_comm (a := m)]

theorem call_set_of_slot {v index value : Value} {place : ArrayRef × ℕ}
    (h : m.store.slot v index = .ok place) :
    set.call [v, index, value] m = (.ok .null, change m (·.fill place value)) := by
  rw [call, h]

theorem call_set_isOk_iff {v index value : Value} :
    (∃ w m', set.call [v, index, value] m = (.ok w, m')) ↔
      ∃ place, m.store.slot v index = .ok place := by
  cases h : m.store.slot v index with
  | ok place => simp [call_set_of_slot h]
  | error fault => simp [call, h]

/-- Without saturation, the elements that an index finds are those at its number. -/
theorem get_array_eq_ok_iff (h : m.store.heap r = some xs) (hlen : xs.length ≤ maxIndex)
    {index v : Value} :
    m.store.get (.array r) index = .ok v ↔ ∃ k : ℕ, index.StandsFor k ∧ xs[k]? = some v := by
  simp only [Store.get_array_eq_ok_iff, Value.toIndex_eq_ok_iff, Store.items_of_heap h,
    List.getElem?_toArray]
  constructor
  · rintro ⟨_, ⟨k, hk, rfl⟩, hv⟩
    exact ⟨k, hk, by rwa [getElem?_min_maxIndex hlen] at hv⟩
  · rintro ⟨k, hk, hv⟩
    exact ⟨_, ⟨k, hk, rfl⟩, by rwa [getElem?_min_maxIndex hlen]⟩

theorem get_str_eq_ok_iff {text : String} (hlen : text.length ≤ maxIndex) {index v : Value} :
    m.store.get (.str text) index = .ok v ↔
      ∃ (k : ℕ) (c : Char), index.StandsFor k ∧ text.toList[k]? = some c ∧
        v = .number (Float.ofNat c.toNat) := by
  rw [← String.length_toList] at hlen
  simp only [Store.get_str_eq_ok_iff, Value.toIndex_eq_ok_iff]
  constructor
  · rintro ⟨_, c, ⟨k, hk, rfl⟩, hc, hv⟩
    exact ⟨k, c, hk, by rwa [getElem?_min_maxIndex hlen] at hc, hv⟩
  · rintro ⟨k, c, hk, hc, hv⟩
    exact ⟨_, c, ⟨k, hk, rfl⟩, by rwa [getElem?_min_maxIndex hlen], hv⟩

/-- An assignment to an element finds its place exactly when reading the element succeeds. -/
theorem slot_isOk_iff {v index : Value} :
    (∃ place, m.store.slot v index = .ok place) ↔
      (∃ r, v = .array r) ∧ ∃ w, m.store.get v index = .ok w := by
  constructor
  · rintro ⟨⟨r, i⟩, h⟩
    obtain ⟨rfl, hi, hlt⟩ := Store.slot_eq_ok_iff.mp h
    exact ⟨⟨r, rfl⟩, _, Store.get_array_eq_ok_iff.mpr ⟨i, hi, Array.getElem?_eq_getElem hlt⟩⟩
  · rintro ⟨⟨r, rfl⟩, w, hw⟩
    obtain ⟨i, hi, hitem⟩ := Store.get_array_eq_ok_iff.mp hw
    obtain ⟨hlt, -⟩ := Array.getElem?_eq_some_iff.mp hitem
    exact ⟨(r, i), Store.slot_eq_ok_iff.mpr ⟨rfl, hi, hlt⟩⟩

theorem call_makeArray_of_toLength {n : Value} {k : ℕ} (h : toLength n = .ok k)
    (fill : Option Value) :
    makeArray.call (n :: fill.toList) m
      = allocate m (Array.replicate k (fill.getD .null)) := by
  cases fill with
  | none => simp [call, h]
  | some v => simp [call, h]

theorem call_makeArray_of_error {n : Value} {fault : Fault} (h : toLength n = .error fault)
    (fill : Option Value) : makeArray.call (n :: fill.toList) m = (.error fault, m) := by
  cases fill with
  | none => simp [call, h]
  | some v => simp [call, h]

/-- **The operations on arrays and strings refine a heap of lists**, on every machine with a
sink that does not fail: for every operation and all arguments, and whatever refers to the
arrays, those themselves included. -/
theorem call_refines_lists (m : Machine) (hsink : ∀ text, (m.sink.write text).1 = .ok ()) :
    RefinesLists m where
  arity p args h := ⟨_, rfl, call_of_not_accepts m h⟩
  failure p args fault m' h := by
    have hsnd := call_snd_of_error hsink (congrArg Prod.fst h)
    rwa [h] at hsnd
  get_array r xs index v m' h hlen := by
    rw [call_get_eq_ok_iff, get_array_eq_ok_iff h hlen]
  get_string text index v m' hlen := by
    rw [call_get_eq_ok_iff, get_str_eq_ok_iff hlen]
  set_succeeds a index v := by
    simp only [call_get_eq_ok_iff, exists_eq_left, call_set_isOk_iff, slot_isOk_iff]
  set_array r xs index v k h hlen hk hlt := by
    -- an index inside the list is not cut down
    have hmin : min k maxIndex = k := Nat.min_eq_left (by omega)
    have hslot : m.store.slot (.array r) index = .ok (r, k) := by
      refine Store.slot_eq_ok_iff.mpr ⟨rfl, Value.toIndex_eq_ok_iff.mpr ⟨k, hk, hmin.symm⟩, ?_⟩
      simpa [Store.items_of_heap h] using hlt
    refine ⟨_, call_set_of_slot hslot, ?_⟩
    simpa [Store.fill] using change_modifyArray h (·.setIfInBounds k v)
  push_array r xs v h := by
    refine ⟨_, rfl, ?_⟩
    simpa using change_modifyArray h (·.push v)
  pop_last r xs v h := by
    have hback : (m.store.items r).back? = some v := by simp [Store.items_of_heap h]
    refine ⟨change m (·.modifyArray r (·.pop)), ?_, ?_⟩
    · simp [call, hback]
    · simpa using change_modifyArray h (·.pop)
  pop_empty r h := by
    have hback : (m.store.items r).back? = none := by simp [Store.items_of_heap h]
    simp [call, hback]
  extend_array r other xs ys h hother := by
    refine ⟨_, rfl, ?_⟩
    simpa [Store.items_of_heap hother] using change_modifyArray h (· ++ m.store.items other)
  makeArray_succeeds n fill := by
    simp only [← toLength_eq_ok_iff]
    cases h : toLength n with
    | ok k =>
      obtain ⟨r, m', hcall, -⟩ := allocate_eq m (Array.replicate k (fill.getD .null))
      simp [call_makeArray_of_toLength h, hcall]
    | error fault => simp [call_makeArray_of_error h]
  makeArray_fresh n fill k hk hmost := by
    rw [call_makeArray_of_toLength (toLength_eq_ok_iff.mpr ⟨hk, hmost⟩)]
    simpa using allocate_eq m (Array.replicate k (fill.getD .null))
  makeArray_empty := allocate_eq m #[]
  len_array r xs h := by
    simp [call, read, length, Store.items_of_heap h]
  len_string text := rfl
  others p args h := call_store_of_notMem h

/-- A list that holds itself, extended by itself. -/
theorem call_refines_lists_cyclic :
    let m : Machine := ⟨{ Store.empty with arrays := #[#[.array ⟨0⟩, .null]] }, .unlimited⟩
    (∀ text, (m.sink.write text).1 = .ok ()) ∧
      ∃ m', extend.call [.array ⟨0⟩, .array ⟨0⟩] m = (.ok .null, m') ∧
        m'.store.heap ⟨0⟩ = some [.array ⟨0⟩, .null, .array ⟨0⟩, .null] := by
  intro m
  have hsink : ∀ text, (m.sink.write text).1 = .ok () := fun _ => rfl
  refine ⟨hsink, ?_⟩
  obtain ⟨m', hcall, hchange⟩ := (call_refines_lists m hsink).extend_array ⟨0⟩ ⟨0⟩ _ _ rfl rfl
  refine ⟨m', hcall, ?_⟩
  rw [hchange.heap_eq, Function.update_self]
  rfl

end Primitive

end CalcScript
