/-
`Proofs/Bisimilarity.lean` -- comparing arrays that contain themselves.

What it means for two values to be equal is a greatest fixed point: of all relations
in which two arrays are related iff they are one array or have pairwise related
elements, and other values iff the leaf rule relates them, `Bisimilar` is the largest.

A comparison runs, remembers the pairs of arrays it has begun and takes a pair it meets
again as equal. `Compares` is this recursion without a bound on its depth, so a
derivation is a run that ends. Three facts make it decide bisimilarity:

  * the bound is never met: each pair with elements is begun once, and at most as many
    are left as the bound allows (`Store.unvisited`);
  * a pair that is related is never refused, by following the run;
  * a run that ends with yes has closed its own assumptions: whatever it remembers at
    the end is related element by element within what it remembers (`Justified`), so its
    memory is a relation of the kind that `Bisimilar` is the largest of.
-/
import CalcScript.Store.Equality
import Mathlib.Data.Finset.Prod
import Mathlib.Order.FixedPoints

set_option autoImplicit false

namespace CalcScript

/-! ## 1. Bisimilarity -/

/-- Two values that are not both arrays. -/
def Value.Leaves (x y : Value) : Prop :=
  ∀ a b, ¬ (x = .array a ∧ y = .array b)

namespace Store

/-- Relates two arrays if they are one or their elements are related by `R`, and other
values by the leaf rule. -/
def relate (s : Store) (leaf : Value → Value → Prop) (R : Value → Value → Prop) :
    Value → Value → Prop
  | .array a, .array b => a = b ∨ List.Forall₂ R (s.items a).toList (s.items b).toList
  | x, y => leaf x y

theorem relate_mono (s : Store) {leaf leaf' : Value → Value → Prop} {R R' : Value → Value → Prop}
    (hleaf : ∀ x y, leaf x y → leaf' x y) (hR : ∀ x y, R x y → R' x y) {x y : Value}
    (h : s.relate leaf R x y) : s.relate leaf' R' x y := by
  unfold relate at h ⊢
  split at h
  · exact h.imp id fun hitems => hitems.imp fun {x y} => hR x y
  · exact hleaf _ _ h

theorem relate_of_leaves (s : Store) {leaf R : Value → Value → Prop} {x y : Value}
    (h : x.Leaves y) : s.relate leaf R x y ↔ leaf x y := by
  unfold relate
  split
  · next a b => exact absurd ⟨rfl, rfl⟩ (h a b)
  · exact Iff.rfl

/-- The relation of which bisimilarity is the greatest fixed point. -/
def bisimilarityStep (s : Store) (leaf : Value → Value → Prop) :
    (Value → Value → Prop) →o (Value → Value → Prop) where
  toFun := s.relate leaf
  monotone' := fun _ _ hR _ _ => s.relate_mono (fun _ _ => id) hR

/-- The greatest relation in which arrays are related iff they are one or have pairwise
related elements, and other values iff they are related by the leaf rule. -/
def Bisimilar (s : Store) (leaf : Value → Value → Prop) : Value → Value → Prop :=
  (s.bisimilarityStep leaf).gfp

theorem bisimilar_iff (s : Store) {leaf : Value → Value → Prop} {x y : Value} :
    s.Bisimilar leaf x y ↔ s.relate leaf (s.Bisimilar leaf) x y := by
  have hfixed := (s.bisimilarityStep leaf).map_gfp
  exact iff_of_eq (congrFun (congrFun hfixed.symm x) y)

/-- A relation is part of bisimilarity if its pairs are related within it. -/
theorem bisimilar_of_relate (s : Store) {leaf R : Value → Value → Prop}
    (hR : ∀ x y, R x y → s.relate leaf R x y) {x y : Value} (h : R x y) :
    s.Bisimilar leaf x y :=
  (s.bisimilarityStep leaf).le_gfp hR x y h

/-- A wider leaf rule makes a wider relation. -/
theorem Bisimilar.mono {s : Store} {leaf leaf' : Value → Value → Prop}
    (hleaf : ∀ x y, leaf x y → leaf' x y) {x y : Value} (h : s.Bisimilar leaf x y) :
    s.Bisimilar leaf' x y := by
  refine s.bisimilar_of_relate (fun x y hxy => ?_) h
  exact s.relate_mono hleaf (fun _ _ => id) (s.bisimilar_iff.mp hxy)

end Store

/-! ## 2. Runs of a comparison -/

/-- What is compared: two values, or the elements of two arrays one by one. -/
inductive Comparison where
  | values (x y : Value)
  | elements (xs ys : List Value)

section Runs

variable {ε : Type} {s : Store} {leaf : Value → Value → Except ε Bool}

/-- A comparison that has begun the pairs `seen` ends with this answer. -/
inductive Compares (s : Store) (leaf : Value → Value → Except ε Bool) :
    Comparison → Pairs → Except ε (Bool × Pairs) → Prop
  | leaf {x y seen} (h : x.Leaves y) :
    Compares s leaf (.values x y) seen (do return (← leaf x y, seen))
  | identical {a seen} : Compares s leaf (.values (.array a) (.array a)) seen (.ok (true, seen))
  | begun {a b seen} (h : (a, b) ∈ seen) :
    Compares s leaf (.values (.array a) (.array b)) seen (.ok (true, seen))
  | lengths {a b seen} (hne : a ≠ b) (hnew : (a, b) ∉ seen)
      (hsize : (s.items a).size ≠ (s.items b).size) :
    Compares s leaf (.values (.array a) (.array b)) seen (.ok (false, (a, b) :: seen))
  | arrays {a b seen answer} (hne : a ≠ b) (hnew : (a, b) ∉ seen)
      (hsize : (s.items a).size = (s.items b).size)
      (h : Compares s leaf (.elements (s.items a).toList (s.items b).toList) ((a, b) :: seen)
        answer) :
    Compares s leaf (.values (.array a) (.array b)) seen answer
  | none {seen} : Compares s leaf (.elements [] []) seen (.ok (true, seen))
  | fails {x y xs ys seen e} (h : Compares s leaf (.values x y) seen (.error e)) :
    Compares s leaf (.elements (x :: xs) (y :: ys)) seen (.error e)
  | differs {x y xs ys seen seen'} (h : Compares s leaf (.values x y) seen (.ok (false, seen'))) :
    Compares s leaf (.elements (x :: xs) (y :: ys)) seen (.ok (false, seen'))
  | agrees {x y xs ys seen seen' answer}
      (h : Compares s leaf (.values x y) seen (.ok (true, seen')))
      (hrest : Compares s leaf (.elements xs ys) seen' answer) :
    Compares s leaf (.elements (x :: xs) (y :: ys)) seen answer

/-- A comparison forgets no pair. -/
theorem Compares.subset {task : Comparison} {seen seen' : Pairs} {same : Bool}
    (h : Compares s leaf task seen (.ok (same, seen'))) : seen ⊆ seen' := by
  generalize hanswer : Except.ok (same, seen') = answer at h
  induction h generalizing same seen' with
  | @leaf x y seen hleaves =>
    cases hleaf : leaf x y with
    | error e =>
      rw [hleaf] at hanswer
      cases hanswer
    | ok b =>
      rw [hleaf] at hanswer
      cases hanswer
      exact List.Subset.refl _
  | identical | begun | none =>
    cases hanswer
    exact List.Subset.refl _
  | lengths =>
    cases hanswer
    exact List.subset_cons_self _ _
  | arrays _ _ _ _ ih => exact List.Subset.trans (List.subset_cons_self _ _) (ih hanswer)
  | fails => cases hanswer
  | differs _ ih => exact ih hanswer
  | agrees _ _ ih ihrest => exact List.Subset.trans (ih rfl) (ihrest hanswer)

/-! ## 3. The bound -/

/-- The pairs of arrays in the store whose comparison has not begun. -/
def Store.unvisited (s : Store) (seen : Pairs) : Finset (Nat × Nat) :=
  (Finset.range s.arrays.size ×ˢ Finset.range s.arrays.size).filter
    fun p => (⟨p.1⟩, ⟨p.2⟩) ∉ seen

theorem Store.mem_unvisited {seen : Pairs} {i j : Nat} :
    (i, j) ∈ s.unvisited seen ↔
      (i < s.arrays.size ∧ j < s.arrays.size) ∧ (⟨i⟩, ⟨j⟩) ∉ seen := by
  simp [unvisited]

theorem Store.card_unvisited_le (s : Store) (seen : Pairs) :
    (s.unvisited seen).card ≤ s.arrays.size * s.arrays.size := by
  have hle := Finset.card_filter_le (Finset.range s.arrays.size ×ˢ Finset.range s.arrays.size)
    fun p => (⟨p.1⟩, ⟨p.2⟩) ∉ seen
  rwa [Finset.card_product, Finset.card_range] at hle

theorem Store.card_unvisited_mono {seen seen' : Pairs} (h : seen ⊆ seen') :
    (s.unvisited seen').card ≤ (s.unvisited seen).card := by
  apply Finset.card_le_card
  rintro ⟨i, j⟩ hmem
  rw [mem_unvisited] at hmem ⊢
  exact ⟨hmem.1, fun hold => hmem.2 (h hold)⟩

/-- An array with elements is in the store. -/
theorem Store.lt_size_of_items {a : ArrayRef} (h : (s.items a).size ≠ 0) :
    a.index < s.arrays.size := by
  by_contra hout
  rw [Nat.not_lt] at hout
  have hitems : s.items a = #[] := by
    unfold items
    rw [Array.getD_eq_getD_getElem?, Array.getElem?_eq_none hout, Option.getD_none]
  rw [hitems] at h
  exact h rfl

/-- Beginning a pair with elements leaves one pair less. -/
theorem Store.card_unvisited_cons {a b : ArrayRef} {seen : Pairs} (hnew : (a, b) ∉ seen)
    (hsize : (s.items a).size = (s.items b).size) (hne : (s.items a).size ≠ 0) :
    (s.unvisited ((a, b) :: seen)).card < (s.unvisited seen).card := by
  have ha := lt_size_of_items hne
  have hb := lt_size_of_items (hsize ▸ hne)
  apply Finset.card_lt_card
  refine ⟨?_, fun hsub => ?_⟩
  · rintro ⟨i, j⟩ hmem
    rw [mem_unvisited] at hmem ⊢
    exact ⟨hmem.1, fun hold => hmem.2 (List.mem_cons_of_mem _ hold)⟩
  · have hmem : (a.index, b.index) ∈ s.unvisited seen := mem_unvisited.mpr ⟨⟨ha, hb⟩, hnew⟩
    have hold := (mem_unvisited.mp (hsub hmem)).2
    exact hold List.mem_cons_self

/-- Comparing elements one by one ends if comparing each of them does. -/
theorem everyPair_compares {n : Nat} {compare : Value → Value → Pairs → Except ε (Bool × Pairs)}
    (hcompare : ∀ x y seen, (s.unvisited seen).card < n →
      Compares s leaf (.values x y) seen (compare x y seen))
    {xs ys : List Value} (hlength : xs.length = ys.length) {seen : Pairs}
    (hn : xs ≠ [] → (s.unvisited seen).card < n) :
    Compares s leaf (.elements xs ys) seen (everyPair compare xs ys seen) := by
  induction xs generalizing ys seen with
  | nil =>
    obtain rfl : ys = [] := List.length_eq_zero_iff.mp hlength.symm
    exact .none
  | cons x xs ih =>
    cases ys with
    | nil => cases hlength
    | cons y ys =>
      have hseen := hn (List.cons_ne_nil x xs)
      have hfirst := hcompare x y seen hseen
      rw [everyPair]
      cases hanswer : compare x y seen with
      | error e =>
        rw [hanswer] at hfirst
        exact .fails hfirst
      | ok answer =>
        obtain ⟨same, seen'⟩ := answer
        rw [hanswer] at hfirst
        cases same with
        | false => exact .differs hfirst
        | true =>
          -- the pairs begun so far stay begun, so the bound holds for the rest too
          have hrest := Store.card_unvisited_mono (s := s) hfirst.subset
          exact .agrees hfirst (ih (Nat.succ.inj hlength) fun _ => Nat.lt_of_le_of_lt hrest hseen)

/-- With a bound above the number of pairs left, the bounded comparison is the run. -/
theorem compareWithin_compares (n : Nat) (x y : Value) (seen : Pairs)
    (hn : (s.unvisited seen).card < n) :
    Compares s leaf (.values x y) seen (s.compareWithin leaf n x y seen) := by
  induction n generalizing x y seen with
  | zero => exact absurd hn (Nat.not_lt_zero _)
  | succ n ih =>
    unfold Store.compareWithin
    split
    · next a b =>
      by_cases hab : a = b
      · subst hab
        simp only [decide_true, Bool.true_or, if_true]
        exact .identical
      by_cases hbegun : (a, b) ∈ seen
      · simp only [List.contains_iff_mem.mpr hbegun, Bool.or_true, if_true]
        exact .begun hbegun
      -- a new pair of arrays: its elements are compared with one pair fewer left to begin
      have hnew : (decide (a = b) || seen.contains (a, b)) = false := by
        simp [hab, hbegun]
      rw [hnew, if_neg Bool.false_ne_true]
      dsimp only
      by_cases hsize : (s.items a).size = (s.items b).size
      · rw [if_pos hsize]
        refine .arrays hab hbegun hsize (everyPair_compares ih ?_ fun hne => ?_)
        · simpa using hsize
        · have hless := Store.card_unvisited_cons (s := s) hbegun hsize (by simpa using hne)
          omega
      · rw [if_neg hsize]
        exact .lengths hab hbegun hsize
    · next hleaves => exact .leaf fun a b ⟨hx, hy⟩ => hleaves a b hx hy

/-- A comparison ends, and its answer is the one returned. -/
theorem Store.compare_compares (s : Store) (leaf : Value → Value → Except ε Bool) (x y : Value) :
    ∃ answer, Compares s leaf (.values x y) [] answer ∧
      s.compare leaf x y = answer.map Prod.fst := by
  have hle := s.card_unvisited_le []
  refine ⟨_, compareWithin_compares (s.arrays.size * s.arrays.size + 1) x y [] (by omega), ?_⟩
  rw [compare]
  cases s.compareWithin leaf (s.arrays.size * s.arrays.size + 1) x y [] <;> rfl

/-! ## 4. What is related is not refused -/

/-- A relation between the values of a comparison. -/
def Comparison.Within (R : Value → Value → Prop) : Comparison → Prop
  | .values x y => R x y
  | .elements xs ys => List.Forall₂ R xs ys

variable {rule : Value → Value → Prop}

/-- Where the values are bisimilar, a run answers yes. -/
theorem Compares.of_bisimilar (hrule : ∀ x y, rule x y → x.Leaves y → leaf x y = .ok true)
    {task : Comparison} {seen : Pairs} {answer : Except ε (Bool × Pairs)}
    (h : Compares s leaf task seen answer) (htask : task.Within (s.Bisimilar rule)) :
    ∃ seen', answer = .ok (true, seen') := by
  induction h with
  | @leaf x y seen hleaves =>
    have hxy : rule x y := (s.relate_of_leaves hleaves).mp (s.bisimilar_iff.mp htask)
    rw [hrule x y hxy hleaves]
    exact ⟨seen, rfl⟩
  | identical | begun | none => exact ⟨_, rfl⟩
  -- two arrays that are related and not one have their elements related
  | lengths hne _ hsize =>
    rcases s.bisimilar_iff.mp htask with hab | hitems
    · exact absurd hab hne
    · exact absurd (by simpa using hitems.length_eq) hsize
  | arrays hne _ _ _ ih =>
    rcases s.bisimilar_iff.mp htask with hab | hitems
    · exact absurd hab hne
    · exact ih hitems
  | fails _ ih | differs _ ih =>
    obtain ⟨hfirst, -⟩ := List.forall₂_cons.mp htask
    obtain ⟨seen', hseen'⟩ := ih hfirst
    cases hseen'
  | agrees _ _ _ ihrest =>
    obtain ⟨-, hrest⟩ := List.forall₂_cons.mp htask
    exact ihrest hrest

/-! ## 5. What is accepted is related -/

/-- The relation that a memory stands for: two arrays are related if they are one or
their pair is remembered. -/
def Remembers (rule : Value → Value → Prop) (seen : Pairs) : Value → Value → Prop
  | .array a, .array b => a = b ∨ (a, b) ∈ seen
  | x, y => rule x y

theorem Remembers.mono {seen seen' : Pairs} (hsub : seen ⊆ seen') {x y : Value}
    (h : Remembers rule seen x y) : Remembers rule seen' x y := by
  unfold Remembers at h ⊢
  split at h
  · exact h.imp id fun hmem => hsub hmem
  · exact h

theorem remembers_of_leaves {seen : Pairs} {x y : Value} (hleaves : x.Leaves y) (h : rule x y) :
    Remembers rule seen x y := by
  unfold Remembers
  split
  · next a b => exact absurd ⟨rfl, rfl⟩ (hleaves a b)
  · exact h

/-- The pairs remembered, those of `seen` apart, have elements that are related by the
memory itself. -/
def Justified (s : Store) (rule : Value → Value → Prop) (seen memory : Pairs) : Prop :=
  ∀ a b, (a, b) ∈ memory → (a, b) ∈ seen ∨
    List.Forall₂ (Remembers rule memory) (s.items a).toList (s.items b).toList

/-- A run that answers yes leaves a memory that relates what was compared and is
justified, apart from what it was given. -/
theorem Compares.justified (hrule : ∀ x y, x.Leaves y → leaf x y = .ok true → rule x y)
    {task : Comparison} {seen memory : Pairs}
    (h : Compares s leaf task seen (.ok (true, memory))) :
    task.Within (Remembers rule memory) ∧ Justified s rule seen memory := by
  generalize hanswer : Except.ok (true, memory) = answer at h
  induction h generalizing memory with
  | @leaf x y seen hleaves =>
    cases hleaf : leaf x y with
    | error e =>
      rw [hleaf] at hanswer
      cases hanswer
    | ok same =>
      rw [hleaf] at hanswer
      cases hanswer
      exact ⟨remembers_of_leaves hleaves (hrule x y hleaves hleaf), fun a b hmem => .inl hmem⟩
  | identical =>
    cases hanswer
    exact ⟨.inl rfl, fun a b hmem => .inl hmem⟩
  | begun hbegun =>
    cases hanswer
    exact ⟨.inr hbegun, fun a b hmem => .inl hmem⟩
  | lengths => cases hanswer
  | @arrays a b seen answer _ _ _ helements ih =>
    obtain ⟨hitems, hjustified⟩ := ih hanswer
    rw [← hanswer] at helements
    -- the pair itself is justified by the comparison of its elements, which has just ended
    refine ⟨.inr (helements.subset List.mem_cons_self), fun c d hmem => ?_⟩
    rcases hjustified c d hmem with hold | hnew
    · rcases List.mem_cons.mp hold with hpair | hold
      · cases hpair
        exact .inr hitems
      · exact .inl hold
    · exact .inr hnew
  | none =>
    cases hanswer
    exact ⟨.nil, fun a b hmem => .inl hmem⟩
  | fails | differs => cases hanswer
  | @agrees x y xs ys seen seen' answer _ hrest ih ihrest =>
    obtain ⟨hfirst, hjustified⟩ := ih rfl
    obtain ⟨hothers, hjustified'⟩ := ihrest hanswer
    rw [← hanswer] at hrest
    have hsub := hrest.subset
    refine ⟨.cons (Remembers.mono hsub hfirst) hothers, fun a b hmem => ?_⟩
    rcases hjustified' a b hmem with hold | hnew
    · exact (hjustified a b hold).imp id fun hitems => hitems.imp fun {_ _} => Remembers.mono hsub
    · exact .inr hnew

/-- Where a run answers yes, the values are bisimilar. -/
theorem Compares.bisimilar (hrule : ∀ x y, x.Leaves y → leaf x y = .ok true → rule x y)
    {x y : Value} {memory : Pairs}
    (h : Compares s leaf (.values x y) [] (.ok (true, memory))) : s.Bisimilar rule x y := by
  obtain ⟨hxy, hjustified⟩ := h.justified hrule
  refine s.bisimilar_of_relate (R := Remembers rule memory) (fun x y hxy => ?_) hxy
  unfold Remembers at hxy
  split at hxy
  · next a b =>
    rcases hxy with hab | hmem
    · exact .inl hab
    · rcases hjustified a b hmem with hold | hitems
      · cases hold
      · exact .inr hitems
  · next hleaves => exact (s.relate_of_leaves fun a b ⟨hx, hy⟩ => hleaves a b hx hy).mpr hxy

/-- A comparison answers yes exactly for bisimilar values. -/
theorem Store.compare_eq_ok_true_iff
    (hrule : ∀ x y, x.Leaves y → (leaf x y = .ok true ↔ rule x y)) (x y : Value) :
    s.compare leaf x y = .ok true ↔ s.Bisimilar rule x y := by
  obtain ⟨answer, hrun, hcompare⟩ := s.compare_compares leaf x y
  rw [hcompare]
  constructor
  · intro htrue
    cases answer with
    | error e => cases htrue
    | ok answer =>
      obtain ⟨same, memory⟩ := answer
      obtain rfl : same = true := Except.ok.inj htrue
      exact hrun.bisimilar fun x y hleaves => (hrule x y hleaves).mp
  · intro hbisimilar
    obtain ⟨memory, rfl⟩ :=
      hrun.of_bisimilar (fun x y h hleaves => (hrule x y hleaves).mpr h) hbisimilar
    rfl

end Runs

/-! ## 6. Leaf rules -/

/-- Two values of one variant that are equal there: numbers as floats, functions and
labels by identity. -/
inductive Value.SameLeaf : Value → Value → Prop
  | number {a b : Float} (h : a == b) : SameLeaf (.number a) (.number b)
  | str (a : String) : SameLeaf (.str a) (.str a)
  | bool (a : Bool) : SameLeaf (.bool a) (.bool a)
  | null : SameLeaf .null .null
  | closure (r : ClosureRef) : SameLeaf (.closure r) (.closure r)
  | primitive (p : Primitive) : SameLeaf (.primitive p) (.primitive p)
  | label (r : LabelRef) : SameLeaf (.label r) (.label r)

/-- Values of one variant are equal there; of two variants, both are numbers when
converted, and these are equal. -/
inductive Value.EqualLeaf : Value → Value → Prop
  | same {x y : Value} (h : x.SameLeaf y) : EqualLeaf x y
  | converted {x y : Value} {a b : Float} (hvariant : x.ctorIdx ≠ y.ctorIdx)
      (hx : x.toNumber = .ok a) (hy : y.toNumber = .ok b) (h : a == b) : EqualLeaf x y

namespace Value

variable {x y : Value}

theorem sameType?_eq_some_true_iff : x.sameType? y = some true ↔ x.SameLeaf y := by
  constructor
  · intro h
    unfold sameType? at h
    split at h
    · exact .number (Option.some.inj h)
    · obtain rfl := eq_of_beq (Option.some.inj h)
      exact .str _
    · obtain rfl := eq_of_beq (Option.some.inj h)
      exact .bool _
    · exact .null
    · obtain rfl := eq_of_beq (Option.some.inj h)
      exact .closure _
    · obtain rfl := eq_of_beq (Option.some.inj h)
      exact .primitive _
    · obtain rfl := eq_of_beq (Option.some.inj h)
      exact .label _
    · cases h
  · intro h
    cases h with
    | number h => simp [sameType?, h]
    | str | bool | null | closure | primitive | label => simp [sameType?]

/-- Values that are not both arrays are compared within their variant iff it is one. -/
theorem sameType?_eq_none_iff (hleaves : x.Leaves y) :
    x.sameType? y = none ↔ x.ctorIdx ≠ y.ctorIdx := by
  cases x <;> cases y <;> first
    | exact absurd ⟨rfl, rfl⟩ (hleaves _ _)
    | simp [sameType?, Value.ctorIdx]

theorem sameLeaf_eq_ok_true_iff : x.sameLeaf y = .ok true ↔ x.SameLeaf y := by
  rw [← sameType?_eq_some_true_iff, sameLeaf, Except.ok.injEq]
  cases x.sameType? y <;> simp

theorem equalLeaf_eq_ok_true_iff (hleaves : x.Leaves y) :
    x.equalLeaf y = .ok true ↔ x.EqualLeaf y := by
  cases hsame : x.sameType? y with
  -- values of one type are compared as they are
  | some same =>
    rw [equalLeaf, hsame]
    constructor
    · intro h
      cases h
      exact .same (sameType?_eq_some_true_iff.mp hsame)
    · intro h
      cases h with
      | same h =>
        rw [sameType?_eq_some_true_iff.mpr h] at hsame
        cases hsame
        rfl
      | converted hvariant =>
        rw [(sameType?_eq_none_iff hleaves).mpr hvariant] at hsame
        cases hsame
  -- others only if both can be converted to numbers
  | none =>
    rw [equalLeaf, hsame]
    dsimp only
    constructor
    · intro h
      cases hx : x.toNumber with
      | error e =>
        rw [hx] at h
        cases h
      | ok a =>
        cases hy : y.toNumber with
        | error e =>
          rw [hx, hy] at h
          cases h
        | ok b =>
          rw [hx, hy] at h
          exact .converted ((sameType?_eq_none_iff hleaves).mp hsame) hx hy (Except.ok.inj h)
    · intro h
      cases h with
      | same h =>
        rw [sameType?_eq_some_true_iff.mpr h] at hsame
        cases hsame
      | converted _ hx hy h =>
        rw [hx, hy]
        exact congrArg Except.ok h

end Value

/-! ## 7. Equality and sameness -/

theorem Store.equal_eq_ok_true_iff (s : Store) (x y : Value) :
    s.equal x y = .ok true ↔ s.Bisimilar Value.EqualLeaf x y :=
  s.compare_eq_ok_true_iff (fun _ _ => Value.equalLeaf_eq_ok_true_iff) x y

theorem Store.ok_same (s : Store) (x y : Value) :
    .ok (s.same x y) = s.compare Value.sameLeaf x y := by
  rw [same]
  cases s.compare Value.sameLeaf x y with
  | ok b => rfl
  | error e => cases e

theorem Store.same_iff (s : Store) (x y : Value) :
    s.same x y ↔ s.Bisimilar Value.SameLeaf x y := by
  rw [← s.compare_eq_ok_true_iff (fun _ _ _ => Value.sameLeaf_eq_ok_true_iff) x y, ← ok_same,
    Except.ok.injEq]

/-- Both comparisons end on every store, whatever its arrays contain: their answers are
those of runs without a bound. They decide bisimilarity for their leaf rules, and values
that are the same are equal. -/
theorem Store.comparisons_decide_bisimilarity (s : Store) (x y : Value) :
    (∃ answer, Compares s Value.equalLeaf (.values x y) [] answer ∧
      s.equal x y = answer.map Prod.fst) ∧
    (∃ answer, Compares s Value.sameLeaf (.values x y) [] answer ∧
      .ok (s.same x y) = answer.map Prod.fst) ∧
    (s.equal x y = .ok true ↔ s.Bisimilar Value.EqualLeaf x y) ∧
    (s.same x y = true ↔ s.Bisimilar Value.SameLeaf x y) ∧
    (s.same x y = true → s.equal x y = .ok true) := by
  refine ⟨s.compare_compares Value.equalLeaf x y, ?_, s.equal_eq_ok_true_iff x y,
    s.same_iff x y, ?_⟩
  · rw [ok_same]
    exact s.compare_compares Value.sameLeaf x y
  · intro hsame
    rw [equal_eq_ok_true_iff]
    exact ((s.same_iff x y).mp hsame).mono fun _ _ => .same

/-- Two arrays that hold each other are equal: nothing tells them apart. -/
example : (Store.mk #[#[.array ⟨1⟩], #[.array ⟨0⟩]] #[] #[] #[] 0).equal (.array ⟨0⟩) (.array ⟨1⟩) =
    .ok true := rfl

end CalcScript
