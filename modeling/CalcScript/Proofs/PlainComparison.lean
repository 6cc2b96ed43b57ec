/-
`Proofs/PlainComparison.lean` -- comparing without a memory.

A comparison remembers the pairs of arrays that it has begun and takes a pair it meets again
as equal. The plain recursion (`ComparesPlainly`) remembers nothing: it goes through all
elements again each time, and on arrays that contain themselves it need not end. Where one of
the two values is acyclic it does end, with the same answer or the same fault
(`Store.comparesPlainly_iff`).

The reason is in what a remembered pair stands for. Either its comparison is still going on;
then what is compared now lies strictly inside both its arrays, so the pair cannot come again
without a cycle on each side. Or its comparison has ended; then it has ended with yes, because
the first no or fault ends the whole comparison.
-/
import CalcScript.Proofs.Bisimilarity
import CalcScript.Proofs.Containment

set_option autoImplicit false

namespace CalcScript

/-! ## 1. The plain recursion -/

section Plain

variable {ε : Type} {s : Store} {leaf : Value → Value → Except ε Bool}

/-- Comparing by a leaf rule, and arrays element by element from left to right unless they are
one array, ends with this answer. -/
inductive ComparesPlainly (s : Store) (leaf : Value → Value → Except ε Bool) :
    Comparison → Except ε Bool → Prop
  | leaf {x y} (h : x.Leaves y) : ComparesPlainly s leaf (.values x y) (leaf x y)
  | identical {a} : ComparesPlainly s leaf (.values (.array a) (.array a)) (.ok true)
  | lengths {a b} (hne : a ≠ b) (hsize : (s.items a).size ≠ (s.items b).size) :
    ComparesPlainly s leaf (.values (.array a) (.array b)) (.ok false)
  | arrays {a b answer} (hne : a ≠ b) (hsize : (s.items a).size = (s.items b).size)
      (h : ComparesPlainly s leaf (.elements (s.items a).toList (s.items b).toList) answer) :
    ComparesPlainly s leaf (.values (.array a) (.array b)) answer
  | none : ComparesPlainly s leaf (.elements [] []) (.ok true)
  | fails {x y xs ys e} (h : ComparesPlainly s leaf (.values x y) (.error e)) :
    ComparesPlainly s leaf (.elements (x :: xs) (y :: ys)) (.error e)
  | differs {x y xs ys} (h : ComparesPlainly s leaf (.values x y) (.ok false)) :
    ComparesPlainly s leaf (.elements (x :: xs) (y :: ys)) (.ok false)
  | agrees {x y xs ys answer} (h : ComparesPlainly s leaf (.values x y) (.ok true))
      (hrest : ComparesPlainly s leaf (.elements xs ys) answer) :
    ComparesPlainly s leaf (.elements (x :: xs) (y :: ys)) answer

/-- It ends with one answer at most. -/
theorem ComparesPlainly.unique {task : Comparison} {answer answer' : Except ε Bool}
    (h : ComparesPlainly s leaf task answer) (h' : ComparesPlainly s leaf task answer') :
    answer = answer' := by
  induction h generalizing answer' with
  | @leaf x y hleaves =>
    cases h' with
    | leaf => rfl
    | identical | lengths _ _ | arrays _ _ _ => exact absurd ⟨rfl, rfl⟩ (hleaves _ _)
  | identical =>
    cases h' with
    | leaf hleaves => exact absurd ⟨rfl, rfl⟩ (hleaves _ _)
    | identical => rfl
    | lengths hne _ | arrays hne _ _ => exact absurd rfl hne
  | lengths hne hsize =>
    cases h' with
    | leaf hleaves => exact absurd ⟨rfl, rfl⟩ (hleaves _ _)
    | identical => exact absurd rfl hne
    | lengths _ _ => rfl
    | arrays _ hsize' _ => exact absurd hsize' hsize
  | arrays hne hsize _ ih =>
    cases h' with
    | leaf hleaves => exact absurd ⟨rfl, rfl⟩ (hleaves _ _)
    | identical => exact absurd rfl hne
    | lengths _ hsize' => exact absurd hsize hsize'
    | arrays _ _ h' => exact ih h'
  | none =>
    cases h'
    rfl
  -- two runs over the same elements go apart only after different answers to the first pair
  | fails _ ih =>
    cases h' with
    | fails h' => exact ih h'
    | differs h' | agrees h' _ => cases ih h'
  | differs _ ih =>
    cases h' with
    | differs h' => exact ih h'
    | fails h' | agrees h' _ => cases ih h'
  | agrees _ _ ih ihrest =>
    cases h' with
    | agrees _ hrest' => exact ihrest hrest'
    | fails h' | differs h' => cases ih h'

/-! ## 2. What a remembered pair stands for -/

namespace Comparison

/-- The values on the left of a comparison. -/
def left : Comparison → List Value
  | .values x _ => [x]
  | .elements xs _ => xs

/-- The values on the right of a comparison. -/
def right : Comparison → List Value
  | .values _ y => [y]
  | .elements _ ys => ys

/-- One side of the comparison is acyclic. -/
def Acyclic (task : Comparison) (s : Store) : Prop :=
  (∀ x ∈ task.left, s.Acyclic x) ∨ ∀ y ∈ task.right, s.Acyclic y

/-- What is compared lies strictly inside the arrays of each of these pairs. -/
def Beneath (task : Comparison) (s : Store) (pending : Pairs) : Prop :=
  ∀ p ∈ pending, (∀ c, .array c ∈ task.left → Relation.TransGen s.Element p.1 c) ∧
    ∀ c, .array c ∈ task.right → Relation.TransGen s.Element p.2 c

variable {s : Store} {a b : ArrayRef} {x y : Value} {xs ys : List Value} {pending : Pairs}

theorem Acyclic.cons (h : (elements (x :: xs) (y :: ys)).Acyclic s) :
    (values x y).Acyclic s ∧ (elements xs ys).Acyclic s := by
  rcases h with h | h
  · obtain ⟨hx, hxs⟩ := List.forall_mem_cons.mp h
    exact ⟨.inl (List.forall_mem_singleton.mpr hx), .inl hxs⟩
  · obtain ⟨hy, hys⟩ := List.forall_mem_cons.mp h
    exact ⟨.inr (List.forall_mem_singleton.mpr hy), .inr hys⟩

theorem Beneath.cons (h : (elements (x :: xs) (y :: ys)).Beneath s pending) :
    (values x y).Beneath s pending ∧ (elements xs ys).Beneath s pending := by
  refine ⟨fun p hp => ?_, fun p hp => ?_⟩
  · obtain ⟨hleft, hright⟩ := h p hp
    exact ⟨fun c hc => hleft c (List.mem_cons.mpr (.inl (List.mem_singleton.mp hc))),
      fun c hc => hright c (List.mem_cons.mpr (.inl (List.mem_singleton.mp hc)))⟩
  · obtain ⟨hleft, hright⟩ := h p hp
    exact ⟨fun c hc => hleft c (List.mem_cons_of_mem _ hc),
      fun c hc => hright c (List.mem_cons_of_mem _ hc)⟩

theorem Acyclic.items (h : (values (.array a) (.array b)).Acyclic s) :
    (elements (s.items a).toList (s.items b).toList).Acyclic s := by
  rcases h with h | h
  · exact .inl fun x hx => (h _ (List.mem_singleton_self _)).of_mem (Array.mem_toList_iff.mp hx)
  · exact .inr fun y hy => (h _ (List.mem_singleton_self _)).of_mem (Array.mem_toList_iff.mp hy)

/-- The elements of two arrays lie inside these, and inside all that the arrays lie in. -/
theorem Beneath.items (h : (values (.array a) (.array b)).Beneath s pending) :
    (elements (s.items a).toList (s.items b).toList).Beneath s ((a, b) :: pending) := by
  intro p hp
  rcases List.mem_cons.mp hp with rfl | hp
  · exact ⟨fun c hc => .single (Array.mem_toList_iff.mp hc),
      fun c hc => .single (Array.mem_toList_iff.mp hc)⟩
  · obtain ⟨ha, hb⟩ := h p hp
    exact ⟨fun c hc => .tail (ha a (List.mem_singleton_self _)) (Array.mem_toList_iff.mp hc),
      fun c hc => .tail (hb b (List.mem_singleton_self _)) (Array.mem_toList_iff.mp hc)⟩

/-- A pair that is being compared does not come again: each of its arrays would be inside
itself. -/
theorem Beneath.notMem (h : (values (.array a) (.array b)).Beneath s pending)
    (hacyclic : (values (.array a) (.array b)).Acyclic s) : (a, b) ∉ pending := by
  intro hmem
  obtain ⟨ha, hb⟩ := h _ hmem
  rcases hacyclic with hacyclic | hacyclic
  · exact hacyclic _ (List.mem_singleton_self _) a (s.inside_self a)
      (ha a (List.mem_singleton_self _))
  · exact hacyclic _ (List.mem_singleton_self _) b (s.inside_self b)
      (hb b (List.mem_singleton_self _))

end Comparison

/-! ## 3. The memory changes no answer -/

/-- Each remembered pair is being compared, or the plain recursion finds it equal. -/
def Store.Accounts (s : Store) (leaf : Value → Value → Except ε Bool) (pending seen : Pairs) :
    Prop :=
  ∀ p ∈ seen, p ∈ pending ∨
    ComparesPlainly s leaf (.values (.array p.1) (.array p.2)) (.ok true)

/-- A run that begins with a memory that is accounted for gives the answer of the plain
recursion. Where it is yes, the memory it leaves is accounted for in the same way. -/
theorem Compares.plainly {task : Comparison} {pending seen : Pairs}
    {answer : Except ε (Bool × Pairs)} (h : Compares s leaf task seen answer)
    (hacyclic : task.Acyclic s) (hbeneath : task.Beneath s pending)
    (hseen : s.Accounts leaf pending seen) :
    ComparesPlainly s leaf task (answer.map Prod.fst) ∧
      ∀ memory, answer = .ok (true, memory) → s.Accounts leaf pending memory := by
  induction h generalizing pending with
  | @leaf x y seen hleaves =>
    have hplain : ComparesPlainly s leaf (.values x y) (leaf x y) := .leaf hleaves
    cases hleaf : leaf x y with
    | error e =>
      rw [hleaf] at hplain
      exact ⟨hplain, nofun⟩
    | ok same =>
      rw [hleaf] at hplain
      refine ⟨hplain, ?_⟩
      rintro memory ⟨⟩
      exact hseen
  | identical =>
    refine ⟨.identical, ?_⟩
    rintro memory ⟨⟩
    exact hseen
  | @begun a b seen hmem =>
    refine ⟨?_, ?_⟩
    · rcases hseen _ hmem with hpending | hequal
      · exact absurd hpending (hbeneath.notMem hacyclic)
      · exact hequal
    · rintro memory ⟨⟩
      exact hseen
  | lengths hne _ hsize => exact ⟨.lengths hne hsize, nofun⟩
  | @arrays a b seen answer hne hnew hsize _ ih =>
    obtain ⟨hanswer, hmemory⟩ := ih hacyclic.items hbeneath.items fun p hp => by
      rcases List.mem_cons.mp hp with rfl | hp
      · exact .inl List.mem_cons_self
      · exact (hseen p hp).imp_left (List.mem_cons_of_mem _)
    have hplain := ComparesPlainly.arrays hne hsize hanswer
    refine ⟨hplain, fun memory hyes p hp => ?_⟩
    -- the pair itself is no longer being compared, and the answer for it was yes
    rcases hmemory memory hyes p hp with hpending | hequal
    · rcases List.mem_cons.mp hpending with rfl | hpending
      · rw [hyes] at hplain
        exact .inr hplain
      · exact .inl hpending
    · exact .inr hequal
  | none =>
    refine ⟨.none, ?_⟩
    rintro memory ⟨⟩
    exact hseen
  -- of two lists the first elements are compared first, inside the same pairs
  | fails _ ih =>
    have hfirst := (ih hacyclic.cons.1 hbeneath.cons.1 hseen).1
    exact ⟨.fails hfirst, nofun⟩
  | differs _ ih =>
    have hfirst := (ih hacyclic.cons.1 hbeneath.cons.1 hseen).1
    exact ⟨.differs hfirst, nofun⟩
  | agrees _ _ ih ihrest =>
    obtain ⟨hfirst, hmemory⟩ := ih hacyclic.cons.1 hbeneath.cons.1 hseen
    obtain ⟨hrest, hmemory'⟩ := ihrest hacyclic.cons.2 hbeneath.cons.2 (hmemory _ rfl)
    exact ⟨.agrees hfirst hrest, hmemory'⟩

/-- Where one of the values is acyclic, the plain recursion ends, with the same answer. -/
theorem Store.comparesPlainly_iff {x y : Value} (h : s.Acyclic x ∨ s.Acyclic y)
    (answer : Except ε Bool) :
    ComparesPlainly s leaf (.values x y) answer ↔ answer = s.compare leaf x y := by
  obtain ⟨run, hrun, hcompare⟩ := s.compare_compares leaf x y
  have hacyclic : (Comparison.values x y).Acyclic s :=
    h.imp List.forall_mem_singleton.mpr List.forall_mem_singleton.mpr
  have hbeneath : (Comparison.values x y).Beneath s [] := fun p hp => by cases hp
  have hseen : s.Accounts leaf [] [] := fun p hp => by cases hp
  have hplain := (hrun.plainly hacyclic hbeneath hseen).1
  rw [← hcompare] at hplain
  constructor
  · intro hanswer
    exact hanswer.unique hplain
  · rintro rfl
    exact hplain

end Plain

/-- **The memory of compared pairs changes no answer.** If no array on a cycle can be reached
from the first value, or none from the second, the recursion that keeps no memory ends, and both
comparisons have its outcome: yes, no or the same fault. -/
theorem Store.memory_changes_no_answer (s : Store) (x y : Value)
    (h : s.Acyclic x ∨ s.Acyclic y) :
    (∀ answer, ComparesPlainly s Value.equalLeaf (.values x y) answer ↔
      answer = s.equal x y) ∧
    ∀ answer, ComparesPlainly s Value.sameLeaf (.values x y) answer ↔
      answer = .ok (s.same x y) := by
  refine ⟨comparesPlainly_iff h, ?_⟩
  rw [s.ok_same]
  exact comparesPlainly_iff h

/-- Two arrays that hold one array twice each: the second time its pair is remembered. -/
theorem Store.memory_changes_no_answer_shared :
    let s : Store := ⟨#[#[.bool true], #[.array ⟨0⟩, .array ⟨0⟩], #[.str "1"],
      #[.array ⟨2⟩, .array ⟨2⟩]], #[], #[], #[], 0⟩
    s.Acyclic (.array ⟨1⟩) ∧
      ComparesPlainly s Value.equalLeaf (.values (.array ⟨1⟩) (.array ⟨3⟩)) (.ok true) := by
  intro s
  have hacyclic : s.Acyclic (.array ⟨1⟩) := by
    refine acyclic_of_lt ?_ _
    rintro ⟨i⟩ ⟨j⟩ hij
    show j < i
    rcases i with _ | _ | _ | _ | i <;> simp [Element, items, s] at hij <;> omega
  refine ⟨hacyclic, ?_⟩
  rw [(s.memory_changes_no_answer _ (.array ⟨3⟩) (.inl hacyclic)).1]
  rfl

end CalcScript
