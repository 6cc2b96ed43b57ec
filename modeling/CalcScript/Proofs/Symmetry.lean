/-
`Proofs/Symmetry.lean` -- equality does not depend on the order of its operands.

Exchanging the operands of a comparison mirrors its run: the same arrays are compared in the
same order, and each pair that is remembered is remembered the other way round
(`Store.compareWithin_swap`). What is left are the leaves. Values of one type are equal
whichever comes first; for numbers this is a property of floating-point comparison, under
which a NaN differs from itself and the two zeros are equal. Values of different types are
converted one after the other, so the order decides which of two conversions fails, and with
that the wording of the fault, but not whether one fails.
-/
import CalcScript.Proofs.Bisimilarity
import CalcScript.Proofs.Similarity

set_option autoImplicit false

namespace CalcScript

/-! ## 1. Numbers -/

namespace Number

open Float.Model (UnpackedFloat)

/-- The order of two numbers, if they have one, is turned round with them. -/
theorem compare_swap (a b : UnpackedFloat) : (a.compare b).map Ordering.swap = b.compare a := by
  cases a with
  | notANumber => cases b <;> rfl
  | infinity s =>
    cases b with
    | notANumber => rfl
    | infinity t => cases s <;> cases t <;> rfl
    | zero t => cases s <;> rfl
    | finite t => cases s <;> rfl
  | zero s =>
    cases b with
    | notANumber => rfl
    | infinity t => cases t <;> rfl
    | zero t => rfl
    | finite t => cases t <;> rfl
  | finite s m e hm =>
    cases b with
    | notANumber => rfl
    | infinity t => cases t <;> rfl
    | zero t => cases s <;> rfl
    | finite t m' e' hm' =>
      -- of one sign, the exponents decide and then the significands
      have hswap : ((compare e e').then (compare m m')).swap =
          (compare e' e).then (compare m' m) := by
        rw [Ordering.swap_then, Std.OrientedOrd.eq_swap (a := e'),
          Std.OrientedOrd.eq_swap (a := m')]
      cases s with
      | negative =>
        cases t with
        | negative => exact congrArg (fun o => some o.swap) hswap
        | positive => rfl
      | positive =>
        cases t with
        | negative => rfl
        | positive => exact congrArg some hswap

/-- Numbers are equal whichever comes first. -/
theorem beq_comm (a b : Float) : (a == b) = (b == a) := by
  have hswap := compare_swap b.toModel.unpack a.toModel.unpack
  show (a.toModel.unpack.compare b.toModel.unpack == some .eq) =
    (b.toModel.unpack.compare a.toModel.unpack == some .eq)
  rw [← hswap]
  cases b.toModel.unpack.compare a.toModel.unpack with
  | none => rfl
  | some order => cases order <;> rfl

end Number

/-! ## 2. Leaves -/

/-- Both end with a result, and these are related, or both fail with a type fault. -/
inductive EndAlike {α : Type} (R : α → α → Prop) : Except Fault α → Except Fault α → Prop
  | ok {a b : α} (h : R a b) : EndAlike R (.ok a) (.ok b)
  | fault {f g : Fault} (hf : f.kind = .type) (hg : g.kind = .type) :
    EndAlike R (.error f) (.error g)

namespace EndAlike

variable {α : Type} {r r' : Except Fault α}

theorem symm (h : EndAlike Eq r r') : EndAlike Eq r' r := by
  cases h with
  | ok h => exact .ok h.symm
  | fault hf hg => exact .fault hg hf

theorem ok_iff (h : EndAlike Eq r r') (a : α) : r = .ok a ↔ r' = .ok a := by
  cases h with
  | ok h => rw [h]
  | fault => simp

theorem error_iff (h : EndAlike Eq r r') :
    (∃ f, r = .error f) ↔ ∃ f, r' = .error f := by
  cases h with
  | ok => simp
  | fault => simp

theorem kind_eq (h : EndAlike Eq r r') {f : Fault} (hf : r = .error f) :
    f.kind = .type := by
  cases h with
  | ok => cases hf
  | fault hkind =>
    cases hf
    exact hkind

theorem map {β : Type} (h : EndAlike Eq r r') (f : α → β) :
    EndAlike Eq (r.map f) (r'.map f) := by
  cases h with
  | ok h => exact .ok (congrArg f h)
  | fault hf hg => exact .fault hf hg

end EndAlike

namespace Value

variable {x y : Value}

theorem sameType?_comm (x y : Value) : x.sameType? y = y.sameType? x := by
  cases x <;> cases y <;> simp only [sameType?]
  · rw [Number.beq_comm]
  all_goals rw [BEq.comm]

theorem kind_of_toNumber {f : Fault} (h : x.toNumber = .error f) : f.kind = .type := by
  unfold toNumber at h
  split at h
  · cases h
  · cases h
  · cases h
  · cases h
  · split at h
    · cases h
    · cases h
      rfl
  · cases h
    rfl

theorem equalLeaf_swap (x y : Value) : EndAlike Eq (x.equalLeaf y) (y.equalLeaf x) := by
  rw [equalLeaf, equalLeaf, sameType?_comm x y]
  cases y.sameType? x with
  | some same => exact .ok rfl
  | none =>
    dsimp only
    cases hx : x.toNumber with
    | error f =>
      cases hy : y.toNumber with
      | error g => exact .fault (kind_of_toNumber hx) (kind_of_toNumber hy)
      | ok b => exact .fault (kind_of_toNumber hx) (kind_of_toNumber hx)
    | ok a =>
      cases hy : y.toNumber with
      | error g => exact .fault (kind_of_toNumber hy) (kind_of_toNumber hy)
      | ok b =>
        show EndAlike Eq (.ok (a == b)) (.ok (b == a))
        rw [Number.beq_comm a b]
        exact .ok rfl

end Value

/-! ## 3. Runs -/

/-- The same answer, with the memory the other way round. -/
def Mirrored (r r' : Bool × Pairs) : Prop := r' = (r.1, r.2.map Prod.swap)

theorem everyPair_swap {compare : Value → Value → Pairs → Except Fault (Bool × Pairs)}
    (hcompare : ∀ x y seen, EndAlike Mirrored (compare x y seen) (compare y x (seen.map Prod.swap)))
    (xs ys : List Value) (seen : Pairs) :
    EndAlike Mirrored (everyPair compare xs ys seen)
      (everyPair compare ys xs (seen.map Prod.swap)) := by
  induction xs generalizing ys seen with
  | nil => cases ys <;> exact .ok rfl
  | cons x xs ih =>
    cases ys with
    | nil => exact .ok rfl
    | cons y ys =>
      have hfirst := hcompare x y seen
      rw [everyPair, everyPair]
      generalize compare x y seen = r at hfirst ⊢
      generalize compare y x (seen.map Prod.swap) = r' at hfirst ⊢
      cases hfirst with
      | fault hf hg => exact .fault hf hg
      | @ok answer answer' h =>
        obtain ⟨same, seen'⟩ := answer
        obtain rfl : answer' = (same, seen'.map Prod.swap) := h
        cases same with
        | true => exact ih ys seen'
        | false => exact .ok rfl

namespace Store

theorem compareWithin_of_leaves {ε : Type} (s : Store) (leaf : Value → Value → Except ε Bool)
    {x y : Value} (h : x.Leaves y) (n : Nat) (seen : Pairs) :
    s.compareWithin leaf (n + 1) x y seen = (leaf x y).map (·, seen) := by
  unfold compareWithin
  split
  · next a b => exact absurd ⟨rfl, rfl⟩ (h a b)
  · cases leaf x y <;> rfl

/-- A comparison with its operands exchanged begins the same pairs, the other way round. The
induction is on the bound, which is the same for both. -/
theorem compareWithin_swap (s : Store) (n : Nat) (x y : Value) (seen : Pairs) :
    EndAlike Mirrored (s.compareWithin Value.equalLeaf n x y seen)
      (s.compareWithin Value.equalLeaf n y x (seen.map Prod.swap)) := by
  induction n generalizing x y seen with
  | zero => exact .ok rfl
  | succ n ih =>
    by_cases hleaves : x.Leaves y
    · rw [compareWithin_of_leaves s _ hleaves,
        compareWithin_of_leaves s _ fun a b hyx => hleaves b a hyx.symm]
      have hleaf := x.equalLeaf_swap y
      generalize x.equalLeaf y = r at hleaf ⊢
      generalize y.equalLeaf x = r' at hleaf ⊢
      cases hleaf with
      | ok h =>
        subst h
        exact .ok rfl
      | fault hf hg => exact .fault hf hg
    · obtain ⟨a, b, rfl, rfl⟩ : ∃ a b, x = .array a ∧ y = .array b := by
        simpa [Value.Leaves] using hleaves
      -- the pairs seen so far are mirrored too
      have hmem : (b, a) ∈ seen.map Prod.swap ↔ (a, b) ∈ seen := by
        rw [List.mem_map_of_involutive Prod.swap_swap]
        rfl
      rw [compareWithin, compareWithin]
      simp only [Bool.or_eq_true, decide_eq_true_eq, List.contains_iff_mem, hmem, eq_comm (a := b)]
      by_cases hknown : a = b ∨ (a, b) ∈ seen
      · rw [if_pos hknown, if_pos hknown]
        exact .ok rfl
      · rw [if_neg hknown, if_neg hknown]
        by_cases hsize : (s.items a).size = (s.items b).size
        · rw [if_pos hsize, if_pos hsize.symm]
          exact everyPair_swap ih _ _ ((a, b) :: seen)
        · rw [if_neg hsize, if_neg (Ne.symm hsize)]
          exact .ok rfl

/-- The outcome is the same in the other order, but for the wording of a fault. -/
theorem equal_swap (s : Store) (x y : Value) : EndAlike Eq (s.equal x y) (s.equal y x) := by
  have hswap := s.compareWithin_swap (s.arrays.size * s.arrays.size + 1) x y []
  rw [equal, equal, compare, compare]
  rw [List.map_nil] at hswap
  generalize s.compareWithin Value.equalLeaf (s.arrays.size * s.arrays.size + 1) x y [] = r
    at hswap ⊢
  generalize s.compareWithin Value.equalLeaf (s.arrays.size * s.arrays.size + 1) y x [] = r'
    at hswap ⊢
  cases hswap with
  | @ok answer answer' h =>
    subst h
    exact .ok rfl
  | fault hf hg => exact .fault hf hg

end Store

/-! ## 4. Programs -/

/-- The operators `==` and `!=` change nothing, and the order of their operands decides
about nothing but the wording of a fault. -/
theorem Primitive.call_swap {p : Primitive} (hp : p = .eq ∨ p = .ne) (x y : Value) (m : Machine) :
    ∃ r r', p.call [x, y] m = (r, m) ∧ p.call [y, x] m = (r', m) ∧ EndAlike Eq r r' := by
  have hswap := m.store.equal_swap x y
  rcases hp with rfl | rfl
  · exact ⟨_, _, rfl, rfl, hswap.map _⟩
  · exact ⟨_, _, rfl, rfl, hswap.map _⟩

namespace Eval

/-- The same value, or two type faults at the same place; in both cases the machine is the
same. -/
inductive Concur : EStateM.Result Signal Machine Value → EStateM.Result Signal Machine Value → Prop
  | ok (v : Value) (m : Machine) : Concur (.ok v m) (.ok v m)
  | fault {f g : Fault} (hf : f.kind = .type) (hg : g.kind = .type) (pos : Option Position)
      (m : Machine) : Concur (.error (.error ⟨f, pos⟩) m) (.error (.error ⟨g, pos⟩) m)

/-- An application of `==` or `!=`, with the operands in one order and in the other. -/
theorem concur_swap {p : Primitive} (hp : p = .eq ∨ p = .ne) (x y : Value) (pos : Position)
    (m : Machine) : Concur (locating pos (callPrimitive p [x, y]) m)
      (locating pos (callPrimitive p [y, x]) m) := by
  obtain ⟨r, r', hcall, hcall', halike⟩ := p.call_swap hp x y m
  simp only [locating, callPrimitive, hcall, hcall']
  cases halike with
  | ok h =>
    subst h
    exact .ok _ m
  | fault hf hg => exact .fault hf hg (some pos) m

/-- An operator between operands that only read. -/
theorem eval_operator {n k : Nat} (hk : n + 3 ≤ k) {e e' : Expr} {scope : ScopeRef} {m : Machine}
    {x y : Value} (he : eval n e scope m = .ok x m) (he' : eval n e' scope m = .ok y m)
    (p : Primitive) (pos : Position) :
    eval k (.apply (.primitive p) [e, e'] pos) scope m =
      locating pos (callPrimitive p [x, y]) m := by
  have hn : n ≠ 0 := by
    rintro rfl
    cases he
  obtain ⟨k, rfl⟩ : ∃ j, k = j + 4 := Nat.exists_eq_add_of_le' (by omega)
  have hfirst : eval (k + 2) e scope m = .ok x m := eval_of_ok (by omega) he
  have hsecond : eval (k + 1) e' scope m = .ok y m := eval_of_ok (by omega) he'
  have hcallee : eval (k + 3) (.primitive p) scope m = .ok (.primitive p) m := rfl
  have hlast : evalAll (k + 2) [e'] scope m = .ok [y] m := by
    rw [evalAll]
    exact (bind_of_ok hsecond).trans rfl
  have hargs : evalAll (k + 3) [e, e'] scope m = .ok [x, y] m := by
    rw [evalAll]
    exact (bind_of_ok hfirst).trans (bind_of_ok hlast)
  rw [eval]
  exact (bind_of_ok hcallee).trans (bind_of_ok hargs)

end Eval

open Eval in
/-- **Equality does not depend on the order of its operands**, whatever the arrays contain: the
answer is the same, or both orders fail, with a type fault. So in a program `==` and `!=` may
be applied to two values in either order, and between operands that only read, these may
change places; what may differ is the wording of a fault. -/
theorem Store.equal_ignores_order (s : Store) (x y : Value) :
    (∀ same, s.equal x y = .ok same ↔ s.equal y x = .ok same) ∧
    ((∃ f, s.equal x y = .error f) ↔ ∃ f, s.equal y x = .error f) ∧
    (∀ f, s.equal x y = .error f ∨ s.equal y x = .error f → f.kind = .type) ∧
    ∀ p, p = .eq ∨ p = .ne → ∀ sink pos,
      Concur (locating pos (callPrimitive p [x, y]) ⟨s, sink⟩)
        (locating pos (callPrimitive p [y, x]) ⟨s, sink⟩) ∧
      ∀ n k e e' scope, n + 3 ≤ k →
        eval n e scope ⟨s, sink⟩ = .ok x ⟨s, sink⟩ → eval n e' scope ⟨s, sink⟩ = .ok y ⟨s, sink⟩ →
        Concur (eval k (.apply (.primitive p) [e, e'] pos) scope ⟨s, sink⟩)
          (eval k (.apply (.primitive p) [e', e] pos) scope ⟨s, sink⟩) := by
  have hswap := s.equal_swap x y
  refine ⟨?_, ?_, ?_, fun p hp sink pos => ⟨concur_swap hp x y pos _, ?_⟩⟩
  · intro same
    exact hswap.ok_iff same
  · exact hswap.error_iff
  · rintro f (hf | hf)
    · exact hswap.kind_eq hf
    · exact hswap.symm.kind_eq hf
  · intro n k e e' scope hk he he'
    rw [eval_operator hk he he', eval_operator hk he' he]
    exact concur_swap hp x y pos _

/-- The operand that comes first is the one that is complained about. -/
example : Store.empty.equal (.array ⟨0⟩) (.closure ⟨0⟩) = .error (.notNumeric "Array") ∧
    Store.empty.equal (.closure ⟨0⟩) (.array ⟨0⟩) = .error (.notNumeric "Function") :=
  ⟨rfl, rfl⟩

end CalcScript
