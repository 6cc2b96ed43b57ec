/-
`Proofs/Containment.lean` -- arrays inside arrays.

An array may hold others, several times and at any depth, and may come to hold itself. A
value is *acyclic* if no array on a cycle can be reached from it, however often arrays are
shared (`Store.Acyclic`).

A walk into arrays that never enters one it is inside of ends, because there are only so
many arrays (`Store.Room`).
-/
import CalcScript.Store
import Mathlib.Data.List.Nodup
import Mathlib.Data.List.Perm.Subperm
import Mathlib.Logic.Relation

set_option autoImplicit false

namespace CalcScript

namespace Store

/-! ## 1. Cycles -/

/-- The second array is an element of the first. -/
def Element (s : Store) (a b : ArrayRef) : Prop := .array b ∈ s.items a

/-- The array is the value, or an element of it at some depth. -/
def Inside (s : Store) (v : Value) (b : ArrayRef) : Prop :=
  ∃ a, v = .array a ∧ Relation.ReflTransGen s.Element a b

/-- The array is an element of itself, at some depth. -/
def OnCycle (s : Store) (a : ArrayRef) : Prop := Relation.TransGen s.Element a a

/-- No array on a cycle can be reached from the value. -/
def Acyclic (s : Store) (v : Value) : Prop := ∀ a, s.Inside v a → ¬ s.OnCycle a

variable {s : Store} {a b : ArrayRef} {v : Value}

theorem inside_self (s : Store) (a : ArrayRef) : s.Inside (.array a) a := ⟨a, rfl, .refl⟩

theorem Inside.of_mem (h : s.Inside v b) (hv : v ∈ s.items a) : s.Inside (.array a) b := by
  obtain ⟨c, rfl, hcb⟩ := h
  exact ⟨a, rfl, .head hv hcb⟩

theorem Acyclic.of_mem (h : s.Acyclic (.array a)) (hv : v ∈ s.items a) : s.Acyclic v :=
  fun b hb => h b (hb.of_mem hv)

/-- Where arrays hold none but older ones, there is no cycle. -/
theorem acyclic_of_lt (h : ∀ a b, s.Element a b → b.index < a.index) (v : Value) :
    s.Acyclic v := by
  intro a _ hcycle
  have hlt : ∀ b, Relation.TransGen s.Element a b → b.index < a.index := by
    intro b hab
    induction hab with
    | single hab => exact h _ _ hab
    | tail _ hbc ih => exact Nat.lt_trans (h _ _ hbc) ih
  exact Nat.lt_irrefl _ (hlt a hcycle)

/-! ## 2. Arrays that are open -/

/-- The arrays that have been opened are different ones of the store, and with `n` more there
would be more than it has. -/
structure Room (s : Store) (n : Nat) (opened : List ArrayRef) : Prop where
  nodup : opened.Nodup
  inside : ∀ r ∈ opened, r.index < s.arrays.size
  lt : s.arrays.size < n + opened.length

namespace Room

variable {n : Nat} {opened : List ArrayRef}

theorem start (s : Store) : s.Room (s.arrays.size + 1) [] :=
  ⟨List.nodup_nil, List.forall_mem_nil _, Nat.lt_succ_self _⟩

theorem cons (h : s.Room (n + 1) opened) {r : ArrayRef} (hnew : r ∉ opened)
    (hr : r.index < s.arrays.size) : s.Room n (r :: opened) := by
  have hlt := h.lt
  refine ⟨h.nodup.cons hnew, List.forall_mem_cons.mpr ⟨hr, h.inside⟩, ?_⟩
  rw [List.length_cons]
  omega

theorem pos (h : s.Room n opened) : 0 < n := by
  have hinj : Function.Injective ArrayRef.index := fun _ _ => ArrayRef.ext
  have hsub : opened.map ArrayRef.index ⊆ List.range s.arrays.size := by
    intro i hi
    obtain ⟨r, hr, rfl⟩ := List.mem_map.mp hi
    exact List.mem_range.mpr (h.inside r hr)
  -- different places below the size are no more than that
  have hle := ((h.nodup.map hinj).subperm hsub).length_le
  have hlt := h.lt
  rw [List.length_map, List.length_range] at hle
  omega

end Room

end Store

end CalcScript
