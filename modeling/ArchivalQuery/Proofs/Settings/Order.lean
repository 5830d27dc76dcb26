import ArchivalQuery.Settings.Ancestry
import ArchivalQuery.Settings.Limits
import Mathlib.Order.Bounds.Defs
import Mathlib.Order.Lattice

/-! # The order of limits and roles

The order in which limits and roles are tested.  They are listed in this order, so that whoever goes
through the list and stops at the first element with a property has found the least one.
-/
namespace ArchivalQuery

def Limit.place : Limit → Nat
  | requestSize => 0
  | nestingDepth => 1
  | results => 2

theorem Limit.place_injective : Function.Injective place := by
  intro j k
  cases j <;> cases k <;> decide

instance : LinearOrder Limit := LinearOrder.lift' Limit.place Limit.place_injective

theorem Limit.mem_all (k : Limit) : k ∈ all := by
  cases k <;> decide

theorem Limit.pairwise_all : all.Pairwise (· < ·) := by decide

def Role.place : Role → Nat
  | id => 0
  | parents => 1
  | ancestors => 2
  | minDepth => 3
  | maxDepth => 4

theorem Role.place_injective : Function.Injective place := by
  intro r s
  cases r <;> cases s <;> decide

instance : LinearOrder Role := LinearOrder.lift' Role.place Role.place_injective

theorem Role.mem_all (r : Role) : r ∈ all := by
  cases r <;> decide

theorem Role.pairwise_all : all.Pairwise (· < ·) := by decide

theorem find?_eq_some_iff_isLeast {α : Type} [LinearOrder α] {p : α → Bool} {x : α} {xs : List α}
    (h : xs.Pairwise (· < ·)) : xs.find? p = some x ↔ IsLeast {y | y ∈ xs ∧ p y = true} x := by
  induction xs with
  | nil => simp [IsLeast]
  | cons y ys ih =>
    rw [List.pairwise_cons] at h
    by_cases hy : p y = true
    · have hleast : IsLeast {z | z ∈ y :: ys ∧ p z = true} y := by
        refine ⟨⟨List.mem_cons_self, hy⟩, ?_⟩
        rintro z ⟨hz, -⟩
        obtain rfl | hz := List.mem_cons.mp hz
        · exact le_rfl
        · exact (h.1 z hz).le
      rw [List.find?_cons_of_pos hy, Option.some.injEq]
      exact ⟨fun hyx => hyx ▸ hleast, fun h => le_antisymm (hleast.2 h.1) (h.2 hleast.1)⟩
    · have hset : {z | z ∈ y :: ys ∧ p z = true} = {z | z ∈ ys ∧ p z = true} := by
        ext z
        simp only [List.mem_cons, Set.mem_ofPred_eq, or_and_right]
        exact or_iff_right fun hz => hy (hz.1 ▸ hz.2)
      rw [List.find?_cons_of_neg hy, hset]
      exact ih h.2

end ArchivalQuery
