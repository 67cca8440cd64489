import Mathlib.Algebra.Order.Group.Nat
import Mathlib.Data.List.GetD
import Mathlib.Data.List.Sort

/-!
# Order statistics of a list

The element at a rank of the sorted list, judged without sorting: a bound is at most that element
exactly when at most as many elements as the rank are below the bound. So the element grows when the
elements below a bound get fewer.
-/

namespace Lib

universe u

variable {α : Type u} [LinearOrder α] {list other : List α} {rank : Nat}

theorem le_getD_of_sorted {bound : α} (sorted : list.Pairwise (· ≤ ·)) (inside : rank < list.length)
    (fallback : α) :
    bound ≤ list.getD rank fallback ↔ list.countP (· < bound) ≤ rank := by
  induction list generalizing rank with
  | nil => simp at inside
  | cons first list ih =>
    obtain ⟨least, sorted⟩ := List.pairwise_cons.mp sorted
    by_cases below : first < bound
    · rw [List.countP_cons_of_pos (by simpa using below)]
      cases rank with
      | zero => simp [below]
      | succ rank =>
        rw [List.getD_cons_succ, ih sorted (by simpa using inside), Nat.succ_le_succ_iff]
    · -- The list is sorted, so nothing in it is below a bound that its head reaches.
      have all : ∀ element ∈ first :: list, bound ≤ element := by
        intro element member
        rcases List.mem_cons.mp member with rfl | later
        · exact not_lt.mp below
        · exact (not_lt.mp below).trans (least element later)
      have none : (first :: list).countP (· < bound) = 0 := by
        rw [List.countP_eq_zero]
        intro element member
        simpa using all element member
      rw [none, List.getD_eq_getElem _ _ inside]
      exact iff_of_true (all _ (List.getElem_mem inside)) (Nat.zero_le _)

/-- A bound is at most the element at a rank when few elements are below it. -/
theorem le_getD_insertionSort {bound : α} (inside : rank < list.length) (fallback : α) :
    bound ≤ (list.insertionSort (· ≤ ·)).getD rank fallback ↔ list.countP (· < bound) ≤ rank := by
  have perm := List.perm_insertionSort (· ≤ ·) list
  rw [le_getD_of_sorted (List.pairwise_insertionSort _ _) (by rwa [perm.length_eq]), perm.countP_eq]

theorem getD_insertionSort_mem (inside : rank < list.length) (fallback : α) :
    (list.insertionSort (· ≤ ·)).getD rank fallback ∈ list := by
  have perm := List.perm_insertionSort (· ≤ ·) list
  rw [List.getD_eq_getElem _ _ (by rwa [perm.length_eq])]
  exact perm.mem_iff.mp (List.getElem_mem _)

/-- The upper median does not fall when elements leave and at least as many join above it. -/
theorem upperMedian_le {extra : α} {fallback : α} (some : list ≠ [])
    (above : (list.insertionSort (· ≤ ·)).getD (list.length / 2) fallback < extra)
    (kept : other.Sublist (list ++ [extra])) (long : list.length ≤ other.length) :
    (list.insertionSort (· ≤ ·)).getD (list.length / 2) fallback ≤
      (other.insertionSort (· ≤ ·)).getD (other.length / 2) fallback := by
  have size := List.length_pos_iff.mpr some
  set median := (list.insertionSort (· ≤ ·)).getD (list.length / 2) fallback
  have few := (le_getD_insertionSort (by omega) fallback).mp (le_refl median)
  rw [le_getD_insertionSort (by omega)]
  calc other.countP (· < median)
      ≤ (list ++ [extra]).countP (· < median) := kept.countP_le
    _ = list.countP (· < median) := by simp [List.countP_append, above.le]
    _ ≤ list.length / 2 := few
    _ ≤ other.length / 2 := Nat.div_le_div_right long

end Lib
