import Mathlib.Data.Char
import Mathlib.Data.List.Destutter
import Mathlib.Data.List.Lex
import Mathlib.Data.List.Sort

/-!
# Sorted lists

`Vec::sort`, and `sort` followed by `dedup`, over a linear order. Equal elements are identical, so any
sorting algorithm gives the same list.
-/

namespace Sorting

variable {α : Type*} [LinearOrder α] {a : α} {l l' : List α}

/-- `Vec::sort`. -/
def sort (l : List α) : List α := l.insertionSort (· ≤ ·)

/-- `Vec::sort` and `Vec::dedup`. -/
def sortDedup (l : List α) : List α := (sort l).destutter (· ≠ ·)

theorem sort_perm (l : List α) : (sort l).Perm l := List.perm_insertionSort _ l

@[simp] theorem mem_sort : a ∈ sort l ↔ a ∈ l := List.mem_insertionSort _

theorem sort_pairwise (l : List α) : (sort l).Pairwise (· ≤ ·) := List.pairwise_insertionSort _ l

theorem sortDedup_eq (l : List α) : sortDedup l = (sort l).dedup :=
  (sort_pairwise l).destutter_eq_dedup

@[simp] theorem mem_sortDedup : a ∈ sortDedup l ↔ a ∈ l := by
  rw [sortDedup_eq, List.mem_dedup, mem_sort]

theorem sortDedup_pairwise (l : List α) : (sortDedup l).Pairwise (· < ·) := by
  have hle : (sortDedup l).Pairwise (· ≤ ·) := by
    rw [sortDedup_eq]
    exact (sort_pairwise l).sublist (List.dedup_sublist _)
  have hne : (sortDedup l).Nodup := by
    rw [sortDedup_eq]
    exact List.nodup_dedup _
  exact hle.imp₂ (fun _ _ hle hne => lt_of_le_of_ne hle hne) hne

/-- Strictly sorted lists with the same elements are equal. -/
theorem eq_of_mem_iff (h : l.Pairwise (· < ·)) (h' : l'.Pairwise (· < ·)) (hmem : ∀ a, a ∈ l ↔ a ∈ l') :
    l = l' := by
  have hperm : l.Perm l' := (List.perm_ext_iff_of_nodup (h.imp ne_of_lt) (h'.imp ne_of_lt)).2 hmem
  exact hperm.eq_of_pairwise (fun _ _ _ _ hab hba => absurd hab hba.asymm) h h'

theorem sort_pairwise_lt (h : l.Nodup) : (sort l).Pairwise (· < ·) :=
  (sort_pairwise l).imp₂ (fun _ _ hle hne => lt_of_le_of_ne hle hne) ((sort_perm l).nodup_iff.2 h)

end Sorting
