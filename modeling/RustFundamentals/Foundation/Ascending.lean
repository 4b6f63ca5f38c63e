import Mathlib.Data.List.Sort
import Mathlib.Order.Lattice

/-!
# Sorted lists without repetitions

`sort` and then `dedup`, which looks at neighbours only. What comes out is the one strictly
ascending list of the elements (`eq_sortDedup_iff`), so it depends on nothing but the set of them.
-/

namespace Foundation

section Ascending

variable {α : Type} [LinearOrder α]

/-- `Vec::dedup`. -/
def dedup : List α → List α
  | a :: b :: l => if a = b then dedup (b :: l) else a :: dedup (b :: l)
  | l => l

theorem mem_dedup {l : List α} {x : α} : x ∈ dedup l ↔ x ∈ l := by
  induction l using dedup.induct with
  | case1 a l ih =>
    rw [dedup, if_pos rfl, ih]
    simp
  | case2 a b l hne ih => rw [dedup, if_neg hne, List.mem_cons, ih, ← List.mem_cons]
  | case3 l hshort =>
    cases l with
    | nil => rfl
    | cons a l =>
      cases l with
      | nil => rfl
      | cons b l => exact absurd rfl (hshort a b l)

/-- What is sorted has its repetitions next to each other. -/
theorem dedup_ascending {l : List α} (h : l.Pairwise (· ≤ ·)) : (dedup l).Pairwise (· < ·) := by
  induction l using dedup.induct with
  | case1 a l ih =>
    rw [dedup, if_pos rfl]
    exact ih (List.pairwise_cons.mp h).2
  | case2 a b l hne ih =>
    obtain ⟨ha, htail⟩ := List.pairwise_cons.mp h
    rw [dedup, if_neg hne]
    refine List.pairwise_cons.mpr ⟨?_, ih htail⟩
    intro x hx
    have hab : a < b := lt_of_le_of_ne (ha b List.mem_cons_self) hne
    rcases List.mem_cons.mp (mem_dedup.mp hx) with rfl | hx
    · exact hab
    · exact lt_of_lt_of_le hab ((List.pairwise_cons.mp htail).1 x hx)
  | case3 l hshort =>
    cases l with
    | nil => exact .nil
    | cons a l =>
      cases l with
      | nil => exact List.pairwise_singleton _ a
      | cons b l => exact absurd rfl (hshort a b l)

/-- `sort_unstable()` and `dedup()`. -/
def sortDedup (l : List α) : List α := dedup (l.mergeSort fun a b => decide (a ≤ b))

theorem mem_sortDedup {l : List α} {x : α} : x ∈ sortDedup l ↔ x ∈ l := by
  rw [sortDedup, mem_dedup, List.mem_mergeSort]

theorem sortDedup_ascending (l : List α) : (sortDedup l).Pairwise (· < ·) := by
  apply dedup_ascending
  have hsorted := @List.pairwise_mergeSort α (fun a b => decide (a ≤ b))
    (by simpa using fun a b c => le_trans) (by simpa using le_total) l
  exact hsorted.imp (by simp)

/-- Ascending lists are equal when they have the same elements. -/
theorem ascending_unique {l l' : List α} (h : l.Pairwise (· < ·)) (h' : l'.Pairwise (· < ·))
    (hmem : ∀ x, x ∈ l ↔ x ∈ l') : l = l' := by
  have hperm : l.Perm l' :=
    (List.perm_ext_iff_of_nodup (h.imp ne_of_lt) (h'.imp ne_of_lt)).mpr hmem
  exact hperm.eq_of_pairwise (fun _ _ _ _ hab hba => absurd hab (lt_asymm hba)) h h'

/-- **The ascending list of the elements.** -/
theorem eq_sortDedup_iff {l l' : List α} :
    l' = sortDedup l ↔ l'.Pairwise (· < ·) ∧ ∀ x, x ∈ l' ↔ x ∈ l := by
  refine ⟨?_, ?_⟩
  · rintro rfl
    exact ⟨sortDedup_ascending l, fun x => mem_sortDedup⟩
  · rintro ⟨hascending, hmem⟩
    refine ascending_unique hascending (sortDedup_ascending l) ?_
    intro x
    rw [hmem, mem_sortDedup]

end Ascending

end Foundation
