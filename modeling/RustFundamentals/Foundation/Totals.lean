import Mathlib.Algebra.Ring.Nat
import Mathlib.Algebra.Order.BigOperators.Group.List
import Std.Data.TreeMap.Lemmas

/-!
# Totals over an ordered map

The sizes of the values of a map, added up. An insertion adds the size of the new value and takes
away that of the value it replaces (`total_insert`), which is part of the total
(`size_le_total`). So a running total that is changed by those two never falls below zero.
-/

namespace Foundation

section Totals

variable {α β : Type} {cmp : α → α → Ordering} (size : β → Nat)

/-- The sum of the sizes of the values. -/
def total (m : Std.TreeMap α β cmp) : Nat := ((m.toList.map Prod.snd).map size).sum

variable [DecidableEq α] [Std.TransCmp cmp] [Std.LawfulEqCmp cmp]

/-- The entries of the other keys. -/
def others (m : Std.TreeMap α β cmp) (k : α) : List (α × β) := m.toList.filter (¬ k == ·.1)

theorem total_insert_eq (m : Std.TreeMap α β cmp) (k : α) (v : β) :
    total size (m.insert k v) = size v + (((others m k).map Prod.snd).map size).sum := by
  have hperm := ((m.toList_insert_perm (k := k) (v := v)).map Prod.snd).map size
  exact hperm.sum_eq

/-- A key that has a value is one that it has been inserted for. -/
theorem total_of_some {m : Std.TreeMap α β cmp} {k : α} {v : β} (h : m[k]? = some v) :
    total size m = size v + (((others m k).map Prod.snd).map size).sum := by
  have hsame : (m.insert k v).Equiv m := by
    apply Std.TreeMap.Equiv.of_forall_constGet?_eq
    intro x
    rw [Std.TreeMap.getElem?_insert]
    split
    · rename_i heq
      rw [← Std.LawfulEqCmp.eq_of_compare heq, h]
    · rfl
  rw [← total_insert_eq, total, total, hsame.toList_eq]

theorem total_of_none {m : Std.TreeMap α β cmp} {k : α} (h : m[k]? = none) :
    total size m = (((others m k).map Prod.snd).map size).sum := by
  have hall : others m k = m.toList := by
    refine List.filter_eq_self.mpr fun e he => ?_
    have hget := Std.TreeMap.mem_toList_iff_getElem?_eq_some.mp he
    have hne : k ≠ e.1 := by
      rintro rfl
      rw [h] at hget
      cases hget
    simpa using hne
  rw [total, hall]

/-- A value is part of the total. -/
theorem size_le_total {m : Std.TreeMap α β cmp} {k : α} {v : β} (h : m[k]? = some v) :
    size v ≤ total size m := by
  rw [total_of_some size h]
  exact Nat.le_add_right _ _

/-- **An insertion moves the total** by the difference of the sizes. -/
theorem total_insert (m : Std.TreeMap α β cmp) (k : α) (v : β) :
    total size (m.insert k v) = total size m - (m[k]?).elim 0 size + size v := by
  rw [total_insert_eq]
  cases h : m[k]? with
  | none =>
    rw [total_of_none size h, Option.elim_none]
    omega
  | some old =>
    rw [total_of_some size h, Option.elim_some]
    omega

end Totals

end Foundation
