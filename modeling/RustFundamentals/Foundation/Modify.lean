import Mathlib.Algebra.Ring.Nat
import Mathlib.Data.List.Forall2

/-!
# Lists changed at one place

What `modify` keeps of a list, element by element and as a whole: its members, a relation to
another list, the elements of its parts, a count.
-/

namespace Foundation

section Modify

variable {α β : Type}

theorem mem_modify {f : α → α} {i : Nat} {l : List α} {x : α} (h : x ∈ l.modify i f) :
    x ∈ l ∨ ∃ y ∈ l, x = f y := by
  obtain ⟨j, hj⟩ := List.mem_iff_getElem?.mp h
  rw [List.getElem?_modify] at hj
  obtain ⟨y, hy, hx⟩ := Option.map_eq_some_iff.mp hj
  have hmem : y ∈ l := List.mem_iff_getElem?.mpr ⟨j, hy⟩
  by_cases hij : i = j
  · exact .inr ⟨y, hmem, by rw [← hx, if_pos hij]⟩
  · exact .inl (by rw [← hx, if_neg hij]; exact hmem)

theorem forall₂_mem {R : α → β → Prop} {as : List α} {bs : List β} (h : List.Forall₂ R as bs)
    {a : α} (ha : a ∈ as) : ∃ b ∈ bs, R a b := by
  induction h with
  | nil => cases ha
  | cons hab _ ih =>
    rcases List.mem_cons.mp ha with rfl | ha
    · exact ⟨_, List.mem_cons_self, hab⟩
    · obtain ⟨b, hb, hr⟩ := ih ha
      exact ⟨b, List.mem_cons_of_mem _ hb, hr⟩

theorem forall₂_pairwise {R : α → β → Prop} {P : α → α → Prop} {Q : β → β → Prop} {as : List α}
    {bs : List β} (h : List.Forall₂ R as bs)
    (hpair : ∀ a a' b b', R a b → R a' b' → P a a' → Q b b') (has : as.Pairwise P) :
    bs.Pairwise Q := by
  induction h with
  | nil => exact .nil
  | cons hab hrest ih =>
    obtain ⟨hhead, htail⟩ := List.pairwise_cons.mp has
    refine List.pairwise_cons.mpr ⟨?_, ih htail⟩
    intro b' hb'
    obtain ⟨a', ha', hab'⟩ := forall₂_mem hrest.flip hb'
    exact hpair _ _ _ _ hab hab' (hhead a' ha')

theorem forall₂_modify {R : α → β → Prop} {f : α → α} {g : β → β} {as : List α} {bs : List β}
    (h : List.Forall₂ R as bs) {i : Nat} (hstep : ∀ a ∈ as, ∀ b ∈ bs, R a b → R (f a) (g b)) :
    List.Forall₂ R (as.modify i f) (bs.modify i g) := by
  induction h generalizing i with
  | nil => rw [List.modify_nil, List.modify_nil]; exact .nil
  | cons hab hrest ih =>
    cases i with
    | zero =>
      rw [List.modify_zero_cons, List.modify_zero_cons]
      exact .cons (hstep _ List.mem_cons_self _ List.mem_cons_self hab) hrest
    | succ i =>
      rw [List.modify_succ_cons, List.modify_succ_cons]
      exact .cons hab (ih fun a ha b hb =>
        hstep a (List.mem_cons_of_mem _ ha) b (List.mem_cons_of_mem _ hb))

theorem flatten_modify_perm {ls : List (List α)} {i : Nat} (hi : i < ls.length) (x : List α) :
    (ls.modify i fun l => l ++ x).flatten.Perm (ls.flatten ++ x) := by
  induction ls generalizing i with
  | nil => cases hi
  | cons l ls ih =>
    cases i with
    | zero =>
      rw [List.modify_zero_cons, List.flatten_cons, List.flatten_cons, List.append_assoc,
        List.append_assoc]
      exact List.perm_append_comm.append_left l
    | succ i =>
      rw [List.modify_succ_cons, List.flatten_cons, List.flatten_cons, List.append_assoc]
      exact (ih (Nat.lt_of_succ_lt_succ hi)).append_left l

theorem countP_modify {l : List α} {i : Nat} {a : α} (h : l[i]? = some a) (f : α → α)
    (p : α → Bool) :
    (l.modify i f).countP p + (p a).toNat = l.countP p + (p (f a)).toNat := by
  induction l generalizing i with
  | nil => cases h
  | cons b l ih =>
    cases i with
    | zero =>
      obtain rfl : b = a := by simpa using h
      rw [List.modify_zero_cons, List.countP_cons, List.countP_cons]
      cases p b <;> cases p (f b) <;> simp
    | succ i =>
      have := ih (i := i) (by simpa using h)
      rw [List.modify_succ_cons, List.countP_cons, List.countP_cons]
      omega

theorem map_modify_of_eq {f : α → α} {g : α → β} (h : ∀ a, g (f a) = g a) (l : List α) (i : Nat) :
    (l.modify i f).map g = l.map g := by
  induction l generalizing i with
  | nil => rw [List.modify_nil]
  | cons a l ih =>
    cases i with
    | zero => rw [List.modify_zero_cons, List.map_cons, List.map_cons, h]
    | succ i => rw [List.modify_succ_cons, List.map_cons, List.map_cons, ih]

theorem sum_map_modify {l : List α} {i : Nat} {a : α} (h : l[i]? = some a) (f : α → α)
    (w : α → Nat) :
    ((l.modify i f).map w).sum + w a = (l.map w).sum + w (f a) := by
  induction l generalizing i with
  | nil => cases h
  | cons b l ih =>
    cases i with
    | zero =>
      obtain rfl : b = a := by simpa using h
      rw [List.modify_zero_cons, List.map_cons, List.map_cons, List.sum_cons, List.sum_cons]
      omega
    | succ i =>
      have := ih (i := i) (by simpa using h)
      rw [List.modify_succ_cons, List.map_cons, List.map_cons, List.sum_cons, List.sum_cons]
      omega

/-- An element outside the filter is changed: it stays outside, or comes in. -/
theorem filter_modify_perm {l : List α} {i : Nat} {a : α} (h : l[i]? = some a) (f : α → α)
    {p : α → Bool} (ha : p a = false) :
    ((l.modify i f).filter p).Perm ((if p (f a) then [f a] else []) ++ l.filter p) := by
  induction l generalizing i with
  | nil => cases h
  | cons b l ih =>
    cases i with
    | zero =>
      obtain rfl : b = a := by simpa using h
      rw [List.modify_zero_cons, List.filter_cons, List.filter_cons, ha]
      cases p (f b) <;> exact .refl _
    | succ i =>
      have hrest := ih (i := i) (by simpa using h)
      rw [List.modify_succ_cons, List.filter_cons, List.filter_cons]
      cases p b with
      | false => exact hrest
      | true => exact (hrest.cons b).trans List.perm_middle.symm

end Modify

end Foundation
