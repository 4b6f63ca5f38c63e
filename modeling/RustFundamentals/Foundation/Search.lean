import Mathlib.Data.List.Basic

/-!
# Binary search

`slice::binary_search_by` as the standard library runs it: the window `[base, base + size)`
is halved until one element is left, and only then is equality looked at. On a list whose
elements compare `Less`, then at most once `Equal`, then `Greater`, it finds the equal
element if there is one (`binarySearchBy_eq_some`, `binarySearchBy_eq_none`).
-/

namespace Foundation

variable {α : Type}

/-- The halving loop; `fuel` bounds the rounds, and the length of the list is enough. -/
def searchLoop (f : α → Ordering) (xs : List α) : Nat → Nat → Nat → Nat
  | 0, base, _ => base
  | fuel + 1, base, size =>
    if 1 < size then
      let half := size / 2
      let mid := base + half
      let base' := match xs[mid]? with
        | some x => if f x = .gt then base else mid
        | none => base
      searchLoop f xs fuel base' (size - half)
    else base

/-- `xs.binary_search_by(f)`: the index of an equal element, or `none` for `Err`. -/
def binarySearchBy (f : α → Ordering) (xs : List α) : Option Nat :=
  let base := searchLoop f xs xs.length 0 xs.length
  match xs[base]? with
  | some x => if f x = .eq then some base else none
  | none => none

/-- The comparisons along the list are `Less`, then at most one `Equal`, then `Greater`. -/
def Ascending (f : α → Ordering) (xs : List α) : Prop :=
  xs.Pairwise fun a b => f a ≠ .lt → f b = .gt

theorem Ascending.gt_of_lt {f : α → Ordering} {xs : List α} (h : Ascending f xs)
    {i j : Nat} {x y : α} (hij : i < j) (hx : xs[i]? = some x) (hy : xs[j]? = some y)
    (hne : f x ≠ .lt) : f y = .gt := by
  obtain ⟨hi, rfl⟩ := List.getElem?_eq_some_iff.mp hx
  obtain ⟨hj, rfl⟩ := List.getElem?_eq_some_iff.mp hy
  exact List.pairwise_iff_getElem.mp h i j hi hj hij hne

/-- The index of an equal element never leaves the window. -/
theorem searchLoop_eq {f : α → Ordering} {xs : List α} (h : Ascending f xs) {k : Nat} {x : α}
    (hk : xs[k]? = some x) (hx : f x = .eq) (fuel base size : Nat) (hlo : base ≤ k)
    (hhi : k < base + size) (hfuel : size ≤ fuel + 1) : searchLoop f xs fuel base size = k := by
  induction fuel generalizing base size with
  | zero => simp only [searchLoop]; omega
  | succ fuel ih =>
    rw [searchLoop]
    split
    · rename_i hsize
      have hlen : k < xs.length := (List.getElem?_eq_some_iff.mp hk).1
      dsimp only
      cases hm : xs[base + size / 2]? with
      | none =>
        have := List.getElem?_eq_none_iff.mp hm
        exact ih base (size - size / 2) hlo (by omega) (by omega)
      | some m =>
        dsimp only
        split
        · rename_i hgt
          -- the middle is beyond the equal element
          have hkm : k < base + size / 2 := by
            by_contra hle
            rcases Nat.lt_or_ge (base + size / 2) k with hlt | hge
            · have := h.gt_of_lt hlt hm hk (by simp [hgt])
              simp [hx] at this
            · have hkeq : k = base + size / 2 := by omega
              rw [← hkeq, hk] at hm
              rw [← Option.some.inj hm, hx] at hgt
              cases hgt
          exact ih base (size - size / 2) hlo (by omega) (by omega)
        · rename_i hgt
          -- the middle is at or before the equal element
          have hkm : base + size / 2 ≤ k := by
            by_contra hlt
            have := h.gt_of_lt (by omega) hk hm (by simp [hx])
            exact hgt this
          exact ih (base + size / 2) (size - size / 2) hkm (by omega) (by omega)
    · omega

/-- Whatever the order of the list, a hit is a hit. -/
theorem binarySearchBy_sound {f : α → Ordering} {xs : List α} {i : Nat}
    (h : binarySearchBy f xs = some i) : ∃ x, xs[i]? = some x ∧ f x = .eq := by
  unfold binarySearchBy at h
  dsimp only at h
  split at h
  · rename_i x hx
    split at h
    · rename_i heq
      rw [← Option.some.inj h]
      exact ⟨x, hx, heq⟩
    · cases h
  · cases h

/-- The equal element of an ascending list is found. -/
theorem binarySearchBy_eq_some {f : α → Ordering} {xs : List α} (h : Ascending f xs) {k : Nat}
    {x : α} (hk : xs[k]? = some x) (hx : f x = .eq) : binarySearchBy f xs = some k := by
  have hlen : k < xs.length := (List.getElem?_eq_some_iff.mp hk).1
  have hbase : searchLoop f xs xs.length 0 xs.length = k :=
    searchLoop_eq h hk hx _ _ _ (by omega) (by omega) (by omega)
  simp [binarySearchBy, hbase, hk, hx]

/-- A list without an equal element is a miss. -/
theorem binarySearchBy_eq_none {f : α → Ordering} {xs : List α} (h : ∀ x ∈ xs, f x ≠ .eq) :
    binarySearchBy f xs = none := by
  cases hs : binarySearchBy f xs with
  | none => rfl
  | some i =>
    obtain ⟨x, hx, heq⟩ := binarySearchBy_sound hs
    exact absurd heq (h x (List.mem_of_getElem? hx))

end Foundation
