import Mathlib.Data.Finset.Card
import Mathlib.Dynamics.PeriodicPts.Defs

/-!
# Searching along an orbit

A loop that goes from one element to the next until it finds a good one. `seek` bounds its rounds.
An orbit that reaches a good element does not repeat itself before, so more rounds than there are
bad elements are enough (`seek_isSome`), and a loop that has taken so many never ends
(`seek_forever`). It comes back to where it started only if nothing else is good
(`seek_ne_start`).
-/

namespace Foundation

section Seek

variable {α : Type} (next : α → α) (good : α → Bool)

/-- The first good element behind `a`, among the first `fuel`. -/
def seek : Nat → α → Option α
  | 0, _ => none
  | fuel + 1, a => if good (next a) then some (next a) else seek fuel (next a)

variable {next good} {a t : α} {fuel : Nat}

theorem seek_eq_some_iff : seek next good fuel a = some t ↔
    ∃ i < fuel, next^[i + 1] a = t ∧ good t = true ∧
      ∀ j < i, good (next^[j + 1] a) = false := by
  induction fuel generalizing a with
  | zero => simp [seek]
  | succ fuel ih =>
    rw [seek]
    cases hgood : good (next a) with
    | true =>
      rw [if_pos rfl, Option.some_inj]
      constructor
      · rintro rfl
        exact ⟨0, by omega, rfl, hgood, nofun⟩
      · intro h
        obtain ⟨i, -, rfl, -, hbad⟩ := h
        cases i with
        | zero => rfl
        | succ i =>
          have hfirst : good (next a) = false := hbad 0 (by omega)
          rw [hgood] at hfirst
          cases hfirst
    | false =>
      rw [if_neg Bool.false_ne_true, ih]
      constructor
      · intro h
        obtain ⟨i, hi, hit, ht, hbad⟩ := h
        refine ⟨i + 1, by omega, hit, ht, ?_⟩
        intro j hj
        cases j with
        | zero => exact hgood
        | succ j => exact hbad j (by omega)
      · intro h
        obtain ⟨i, hi, hit, ht, hbad⟩ := h
        cases i with
        | zero =>
          have hhere : next a = t := hit
          rw [← hhere, hgood] at ht
          cases ht
        | succ i => exact ⟨i, by omega, hit, ht, fun j hj => hbad (j + 1) (by omega)⟩

theorem seek_eq_none_iff :
    seek next good fuel a = none ↔ ∀ i < fuel, good (next^[i + 1] a) = false := by
  induction fuel generalizing a with
  | zero => simp [seek]
  | succ fuel ih =>
    rw [seek]
    cases hgood : good (next a) with
    | true =>
      rw [if_pos rfl]
      refine iff_of_false nofun fun h => ?_
      have hfirst : good (next a) = false := h 0 (by omega)
      rw [hgood] at hfirst
      cases hfirst
    | false =>
      rw [if_neg Bool.false_ne_true, ih]
      refine ⟨fun h i hi => ?_, fun h i hi => h (i + 1) (by omega)⟩
      cases i with
      | zero => exact hgood
      | succ i => exact h i (by omega)

/-- An orbit does not repeat itself before it first comes to `t`. -/
theorem iterate_injOn {m : Nat} (hm : next^[m + 1] a = t)
    (hfirst : ∀ i < m, next^[i + 1] a ≠ t) :
    Set.InjOn (fun i => next^[i + 1] a) (Set.Iic m) := by
  have hne : ∀ i j, i < j → j ≤ m → next^[i + 1] a ≠ next^[j + 1] a := by
    intro i j hij hj heq
    -- what is left of the way to `t` could be gone from the earlier one
    refine hfirst (i + (m - j)) (by omega) ?_
    calc next^[i + (m - j) + 1] a = next^[m - j] (next^[i + 1] a) := by
          rw [← Function.iterate_add_apply]
          congr 1
          omega
      _ = next^[m - j] (next^[j + 1] a) := by rw [heq]
      _ = next^[m + 1] a := by
          rw [← Function.iterate_add_apply]
          congr 1
          omega
      _ = t := hm
  intro i hi j hj heq
  rcases Nat.lt_trichotomy i j with hlt | rfl | hlt
  · exact absurd heq (hne i j hlt hj)
  · rfl
  · exact absurd heq.symm (hne j i hlt hi)

/-- **More rounds than there are bad elements find a good one**, if one can be reached. -/
theorem seek_isSome {bad : Finset α} (hbad : ∀ x, good x = false → x ∈ bad) {m : Nat}
    (hreach : next^[m + 1] a = t) (ht : good t = true) (hfuel : bad.card < fuel) :
    ∃ x, seek next good fuel a = some x := by
  classical
  by_contra hnone
  have hall := seek_eq_none_iff.mp (Option.eq_none_iff_forall_ne_some.mpr (not_exists.mp hnone))
  have hexists : ∃ m, next^[m + 1] a = t := ⟨m, hreach⟩
  have hfound := Nat.find_spec hexists
  have hbehind : fuel ≤ Nat.find hexists := by
    by_contra hlt
    have hgood := hall (Nat.find hexists) (by omega)
    rw [hfound, ht] at hgood
    cases hgood
  have hinj := iterate_injOn hfound fun i hi => Nat.find_min hexists hi
  have hcard : (Finset.range fuel).card ≤ bad.card := by
    refine Finset.card_le_card_of_injOn (fun i => next^[i + 1] a) ?_ ?_
    · intro i hi
      exact hbad _ (hall i (Finset.mem_range.mp hi))
    · intro i hi j hj heq
      have hi' := Finset.mem_range.mp hi
      have hj' := Finset.mem_range.mp hj
      exact hinj (Set.mem_Iic.mpr (by omega)) (Set.mem_Iic.mpr (by omega)) heq
  rw [Finset.card_range] at hcard
  omega

/-- When that many rounds find nothing, none do. -/
theorem seek_forever {bad : Finset α} (hbad : ∀ x, good x = false → x ∈ bad)
    (hfuel : bad.card < fuel) (h : seek next good fuel a = none) (more : Nat) :
    seek next good more a = none := by
  cases hmore : seek next good more a with
  | none => rfl
  | some x =>
    obtain ⟨i, -, hi, hx, -⟩ := seek_eq_some_iff.mp hmore
    obtain ⟨y, hy⟩ := seek_isSome hbad hi hx hfuel
    rw [h] at hy
    cases hy

/-- **The search comes back to its start only if nothing else is good** on its way. -/
theorem seek_ne_start {m : Nat} (hreach : next^[m + 1] a = t) (ht : good t = true) (hne : t ≠ a) :
    seek next good fuel a ≠ some a := by
  intro h
  obtain ⟨i, -, hperiod, -, hbad⟩ := seek_eq_some_iff.mp h
  have hmod : next^[(m + 1) % (i + 1)] a = t := by
    rw [← hreach]
    exact Function.IsPeriodicPt.iterate_mod_apply hperiod (m + 1)
  have hlt : (m + 1) % (i + 1) < i + 1 := Nat.mod_lt _ (Nat.succ_pos i)
  cases hround : (m + 1) % (i + 1) with
  | zero =>
    rw [hround] at hmod
    exact hne hmod.symm
  | succ j =>
    rw [hround] at hmod hlt
    have hskipped := hbad j (by omega)
    rw [hmod, ht] at hskipped
    cases hskipped

end Seek

end Foundation
