import Mathlib.Data.Finset.Card
import Mathlib.Data.Nat.ModEq

/-!
# Strides

The positions `a + i * s` modulo a number of which `d` is a divisor. If the stride has no factor in
common with `d`, positions fewer than `d` steps apart are different (`stride_ne`), whatever the
modulus is otherwise. So the first `k` steps reach at least `min k d` of them
(`le_card_image_range`).
-/

namespace Foundation

/-- Taking the rest by a multiple keeps the rest. -/
theorem modEq_of_mod_eq {d m x y : Nat} (hm : d ∣ m) (h : x % m = y % m) : x ≡ y [MOD d] :=
  Nat.ModEq.of_dvd hm h

/-- Steps that end in one position are whole rounds apart. -/
theorem stride_modEq {d s : Nat} (hs : Nat.Coprime d s) {a i j : Nat}
    (h : a + i * s ≡ a + j * s [MOD d]) : i ≡ j [MOD d] :=
  Nat.ModEq.cancel_right_of_coprime hs (Nat.ModEq.add_left_cancel' a h)

/-- Numbers that are a whole number of rounds apart, and less than one round, are equal. -/
theorem eq_of_modEq_of_near {d i j : Nat} (h : i ≡ j [MOD d]) (hij : i < j + d)
    (hji : j < i + d) : i = j := by
  rcases Nat.le_total i j with hle | hle
  · have hzero := Nat.eq_zero_of_dvd_of_lt ((Nat.modEq_iff_dvd' hle).mp h) (by omega)
    omega
  · have hzero := Nat.eq_zero_of_dvd_of_lt ((Nat.modEq_iff_dvd' hle).mp h.symm) (by omega)
    omega

/-- **Steps fewer than a round apart end in different positions.** -/
theorem stride_ne {d s : Nat} (hs : Nat.Coprime d s) {a i j : Nat} (hne : i ≠ j)
    (hij : i < j + d) (hji : j < i + d) : ¬ a + i * s ≡ a + j * s [MOD d] :=
  fun h => hne (eq_of_modEq_of_near (stride_modEq hs h) hij hji)

/-- The first `k` values of a function that does not repeat itself within `d` steps. -/
theorem le_card_image_range {α : Type} [DecidableEq α] {d : Nat} {f : Nat → α}
    (h : ∀ i j, i < j + d → j < i + d → f i = f j → i = j) (k : Nat) :
    min k d ≤ ((Finset.range k).image f).card := by
  have hinj : Set.InjOn f (Finset.range (min k d)) := by
    intro i hi j hj heq
    rw [Finset.mem_coe, Finset.mem_range] at hi hj
    exact h i j (by omega) (by omega) heq
  have hcard : ((Finset.range (min k d)).image f).card = min k d := by
    rw [Finset.card_image_of_injOn hinj, Finset.card_range]
  have hsubset : (Finset.range (min k d)).image f ⊆ (Finset.range k).image f :=
    Finset.image_subset_image (Finset.range_subset_range.mpr (Nat.min_le_left k d))
  exact hcard ▸ Finset.card_le_card hsubset

end Foundation
