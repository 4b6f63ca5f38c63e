import Mathlib.Data.Nat.Prime.Basic
import RustFundamentals.Cbloom.Membership
import RustFundamentals.Foundation.Strides

/-!
# cbloom: the probes of an item

The number of bits is a multiple of 64 and the second hash is odd, so probes less than 64 apart
are at different positions. Neither the wrapping of `h1 + i * h2` nor the second remainder changes
what a position is modulo 64. A filter that answers `true` has at least `min k 64` bits set for
the item (`probes_distinct`).
-/

namespace RustFundamentals.Cbloom

open Foundation

/-- The second hash is forced odd. -/
theorem hashPair_odd (item : Bytes) : Nat.Coprime 64 (hashPair item).2.toNat := by
  have hbit : (hashPair item).2.toNat.testBit 0 = true := by
    rw [hashPair, UInt64.toNat_or, Nat.testBit_or]
    exact Bool.or_true _
  have hodd : (hashPair item).2.toNat % 2 = 1 := by
    simpa [Nat.testBit_zero] using hbit
  have htwo : Nat.Coprime 2 (hashPair item).2.toNat :=
    Nat.coprime_two_left.mpr (Nat.odd_iff.mpr hodd)
  exact htwo.pow_left 6

/-- The wrapping arithmetic is exact modulo 64. -/
theorem combined_modEq (h1 h2 : UInt64) (i : Nat) :
    (combined h1 h2 i).toNat ≡ h1.toNat + i * h2.toNat [MOD 64] := by
  have hword : (64 : Nat) ∣ 2 ^ 64 := by decide
  have hwrap : ∀ n : Nat, n % 2 ^ 64 ≡ n [MOD 64] :=
    fun n => modEq_of_mod_eq hword (Nat.mod_mod n (2 ^ 64))
  rw [combined, UInt64.toNat_add, UInt64.toNat_mul, UInt64.toNat_ofNat']
  refine (hwrap _).trans (Nat.ModEq.add_left _ ?_)
  exact (hwrap _).trans (Nat.ModEq.mul_right _ (hwrap i))

/-- **Probes less than 64 apart are at different positions.** -/
theorem combined_mod_ne {numBits : Nat} (hpacked : 64 ∣ numBits) (item : Bytes) {i j : Nat}
    (hne : i ≠ j) (hij : i < j + 64) (hji : j < i + 64) :
    (combined (hashPair item).1 (hashPair item).2 i).toNat % numBits ≠
      (combined (hashPair item).1 (hashPair item).2 j).toNat % numBits := by
  intro heq
  have hsame : (hashPair item).1.toNat + i * (hashPair item).2.toNat ≡
      (hashPair item).1.toNat + j * (hashPair item).2.toNat [MOD 64] :=
    calc (hashPair item).1.toNat + i * (hashPair item).2.toNat
        ≡ (combined (hashPair item).1 (hashPair item).2 i).toNat [MOD 64] :=
          (combined_modEq _ _ i).symm
      _ ≡ (combined (hashPair item).1 (hashPair item).2 j).toNat [MOD 64] :=
          modEq_of_mod_eq hpacked heq
      _ ≡ (hashPair item).1.toNat + j * (hashPair item).2.toNat [MOD 64] :=
          combined_modEq _ _ j
  exact stride_ne (hashPair_odd item) hne hij hji hsame

namespace Bloom

/-- The positions that `contains` may test, and `add` sets. -/
def probes (b : Bloom) (item : Bytes) : Finset Nat :=
  (Finset.range b.numHashes).image (b.probe item)

theorem le_card_probes {b : Bloom} (hpacked : 64 ∣ b.numBits) (item : Bytes) :
    min b.numHashes 64 ≤ (b.probes item).card := by
  refine le_card_image_range ?_ b.numHashes
  intro i j hij hji heq
  by_contra hne
  exact combined_mod_ne hpacked item hne hij hji heq

/-- The loop ends with `true` only behind its last probe, and all of them are set. -/
theorem getBit_of_allLoop {b : Bloom} (hpos : 0 < b.numBits) {item : Bytes} {is : List Nat}
    (h : b.allLoop (hashPair item).1 (hashPair item).2 is = .ok true) :
    ∀ i ∈ is, b.getBit (b.probe item i) = .ok true := by
  induction is with
  | nil => exact nofun
  | cons i is ih =>
    rw [allLoop, bitIndex_eq_probe hpos] at h
    have hloop : (b.getBit (b.probe item i) >>= fun set =>
        if set = true then b.allLoop (hashPair item).1 (hashPair item).2 is else .ok false) =
        .ok true := h
    intro x hx
    cases hbit : b.getBit (b.probe item i) with
    | error p =>
      rw [hbit] at hloop
      cases hloop
    | ok set =>
      cases set with
      | false =>
        rw [hbit] at hloop
        cases hloop
      | true =>
        rw [hbit] at hloop
        rcases List.mem_cons.mp hx with rfl | hx
        · exact hbit
        · exact ih hloop x hx

/-- **The probes do not collapse**: those less than 64 apart are different, at least `min k 64`
positions are among the first `k`, and a filter that answers `true` has all of them set. -/
theorem probes_distinct {b : Bloom} (hpos : 0 < b.numBits) (hpacked : 64 ∣ b.numBits)
    (item : Bytes) :
    (∀ i j, i ≠ j → i < j + 64 → j < i + 64 → ∃ x y,
      bitIndex (hashPair item).1 (hashPair item).2 i b.numBits = .ok x ∧
      bitIndex (hashPair item).1 (hashPair item).2 j b.numBits = .ok y ∧ x ≠ y) ∧
    ∃ tested : Finset Nat, min b.numHashes 64 ≤ tested.card ∧
      (∀ x, x ∈ tested ↔ ∃ i < b.numHashes,
        bitIndex (hashPair item).1 (hashPair item).2 i b.numBits = .ok x) ∧
      (b.contains item = .ok true → ∀ x ∈ tested, b.getBit x = .ok true) := by
  refine ⟨?_, b.probes item, le_card_probes hpacked item, ?_, ?_⟩
  · intro i j hne hij hji
    exact ⟨_, _, bitIndex_eq_probe hpos item i, bitIndex_eq_probe hpos item j,
      combined_mod_ne hpacked item hne hij hji⟩
  · intro x
    simp only [probes, Finset.mem_image, Finset.mem_range, bitIndex_eq_probe hpos,
      Except.ok.injEq]
  · intro hcontains x hx
    obtain ⟨i, hi, rfl⟩ := Finset.mem_image.mp hx
    refine getBit_of_allLoop hpos hcontains i ?_
    exact List.mem_range.mpr (Finset.mem_range.mp hi)

/-- One word of bits, and more probes than it has. -/
theorem oneWord_probes_distinct :
    (∀ i j, i ≠ j → i < j + 64 → j < i + 64 → ∃ x y,
      bitIndex (hashPair [97]).1 (hashPair [97]).2 i (withParams 64 70).numBits = .ok x ∧
      bitIndex (hashPair [97]).1 (hashPair [97]).2 j (withParams 64 70).numBits = .ok y ∧
      x ≠ y) ∧
    ∃ tested : Finset Nat, min (withParams 64 70).numHashes 64 ≤ tested.card ∧
      (∀ x, x ∈ tested ↔ ∃ i < (withParams 64 70).numHashes,
        bitIndex (hashPair [97]).1 (hashPair [97]).2 i (withParams 64 70).numBits = .ok x) ∧
      ((withParams 64 70).contains [97] = .ok true →
        ∀ x ∈ tested, (withParams 64 70).getBit x = .ok true) :=
  probes_distinct (by decide) (by decide) [97]

end Bloom

end RustFundamentals.Cbloom
