import Mathlib.Data.List.AList
import Mathlib.Data.Set.Card
import Mathlib.Order.Basic

/-!
# Maps whose entries die

Entries carry their own end: `dead now a` says that `a` is gone at time `now`, and what is
gone stays gone. `alive` is what is left of a map. A map that drops its dead entries late and
one that drops them at once `Agree`: nothing read at that time or later tells them apart, and
every update keeps it so.

The maps themselves are association lists, whose order of entries is the one they are walked
in.
-/

namespace Foundation

/-! ## Hash maps -/

/-- A hash map. The order of its entries is the order of its iterator. -/
abbrev HashMap (κ α : Type) := AList fun _ : κ => α

namespace HashMap

variable {κ α : Type} [DecidableEq κ]

/-- `retain`. -/
def retain (p : κ → α → Bool) (m : HashMap κ α) : HashMap κ α :=
  ⟨m.entries.filter fun e => p e.1 e.2, m.nodupKeys.sublist List.filter_sublist⟩

theorem mem_entries {m : HashMap κ α} {k : κ} {a : α} :
    ⟨k, a⟩ ∈ m.entries ↔ m.lookup k = some a := AList.mem_lookup_iff.symm

@[simp] theorem lookup_retain (p : κ → α → Bool) (m : HashMap κ α) (k : κ) :
    (m.retain p).lookup k = (m.lookup k).filter (p k) := by
  apply Option.ext
  intro a
  have hiff : ((m.retain p).lookup k = some a) ↔ (m.lookup k = some a ∧ p k a = true) := by
    rw [← mem_entries, ← mem_entries, retain, List.mem_filter]
  rw [hiff, Option.filter_eq_some_iff]

theorem lookup_insert (m : HashMap κ α) (k : κ) (a : α) :
    (fun x => (AList.insert k a m).lookup x) =
      Function.update (fun x => m.lookup x) k (some a) := by
  funext x
  by_cases h : x = k
  · subst h
    rw [AList.lookup_insert, Function.update_self]
  · rw [AList.lookup_insert_ne h, Function.update_of_ne h]

theorem lookup_erase (m : HashMap κ α) (k : κ) :
    (fun x => (AList.erase k m).lookup x) = Function.update (fun x => m.lookup x) k none := by
  funext x
  by_cases h : x = k
  · subst h
    rw [AList.lookup_erase, Function.update_self]
  · rw [AList.lookup_erase_ne h, Function.update_of_ne h]

/-- `len`: a map has as many entries as keys. -/
theorem length_entries (m : HashMap κ α) :
    m.entries.length = Set.ncard {k | (m.lookup k).isSome = true} := by
  have hset : {k | (m.lookup k).isSome = true} = (m.keys.toFinset : Set κ) := by
    ext k
    simp [AList.lookup_isSome, AList.mem_keys]
  rw [hset, Set.ncard_coe_finset, List.toFinset_card_of_nodup m.keys_nodup, AList.keys, List.keys,
    List.length_map]

end HashMap

/-! ## Expiry -/

namespace Expiry

variable {κ α τ : Type} {dead : τ → α → Bool} {now later : τ} {m r : κ → Option α}

/-- What is left of a map at a time. -/
def alive (dead : τ → α → Bool) (now : τ) (m : κ → Option α) : κ → Option α :=
  fun k => (m k).filter fun a => !dead now a

/-- What is dead stays dead. -/
def Lasting [LE τ] (dead : τ → α → Bool) : Prop :=
  ∀ s t a, s ≤ t → dead s a = true → dead t a = true

/-- Nothing read at `now` tells the maps apart. -/
def Agree (dead : τ → α → Bool) (now : τ) (m r : κ → Option α) : Prop :=
  alive dead now m = alive dead now r

@[simp] theorem alive_self : alive dead now (alive dead now m) = alive dead now m := by
  funext k
  simp [alive, Option.filter_filter]

/-- Looking again later sees what is left then, whatever was dropped before. -/
theorem alive_alive [LE τ] (hdead : Lasting dead) (hle : now ≤ later) :
    alive dead later (alive dead now m) = alive dead later m := by
  funext k
  simp only [alive, Option.filter_filter]
  congr 1
  funext a
  cases hnow : dead now a with
  | false => simp
  | true => simp [hdead now later a hle hnow]

theorem alive_update [DecidableEq κ] (k : κ) (x : Option α) :
    alive dead now (Function.update m k x) =
      Function.update (alive dead now m) k (x.filter fun a => !dead now a) := by
  funext j
  by_cases h : j = k
  · subst h
    simp [alive]
  · simp [alive, h]

namespace Agree

theorem refl : Agree dead now m m := rfl

/-- Maps that agree go on agreeing. -/
theorem mono [LE τ] (h : Agree dead now m r) (hdead : Lasting dead) (hle : now ≤ later) :
    Agree dead later m r := by
  unfold Agree at h ⊢
  rw [← alive_alive (m := m) hdead hle, h, alive_alive hdead hle]

/-- Dropping what is dead on one side only. -/
theorem drop_left (h : Agree dead now m r) : Agree dead now (alive dead now m) r := by
  unfold Agree at h ⊢
  rw [alive_self, h]

/-- The same update on both sides. -/
theorem update [DecidableEq κ] (h : Agree dead now m r) (k : κ) (x : Option α) :
    Agree dead now (Function.update m k x) (Function.update r k x) := by
  unfold Agree at h ⊢
  rw [alive_update, alive_update, h]

end Agree

/-! ## Part of a map -/

variable {K : κ → Bool}

/-- The part of a map under the keys in `K`. -/
def part (K : κ → Bool) (m : κ → Option α) : κ → Option α := fun k => if K k then m k else none

theorem part_apply {k : κ} (h : K k = true) : part K m k = m k := if_pos h

/-- Maps with the same part have the same entries there. -/
theorem apply_eq_of_part {k : κ} (hk : K k = true) (h : part K m = part K r) : m k = r k := by
  rw [← part_apply (m := m) hk, h, part_apply hk]

/-- What is left of a part is the part of what is left. -/
theorem alive_part : alive dead now (part K m) = part K (alive dead now m) := by
  funext k
  unfold alive part
  cases K k <;> simp

theorem part_update [DecidableEq κ] {k : κ} (h : K k = true) (x : Option α) :
    part K (Function.update m k x) = Function.update (part K m) k x := by
  funext j
  by_cases hj : j = k
  · subst hj
    rw [part_apply h, Function.update_self, Function.update_self]
  · simp [part, hj]

/-- An update elsewhere. -/
theorem part_update_of_not [DecidableEq κ] {k : κ} (h : K k = false) (x : Option α) :
    part K (Function.update m k x) = part K m := by
  funext j
  by_cases hj : j = k
  · subst hj
    simp [part, h]
  · simp [part, hj]

end Expiry

end Foundation
