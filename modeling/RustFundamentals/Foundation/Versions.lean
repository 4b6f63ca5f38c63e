import Mathlib.Data.Set.Insert
import Mathlib.Data.Set.Lattice
import Mathlib.Logic.Function.Basic

/-!
# Versioned records and what they say

A store keeps any number of records for a key, each stamped with a sequence number. What a
set of records says about a key is the value of the newest one (`view`). The lemmas give the
two ways a store may change its records without changing its view, adding dominated records
and dropping dominated ones, and the one way it changes a single key, adding a record newer
than all of that key.

`firstHit` is the other reading of a store: the first of a list of layers that has the key.
Where the layers are ordered by age (`LayersAged`) the two agree.
-/

namespace Foundation

/-- Records with a key, a sequence number, and a value that may be a deletion (`none`). -/
class Versioned (ρ : Type) (κ ν : outParam Type) where
  key : ρ → κ
  seq : ρ → Nat
  value : ρ → Option ν

open Versioned

section View

variable {ρ κ ν : Type} [Versioned ρ κ ν]

/-- `r` is a newest record of key `k` in `S`. -/
def Newest (S : Set ρ) (k : κ) (r : ρ) : Prop :=
  r ∈ S ∧ key r = k ∧ ∀ x ∈ S, key x = k → seq x ≤ seq r

/-- Key and sequence number determine the record. -/
def Coherent (S : Set ρ) : Prop :=
  ∀ x ∈ S, ∀ y ∈ S, key x = key y → seq x = seq y → x = y

open Classical in
/-- What `S` says about `k`: the value of its newest record. -/
noncomputable def view (S : Set ρ) (k : κ) : Option ν :=
  if h : ∃ r, Newest S k r then value h.choose else none

theorem Coherent.mono {S T : Set ρ} (h : Coherent T) (hST : S ⊆ T) : Coherent S :=
  fun x hx y hy => h x (hST hx) y (hST hy)

theorem Newest.unique {S : Set ρ} (hc : Coherent S) {k : κ} {r r' : ρ} (h : Newest S k r)
    (h' : Newest S k r') : r = r' :=
  hc r h.1 r' h'.1 (h.2.1.trans h'.2.1.symm)
    (le_antisymm (h'.2.2 r h.1 h.2.1) (h.2.2 r' h'.1 h'.2.1))

/-- Records may be left out where one of their key that is at least as new stays. -/
theorem newest_thin_iff {S N T : Set ρ} (hc : Coherent (S ∪ T)) (hsub : N ⊆ S)
    (hcover : ∀ x ∈ S, ∃ y ∈ N, key y = key x ∧ seq x ≤ seq y) {k : κ} {r : ρ} :
    Newest (N ∪ T) k r ↔ Newest (S ∪ T) k r := by
  constructor
  · intro h
    obtain ⟨hr, hk, hmax⟩ := h
    refine ⟨hr.imp (fun hN => hsub hN) id, hk, fun x hx hxk => ?_⟩
    rcases hx with hx | hx
    · obtain ⟨y, hy, hyk, hle⟩ := hcover x hx
      exact hle.trans (hmax y (.inl hy) (hyk.trans hxk))
    · exact hmax x (.inr hx) hxk
  · intro h
    obtain ⟨hr, hk, hmax⟩ := h
    have hmax' : ∀ x ∈ N ∪ T, key x = k → seq x ≤ seq r := fun x hx =>
      hmax x (hx.imp (fun hN => hsub hN) id)
    rcases hr with hr | hr
    · -- the one that stays for `r` is `r` itself
      obtain ⟨y, hy, hyk, hle⟩ := hcover r hr
      have hseq : seq y = seq r := le_antisymm (hmax' y (.inl hy) (hyk.trans hk)) hle
      obtain rfl := hc y (.inl (hsub hy)) r (.inl hr) hyk hseq
      exact ⟨.inl hy, hk, hmax'⟩
    · exact ⟨.inr hr, hk, hmax'⟩

theorem view_of_newest {S : Set ρ} (hc : Coherent S) {k : κ} {r : ρ} (h : Newest S k r) :
    view S k = value r := by
  have hex : ∃ r, Newest S k r := ⟨r, h⟩
  rw [view, dif_pos hex, Newest.unique hc hex.choose_spec h]

theorem view_of_absent {S : Set ρ} {k : κ} (h : ∀ x ∈ S, key x ≠ k) : view S k = none := by
  rw [view, dif_neg]
  intro hfound
  obtain ⟨r, hr, hk, _⟩ := hfound
  exact h r hr hk

/-- A key that has a record has a newest one, sequence numbers being bounded. -/
theorem exists_newest {S : Set ρ} {n : Nat} (hn : ∀ x ∈ S, seq x < n) {k : κ} {x : ρ}
    (hx : x ∈ S) (hk : key x = k) : ∃ r, Newest S k r := by
  -- climb from `x` to a record nothing exceeds; the gap to the bound decreases
  induction hgap : n - seq x using Nat.strong_induction_on generalizing x with
  | _ gap ih =>
    by_cases htop : ∀ y ∈ S, key y = k → seq y ≤ seq x
    · exact ⟨x, hx, hk, htop⟩
    · push Not at htop
      obtain ⟨y, hy, hyk, hlt⟩ := htop
      have := hn y hy
      exact ih (n - seq y) (by omega) hy hyk rfl

/-- Two sets with the same newest records of a key say the same about it. -/
theorem view_congr_newest {S T : Set ρ} {k : κ} (h : ∀ r, Newest S k r ↔ Newest T k r) :
    view S k = view T k := by
  have heq : Newest S k = Newest T k := funext fun r => propext (h r)
  unfold view
  rw [heq]

/-- Only the records of a key matter for it. -/
theorem view_congr {S T : Set ρ} {k : κ} (h : ∀ x, key x = k → (x ∈ S ↔ x ∈ T)) :
    view S k = view T k := by
  refine view_congr_newest fun r => ?_
  constructor
  · intro hboth
    obtain ⟨hr, hk, hmax⟩ := hboth
    exact ⟨(h r hk).mp hr, hk, fun x hx hxk => hmax x ((h x hxk).mpr hx) hxk⟩
  · intro hboth
    obtain ⟨hr, hk, hmax⟩ := hboth
    exact ⟨(h r hk).mpr hr, hk, fun x hx hxk => hmax x ((h x hxk).mp hx) hxk⟩

/-- **Dominated records are invisible**: `T` says what its part `S` says if `S` has a record
at least as new for each record of `T`. -/
theorem view_eq_of_dominated {S T : Set ρ} (hc : Coherent T) (hST : S ⊆ T) {k : κ}
    (hdom : ∀ x ∈ T, key x = k → ∃ y ∈ S, key y = k ∧ seq x ≤ seq y) : view T k = view S k := by
  refine view_congr_newest fun r => ?_
  constructor
  · intro hboth
    obtain ⟨hr, hk, hmax⟩ := hboth
    obtain ⟨y, hy, hyk, hle⟩ := hdom r hr hk
    have heq : r = y := hc r hr y (hST hy) (hk.trans hyk.symm)
      (le_antisymm hle (hmax y (hST hy) hyk))
    exact ⟨heq ▸ hy, hk, fun x hx hxk => hmax x (hST hx) hxk⟩
  · intro hboth
    obtain ⟨hr, hk, hmax⟩ := hboth
    refine ⟨hST hr, hk, fun x hx hxk => ?_⟩
    obtain ⟨y, hy, hyk, hle⟩ := hdom x hx hxk
    exact hle.trans (hmax y hy hyk)

/-- **A newer record replaces the binding of its key** and no other. -/
theorem view_insert [DecidableEq κ] {S : Set ρ} {r : ρ}
    (hnew : ∀ x ∈ S, key x = key r → seq x < seq r) :
    view (insert r S) = Function.update (view S) (key r) (value r) := by
  funext k
  by_cases hk : k = key r
  · subst hk
    have hnewest : Newest (insert r S) (key r) r := by
      refine ⟨Set.mem_insert _ _, rfl, ?_⟩
      intro x hx hxk
      rcases hx with rfl | hx
      · exact le_rfl
      · exact (hnew x hx hxk).le
    have hex : ∃ x, Newest (insert r S) (key r) x := ⟨r, hnewest⟩
    have hpick : hex.choose = r := by
      obtain ⟨hmem, hkey, hmax⟩ := hex.choose_spec
      rcases hmem with h | h
      · exact h
      · have := hmax r (Set.mem_insert _ _) rfl
        have := hnew _ h hkey
        omega
    rw [Function.update_self, view, dif_pos hex, hpick]
  · rw [Function.update_of_ne hk]
    refine view_congr fun x hx => ?_
    rw [Set.mem_insert_iff]
    constructor
    · intro heither
      rcases heither with rfl | h
      · exact absurd hx.symm hk
      · exact h
    · exact .inr

/-- A bound key has a newest record, and it is a put. -/
theorem view_eq_some {S : Set ρ} (hc : Coherent S) {k : κ} {v : ν} :
    view S k = some v ↔ ∃ r, Newest S k r ∧ value r = some v := by
  constructor
  · intro h
    rw [view] at h
    split at h
    · rename_i hex
      exact ⟨_, hex.choose_spec, h⟩
    · exact absurd h (by simp)
  · intro hfound
    obtain ⟨r, hr, hv⟩ := hfound
    rw [view_of_newest hc hr, hv]

/-- A key is unbound where no newest record of it is a put. -/
theorem view_eq_none {S : Set ρ} (hc : Coherent S) {k : κ} :
    view S k = none ↔ ∀ r, Newest S k r → value r = none := by
  constructor
  · intro h r hr
    rw [← h, view_of_newest hc hr]
  · intro h
    cases hv : view S k with
    | none => rfl
    | some v =>
      obtain ⟨r, hr, hrv⟩ := (view_eq_some hc).mp hv
      rw [h r hr] at hrv
      exact absurd hrv (by simp)

end View

/-! ## Layers -/

section Layers

variable {ρ κ ν : Type} [Versioned ρ κ ν]

/-- A layer answers for a key with at most one record. -/
abbrev Layer (ρ κ : Type) := κ → Option ρ

/-- The records of a layer: those it answers with. -/
def Layer.records (l : Layer ρ κ) : Set ρ := {r | l (key r) = some r}

/-- The first layer that has the key answers. -/
def firstHit (layers : List (Layer ρ κ)) (k : κ) : Option ρ := layers.findSome? (· k)

/-- All records of a list of layers. -/
def recordsOf (layers : List (Layer ρ κ)) : Set ρ := {r | ∃ l ∈ layers, l (key r) = some r}

/-- Each layer answers a key with a record of that key. -/
def LayersKeyed (layers : List (Layer ρ κ)) : Prop :=
  ∀ l ∈ layers, ∀ k r, l k = some r → key r = k

/-- Going down the layers, the records of a key get no newer. -/
def LayersAged (layers : List (Layer ρ κ)) : Prop :=
  layers.Pairwise fun upper lower =>
    ∀ k x y, upper k = some x → lower k = some y → seq y ≤ seq x

theorem firstHit_eq_none {layers : List (Layer ρ κ)} {k : κ} (h : firstHit layers k = none) :
    ∀ x ∈ recordsOf layers, key x ≠ k := by
  intro x hx heq
  obtain ⟨l, hl, hx⟩ := hx
  subst heq
  rw [firstHit, List.findSome?_eq_none_iff] at h
  simp [h l hl] at hx

/-- **In aged layers the first hit is the newest record.** -/
theorem newest_of_firstHit {layers : List (Layer ρ κ)} (hk : LayersKeyed layers)
    (ha : LayersAged layers) {k : κ} {r : ρ} (h : firstHit layers k = some r) :
    Newest (recordsOf layers) k r := by
  induction layers with
  | nil => simp [firstHit] at h
  | cons l ls ih =>
    have hkl := hk l (by simp)
    obtain ⟨hhead, htail⟩ := List.pairwise_cons.mp ha
    rw [firstHit, List.findSome?_cons] at h
    cases hl : l k with
    | some x =>
      simp only [hl, Option.some.injEq] at h
      subst h
      have hkey := hkl k x hl
      refine ⟨⟨l, by simp, by rw [hkey, hl]⟩, hkey, ?_⟩
      intro y hy hyk
      obtain ⟨l', hl', hy⟩ := hy
      rw [hyk] at hy
      rcases List.mem_cons.mp hl' with rfl | hmem
      · rw [hl] at hy
        exact (Option.some.inj hy ▸ le_rfl)
      · exact hhead l' hmem k x y hl hy
    | none =>
      simp only [hl] at h
      obtain ⟨⟨l', hl', hr⟩, hkey, hmax⟩ := ih (fun l' hl' => hk l' (by simp [hl'])) htail h
      refine ⟨⟨l', by simp [hl'], hr⟩, hkey, ?_⟩
      intro y hy hyk
      obtain ⟨l'', hl'', hy⟩ := hy
      rcases List.mem_cons.mp hl'' with rfl | hmem
      · rw [hyk, hl] at hy
        exact absurd hy (by simp)
      · exact hmax y ⟨l'', hmem, hy⟩ hyk

/-- The two readings of a layered store agree. -/
theorem firstHit_eq_view {layers : List (Layer ρ κ)} (hk : LayersKeyed layers)
    (ha : LayersAged layers) (hc : Coherent (recordsOf layers)) (k : κ) :
    (firstHit layers k).bind value = view (recordsOf layers) k := by
  cases h : firstHit layers k with
  | none => rw [view_of_absent (firstHit_eq_none h), Option.bind_none]
  | some r => rw [view_of_newest hc (newest_of_firstHit hk ha h), Option.bind_some]

end Layers

end Foundation
