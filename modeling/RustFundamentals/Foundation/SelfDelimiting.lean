import RustFundamentals.Foundation.Loop
import Mathlib.Data.List.Basic

/-!
# Self-delimiting codes

A decoder reads one value from the front of a list and says how much it took. It is
self-delimiting when it takes something, no more than is there, and looks at nothing behind
what it takes. `walk` reads one value after the other until a read fails. On a list of whole
codes the walk returns what they stand for (`walk_codes`), and on a cut of such a list the
longest part of it that the cut has left whole (`walk_take`).
-/

namespace Foundation

variable {α β : Type}

/-- One value from the front of a list, with the number of elements it took. -/
abbrev Decoder (α β : Type) := List α → Option (β × Nat)

/-- The decoder finds out by itself where a value ends. -/
structure SelfDelimiting (dec : Decoder α β) : Prop where
  takes : ∀ {b v n}, dec b = some (v, n) → 0 < n
  within : ∀ {b v n}, dec b = some (v, n) → n ≤ b.length
  stable : ∀ {b v n}, dec b = some (v, n) → ∀ t, dec (b.take n ++ t) = some (v, n)

namespace SelfDelimiting

variable {dec : Decoder α β}

/-- What is behind a value does not matter. -/
theorem append (h : SelfDelimiting dec) {b : List α} {v : β} {n : Nat}
    (hb : dec b = some (v, n)) (t : List α) : dec (b ++ t) = some (v, n) := by
  have hcut : b ++ t = b.take n ++ (b.drop n ++ t) := by
    rw [← List.append_assoc, List.take_append_drop]
  rw [hcut]
  exact h.stable hb _

/-- **Nothing less than a whole code decodes.** -/
theorem proper_prefix (h : SelfDelimiting dec) {c : List α} {v : β}
    (hc : dec c = some (v, c.length)) {n : Nat} (hn : n < c.length) : dec (c.take n) = none := by
  cases hcut : dec (c.take n) with
  | none => rfl
  | some r =>
    obtain ⟨w, m⟩ := r
    have hm : m ≤ n := by
      have := h.within hcut
      rw [List.length_take] at this
      omega
    have hwhole := h.append hcut (c.drop n)
    rw [List.take_append_drop, hc] at hwhole
    obtain ⟨-, hlen⟩ := Prod.mk.inj (Option.some.inj hwhole)
    omega

end SelfDelimiting

/-! ## Walking a list of codes -/

/-- `walk` for a bounded number of values. -/
def walkLoop (dec : Decoder α β) : Nat → List α → List β
  | 0, _ => []
  | fuel + 1, b =>
    match dec b with
    | none => []
    | some (v, n) => v :: walkLoop dec fuel (b.drop n)

/-- One value after the other, until a read fails. -/
def walk (dec : Decoder α β) (b : List α) : List β := walkLoop dec b.length b

/-- `p` is the longest prefix of `xs` with the property `P`. -/
structure LongestPrefix (P : List β → Prop) (p xs : List β) : Prop where
  prefixes : p <+: xs
  holds : P p
  longest : ∀ q, q <+: xs → P q → q <+: p

section Walk

variable {dec : Decoder α β} (h : SelfDelimiting dec)

include h

/-- More rounds than elements change nothing. -/
theorem walkLoop_eq {fuel : Nat} {b : List α} (hb : b.length ≤ fuel) :
    walkLoop dec fuel b = walk dec b := by
  refine fuel_irrelevant _ List.length ?_ ?_ hb (Nat.le_refl _)
  · -- nothing decodes from an empty list
    have hnil : dec [] = none := by
      cases hd : dec [] with
      | none => rfl
      | some r =>
        have htakes := h.takes (v := r.1) (n := r.2) hd
        have hwithin := h.within (v := r.1) (n := r.2) hd
        rw [List.length_nil] at hwithin
        omega
    have hstop : ∀ fuel, walkLoop dec fuel [] = [] := by
      intro fuel
      cases fuel with
      | zero => rfl
      | succ fuel => rw [walkLoop, hnil]
    intro m n b hempty
    rw [List.length_eq_zero_iff.mp hempty, hstop, hstop]
  · intro m n b hrest _
    rw [walkLoop, walkLoop]
    cases hd : dec b with
    | none => rfl
    | some r =>
      obtain ⟨v, k⟩ := r
      have hk := h.takes hd
      have hle := h.within hd
      have hshort : (b.drop k).length < b.length := by
        rw [List.length_drop]
        omega
      simp only [hrest _ hshort]

theorem walk_of_some {b : List α} {v : β} {n : Nat} (hb : dec b = some (v, n)) :
    walk dec b = v :: walk dec (b.drop n) := by
  have hn := h.takes hb
  have hle := h.within hb
  obtain ⟨fuel, hfuel⟩ : ∃ fuel, b.length = fuel + 1 := ⟨b.length - 1, by omega⟩
  have hdrop : (b.drop n).length ≤ fuel := by rw [List.length_drop]; omega
  rw [walk, hfuel, walkLoop, hb]
  simp only [walkLoop_eq h hdrop]

omit h in
theorem walk_of_none {b : List α} (hb : dec b = none) : walk dec b = [] := by
  cases b with
  | nil => rfl
  | cons a b => rw [walk, List.length_cons, walkLoop, hb]

variable {code : β → List α} {vs : List β}
  (hcode : ∀ v ∈ vs, ∀ t, dec (code v ++ t) = some (v, (code v).length))

include hcode

/-- **Whole codes in front of anything** are read one after the other. -/
theorem walk_codes (t : List α) : walk dec ((vs.map code).flatten ++ t) = vs ++ walk dec t := by
  induction vs with
  | nil => rfl
  | cons v vs ih =>
    have hv := hcode v (by simp) ((vs.map code).flatten ++ t)
    rw [List.map_cons, List.flatten_cons, List.append_assoc, walk_of_some h hv, List.drop_left,
      ih fun w hw => hcode w (by simp [hw]), List.cons_append]

/-- **A cut** leaves the codes that are whole in front of it. -/
theorem walk_take (n : Nat) :
    LongestPrefix (fun p => (p.map code).flatten.length ≤ n)
      (walk dec ((vs.map code).flatten.take n)) vs := by
  induction vs generalizing n with
  | nil =>
    rw [List.map_nil, List.flatten_nil, List.take_nil]
    exact ⟨List.nil_prefix, Nat.zero_le n, fun q hq _ => hq⟩
  | cons v vs ih =>
    have hv := hcode v (by simp)
    have hlen : ∀ p : List β, ((v :: p).map code).flatten.length =
        (code v).length + (p.map code).flatten.length := by simp
    rw [List.map_cons, List.flatten_cons, List.take_append]
    by_cases hn : n < (code v).length
    · -- the first code is cut: nothing is read, and no other prefix fits
      have hself : dec (code v) = some (v, (code v).length) := by simpa using hv []
      have hrest : n - (code v).length = 0 := by omega
      rw [hrest, List.take_zero, List.append_nil, walk_of_none (h.proper_prefix hself hn)]
      refine ⟨List.nil_prefix, Nat.zero_le n, fun q hq hfits => ?_⟩
      cases q with
      | nil => exact List.nil_prefix
      | cons w q =>
        obtain ⟨rfl, -⟩ := List.cons_prefix_cons.mp hq
        have hw := hlen q
        omega
    · have hsome := hv (((vs.map code).flatten).take (n - (code v).length))
      obtain ⟨hpre, hfits, hlong⟩ := ih (fun w hw => hcode w (by simp [hw])) (n - (code v).length)
      rw [List.take_of_length_le (by omega), walk_of_some h hsome, List.drop_left]
      refine ⟨List.cons_prefix_cons.mpr ⟨rfl, hpre⟩, ?_, fun q hq hq' => ?_⟩
      · show ((v :: _).map code).flatten.length ≤ n
        rw [hlen]
        omega
      · cases q with
        | nil => exact List.nil_prefix
        | cons w q =>
          obtain ⟨rfl, htail⟩ := List.cons_prefix_cons.mp hq
          have hw := hlen q
          exact List.cons_prefix_cons.mpr ⟨rfl, hlong q htail (by omega)⟩

end Walk

end Foundation
