import Mathlib.Data.List.Basic

/-!
# Records with separators

A sequence in which some elements end a record. `records` are those that are ended, without
their separators, and `unended` is what follows the last one. A sequence is `Closed` when nothing
follows; then its records and those of what comes next can be told apart (`records_append`). A
cut that is walked forward past the next separator leaves a closed piece behind it
(`closed_take_cut`), so pieces between such cuts hold the records of the whole (`Pieces`), and tile
it (`Tiling`).
-/

namespace Foundation

namespace Lines

section Records

variable {α : Type} (sep : α → Bool)

/-- The records that are ended, and the rest. -/
def split : List α → List (List α) × List α
  | [] => ([], [])
  | a :: as =>
    if sep a then ([] :: (split as).1, (split as).2)
    else
      match (split as).1 with
      | [] => ([], a :: (split as).2)
      | r :: rs => ((a :: r) :: rs, (split as).2)

/-- The records that are ended by a separator. -/
def records (as : List α) : List (List α) := (split sep as).1

/-- What follows the last separator. -/
def unended (as : List α) : List α := (split sep as).2

/-- Nothing follows the last separator. -/
def Closed (as : List α) : Prop := as = [] ∨ ∃ before a, as = before ++ [a] ∧ sep a = true

variable {sep}

@[simp] theorem records_nil : records sep [] = [] := rfl

@[simp] theorem unended_nil : unended sep [] = [] := rfl

theorem split_sep {a : α} (ha : sep a = true) (as : List α) :
    split sep (a :: as) = ([] :: records sep as, unended sep as) := if_pos ha

/-- A sequence without separators is not ended. -/
theorem split_of_not_sep {as : List α} (h : ∀ a ∈ as, sep a = false) :
    split sep as = ([], as) := by
  induction as with
  | nil => rfl
  | cons a as ih =>
    have htail := ih fun x hx => h x (List.mem_cons_of_mem _ hx)
    rw [split, if_neg (by simp [h a List.mem_cons_self]), htail]

theorem split_record {as : List α} {a : α} (h : ∀ a ∈ as, sep a = false) (ha : sep a = true)
    (bs : List α) : split sep (as ++ a :: bs) = (as :: records sep bs, unended sep bs) := by
  induction as with
  | nil => exact split_sep ha bs
  | cons x as ih =>
    have htail := ih fun y hy => h y (List.mem_cons_of_mem _ hy)
    rw [List.cons_append, split, if_neg (by simp [h x List.mem_cons_self]), htail]

/-- A sequence is a record and more, or it is not ended. -/
theorem record_or_unended (sep : α → Bool) (as : List α) :
    (∃ r a bs, as = r ++ a :: bs ∧ (∀ x ∈ r, sep x = false) ∧ sep a = true) ∨
      ∀ x ∈ as, sep x = false := by
  induction as with
  | nil => exact .inr nofun
  | cons x as ih =>
    cases hx : sep x with
    | true => exact .inl ⟨[], x, as, rfl, nofun, hx⟩
    | false =>
      rcases ih with ⟨r, a, bs, rfl, hr, ha⟩ | hall
      · refine .inl ⟨x :: r, a, bs, rfl, ?_, ha⟩
        intro y hy
        rcases List.mem_cons.mp hy with rfl | hy
        · exact hx
        · exact hr y hy
      · refine .inr fun y hy => ?_
        rcases List.mem_cons.mp hy with rfl | hy
        · exact hx
        · exact hall y hy

/-- **Induction over the records** of a sequence. -/
theorem induction (sep : α → Bool) {P : List α → Prop}
    (unended : ∀ as, (∀ a ∈ as, sep a = false) → P as)
    (record : ∀ r a as, (∀ x ∈ r, sep x = false) → sep a = true → P as → P (r ++ a :: as))
    (as : List α) : P as := by
  induction hn : as.length using Nat.strongRecOn generalizing as with
  | ind n ih =>
    rcases record_or_unended sep as with ⟨r, a, bs, rfl, hr, ha⟩ | hall
    · refine record r a bs hr ha (ih bs.length ?_ bs rfl)
      rw [← hn, List.length_append, List.length_cons]
      omega
    · exact unended as hall

theorem length_records_le (as : List α) : (records sep as).length ≤ as.length := by
  induction as using induction sep with
  | unended as hall =>
    rw [records, split_of_not_sep hall]
    exact Nat.zero_le _
  | record r a as hr ha ih =>
    rw [records, split_record hr ha, List.length_cons, List.length_append, List.length_cons]
    omega

theorem split_append {as : List α} (h : Closed sep as) (bs : List α) :
    split sep (as ++ bs) = (records sep as ++ records sep bs, unended sep bs) := by
  induction as using induction sep with
  | unended as hall =>
    rcases h with rfl | ⟨before, a, rfl, ha⟩
    · rfl
    · rw [hall a (by simp)] at ha
      cases ha
  | record r a as hr ha ih =>
    have hclosed : Closed sep as := by
      rcases List.eq_nil_or_concat as with rfl | ⟨before, x, rfl⟩
      · exact .inl rfl
      · rcases h with hnil | ⟨before', a', heq, ha'⟩
        · simp at hnil
        · refine .inr ⟨before, x, List.concat_eq_append, ?_⟩
          rw [List.concat_eq_append, ← List.cons_append, ← List.append_assoc] at heq
          obtain ⟨-, hx⟩ := List.append_inj' heq rfl
          rw [List.singleton_inj.mp hx]
          exact ha'
    rw [List.append_assoc, List.cons_append, split_record hr ha, records, records, unended,
      ih hclosed, split_record hr ha]
    rfl

theorem records_append {as : List α} (h : Closed sep as) (bs : List α) :
    records sep (as ++ bs) = records sep as ++ records sep bs := by
  rw [records, split_append h]

theorem unended_append {as : List α} (h : Closed sep as) (bs : List α) :
    unended sep (as ++ bs) = unended sep bs := by
  rw [unended, split_append h]

theorem closed_snoc {as : List α} {a : α} (ha : sep a = true) : Closed sep (as ++ [a]) :=
  .inr ⟨as, a, rfl, ha⟩

/-- What is closed leaves nothing unended. -/
theorem unended_eq_nil_iff {as : List α} : unended sep as = [] ↔ Closed sep as := by
  refine ⟨?_, ?_⟩
  · intro h
    induction as using induction sep with
    | unended as hall =>
      rw [unended, split_of_not_sep hall] at h
      exact .inl h
    | record r a as hr ha ih =>
      rw [unended, split_record hr ha] at h
      rcases ih h with rfl | ⟨before, b, rfl, hb⟩
      · exact closed_snoc ha
      · exact .inr ⟨r ++ a :: before, b, by simp, hb⟩
  · intro h
    have hnil := unended_append h []
    rwa [List.append_nil] at hnil

theorem Closed.drop {as : List α} (h : Closed sep as) (n : Nat) : Closed sep (as.drop n) := by
  rcases h with rfl | ⟨before, a, rfl, ha⟩
  · exact .inl List.drop_nil
  · by_cases hn : n ≤ before.length
    · rw [List.drop_append_of_le_length hn]
      exact closed_snoc ha
    · refine .inl (List.drop_eq_nil_of_le ?_)
      rw [List.length_append, List.length_singleton]
      omega

end Records

/-! ## Cuts -/

section Cuts

variable {α : Type} (sep : α → Bool)

/-- The index past the next separator, counting from `i`, or the end. -/
def walk : List α → Nat → Nat
  | [], i => i
  | a :: as, i => if sep a then i + 1 else walk as (i + 1)

/-- A cut at `i`, walked forward past the next separator. -/
def cut (as : List α) (i : Nat) : Nat := walk sep (as.drop i) i

variable {sep}

theorem walk_of_not_sep {as : List α} (h : ∀ a ∈ as, sep a = false) (i : Nat) :
    walk sep as i = i + as.length := by
  induction as generalizing i with
  | nil => rfl
  | cons a as ih =>
    rw [walk, if_neg (by simp [h a List.mem_cons_self]),
      ih (fun x hx => h x (List.mem_cons_of_mem _ hx)), List.length_cons]
    omega

theorem walk_record {as : List α} {a : α} (h : ∀ a ∈ as, sep a = false) (ha : sep a = true)
    (bs : List α) (i : Nat) : walk sep (as ++ a :: bs) i = i + as.length + 1 := by
  induction as generalizing i with
  | nil => exact if_pos ha
  | cons x as ih =>
    rw [List.cons_append, walk, if_neg (by simp [h x List.mem_cons_self]),
      ih (fun y hy => h y (List.mem_cons_of_mem _ hy)), List.length_cons]
    omega

/-- A cut goes past a separator, or to the end. -/
theorem cut_cases (sep : α → Bool) {as : List α} {i : Nat} (hi : i ≤ as.length) :
    (∃ r a bs, as.drop i = r ++ a :: bs ∧ (∀ x ∈ r, sep x = false) ∧ sep a = true ∧
      cut sep as i = i + r.length + 1) ∨
    ((∀ x ∈ as.drop i, sep x = false) ∧ cut sep as i = as.length) := by
  rcases record_or_unended sep (as.drop i) with ⟨r, a, bs, hdrop, hr, ha⟩ | hall
  · refine .inl ⟨r, a, bs, hdrop, hr, ha, ?_⟩
    rw [cut, hdrop, walk_record hr ha]
  · refine .inr ⟨hall, ?_⟩
    rw [cut, walk_of_not_sep hall, List.length_drop]
    omega

theorem le_cut {as : List α} {i : Nat} (hi : i ≤ as.length) : i ≤ cut sep as i := by
  rcases cut_cases sep hi with ⟨r, a, bs, -, -, -, hcut⟩ | ⟨-, hcut⟩ <;> omega

/-- A cut in front of the end moves. -/
theorem lt_cut {as : List α} {i : Nat} (hi : i < as.length) : i < cut sep as i := by
  rcases cut_cases sep (Nat.le_of_lt hi) with ⟨r, a, bs, -, -, -, hcut⟩ | ⟨-, hcut⟩ <;> omega

theorem cut_le {as : List α} {i : Nat} (hi : i ≤ as.length) : cut sep as i ≤ as.length := by
  rcases cut_cases sep hi with ⟨r, a, bs, hdrop, -, -, hcut⟩ | ⟨-, hcut⟩
  · have hlen := congrArg List.length hdrop
    rw [List.length_drop, List.length_append, List.length_cons] at hlen
    omega
  · omega

/-- **What a cut leaves behind is closed**, unless it is all there is. -/
theorem closed_take_cut {as : List α} {i : Nat} (hi : i ≤ as.length)
    (hcut : cut sep as i ≠ as.length) : Closed sep (as.take (cut sep as i)) := by
  rcases cut_cases sep hi with ⟨r, a, bs, hdrop, -, ha, heq⟩ | ⟨-, heq⟩
  · have hsplit : as = (as.take i ++ r ++ [a]) ++ bs := by
      conv_lhs => rw [← List.take_append_drop i as, hdrop]
      simp
    have hlen : cut sep as i = (as.take i ++ r ++ [a]).length := by
      rw [heq, List.length_append, List.length_append, List.length_take, List.length_singleton]
      omega
    have htake := congrArg (List.take (cut sep as i)) hsplit
    rw [hlen, List.take_left] at htake
    rw [hlen, htake]
    exact closed_snoc ha
  · exact absurd heq hcut

theorem cut_mono {as : List α} {i j : Nat} (hij : i ≤ j) (hj : j ≤ as.length) :
    cut sep as i ≤ cut sep as j := by
  obtain ⟨d, rfl⟩ := Nat.exists_eq_add_of_le hij
  have hdrop : as.drop (i + d) = (as.drop i).drop d := List.drop_drop.symm
  rcases cut_cases sep (Nat.le_trans hij hj) with ⟨r, a, bs, hr, hnone, ha, hcut⟩ | ⟨hnone, hcut⟩
  · by_cases hd : d ≤ r.length
    · rw [hr, List.drop_append_of_le_length hd] at hdrop
      have hnone' : ∀ x ∈ r.drop d, sep x = false := fun x hx => hnone x (List.mem_of_mem_drop hx)
      have hcut' : cut sep as (i + d) = i + d + (r.drop d).length + 1 := by
        rw [cut, hdrop, walk_record hnone' ha]
      rw [List.length_drop] at hcut'
      omega
    · have := @le_cut _ sep _ _ hj
      omega
  · have hnone' : ∀ x ∈ (as.drop i).drop d, sep x = false :=
      fun x hx => hnone x (List.mem_of_mem_drop hx)
    have hcut' : cut sep as (i + d) = as.length := by
      rw [cut, hdrop, walk_of_not_sep hnone', List.length_drop, List.length_drop]
      omega
    omega

end Cuts

/-! ## Pieces -/

section Pieces

variable {α : Type} {sep : α → Bool}

/-- All the pieces but the last are closed. -/
inductive Pieces (sep : α → Bool) : List (List α) → Prop
  | nil : Pieces sep []
  | last (p : List α) : Pieces sep [p]
  | cons {p : List α} {ps : List (List α)} : Closed sep p → Pieces sep ps → Pieces sep (p :: ps)

/-- **The pieces hold the records of the whole.** -/
theorem Pieces.records_flatten {ps : List (List α)} (h : Pieces sep ps) :
    records sep ps.flatten = (ps.map (records sep)).flatten := by
  induction h with
  | nil => rfl
  | last p => simp
  | cons hp _ ih => rw [List.flatten_cons, records_append hp, ih, List.map_cons, List.flatten_cons]

/-- The pieces tile the sequence on its separators: none is empty, and each but the last ends with
a separator. -/
structure Tiling (sep : α → Bool) (as : List α) (ps : List (List α)) : Prop where
  flatten_eq : ps.flatten = as
  nonempty : ∀ p ∈ ps, p ≠ []
  ended : ∀ p ∈ ps.dropLast, ∃ a, p.getLast? = some a ∧ sep a = true

theorem Pieces.closed {ps : List (List α)} (h : Pieces sep ps) :
    ∀ p ∈ ps.dropLast, Closed sep p := by
  induction h with
  | nil => exact nofun
  | last p => exact nofun
  | @cons p ps hp _ ih =>
    intro q hq
    cases ps with
    | nil => cases hq
    | cons p' ps =>
      rcases List.mem_cons.mp hq with rfl | hq
      · exact hp
      · exact ih q hq

/-- Pieces tile their whole, when none is empty. -/
theorem Pieces.tiling {ps : List (List α)} (h : Pieces sep ps) (hne : ∀ p ∈ ps, p ≠ []) :
    Tiling sep ps.flatten ps where
  flatten_eq := rfl
  nonempty := hne
  ended := by
    intro p hp
    rcases h.closed p hp with hnil | ⟨before, a, rfl, ha⟩
    · exact absurd hnil (hne p ((List.dropLast_sublist ps).subset hp))
    · exact ⟨a, List.getLast?_concat, ha⟩

/-- A piece between two cuts, and what is behind it. -/
theorem drop_take_append (as : List α) {i j : Nat} (h : i ≤ j) :
    (as.take j).drop i ++ as.drop j = as.drop i := by
  obtain ⟨d, rfl⟩ := Nat.exists_eq_add_of_le h
  rw [List.drop_take, Nat.add_sub_cancel_left, ← List.drop_drop, List.take_append_drop]

end Pieces

end Lines

end Foundation
