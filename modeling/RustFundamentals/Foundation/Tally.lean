import RustFundamentals.Foundation.Expiry

/-!
# Tallies

A hash map that groups rows by key and folds each group into an accumulator: row by row, with
`entry(key).or_insert(init)`, or by merging the map of other rows into it, entry by entry. Either
way it `Tallies` its rows, so that where the accumulators do not depend on the order of a group,
two maps of the same rows have the same entries.
-/

namespace Foundation

namespace HashMap

section Entries

variable {κ α : Type} [DecidableEq κ]

/-- `*m.entry(k).or_insert(init) = f(…)`. -/
def entry (m : HashMap κ α) (k : κ) (init : α) (f : α → α) : HashMap κ α :=
  m.insert k (f ((m.lookup k).getD init))

/-- The entries of `other`, each combined into that of its key. -/
def mergeWith (f : α → α → α) (init : α) (m other : HashMap κ α) : HashMap κ α :=
  other.entries.foldl (fun m e => m.entry e.1 init fun a => f a e.2) m

theorem lookup_entry (m : HashMap κ α) (k : κ) (init : α) (f : α → α) (x : κ) :
    (m.entry k init f).lookup x =
      if x = k then some (f ((m.lookup k).getD init)) else m.lookup x := by
  unfold entry
  split
  · next h =>
    subst h
    exact AList.lookup_insert m
  · next h => exact AList.lookup_insert_ne h

/-- One entry of a key is combined, at most. -/
theorem lookup_mergeWith (f : α → α → α) (init : α) (m other : HashMap κ α) (x : κ) :
    (m.mergeWith f init other).lookup x =
      (other.lookup x).elim (m.lookup x) fun b => some (f ((m.lookup x).getD init) b) := by
  obtain ⟨es, hnodup⟩ := other
  show (es.foldl _ m).lookup x =
    (es.dlookup x).elim (m.lookup x) fun b => some (f ((m.lookup x).getD init) b)
  induction es generalizing m with
  | nil => rfl
  | cons e es ih =>
    obtain ⟨k, b⟩ := e
    rw [List.nodupKeys_cons] at hnodup
    rw [List.foldl_cons, ih _ hnodup.2, lookup_entry]
    by_cases h : x = k
    · subst h
      rw [List.dlookup_eq_none.mpr hnodup.1, List.dlookup_cons_eq, if_pos rfl, Option.elim_none,
        Option.elim_some]
    · rw [List.dlookup_cons_ne _ _ h, if_neg h]

/-- Maps with the same lookups have the same entries. -/
theorem perm_entries {m m' : HashMap κ α} (h : ∀ k, m.lookup k = m'.lookup k) :
    m.entries.Perm m'.entries := by
  apply List.lookup_ext m.nodupKeys m'.nodupKeys
  intro k a
  show a ∈ m.lookup k ↔ a ∈ m'.lookup k
  rw [h k]

end Entries

/-! ## Rows by key -/

section Tallies

variable {κ α β : Type} [DecidableEq κ]

/-- The rows of a key. -/
def group (k : κ) (rows : List (κ × β)) : List β := (rows.filter fun row => row.1 = k).map Prod.snd

/-- The map has, for every key with rows, the fold of them. -/
def Tallies (step : α → β → α) (init : α) (m : HashMap κ α) (rows : List (κ × β)) : Prop :=
  ∀ k, m.lookup k = if group k rows = [] then none else some ((group k rows).foldl step init)

variable {step : α → β → α} {init : α} {m m' : HashMap κ α} {rows rows' : List (κ × β)}

theorem group_append (k : κ) (rows rows' : List (κ × β)) :
    group k (rows ++ rows') = group k rows ++ group k rows' := by
  rw [group, List.filter_append, List.map_append, group, group]

theorem group_singleton (k : κ) (row : κ × β) :
    group k [row] = if row.1 = k then [row.2] else [] := by
  unfold group
  by_cases h : row.1 = k <;> simp [h]

theorem group_map {γ : Type} (f : β → γ) (k : κ) (rows : List (κ × β)) :
    group k (rows.map fun row => (row.1, f row.2)) = (group k rows).map f := by
  rw [group, List.filter_map, List.map_map, group, List.map_map]
  rfl

theorem Tallies.empty : Tallies step init (∅ : HashMap κ α) [] := fun _ => rfl

/-- The accumulator of a key, as `or_insert` finds it. -/
theorem Tallies.getD (h : Tallies step init m rows) (k : κ) :
    (m.lookup k).getD init = (group k rows).foldl step init := by
  rw [h k]
  split
  · next hnil => rw [hnil]; rfl
  · rfl

theorem Tallies.entry (h : Tallies step init m rows) (k : κ) (b : β) :
    Tallies step init (m.entry k init fun a => step a b) (rows ++ [(k, b)]) := by
  intro x
  rw [lookup_entry, group_append, group_singleton, h.getD]
  by_cases hx : x = k
  · subst hx
    rw [if_pos rfl, if_pos rfl, if_neg (by simp), List.foldl_append]
    rfl
  · rw [if_neg hx, if_neg (Ne.symm hx), List.append_nil, h x]

/-- **Merging joins the rows**, when combining accumulators does. -/
theorem Tallies.merge {f : α → α → α}
    (hf : ∀ bs bs' : List β,
      f (bs.foldl step init) (bs'.foldl step init) = (bs ++ bs').foldl step init)
    (h : Tallies step init m rows) (h' : Tallies step init m' rows') :
    Tallies step init (m.mergeWith f init m') (rows ++ rows') := by
  intro x
  rw [lookup_mergeWith, h' x, group_append]
  by_cases hnil : group x rows' = []
  · rw [if_pos hnil, hnil, List.append_nil]
    exact h x
  · rw [if_neg hnil, if_neg (by simp [hnil])]
    show some (f ((m.lookup x).getD init) _) = _
    rw [h.getD, hf]

theorem Tallies.lookup_eq (h : Tallies step init m rows) (h' : Tallies step init m' rows) (k : κ) :
    m.lookup k = m'.lookup k := by
  rw [h k, h' k]

/-- The rows of all the keys are all the rows. -/
theorem sum_group_length {keys : List κ} (hnodup : keys.Nodup)
    (hkeys : ∀ row ∈ rows, row.1 ∈ keys) :
    (keys.map fun k => (group k rows).length).sum = rows.length := by
  induction rows with
  | nil =>
    have hzero : ∀ n ∈ keys.map fun k => (group k ([] : List (κ × β))).length, n = 0 := by
      intro n hn
      obtain ⟨k, -, rfl⟩ := List.mem_map.mp hn
      rfl
    exact List.sum_eq_zero hzero
  | cons row rows ih =>
    have hgroup : ∀ k, (group k (row :: rows)).length =
        (if k = row.1 then 1 else 0) + (group k rows).length := by
      intro k
      rw [← List.singleton_append, group_append, group_singleton, List.length_append]
      by_cases h : k = row.1
      · rw [if_pos h, if_pos h.symm, List.length_singleton]
      · rw [if_neg h, if_neg (Ne.symm h), List.length_nil]
    have hone : (keys.map fun k => if k = row.1 then 1 else 0).sum = 1 := by
      rw [List.sum_map_eq_nsmul_single row.1 _ fun k hk _ => if_neg hk, if_pos rfl,
        List.count_eq_one_of_mem hnodup (hkeys row List.mem_cons_self), one_nsmul]
    simp only [hgroup]
    rw [List.sum_map_add, hone, ih fun r hr => hkeys r (List.mem_cons_of_mem _ hr),
      List.length_cons, Nat.add_comm]

/-- The rows may come in any order when the accumulators do not see it. -/
theorem Tallies.perm [RightCommutative step] (h : Tallies step init m rows)
    (hrows : rows.Perm rows') : Tallies step init m rows' := by
  intro k
  have hgroup : (group k rows).Perm (group k rows') := (hrows.filter _).map _
  rw [h k, hgroup.foldl_eq]
  have hnil : group k rows = [] ↔ group k rows' = [] := by
    rw [← List.length_eq_zero_iff, ← List.length_eq_zero_iff, hgroup.length_eq]
  rw [if_congr hnil rfl rfl]

end Tallies

end HashMap

/-- Sorting does not see the order, when the comparison is a total order. -/
theorem mergeSort_eq_of_perm {α : Type} {le : α → α → Bool}
    (htrans : ∀ a b c, le a b = true → le b c = true → le a c = true)
    (htotal : ∀ a b, (le a b || le b a) = true)
    (hantisymm : ∀ a b, le a b = true → le b a = true → a = b) {l l' : List α} (h : l.Perm l') :
    l.mergeSort le = l'.mergeSort le := by
  have hperm : (l.mergeSort le).Perm (l'.mergeSort le) :=
    (List.mergeSort_perm l le).trans (h.trans (List.mergeSort_perm l' le).symm)
  exact hperm.eq_of_pairwise (fun a b _ _ => hantisymm a b)
    (List.pairwise_mergeSort htrans htotal l) (List.pairwise_mergeSort htrans htotal l')

end Foundation
