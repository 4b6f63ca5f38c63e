import RustFundamentals.Foundation.Text

/-!
# Splitting text at a character

`split_once` splits at the first, `rsplit_once` at the last, `split` (which is `List.splitOn`) at
every one.
-/

namespace Foundation

namespace Text

/-- `str::split_once`. -/
def splitOnce (sep : Char) : Text → Option (Text × Text)
  | [] => none
  | c :: s => if c = sep then some ([], s) else (splitOnce sep s).map fun (a, b) => (c :: a, b)

/-- `str::rsplit_once`. -/
def rsplitOnce (sep : Char) (s : Text) : Option (Text × Text) :=
  (splitOnce sep s.reverse).map fun (a, b) => (b.reverse, a.reverse)

theorem splitOnce_append {sep : Char} {a : Text} (ha : sep ∉ a) (b : Text) :
    splitOnce sep (a ++ sep :: b) = some (a, b) := by
  induction a with
  | nil => exact if_pos rfl
  | cons c a ih =>
    have hc : c ≠ sep := fun h => ha (h ▸ List.mem_cons_self)
    rw [List.cons_append, splitOnce, if_neg hc, ih fun h => ha (List.mem_cons_of_mem _ h)]
    rfl

theorem splitOnce_none {sep : Char} {s : Text} (hs : sep ∉ s) : splitOnce sep s = none := by
  induction s with
  | nil => rfl
  | cons c s ih =>
    have hc : c ≠ sep := fun h => hs (h ▸ List.mem_cons_self)
    rw [splitOnce, if_neg hc, ih fun h => hs (List.mem_cons_of_mem _ h)]
    rfl

/-- Text is split at the first separator, or it has none. -/
theorem splitOnce_cases (sep : Char) (s : Text) :
    (∃ a b, s = a ++ sep :: b ∧ sep ∉ a ∧ splitOnce sep s = some (a, b)) ∨
      sep ∉ s ∧ splitOnce sep s = none := by
  by_cases hs : sep ∈ s
  · obtain ⟨a, b, rfl, ha⟩ := List.eq_append_cons_of_mem hs
    exact .inl ⟨a, b, rfl, ha, splitOnce_append ha b⟩
  · exact .inr ⟨hs, splitOnce_none hs⟩

theorem rsplitOnce_append {sep : Char} (a : Text) {b : Text} (hb : sep ∉ b) :
    rsplitOnce sep (a ++ sep :: b) = some (a, b) := by
  have hreverse : (a ++ sep :: b).reverse = b.reverse ++ sep :: a.reverse := by simp
  rw [rsplitOnce, hreverse, splitOnce_append (by simpa using hb)]
  simp

/-- Text is split at the last separator, or it has none. -/
theorem rsplitOnce_cases (sep : Char) (s : Text) :
    (∃ a b, s = a ++ sep :: b ∧ sep ∉ b ∧ rsplitOnce sep s = some (a, b)) ∨
      sep ∉ s ∧ rsplitOnce sep s = none := by
  rcases splitOnce_cases sep s.reverse with ⟨b, a, hs, hb, -⟩ | ⟨hs, hnone⟩
  · have hs' := congrArg List.reverse hs
    rw [List.reverse_reverse, List.reverse_append, List.reverse_cons, List.append_assoc,
      List.singleton_append] at hs'
    have hb' : sep ∉ b.reverse := by simpa using hb
    exact .inl ⟨a.reverse, b.reverse, hs', hb', hs' ▸ rsplitOnce_append a.reverse hb'⟩
  · refine .inr ⟨by simpa using hs, ?_⟩
    rw [rsplitOnce, hnone]
    rfl

/-- The parts have no separator, and their characters are those of the text. -/
theorem mem_splitOn {sep : Char} {s part : Text} (h : part ∈ s.splitOn sep) :
    sep ∉ part ∧ ∀ c ∈ part, c ∈ s := by
  induction s generalizing part with
  | nil =>
    rw [List.splitOn_nil, List.mem_singleton] at h
    subst h
    exact ⟨List.not_mem_nil, nofun⟩
  | cons c s ih =>
    rw [List.splitOn_cons_eq_if_modifyHead] at h
    split at h
    · rcases List.mem_cons.mp h with rfl | h
      · exact ⟨List.not_mem_nil, nofun⟩
      · exact ⟨(ih h).1, fun x hx => List.mem_cons_of_mem _ ((ih h).2 x hx)⟩
    · next hc =>
      obtain ⟨first, parts, hparts⟩ := List.exists_cons_of_ne_nil (List.splitOn_ne_nil sep s)
      rw [hparts] at h ih
      rw [List.modifyHead_cons] at h
      rcases List.mem_cons.mp h with rfl | h
      · obtain ⟨hsep, hmem⟩ := ih List.mem_cons_self
        refine ⟨?_, ?_⟩
        · intro hmem
          rcases List.mem_cons.mp hmem with rfl | hmem
          · exact hc (by simp)
          · exact hsep hmem
        · intro x hx
          rcases List.mem_cons.mp hx with rfl | hx
          · exact List.mem_cons_self
          · exact List.mem_cons_of_mem _ (hmem x hx)
      · obtain ⟨hsep, hmem⟩ := ih (List.mem_cons_of_mem _ h)
        exact ⟨hsep, fun x hx => List.mem_cons_of_mem _ (hmem x hx)⟩

end Text

end Foundation
