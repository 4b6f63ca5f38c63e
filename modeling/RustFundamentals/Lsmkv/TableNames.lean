import RustFundamentals.Lsmkv.TableLemmas

/-!
# lsmkv: the names of tables

`parse_sst_id` takes any `u64` literal in front of `.sst`, and `sst_path` prints one of them:
without a sign, padded to ten digits. The others are `Misspelt`, and they are all that the parser
takes and the store does not write (`misspelt_iff`).
-/

namespace RustFundamentals.Lsmkv

open Foundation Foundation.Fs

/-! ## What the store writes -/

theorem idText_length (id : Nat) : (idText id).length = max 10 (decimal id).length := by
  rw [idText, List.length_append, List.length_replicate]
  omega

/-- Digits are those that the store prints when there are as many of them. -/
theorem eq_idText_of_length {digits : Bytes} {id : Nat} (h : parseDigits digits = some id)
    (hlen : digits.length = (idText id).length) : digits = idText id := by
  obtain ⟨k, rfl⟩ := parseDigits_eq_some.mp h
  have hk : k = 10 - (decimal id).length := by
    rw [idText_length, List.length_append, List.length_replicate] at hlen
    omega
  rw [idText, hk]

/-- A `u64` in front of `.sst` that the store prints otherwise: with a sign, with fewer than ten
digits, or with a zero in front of ten and more. -/
inductive Misspelt : Name → Prop
  | signed {digits : Bytes} {id : Nat} (h : parseDigits digits = some id) (hid : id < 2 ^ 64) :
    Misspelt (43 :: digits ++ ascii ".sst")
  | short {digits : Bytes} {id : Nat} (h : parseDigits digits = some id) (hid : id < 2 ^ 64)
    (hlen : digits.length < 10) : Misspelt (digits ++ ascii ".sst")
  | padded {digits : Bytes} {id : Nat} (h : parseDigits digits = some id) (hid : id < 2 ^ 64)
    (hlen : 10 < digits.length) (hzero : digits.head? = some (digitByte 0)) :
    Misspelt (digits ++ ascii ".sst")

/-- A number of more than ten digits does not start with a zero. -/
theorem idText_head_ne {id : Nat} (hlen : 10 < (idText id).length) :
    (idText id).head? ≠ some (digitByte 0) := by
  rw [idText_length] at hlen
  have hpad : 10 - (decimal id).length = 0 := by omega
  have hne : id ≠ 0 := by
    rintro rfl
    exact absurd hlen (by decide)
  rw [idText, hpad, List.replicate_zero, List.nil_append]
  exact decimal_head_ne hne

theorem signed_ne_sstPath (digits : Bytes) (id : Nat) :
    43 :: digits ++ ascii ".sst" ≠ sstPath id := by
  intro h
  have htext : 43 :: digits = idText id := List.append_cancel_right h
  have hdigit := parseDigits_digit (parseDigits_padded (10 - (decimal id).length) id)
    (htext ▸ List.mem_cons_self : (43 : UInt8) ∈ idText id)
  exact absurd hdigit.1 (by decide)

/-- **The misspelt names** are those that the parser takes and the store does not write. -/
theorem misspelt_iff {name : Name} :
    Misspelt name ↔ ∃ id, parseSstId name = some id ∧ name ≠ sstPath id := by
  refine ⟨?_, ?_⟩
  · intro h
    cases h with
    | @signed digits id h hid =>
      exact ⟨id, parseSstId_eq_some.mpr ⟨hid, digits, h, .inr rfl⟩, signed_ne_sstPath digits id⟩
    | @short digits id h hid hlen =>
      refine ⟨id, parseSstId_eq_some.mpr ⟨hid, digits, h, .inl rfl⟩, fun heq => ?_⟩
      have hten : 10 ≤ (idText id).length := idText_length id ▸ le_max_left _ _
      rw [← (List.append_cancel_right heq : digits = idText id)] at hten
      omega
    | @padded digits id h hid hlen hzero =>
      refine ⟨id, parseSstId_eq_some.mpr ⟨hid, digits, h, .inl rfl⟩, fun heq => ?_⟩
      have htext : digits = idText id := List.append_cancel_right heq
      rw [htext] at hlen hzero
      exact idText_head_ne hlen hzero
  · rintro ⟨id, hparse, hne⟩
    obtain ⟨hid, digits, h, rfl | rfl⟩ := parseSstId_eq_some.mp hparse
    · have hlen : digits.length ≠ (idText id).length :=
        fun hlen => hne (by rw [eq_idText_of_length h hlen, sstPath])
      obtain ⟨k, rfl⟩ := parseDigits_eq_some.mp h
      rw [idText_length, List.length_append, List.length_replicate] at hlen
      by_cases hshort : k + (decimal id).length < 10
      · exact .short h hid (by simpa using hshort)
      · -- more zeros than it takes to have ten digits
        obtain ⟨j, rfl⟩ : ∃ j, k = j + 1 := ⟨k - 1, by omega⟩
        refine .padded h hid ?_ ?_
        · rw [List.length_append, List.length_replicate]
          omega
        · rfl
    · exact .signed h hid

instance (name : Name) : Decidable (Misspelt name) :=
  decidable_of_iff (∃ id ∈ parseSstId name, name ≠ sstPath id) misspelt_iff.symm

/-- Seven, in four ways. -/
example : Misspelt (ascii "7.sst") ∧ Misspelt (ascii "+0000000007.sst") ∧
    Misspelt (ascii "00000000007.sst") ∧ ¬ Misspelt (ascii "0000000007.sst") := by
  decide

end RustFundamentals.Lsmkv
