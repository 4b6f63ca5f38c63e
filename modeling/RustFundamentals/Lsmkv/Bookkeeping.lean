import Mathlib.Data.List.DropRight
import RustFundamentals.Foundation.Totals
import RustFundamentals.Lsmkv.MemTable

/-!
# lsmkv: the bookkeeping of the memtable

What the memtable holds after any inserts and clears: for each key the record that was inserted
last since the last clear, and the sum of their sizes (`memtable_bookkeeping`). The size is kept
by a subtraction and an addition, in that order. The entry that is overwritten is part of the
sum, so neither wraps as long as the new sum fits (`insertUsize_eq`).
-/

namespace RustFundamentals.Lsmkv

open Foundation

/-! ## Inserts and clears -/

/-- A call that changes a memtable. -/
inductive MemOp
  | insert (record : Record)
  | clear
  deriving DecidableEq, Repr

/-- The record that is inserted, if one is. -/
def MemOp.record? : MemOp → Option Record
  | .insert record => some record
  | .clear => none

def MemOp.isInsert (op : MemOp) : Bool := op.record?.isSome

/-- The records inserted since the last clear. -/
def sinceClear (ops : List MemOp) : List Record :=
  (ops.rtakeWhile MemOp.isInsert).filterMap MemOp.record?

@[simp] theorem sinceClear_nil : sinceClear [] = [] := rfl

@[simp] theorem sinceClear_insert (ops : List MemOp) (r : Record) :
    sinceClear (ops ++ [.insert r]) = sinceClear ops ++ [r] := by
  have hinsert : (MemOp.insert r).isInsert = true := rfl
  rw [sinceClear, List.rtakeWhile_concat_pos _ _ _ hinsert, List.filterMap_append]
  rfl

@[simp] theorem sinceClear_clear (ops : List MemOp) : sinceClear (ops ++ [.clear]) = [] := by
  have hclear : ¬ MemOp.clear.isInsert = true := nofun
  rw [sinceClear, List.rtakeWhile_concat_neg _ _ _ hclear]
  rfl

/-- The last of the records that is filed under the key. -/
def lastOf (key : Bytes) (records : List Record) : Option Record :=
  (records.filter (·.key == key)).getLast?

theorem lastOf_concat (key : Bytes) (records : List Record) (r : Record) :
    lastOf key (records ++ [r]) = if r.key = key then some r else lastOf key records := by
  unfold lastOf
  by_cases h : r.key = key
  · rw [if_pos h, List.filter_append, List.filter_cons_of_pos (by simpa using h),
      List.filter_nil, List.getLast?_concat]
  · rw [if_neg h, List.filter_append, List.filter_cons_of_neg (by simpa using h),
      List.filter_nil, List.append_nil]

namespace MemTable

/-- One call. -/
def apply (m : MemTable) : MemOp → MemTable
  | .insert record => m.insert record
  | .clear => m.clear

/-- A new memtable after the calls. -/
def after (ops : List MemOp) : MemTable := ops.foldl apply new

theorem after_concat (ops : List MemOp) (op : MemOp) :
    after (ops ++ [op]) = (after ops).apply op := List.foldl_concat apply new op ops

/-! ## The sizes -/

/-- The sum of the sizes of the records held. -/
def bytesHeld (m : MemTable) : Nat := (m.records.map entrySize).sum

theorem bytesHeld_eq_total (m : MemTable) : m.bytesHeld = total entrySize m.map := rfl

/-- `MemTable::insert` on `usize`: a subtraction for the entry that is overwritten, then an
addition. -/
def insertUsize (ov : Overflow) (m : MemTable) (record : Record) : Option MemTable := do
  let newSize := entrySize record
  let rest ← match m.map[record.key]? with
    | some old => ov.sub 64 m.approxBytes (entrySize old)
    | none => some m.approxBytes
  let bytes ← ov.fit 64 (rest + newSize)
  return ⟨m.map.insert record.key record, bytes⟩

theorem insert_approxBytes (m : MemTable) (r : Record) :
    (m.insert r).approxBytes =
      m.approxBytes - (m.map[r.key]?).elim 0 entrySize + entrySize r := by
  unfold insert
  cases m.map[r.key]? <;> rfl

/-- The estimate is exact. -/
def Counted (m : MemTable) : Prop := m.approxBytes = m.bytesHeld

/-- An entry that is there is part of the estimate. -/
theorem Counted.entrySize_le {m : MemTable} (h : m.Counted) {key : Bytes} {old : Record}
    (hold : m.get key = some old) : entrySize old ≤ m.approxBytes := by
  rw [h, bytesHeld_eq_total]
  exact size_le_total entrySize hold

theorem Counted.empty : Counted ⟨∅, 0⟩ := rfl

theorem Counted.insert {m : MemTable} (h : m.Counted) (r : Record) : (m.insert r).Counted := by
  rw [Counted, bytesHeld_eq_total, insert_map, total_insert, insert_approxBytes, h,
    bytesHeld_eq_total]

/-- **The machine's insert is exact** where the sum of what is held then fits. -/
theorem insertUsize_eq (ov : Overflow) {m : MemTable} (h : m.Counted) {r : Record}
    (hfits : (m.insert r).bytesHeld < 2 ^ 64) : m.insertUsize ov r = some (m.insert r) := by
  rw [← h.insert r, insert_approxBytes] at hfits
  unfold insertUsize insert
  cases hold : m.map[r.key]? with
  | none =>
    rw [hold] at hfits
    have hsum := ov.fit_of_lt hfits
    simp only [Option.elim_none, Nat.sub_zero] at hsum
    simp [hsum]
  | some old =>
    rw [hold] at hfits
    have hpart : entrySize old ≤ m.approxBytes := h.entrySize_le hold
    have hsum := ov.fit_of_lt hfits
    simp only [Option.elim_some] at hsum
    simp [ov.sub_of_le 64 hpart, hsum]

/-! ## What is held -/

/-- What a memtable is after the calls. -/
structure Books (ops : List MemOp) (m : MemTable) : Prop where
  keyed : Keyed m.map
  get_eq : ∀ key, m.get key = lastOf key (sinceClear ops)
  counted : m.Counted

theorem Books.new : Books [] MemTable.new where
  keyed := Keyed.empty
  get_eq := fun key => get_new key
  counted := Counted.empty

theorem Books.apply {ops : List MemOp} {m : MemTable} (h : Books ops m) (op : MemOp) :
    Books (ops ++ [op]) (m.apply op) := by
  cases op with
  | insert r =>
    refine ⟨?_, ?_, h.counted.insert r⟩
    · rw [MemTable.apply, insert_map]
      exact h.keyed.insert r
    · intro key
      rw [MemTable.apply, get_insert, sinceClear_insert, lastOf_concat, h.get_eq]
  | clear =>
    refine ⟨Keyed.empty, ?_, Counted.empty⟩
    intro key
    rw [sinceClear_clear]
    exact get_clear m key

theorem books_after (ops : List MemOp) : Books ops (after ops) := by
  induction ops using List.reverseRecOn with
  | nil => exact Books.new
  | append_singleton ops op ih =>
    rw [after_concat]
    exact ih.apply op

/-- **The books balance after any inserts and clears**: each key has the record inserted last
since the last clear, they are listed in key order, the estimate is the sum of their sizes, and an
entry that is overwritten is taken from a sum it is part of. -/
theorem memtable_bookkeeping (ops : List MemOp) :
    (∀ key, (after ops).get key = lastOf key (sinceClear ops)) ∧
    (∀ r, r ∈ (after ops).records ↔ lastOf r.key (sinceClear ops) = some r) ∧
    SortedByKey (after ops).records ∧
    (after ops).approxBytes = ((after ops).records.map entrySize).sum ∧
    (∀ key old, (after ops).get key = some old → entrySize old ≤ (after ops).approxBytes) ∧
    (∀ ov r, (((after ops).insert r).records.map entrySize).sum < 2 ^ 64 →
      (after ops).insertUsize ov r = some ((after ops).insert r)) := by
  have hbooks := books_after ops
  refine ⟨hbooks.get_eq, ?_, ?_, hbooks.counted, ?_, ?_⟩
  · intro r
    rw [← hbooks.get_eq]
    exact RecordMap.mem_records hbooks.keyed
  · exact RecordMap.records_sorted hbooks.keyed
  · exact fun key old hold => hbooks.counted.entrySize_le hold
  · exact fun ov r hfits => insertUsize_eq ov hbooks.counted hfits

end MemTable

end RustFundamentals.Lsmkv
