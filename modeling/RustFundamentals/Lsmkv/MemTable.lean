import Std.Data.TreeMap.Lemmas
import RustFundamentals.Lsmkv.Encoding

/-!
# lsmkv: the memtable

`memtable.rs`: a map from keys to the newest record of each, in key order, with a running
estimate of its size. `BTreeMap<Vec<u8>, Record>` is `Std.TreeMap` under the lexicographic
order of byte strings.
-/

namespace RustFundamentals.Lsmkv

open Foundation

/-- `BTreeMap<Vec<u8>, Record>`. -/
abbrev RecordMap := Std.TreeMap Bytes Record compare

/-- A record list in strictly ascending key order, as a table stores it. -/
def SortedByKey (records : List Record) : Prop :=
  records.Pairwise fun a b => compare a.key b.key = .lt

/-- Every entry of the map is filed under its own key. -/
def Keyed (m : RecordMap) : Prop := ∀ (k : Bytes) (r : Record), m[k]? = some r → r.key = k

theorem Keyed.empty : Keyed (∅ : RecordMap) := fun _ _ h => by simp at h

theorem Keyed.insert {m : RecordMap} (h : Keyed m) (r : Record) : Keyed (m.insert r.key r) := by
  intro k x hx
  rw [Std.TreeMap.getElem?_insert] at hx
  split at hx
  · rename_i heq
    rw [← Option.some.inj hx]
    exact Std.LawfulEqCmp.eq_of_compare heq
  · exact h k x hx

/-- `values()` of a record map. -/
def RecordMap.records (m : RecordMap) : List Record := m.toList.map Prod.snd

theorem RecordMap.mem_records {m : RecordMap} (h : Keyed m) {r : Record} :
    r ∈ RecordMap.records m ↔ m[r.key]? = some r := by
  simp only [RecordMap.records, List.mem_map, Prod.exists, exists_eq_right]
  constructor
  · intro hfound
    obtain ⟨k, hk⟩ := hfound
    have hget := Std.TreeMap.mem_toList_iff_getElem?_eq_some.mp hk
    rw [h k r hget]
    exact hget
  · exact fun hget => ⟨r.key, Std.TreeMap.mem_toList_iff_getElem?_eq_some.mpr hget⟩

theorem RecordMap.records_sorted {m : RecordMap} (h : Keyed m) :
    SortedByKey (RecordMap.records m) := by
  rw [SortedByKey, RecordMap.records, List.pairwise_map]
  refine Std.TreeMap.ordered_keys_toList.imp_of_mem ?_
  intro a b ha hb hlt
  have hka := h _ _ (Std.TreeMap.mem_toList_iff_getElem?_eq_some.mp ha)
  have hkb := h _ _ (Std.TreeMap.mem_toList_iff_getElem?_eq_some.mp hb)
  rwa [hka, hkb]

/-- `MemTable`. -/
structure MemTable where
  map : RecordMap
  approxBytes : Nat

/-- The size estimate of one entry. -/
def entrySize (record : Record) : Nat :=
  let valueLen := match record.value with
    | .put v => v.length
    | .delete => 0
  record.key.length + valueLen + 48

namespace MemTable

/-- `MemTable::new`. -/
def new : MemTable := ⟨∅, 0⟩

/-- Insert or overwrite the entry for the record's key. -/
def insert (m : MemTable) (record : Record) : MemTable :=
  let newSize := entrySize record
  match m.map[record.key]? with
  | some old => ⟨m.map.insert record.key record, m.approxBytes - entrySize old + newSize⟩
  | none => ⟨m.map.insert record.key record, m.approxBytes + newSize⟩

/-- The record buffered for `key`. -/
def get (m : MemTable) (key : Bytes) : Option Record := m.map[key]?

/-- The records in ascending key order. -/
def records (m : MemTable) : List Record := RecordMap.records m.map

def len (m : MemTable) : Nat := m.map.size

def isEmpty (m : MemTable) : Bool := m.map.isEmpty

/-- Drop everything. -/
def clear (_ : MemTable) : MemTable := ⟨∅, 0⟩

@[simp] theorem insert_map (m : MemTable) (r : Record) :
    (m.insert r).map = m.map.insert r.key r := by
  unfold insert
  split <;> rfl

@[simp] theorem get_new (k : Bytes) : new.get k = none := by
  simp [new, get]

@[simp] theorem get_clear (m : MemTable) (k : Bytes) : m.clear.get k = none := by
  simp [clear, get]

theorem get_insert (m : MemTable) (r : Record) (k : Bytes) :
    (m.insert r).get k = if r.key = k then some r else m.get k := by
  simp [get, Std.TreeMap.getElem?_insert]

/-- An empty memtable has no records. -/
theorem isEmpty_iff {m : MemTable} : m.isEmpty = true ↔ ∀ k, m.get k = none := by
  rw [isEmpty, Std.TreeMap.isEmpty_iff_forall_not_mem]
  simp only [get, ← Std.TreeMap.contains_iff_mem, Std.TreeMap.contains_eq_isSome_getElem?,
    Bool.not_eq_true, Option.isSome_eq_false_iff, Option.isNone_iff_eq_none]

end MemTable

end RustFundamentals.Lsmkv
