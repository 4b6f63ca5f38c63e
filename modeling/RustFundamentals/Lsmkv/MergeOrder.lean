import Mathlib.Data.List.Sort
import RustFundamentals.Lsmkv.CompactSpec
import RustFundamentals.Lsmkv.Opening

/-!
# lsmkv: the merge and the order it visits records in

Of records whose key and sequence number determine them, `newest_per_key` keeps the same list in
whatever order and grouping it meets them, and `scan` and `compact` keep the same survivors
(`merge_order_irrelevant`).
-/

namespace RustFundamentals.Lsmkv

open Foundation Foundation.Fs Foundation.Lsm

/-! ## What the merge keeps -/

instance : Std.Irrefl fun a b : Record => compare a.key b.key = .lt :=
  ⟨fun r h => by simp at h⟩

instance : Std.Antisymm fun a b : Record => compare a.key b.key = .lt :=
  ⟨fun a b hab hba => by
    have hgt : compare a.key b.key = .gt := Std.OrientedCmp.gt_of_lt hba
    rw [hab] at hgt
    cases hgt⟩

/-- Whatever the records, a record that is kept is a newest one of its key. -/
theorem newest_of_mem {xs : List Record} {s : Record} (h : s ∈ newestPerKey xs) :
    Newest {r | r ∈ xs} s.key s := by
  have hbest := best_foldl xs
  exact hbest.newest _ _ ((RecordMap.mem_records hbest.keyed).mp h)

/-- Whatever the records, one is kept for every key. -/
theorem exists_kept {xs : List Record} {r : Record} (h : r ∈ xs) :
    ∃ s ∈ newestPerKey xs, s.key = r.key ∧ r.seq ≤ s.seq := by
  have hbest := best_foldl xs
  obtain ⟨s, hs⟩ := Option.isSome_iff_exists.mp (hbest.total r h)
  obtain ⟨-, hkey, hmax⟩ := hbest.newest _ _ hs
  have hkey' : s.key = r.key := hkey
  refine ⟨s, ?_, hkey', hmax r h rfl⟩
  rw [newestPerKey, RecordMap.mem_records hbest.keyed, hkey']
  exact hs

/-- Two records that are kept have different keys. -/
theorem kept_unique {xs : List Record} {s t : Record} (hs : s ∈ newestPerKey xs)
    (ht : t ∈ newestPerKey xs) (h : s.key = t.key) : s = t := by
  have hbest := best_foldl xs
  have hs' := (RecordMap.mem_records hbest.keyed).mp hs
  have ht' := (RecordMap.mem_records hbest.keyed).mp ht
  rw [h, ht'] at hs'
  exact (Option.some.inj hs').symm

/-- **The merge depends on the newest records alone.** -/
theorem newestPerKey_congr {xs ys : List Record} (hx : Coherent {r | r ∈ xs})
    (hy : Coherent {r | r ∈ ys})
    (h : ∀ r, Newest {x | x ∈ xs} r.key r ↔ Newest {y | y ∈ ys} r.key r) :
    newestPerKey xs = newestPerKey ys := by
  apply List.Pairwise.eq_of_mem_iff (newestPerKey_sorted xs) (newestPerKey_sorted ys)
  intro r
  rw [mem_newestPerKey hx, mem_newestPerKey hy, h r]

theorem newestPerKey_perm {xs ys : List Record} (hc : Coherent {r | r ∈ xs}) (h : ys.Perm xs) :
    newestPerKey ys = newestPerKey xs := by
  have hset : {r | r ∈ ys} = {r | r ∈ xs} := Set.ext fun r => h.mem_iff
  exact newestPerKey_congr (hset ▸ hc) hc fun r => by rw [hset]

/-- Records may be merged in part first. -/
theorem newestPerKey_thin {xs ns ts : List Record} (hc : Coherent {r | r ∈ xs ++ ts})
    (hsub : ∀ r ∈ ns, r ∈ xs)
    (hcover : ∀ r ∈ xs, ∃ s ∈ ns, s.key = r.key ∧ r.seq ≤ s.seq) :
    newestPerKey (ns ++ ts) = newestPerKey (xs ++ ts) := by
  have hsplit : ∀ as bs : List Record,
      {r | r ∈ as ++ bs} = {r | r ∈ as} ∪ {r | r ∈ bs} := by
    intro as bs
    ext r
    exact List.mem_append
  rw [hsplit] at hc
  have hthin : ∀ r, Newest {x | x ∈ ns ++ ts} r.key r ↔ Newest {x | x ∈ xs ++ ts} r.key r := by
    intro r
    rw [hsplit, hsplit]
    exact newest_thin_iff hc hsub hcover
  refine newestPerKey_congr ?_ ?_ hthin
  · rw [hsplit]
    exact hc.mono (Set.union_subset_union hsub fun _ h => h)
  · rw [hsplit]
    exact hc

/-- **Any grouping into tables** merges to the same list. -/
theorem newestPerKey_grouped {tables : List (List Record)}
    (hc : Coherent {r | r ∈ tables.flatten}) :
    newestPerKey (tables.map newestPerKey).flatten = newestPerKey tables.flatten := by
  have h := @newestPerKey_thin tables.flatten (tables.map newestPerKey).flatten []
    (by simpa using hc)
  rw [List.append_nil, List.append_nil] at h
  apply h
  · intro r hr
    simp only [List.mem_flatten, List.mem_map] at hr
    obtain ⟨-, ⟨table, htable, rfl⟩, hr⟩ := hr
    exact List.mem_flatten.mpr ⟨table, htable, (newest_of_mem hr).1⟩
  · intro r hr
    obtain ⟨table, htable, hr⟩ := List.mem_flatten.mp hr
    obtain ⟨s, hs, hkey, hle⟩ := exists_kept hr
    exact ⟨s, List.mem_flatten.mpr ⟨_, List.mem_map_of_mem htable, hs⟩, hkey, hle⟩

/-! ## `scan` and `compact` -/

/-- The pairs a list of survivors shows a reader. -/
def livePairs (survivors : List Record) : List (Bytes × Bytes) :=
  survivors.filterMap fun rec => rec.value.toOption.map (rec.key, ·)

/-- The survivors of `scan` are those of `newest_per_key` over the same records. -/
theorem scan_eq_livePairs {db : Db} {records : List Record}
    (h : Db.tableRecords db.sstables = .ok records) :
    db.scan = .ok (livePairs (newestPerKey (records ++ db.mem.records))) := by
  have hkeyed := (best_foldl (records ++ db.mem.records)).keyed
  rw [Db.scan, h]
  show Except.ok _ = Except.ok _
  rw [livePairs, newestPerKey, RecordMap.records, List.filterMap_map]
  congr 1
  apply List.filterMap_congr
  intro entry hentry
  obtain ⟨key, rec⟩ := entry
  have hkey : rec.key = key := hkeyed _ _ (Std.TreeMap.mem_toList_iff_getElem?_eq_some.mp hentry)
  simp [hkey]

section Quiet

variable {w : World Site} (hq : Quiet w.plan)

include hq

theorem undisturbed_collectRecords {tables : List SsTable} {records : List Record}
    (h : Db.tableRecords tables = .ok records) :
    SsTable.Undisturbed (collectRecords tables) w (.ok records) := by
  induction tables generalizing records with
  | nil =>
    obtain rfl := Except.ok.inj h
    exact ⟨rfl, rfl⟩
  | cons table tables ih =>
    rw [Db.tableRecords] at h
    cases hiter : table.iter with
    | error stop => rw [hiter] at h; cases h
    | ok rs =>
      rw [hiter] at h
      cases hrest : Db.tableRecords tables with
      | error stop => rw [hrest] at h; cases h
      | ok rest =>
        rw [hrest] at h
        obtain rfl := Except.ok.inj h
        have hfs : SsTable.Undisturbed table.iterFs w (.ok rs) := by
          have hread := SsTable.undisturbed_pread hq .iterRead table.file 0 table.dataLen
          rw [SsTable.iter] at hiter
          rw [SsTable.iterFs]
          cases hdata : SsTable.readExactAt table.file 0 table.dataLen with
          | error stop => rw [hdata] at hiter; cases hiter
          | ok data =>
            rw [hdata] at hread hiter
            refine hread.bind ?_
            rw [SsTable.Undisturbed, Post_ofExcept]
            exact ⟨hiter, rfl⟩
        rw [collectRecords]
        exact hfs.bind ((ih hrest).bind ⟨rfl, rfl⟩)

/-- Where every call goes through, `compact` is a `write` of its survivors. -/
theorem compact_run {tables : List SsTable} {records : List Record}
    (h : Db.tableRecords tables = .ok records) (newId : Nat) :
    (compact newId tables).run w = (SsTable.write newId (survivorsOf records)).run w := by
  obtain ⟨hresult, hworld⟩ := undisturbed_collectRecords hq h
  have hrun : (collectRecords tables).run w = (.ok records, w) := Prod.ext hresult hworld
  rw [compact, run_bind, hrun]
  rfl

end Quiet

/-- The tombstones that `compact` leaves out are those a reader does not see. -/
theorem livePairs_survivorsOf (records : List Record) :
    livePairs (survivorsOf records) = livePairs (newestPerKey records) := by
  rw [livePairs, livePairs, survivorsOf, List.filterMap_filter]
  apply List.filterMap_congr
  intro r _
  by_cases h : r.value = .delete
  · simp [h, ValueKind.toOption]
  · simp [h]

/-- **The merge does not depend on the visiting order**: of records that key and sequence number
determine, any permutation and any grouping into tables leaves the same list; it is strictly
ascending and has one record for each key, one of the largest sequence number. `scan` shows what
the merge over tables and memtable keeps, and `compact` writes what `scan` would list of the
tables alone. -/
theorem merge_order_irrelevant {xs : List Record} (hc : Coherent {r | r ∈ xs}) :
    (∀ ys, ys.Perm xs → newestPerKey ys = newestPerKey xs) ∧
    (∀ tables : List (List Record), tables.flatten.Perm xs →
      newestPerKey (tables.map newestPerKey).flatten = newestPerKey xs) ∧
    (∀ ys zs, (ys ++ zs).Perm xs → newestPerKey (newestPerKey ys ++ zs) = newestPerKey xs) ∧
    SortedByKey (newestPerKey xs) ∧
    (∀ r ∈ xs, ∃! s, s ∈ newestPerKey xs ∧ s.key = r.key) ∧
    (∀ s ∈ newestPerKey xs, s ∈ xs ∧ ∀ r ∈ xs, r.key = s.key → r.seq ≤ s.seq) ∧
    (∀ r ∈ survivorsOf xs, r.value ≠ .delete) ∧
    (∀ (db : Db) (ys : List Record), Db.tableRecords db.sstables = .ok ys → ys.Perm xs →
      db.scan = .ok (livePairs (newestPerKey (ys ++ db.mem.records))) ∧
      (db.mem.records = [] → db.scan = .ok (livePairs (survivorsOf xs))) ∧
      ∀ w newId, Quiet w.plan →
        (compact newId db.sstables).run w = (SsTable.write newId (survivorsOf xs)).run w) := by
  have hcoherent : ∀ {ys : List Record}, ys.Perm xs → Coherent {r | r ∈ ys} := by
    intro ys h
    have hset : {r | r ∈ ys} = {r | r ∈ xs} := Set.ext fun r => h.mem_iff
    rwa [hset]
  refine ⟨fun ys h => newestPerKey_perm hc h, fun tables h => ?_, fun ys zs h => ?_,
    newestPerKey_sorted xs, fun r hr => ?_, fun s hs => ?_, fun r hr => ?_, fun db ys hdb h => ?_⟩
  · rw [newestPerKey_grouped (hcoherent h), newestPerKey_perm hc h]
  · have hsub : ∀ r ∈ newestPerKey ys, r ∈ ys := fun r hr => (newest_of_mem hr).1
    rw [newestPerKey_thin (hcoherent h) hsub fun r hr => exists_kept hr, newestPerKey_perm hc h]
  · obtain ⟨s, hs, hkey, -⟩ := exists_kept hr
    exact ⟨s, ⟨hs, hkey⟩, fun t ht => kept_unique ht.1 hs (ht.2.trans hkey.symm)⟩
  · obtain ⟨hmem, -, hmax⟩ := newest_of_mem hs
    exact ⟨hmem, hmax⟩
  · simpa [survivorsOf] using (List.mem_filter.mp hr).2
  · have hsurvivors : survivorsOf ys = survivorsOf xs := by
      rw [survivorsOf, survivorsOf, newestPerKey_perm hc h]
    rw [← hsurvivors]
    refine ⟨scan_eq_livePairs hdb, ?_, fun w newId hq => compact_run hq hdb newId⟩
    intro hmem
    rw [scan_eq_livePairs hdb, hmem, List.append_nil, livePairs_survivorsOf]

/-- Two versions of one key and a tombstone of another, met in either order. -/
theorem threeRecords_merged :
    newestPerKey [Record.tombstone 3 [98], Record.put 2 [97] [7], Record.put 1 [97] [6]] =
      newestPerKey [Record.put 1 [97] [6], Record.put 2 [97] [7], Record.tombstone 3 [98]] := by
  have hc : Coherent
      {r | r ∈ [Record.put 1 [97] [6], Record.put 2 [97] [7], Record.tombstone 3 [98]]} := by
    intro x hx y hy _ hseq
    simp only [Set.mem_ofPred_eq, List.mem_cons, List.not_mem_nil, or_false] at hx hy
    rcases hx with rfl | rfl | rfl <;> rcases hy with rfl | rfl | rfl <;> first
      | rfl
      | exact absurd hseq (by decide)
  exact (merge_order_irrelevant hc).1 _
    (List.reverse_perm [Record.put 1 [97] [6], Record.put 2 [97] [7], Record.tombstone 3 [98]])

end RustFundamentals.Lsmkv
