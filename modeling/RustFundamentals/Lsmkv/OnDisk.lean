import RustFundamentals.Lsmkv.System

/-!
# lsmkv: what a directory holds

The records of a directory as the store's own readers give them: replay for the log, an open
and a scan for each table file. On a directory that stands for an abstract disk these are the
records of that disk.
-/

namespace RustFundamentals.Lsmkv

open Foundation Foundation.Fs Foundation.Lsm

/-- The records `Wal::replay` recovers. -/
def logRecords (dir : Dir) : List Record := Wal.replayBytes (walWrites dir).flatten

/-- The records of the table file `id`: open it, list it. -/
def diskTable (dir : Dir) (id : Nat) : List Record :=
  match ((SsTable.openTable (sstPath id) id).run ⟨dir, quiet⟩).1 with
  | .ok table =>
    match table.iter with
    | .ok records => records
    | .error _ => []
  | .error _ => []

/-- A record is somewhere in the store: in memory, in an open table, in the log, or in a table
file. -/
def StoredIn (s : Sys) (r : Record) : Prop :=
  (∃ db, s.proc = some db ∧ (db.mem.get r.key = some r ∨
    ∃ t ∈ db.sstables, ∃ rs, t.iter = .ok rs ∧ r ∈ rs)) ∨
  r ∈ logRecords s.dir ∨ ∃ id ∈ foundIds s.dir, r ∈ diskTable s.dir id

section OnDisk

variable {loose mayTear : Prop} {dir : Dir} {d : Disk Record}

theorem logRecords_eq (hs : Stores mayTear dir d) (hclean : CleanLog dir) :
    logRecords dir = d.log := hs.log.replayBytes hclean

theorem diskTable_eq (hs : Stores mayTear dir d) {id : Nat} {rs : List Record}
    (h : d.files id = some rs) : diskTable dir id = rs := by
  obtain ⟨f, hf, hb⟩ := hs.table id rs h
  have hopen := SsTable.openTable_readOnly id (w := ⟨dir, quiet⟩) (hs.storable id rs h) hf hb
  obtain ⟨_, _, hres⟩ := hopen
  have hres : ((SsTable.openTable (sstPath id) id).run ⟨dir, quiet⟩).1 =
      .ok (SsTable.ofRecords id rs) := by
    rcases hres with hres | ⟨e, _, hb⟩
    · exact hres
    · exact absurd quiet_quiet hb.not_quiet
  rw [diskTable, hres]
  simp only [SsTable.iter_ofRecords (hs.storable id rs h) id]

theorem mem_diskTable (hs : Stores mayTear dir d) {id : Nat} (hid : id ∈ foundIds dir)
    {r : Record} : r ∈ diskTable dir id ↔ d.Holds id r := by
  obtain ⟨rs, hrs⟩ := Option.isSome_iff_exists.mp ((mem_foundIds hs).mp hid)
  rw [diskTable_eq hs hrs]
  constructor
  · intro hr
    exact ⟨rs, hrs, hr⟩
  · intro hfound
    obtain ⟨rs', hrs', hr⟩ := hfound
    rw [hrs] at hrs'
    exact Option.some.inj hrs' ▸ hr

/-- The records of the store are those of its disk. -/
theorem StoredIn.stored {s : Sys} {op : Option (Proc Record Bytes)}
    (hm : Models loose mayTear s d op) (hclean : CleanLog s.dir) {r : Record}
    (h : StoredIn s r) : r ∈ d.stored := by
  rcases h with ⟨db, hdb, hr⟩ | hr | ⟨id, hid, hr⟩
  · obtain ⟨p, rfl, hwf, hrun⟩ := hm.of_proc hdb
    rcases hr with hr | ⟨t, ht, rs, hiter, hr⟩
    · rw [hrun.mem] at hr
      exact .inl (hwf.mem_log _ _ hr).1
    · rw [hrun.tables] at ht
      obtain ⟨id, hid, rfl⟩ := List.mem_map.mp ht
      obtain ⟨rs', hrs'⟩ := Option.isSome_iff_exists.mp (hwf.ids_file id hid)
      rw [handle, hrs', Option.getD_some,
        SsTable.iter_ofRecords (hm.stores.storable id rs' hrs')] at hiter
      exact .inr ⟨id, rs', hrs', by rwa [Except.ok.inj hiter]⟩
  · rw [logRecords_eq hm.stores hclean] at hr
    exact .inl hr
  · exact .inr ⟨id, (mem_diskTable hm.stores hid).mp hr⟩

end OnDisk

end RustFundamentals.Lsmkv
