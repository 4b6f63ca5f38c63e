import RustFundamentals.Lsmkv.OnDisk
import RustFundamentals.Lsmkv.Refinement

/-!
# lsmkv: compaction cut short

`compact` removes the old tables newest first, and the merged table has dropped the winning
tombstones. A compaction that stops after `j` removals reopens to what the store showed
exactly when the old tables that are left put nothing back (`compaction_reopens_iff`); with
the tombstone's table gone and an older put's still there, a deleted key comes back
(`cutShort_revives_key`).
-/

namespace RustFundamentals.Lsmkv

open Foundation Foundation.Fs Foundation.Lsm

variable {ov : Overflow} {loose mayTear : Prop}

/-- The old table files that are left once the first `j` open tables are removed. -/
def leftTables (dir : Dir) (db : Db) (j : Nat) : List Nat :=
  (foundIds dir).filter fun id => id < db.nextSstId ∧ id ∉ (db.sstables.take j).map SsTable.id

/-- The records in them. -/
def leftRecords (dir : Dir) (db : Db) (j : Nat) : List Record :=
  (leftTables dir db j).flatMap (diskTable dir)

/-- The store can be recovered after `j` removals: what the log says of a key is what `get`
says, and of a key that neither the log nor `get` knows the tables that are left have no put
that counts. -/
structure Recoverable (dir : Dir) (db : Db) (j : Nat) : Prop where
  log_shown : ∀ k r, Newest {x | x ∈ logRecords dir} k r → db.get k = .ok r.value.toOption
  unrevived : ∀ k, (∀ r ∈ logRecords dir, r.key ≠ k) → db.get k = .ok none →
    ∀ r, Newest {x | x ∈ leftRecords dir db j} k r → r.value = .delete

section Compaction

variable {dir : Dir} {db : Db} {d : Disk Record} {p : Proc Record Bytes}

theorem mem_leftTables (hs : Stores mayTear dir d) (hrun : Running db dir d p) {j id : Nat} :
    id ∈ leftTables dir db j ↔ (d.files id).isSome ∧ id < p.next ∧ id ∉ p.ids.take j := by
  have hids : (db.sstables.take j).map SsTable.id = p.ids.take j := by
    rw [hrun.tables, ← List.map_take, map_id_handle]
  rw [leftTables, List.mem_filter, mem_foundIds hs, hids, hrun.next]
  simp

theorem mem_leftRecords (hs : Stores mayTear dir d) (hrun : Running db dir d p) {j : Nat}
    {r : Record} : r ∈ leftRecords dir db j ↔ r ∈ survivors d p j := by
  rw [leftRecords, List.mem_flatMap]
  constructor
  · intro hfound
    obtain ⟨id, hid, hr⟩ := hfound
    obtain ⟨hfile, hlt, hnot⟩ := (mem_leftTables hs hrun).mp hid
    exact ⟨id, hlt, hnot, (mem_diskTable hs ((mem_foundIds hs).mpr hfile)).mp hr⟩
  · intro hfound
    obtain ⟨id, hlt, hnot, hr⟩ := hfound
    refine ⟨id, (mem_leftTables hs hrun).mpr ⟨hr.isSome, hlt, hnot⟩, ?_⟩
    exact (mem_diskTable hs ((mem_foundIds hs).mpr hr.isSome)).mpr hr

theorem get_eq_iff (hs : Stores mayTear dir d) (hwf : Wf d p) (hrun : Running db dir d p)
    {k : Bytes} {v : Option Bytes} : db.get k = .ok v ↔ view (live d p) k = v := by
  rw [get_eq hs hwf hrun k, Except.ok.injEq]

/-- What the log says of a key is what `get` says. -/
theorem logShown_iff_get (hs : Stores mayTear dir d) (hclean : CleanLog dir) (hwf : Wf d p)
    (hrun : Running db dir d p) :
    (∀ k r, Newest {x | x ∈ logRecords dir} k r → db.get k = .ok r.value.toOption) ↔
      LogShown d p := by
  have hlog : {x | x ∈ logRecords dir} = d.logged := by
    rw [logRecords_eq hs hclean]
    rfl
  rw [hlog]
  refine forall_congr' fun k => forall_congr' fun r => imp_congr_right fun _ => ?_
  exact get_eq_iff hs hwf hrun

/-- The tables that are left have no put of the key that counts. -/
theorem left_none_iff (hs : Stores mayTear dir d) (hwf : Wf d p) (hrun : Running db dir d p)
    {j : Nat} {k : Bytes} :
    (∀ r, Newest {x | x ∈ leftRecords dir db j} k r → r.value = .delete) ↔
      view (survivors d p j) k = none := by
  have hleft : {x | x ∈ leftRecords dir db j} = survivors d p j :=
    Set.ext fun r => mem_leftRecords hs hrun
  have hcoh : Coherent (survivors d p j) := by
    refine hwf.coherent.mono ?_
    intro r hr
    obtain ⟨i, _, _, hr⟩ := hr
    exact hr.stored
  rw [hleft, view_eq_none hcoh]
  exact forall_congr' fun r => imp_congr_right fun _ => toOption_eq_none.symm

/-- The condition on the files is the one on the abstract store. -/
theorem recoverable_iff (hs : Stores mayTear dir d) (hclean : CleanLog dir) (hwf : Wf d p)
    (hrun : Running db dir d p) {j : Nat} :
    Recoverable dir db j ↔ LogShown d p ∧ Unrevived d p (survivors d p j) := by
  have hrev : (∀ k, (∀ r ∈ logRecords dir, r.key ≠ k) → db.get k = .ok none →
      ∀ r, Newest {x | x ∈ leftRecords dir db j} k r → r.value = .delete) ↔
      Unrevived d p (survivors d p j) := by
    rw [logRecords_eq hs hclean]
    refine forall_congr' fun k => imp_congr_right fun _ => ?_
    exact imp_congr (get_eq_iff hs hwf hrun) (left_none_iff hs hwf hrun)
  rw [← logShown_iff_get hs hclean hwf hrun, ← hrev]
  exact ⟨fun h => ⟨h.log_shown, h.unrevived⟩, fun h => ⟨h.1, h.2⟩⟩

end Compaction

/-- **A compaction step**, however it ends. -/
theorem exec_compact (ov : Overflow) {s : Sys} {d : Disk Record} {p : Proc Record Bytes} {db : Db}
    (hm : Models False mayTear s d (some p)) (hdb : s.proc = some db) (hroom : Room s)
    (plan : Plan Site) :
    ∃ j d' p', CompactEnd ⟨s.dir, plan⟩ (survivorsOf (collected d p.ids)) d p
        (exec ov s ⟨.call .compact, plan⟩).1 j d' p' ∧
      Models False mayTear (exec ov s ⟨.call .compact, plan⟩).2 d'
        (if alive (exec ov s ⟨.call .compact, plan⟩).1 then some p' else none) ∧
      walWrites (exec ov s ⟨.call .compact, plan⟩).2.dir = walWrites s.dir := by
  obtain ⟨hwf, hrun⟩ := hm.running hdb
  have hlt : p.next + 1 < 2 ^ 64 := hrun.next ▸ (hroom db hdb).2
  have hspec := compact_spec ov (w := ⟨s.dir, plan⟩) hm.stores hwf hrun (.inr hlt)
  simp only [exec, hdb]
  show ∃ j d' p', CompactEnd ⟨s.dir, plan⟩ _ d p
      ((Db.compact ov).run ⟨db, ⟨s.dir, plan⟩⟩).1 j d' p' ∧ _
  unfold Post at hspec
  obtain ⟨j, d', p', hend, hleaves, _, hwal⟩ := hspec
  refine ⟨j, d', p', hend, ?_, ?_⟩
  · have hcall : CallEnd ⟨s.dir, plan⟩ db d p .compact _ d' p' := .compacted rfl j hend
    exact hcall.models hm hleaves (.inr hlt)
  · show walWrites ((Db.compact ov).run ⟨db, ⟨s.dir, plan⟩⟩).2.world.dir = _
    rw [walWrites, hwal]
    rfl

/-- **When a compaction that was cut short loses and revives nothing.** In every reachable
state and wherever compaction stops, some number `j` of the old tables is gone, and a
reopened store answers as the store did before exactly when it is recoverable after `j`
removals. -/
theorem compaction_reopens_iff {dir : Dir} (hfresh : Fresh dir) {steps : List Step}
    (ha : Along (exec ov) (Sound False) ⟨dir, none⟩ steps) {db : Db}
    (hdb : (runSys ov ⟨dir, none⟩ steps).proc = some db)
    (hroom : Room (runSys ov ⟨dir, none⟩ steps))
    (hclean : CleanLog (runSys ov ⟨dir, none⟩ steps).dir) (plan : Plan Site) (opts : Options) :
    let s := runSys ov ⟨dir, none⟩ steps
    let s' := (exec ov s ⟨.call .compact, plan⟩).2
    ∃ m j, Serves s m ∧
      (∀ id, id ∈ foundIds s'.dir ∧ id < db.nextSstId ↔ id ∈ leftTables s.dir db j) ∧
      (exec ov s' (quietly (.openWith opts))).1 = .ok () ∧
      (Serves (exec ov s' (quietly (.openWith opts))).2 m ↔ Recoverable s.dir db j) := by
  intro s s'
  obtain ⟨d, op, hm⟩ := models_run (fun hf => hf.elim) hfresh ha
  obtain ⟨p, rfl, hwf, hrun⟩ := hm.of_proc hdb
  obtain ⟨j, d', p', hend, hm', hwal⟩ := exec_compact ov hm hdb hroom plan
  have hclean' : CleanLog s'.dir := by
    unfold CleanLog at hclean ⊢
    rwa [hwal]
  obtain ⟨hok, hserves⟩ := hm'.reopen_serves ov hclean' opts
  refine ⟨view (live d p), j, hm.serves, ?_, hok, ?_⟩
  · intro id
    rw [mem_foundIds hm'.stores, mem_leftTables hm.stores hrun, hrun.next]
    constructor
    · intro hboth
      obtain ⟨hfile, hlt⟩ := hboth
      obtain ⟨hold, hnot⟩ := (hend.exit.files_iff hlt).mp hfile
      exact ⟨hold, hlt, hnot⟩
    · intro hboth
      obtain ⟨hold, hlt, hnot⟩ := hboth
      exact ⟨(hend.exit.files_iff hlt).mpr ⟨hold, hnot⟩, hlt⟩
  · rw [recoverable_iff hm.stores hclean hwf hrun, ← hend.exit.reopen_iff hwf]
    constructor
    · exact fun h => hserves.unique h
    · exact fun h => h ▸ hserves

/-- A compaction that dies after its first removal. -/
def cutShort : Plan Site := faultsAt .removeOld [.ok, .die 0]

/-- Two puts and a delete, each flushed to a table of its own. -/
def deletedKey : List Step :=
  [.openWith ⟨0⟩, .call (.put [97] [1]), .call (.put [98] [2]), .call (.delete [97])].map quietly

theorem deletedKey_reopens_iff :
    ∃ db, (runSys .checked ⟨∅, none⟩ deletedKey).proc = some db ∧
      let s := runSys .checked ⟨∅, none⟩ deletedKey
      let s' := (exec .checked s ⟨.call .compact, cutShort⟩).2
      ∃ m j, Serves s m ∧
        (∀ id, id ∈ foundIds s'.dir ∧ id < db.nextSstId ↔ id ∈ leftTables s.dir db j) ∧
        (exec .checked s' (quietly (.openWith .default))).1 = .ok () ∧
        (Serves (exec .checked s' (quietly (.openWith .default))).2 m ↔
          Recoverable s.dir db j) := by
  have hsome : (runSys .checked ⟨∅, none⟩ deletedKey).proc.isSome := by decide +kernel
  obtain ⟨db, hdb⟩ := Option.isSome_iff_exists.mp hsome
  exact ⟨db, hdb, compaction_reopens_iff Fresh.empty (by decide +kernel) hdb
    (by decide +kernel) (by decide +kernel) cutShort .default⟩

/-- **A deleted key comes back**: its tombstone's table is removed, the table of the older put
is still there. -/
theorem cutShort_revives_key :
    let s := runSys .checked ⟨∅, none⟩ deletedKey
    let s' := runSys .checked s [⟨.call .compact, cutShort⟩, quietly (.openWith .default)]
    s.proc.map (·.get [97]) = some (.ok none) ∧
      s.proc.map (·.scan) = some (.ok [([98], [2])]) ∧
      s'.proc.map (·.get [97]) = some (.ok (some [1])) ∧
      s'.proc.map (·.scan) = some (.ok [([97], [1]), ([98], [2])]) := by
  decide +kernel

end RustFundamentals.Lsmkv
