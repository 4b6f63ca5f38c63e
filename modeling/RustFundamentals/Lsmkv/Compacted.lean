import RustFundamentals.Lsmkv.CompactionSafety

/-!
# lsmkv: what a compaction leaves

A flush and then a compaction, both returning `Ok`, leave the directory with an empty log and,
if there was anything to merge, one table: the live pairs of the store in key order, each with
its last value, and neither an overwritten version nor a tombstone (`compacted_live`). What
else a run needs for it is that memory is never empty while the log is not (`Drained`).
-/

namespace RustFundamentals.Lsmkv

open Foundation Foundation.Fs Foundation.Lsm

variable {ov : Overflow}

/-- With memory empty, the log is. -/
def Drained (db : Db) (dir : Dir) : Prop :=
  (∀ k, db.mem.get k = none) → walWrites dir = []

/-- The table files of the directory are the one table `id`, and it lists the bindings of `m`:
one record a key, in key order, all of them puts. -/
structure Compacted (s : Sys) (m : Bytes → Option Bytes) (id : Nat) : Prop where
  open_table : s.proc.map (fun db => db.sstables.map SsTable.id) = some [id]
  only_table : foundIds s.dir = [id]
  live : ∃ pairs, Lists pairs m ∧
    (diskTable s.dir id).map (fun r => (r.key, r.value)) = pairs.map fun b => (b.1, .put b.2)

/-! ## The calls on the running store -/

/-- A log that was reset is empty. -/
theorem reset_empties (w : World Site) :
    Post Wal.reset w fun out w' => out = .ok () → walWrites w'.dir = [] := by
  rw [Wal.reset, Post_bind]
  refine Post_call ?_ fun _ _ _ => by simp
  simp only [Post_bind]
  refine Post_tick ?_ fun _ _ _ => by simp
  refine Post_call ?_ fun _ _ _ => by simp
  intro _
  show walWrites (Dir.touch (Dir.truncate w.dir walName) walName) = []
  rw [walWrites_touch, walWrites_truncate]

/-- A flush that returns `Ok` empties memory and the log. -/
theorem flush_drains (ov : Overflow) (s : Session) (hd : Drained s.db s.world.dir) :
    Post (Db.flush ov) s fun out s' => out = .ok () →
      (∀ k, s'.db.mem.get k = none) ∧ walWrites s'.world.dir = [] := by
  simp only [Db.flush, Post_bind, Post_self]
  split
  · rename_i hempty
    intro _
    have hmem : ∀ k, s.db.mem.get k = none := MemTable.isEmpty_iff.mp hempty
    exact ⟨hmem, hd hmem⟩
  simp only [Post_bind, Post_onDisk]
  -- whatever became of the table, the next id and the handle
  refine Post_of_forall fun out w₁ => ?_
  cases out with
  | error e => simp
  | ok path =>
  refine Post_of_forall fun out w₂ => ?_
  cases out with
  | error e => simp
  | ok table =>
  simp only [Post_update]
  refine Post_of_forall fun out s₃ => ?_
  cases out with
  | error e => simp
  | ok next =>
  refine (reset_empties s₃.world).mono ?_
  intro out w₄ hreset hok
  exact ⟨fun k => MemTable.get_clear _ k, hreset hok⟩

theorem maybeFlush_drains (ov : Overflow) (s : Session) (hd : Drained s.db s.world.dir) :
    Post (Db.maybeFlush ov) s fun out s' => out = .ok () → Drained s'.db s'.world.dir := by
  simp only [Db.maybeFlush, Post_bind, Post_self]
  refine Post_ite (fun _ => ?_) fun _ _ => hd
  refine (flush_drains ov s hd).mono ?_
  intro out s' hflush hok _
  exact (hflush hok).2

/-- A write puts its record in memory, and what a flush takes out of it goes from the log. -/
theorem writeRecord_drains (ov : Overflow) (mk : Seq → Record) (s : Session) :
    Post (Db.writeRecord ov mk) s fun out s' => out = .ok () → Drained s'.db s'.world.dir := by
  simp only [Db.writeRecord, Post_bind, Post_self]
  refine Post_of_forall fun out s₁ => ?_
  cases out with
  | error e => simp
  | ok next =>
  simp only [Post_update, Post_onDisk]
  refine Post_of_forall fun out w₂ => ?_
  cases out with
  | error e => simp
  | ok =>
  refine Post_of_forall fun out w₃ => ?_
  cases out with
  | error e => simp
  | ok =>
  refine maybeFlush_drains ov _ ?_
  intro hmem
  have hnew := hmem (mk s.db.seq).key
  simp [MemTable.get_insert] at hnew

/-- A compaction leaves memory alone, and one table at most if it returns `Ok`. -/
theorem compact_one_table (ov : Overflow) (s : Session) :
    Post (Db.compact ov) s fun out s' => s'.db.mem = s.db.mem ∧
      (out = .ok () → s'.db.sstables.length ≤ 1) := by
  simp only [Db.compact, Post_bind, Post_self]
  split
  · rename_i hfew
    exact ⟨rfl, fun _ => Nat.le_of_lt_succ hfew⟩
  simp only [Post_bind, Post_onDisk]
  refine Post_of_forall fun out w₁ => ?_
  cases out with
  | error e => simp
  | ok path =>
  refine Post_of_forall fun out w₂ => ?_
  cases out with
  | error e => simp
  | ok merged =>
  simp only [Post_update]
  cases ov.fit 64 (s.db.nextSstId + 1) with
  | none => simp
  | some next =>
  simp only [Post_orPanic_some]
  refine Post_of_forall fun out w₃ => ?_
  cases out with
  | error e => simp
  | ok =>
  refine Post_of_forall fun out w₄ => ?_
  simp

/-! ## Runs -/

/-- A call on the running store, in the words of its program. -/
theorem exec_call (ov : Overflow) {s : Sys} {db : Db} (hdb : s.proc = some db) (c : Call)
    (plan : Plan Site) {Q : Except (Stop Error) Unit → Session → Prop}
    (h : Post (c.run ov) ⟨db, ⟨s.dir, plan⟩⟩ Q) :
    ∃ s', Q (exec ov s ⟨.call c, plan⟩).1 s' ∧ (exec ov s ⟨.call c, plan⟩).2 =
      ⟨s'.world.dir, if alive (exec ov s ⟨.call c, plan⟩).1 then some s'.db else none⟩ := by
  simp only [exec, hdb]
  exact ⟨_, h, rfl⟩

/-- What the operations of a run keep where nothing fails. -/
structure Orderly (s : Sys) (m : Bytes → Option Bytes) : Prop where
  refines : Refines s m
  drained : ∀ db, s.proc = some db → Drained db s.dir

/-- A store that was just opened has what its log has in memory. -/
theorem drained_of_reopened {s : Sys} {d : Disk Record} {p : Proc Record Bytes}
    (hm : Models False False s d (some p)) (hr : Reopened d p) {db : Db}
    (hdb : s.proc = some db) : Drained db s.dir := by
  obtain ⟨hwf, hrun⟩ := hm.running hdb
  intro hmem
  have hlog : d.log = [] := by
    refine List.eq_nil_iff_forall_not_mem.mpr fun x hx => ?_
    obtain ⟨r, hnew⟩ := hwf.newest_logged hx rfl
    have hr' := (hr.mem _ r).mpr hnew
    rw [← hrun.mem, hmem] at hr'
    cases hr'
  have hframes := hm.stores.log.eq_frames (hm.stores.log.isFrame id)
  rw [hframes, hlog, List.map_nil]

/-- A call that returns `Ok` keeps memory ahead of the log. -/
theorem drained_call (ov : Overflow) {s : Sys} {db : Db} (hdb : s.proc = some db)
    (hd : Drained db s.dir) {c : Call} (hc : c ≠ .compact) {plan : Plan Site}
    (hok : (exec ov s ⟨.call c, plan⟩).1 = .ok ()) {db' : Db}
    (hdb' : (exec ov s ⟨.call c, plan⟩).2.proc = some db') :
    Drained db' (exec ov s ⟨.call c, plan⟩).2.dir := by
  have hpost : Post (c.run ov) ⟨db, ⟨s.dir, plan⟩⟩ fun out s' =>
      out = .ok () → Drained s'.db s'.world.dir := by
    cases c with
    | put key value =>
      exact writeRecord_drains ov (fun seq => Record.put seq key value) ⟨db, ⟨s.dir, plan⟩⟩
    | delete key =>
      exact writeRecord_drains ov (fun seq => Record.tombstone seq key) ⟨db, ⟨s.dir, plan⟩⟩
    | flush =>
      refine (flush_drains ov ⟨db, ⟨s.dir, plan⟩⟩ hd).mono ?_
      intro out s' h hok _
      exact (h hok).2
    | compact => exact absurd rfl hc
  obtain ⟨s', hs', heq⟩ := exec_call ov hdb c plan hpost
  rw [heq, hok] at hdb'
  rw [heq]
  obtain rfl : s'.db = db' := Option.some.inj hdb'
  exact hs' hok

/-- So does a compaction: neither memory nor the log is its business. -/
theorem drained_compact (ov : Overflow) {s : Sys} {d : Disk Record} {p : Proc Record Bytes}
    {db : Db} (hm : Models False False s d (some p)) (hdb : s.proc = some db) (hroom : Room s)
    (hd : Drained db s.dir) {plan : Plan Site} {db' : Db}
    (hdb' : (exec ov s ⟨.call .compact, plan⟩).2.proc = some db') :
    Drained db' (exec ov s ⟨.call .compact, plan⟩).2.dir := by
  obtain ⟨_, _, _, _, _, hwal⟩ := exec_compact ov hm hdb hroom plan
  obtain ⟨s', ⟨hmem, _⟩, heq⟩ := exec_call ov hdb .compact plan (compact_one_table ov _)
  have hsame : db'.mem = db.mem := by
    rw [heq] at hdb'
    dsimp only at hdb'
    split at hdb'
    · rw [← Option.some.inj hdb', hmem]
    · cases hdb'
  unfold Drained
  rw [hsame, hwal]
  exact hd

/-- **One operation that returns `Ok`.** -/
theorem Orderly.step (ov : Overflow) {s : Sys} {m : Bytes → Option Bytes} (h : Orderly s m)
    {op : Op} (hroom : Room s) (hfits : op.Fits) (hstop : op ≠ .stop)
    (hok : (exec ov s (quietly op)).1 = .ok ()) :
    Orderly (exec ov s (quietly op)).2 (op.bind m) := by
  refine ⟨?_, fun db' hdb' => ?_⟩
  · rcases h.refines.step ov hroom hfits hstop with ⟨_, href⟩ | ⟨hpanic, _⟩
    · exact href
    · rw [hok] at hpanic
      cases hpanic
  obtain ⟨d, p, hm, _⟩ := h.refines
  obtain ⟨db, hdb, _⟩ := hm.up p rfl
  have hd := h.drained db hdb
  cases op with
  | openWith opts =>
    have hclean : CleanLog s.dir := (hm.stores.wholeLog id).clean
    obtain ⟨_, q, hm', hr⟩ := exec_open_quiet ov hm hclean opts
    exact drained_of_reopened (hm'.mono (Or.rec id not_tearing_quiet)) hr hdb'
  | call c =>
    by_cases hc : c = .compact
    · subst hc
      exact drained_compact ov hm hdb hroom hd hdb'
    · exact drained_call ov hdb hd hc hok hdb'
  | stop => exact absurd rfl hstop

/-- **Runs that return `Ok` throughout.** -/
theorem Orderly.run {s : Sys} {m : Bytes → Option Bytes} (h : Orderly s m) {ops : List Op}
    (hroom : Along (exec ov) (fun s _ => Room s) s (ops.map quietly))
    (hfits : ∀ op ∈ ops, op.Fits) (hstop : .stop ∉ ops) (hok : AllOk ov s ops) :
    Orderly (runSys ov s (ops.map quietly)) (ops.foldl Op.bind m) := by
  induction ops generalizing s m with
  | nil => exact h
  | cons op ops ih =>
    have hop : op ≠ .stop := fun heq => hstop (by simp [heq])
    have hnext := h.step ov hroom.1 (hfits op (by simp)) hop hok.1
    exact ih hnext hroom.2 (fun o ho => hfits o (by simp [ho])) (fun hmem => hstop (by simp [hmem]))
      hok.2

theorem Orderly.init (ov : Overflow) {dir : Dir} (hfresh : Fresh dir) (opts : Options) :
    Orderly (exec ov ⟨dir, none⟩ (quietly (.openWith opts))).2 (fun _ => none) := by
  refine ⟨(Refines.init ov hfresh opts).2, fun db hdb => ?_⟩
  have hm : Models False False ⟨dir, none⟩ _ none := Models.fresh hfresh
  have hclean : CleanLog dir := (hm.stores.wholeLog id).clean
  obtain ⟨_, p, hm', hr⟩ := exec_open_quiet ov hm hclean opts
  exact drained_of_reopened (hm'.mono (Or.rec id not_tearing_quiet)) hr hdb

/-! ## The merged table -/

/-- The bindings the records make. -/
def bindings (records : List Record) : List (Bytes × Bytes) :=
  records.filterMap fun r => r.value.toOption.map (r.key, ·)

/-- Where no record is a tombstone, each is a binding. -/
theorem map_put_bindings {records : List Record} (hputs : ∀ r ∈ records, r.value.toOption ≠ none) :
    records.map (fun r => (r.key, r.value)) = (bindings records).map fun b => (b.1, .put b.2) := by
  induction records with
  | nil => rfl
  | cons r records ih =>
    have hrest := ih fun x hx => hputs x (by simp [hx])
    have hr := hputs r (by simp)
    cases hv : r.value with
    | delete => simp [hv, ValueKind.toOption] at hr
    | put v => simp [bindings, hv, ValueKind.toOption] at hrest ⊢; exact hrest

/-- **With memory empty, the merge of the tables lists the live view.** -/
theorem bindings_lists {d : Disk Record} {p : Proc Record Bytes} (hwf : Wf d p)
    (hmem : ∀ k, p.mem k = none) {rs : List Record} (hsorted : SortedByKey rs)
    (hmerged : Merged d p rs) : Lists (bindings rs) (view (live d p)) := by
  have hlive : live d p = tabled d p := by
    ext x
    simp [live, hmem]
  refine ⟨?_, fun k v => ?_⟩
  · refine List.Pairwise.filterMap _ ?_ hsorted
    intro a b hlt x hx y hy
    simp only [Option.map_eq_some_iff] at hx hy
    obtain ⟨_, _, rfl⟩ := hx
    obtain ⟨_, _, rfl⟩ := hy
    exact hlt
  · rw [view_eq_some hwf.live_coherent, hlive, bindings, List.mem_filterMap]
    constructor
    · intro hfound
      obtain ⟨r, hr, hv⟩ := hfound
      simp only [Option.map_eq_some_iff, Prod.mk.injEq] at hv
      obtain ⟨v', hv', rfl, rfl⟩ := hv
      exact ⟨r, ((hmerged r).mp hr).1, hv'⟩
    · intro hfound
      obtain ⟨r, hnew, hv⟩ := hfound
      have hv' : r.value.toOption = some v := hv
      have hk : r.key = k := hnew.2.1
      subst hk
      refine ⟨r, (hmerged r).mpr ⟨hnew, by simp [hv]⟩, ?_⟩
      rw [hv', Option.map_some]

/-- A swapped store whose old tables are gone holds the merged table only. -/
theorem swapped_files {d : Disk Record} {p : Proc Record Bytes} (hwf : Wf d p)
    (hn : NoLeftover d p) (rs : List Record) {j : Nat} (hj : p.ids.length ≤ j) (i : Nat) :
    (((d.install p.next rs).removeAll (p.ids.take j)).files i).isSome ↔ i = p.next := by
  rw [List.take_of_length_le hj, Disk.removeAll_files]
  constructor
  · intro hi
    split at hi
    · simp at hi
    · rename_i hnot
      by_contra hne
      rw [d.install_files_ne hne] at hi
      exact hnot (hn i hi (lt_of_le_of_ne (hwf.file_le i hi) hne))
  · rintro rfl
    rw [if_neg fun hmem => (hwf.ids_lt _ hmem).ne rfl, d.install_files_self]
    rfl

theorem foundIds_eq_singleton {mayTear : Prop} {dir : Dir} {d : Disk Record}
    (hs : Stores mayTear dir d) {id : Nat} (h : ∀ i, (d.files i).isSome ↔ i = id) :
    foundIds dir = [id] := by
  have hmem : ∀ i, i ∈ foundIds dir ↔ i = id := fun i => (mem_foundIds hs).trans (h i)
  by_contra hne
  rcases ((foundIds_nodup hs).ne_singleton_iff id).mp hne with hnil | ⟨i, hi, hother⟩
  · have hid := (hmem id).mpr rfl
    rw [hnil] at hid
    cases hid
  · exact hother ((hmem i).mp hi)

/-- **A compaction that returns `Ok`**, of a store with nothing in memory. -/
theorem Orderly.compact (ov : Overflow) {s : Sys} {m : Bytes → Option Bytes} (h : Orderly s m)
    {db : Db} (hdb : s.proc = some db) (hmem : ∀ k, db.mem.get k = none) (hroom : Room s)
    (hmany : 2 ≤ db.sstables.length) (hok : (exec ov s (quietly (.call .compact))).1 = .ok ()) :
    Compacted (exec ov s (quietly (.call .compact))).2 m db.nextSstId := by
  obtain ⟨d, p, hm, hn, _, rfl⟩ := h.refines
  obtain ⟨hwf, hrun⟩ := hm.running hdb
  obtain ⟨j, d', p', hend, hm', _⟩ := exec_compact ov hm hdb hroom quiet
  obtain ⟨s', ⟨_, hone⟩, heq⟩ := exec_call ov hdb .compact quiet (compact_one_table ov _)
  rw [show quietly (.call .compact) = ⟨.call .compact, quiet⟩ from rfl] at hok ⊢
  rw [hok] at hend hm' heq
  rw [if_pos (show alive (.ok () : Except (Stop Error) Unit) = true from rfl)] at hm' heq
  have hlen : db.sstables.length = p.ids.length := by rw [hrun.tables, List.length_map]
  obtain ⟨db', hdb', hwf', hrun'⟩ := hm'.up p' rfl
  have hlen' : db'.sstables.length = p'.ids.length := by rw [hrun'.tables, List.length_map]
  have hfew : p'.ids.length ≤ 1 := by
    rw [heq] at hdb'
    obtain rfl : s'.db = db' := Option.some.inj hdb'
    rw [← hlen']
    exact hone hok
  rw [hrun.next]
  cases hend.exit with
  | before => omega
  | installed _ => omega
  | @swapped rs hmerged j =>
    have hj : p.ids.length ≤ j := by
      rcases hend.left with hids | hj | ⟨e, he, _⟩
      · rw [← hids] at hlen
        omega
      · exact hj
      · cases he
    have hfiles := swapped_files hwf hn rs hj
    have hself : ((d.install p.next rs).removeAll (p.ids.take j)).files p.next = some rs := by
      rw [Disk.removeAll_files, if_neg fun hmem => hwf.take_ne_next j _ hmem rfl,
        d.install_files_self]
    have hmemp : ∀ k, p.mem k = none := fun k => by rw [← hrun.mem, hmem]
    refine ⟨?_, ?_, bindings rs, bindings_lists hwf hmemp (hm'.stores.sorted _ _ hself) hmerged, ?_⟩
    · rw [hdb', Option.map_some, hrun'.tables, map_id_handle]
      rfl
    · exact foundIds_eq_singleton hm'.stores hfiles
    · rw [diskTable_eq hm'.stores hself]
      exact map_put_bindings fun r hr => ((hmerged r).mp hr).2

theorem logRecords_of_empty {dir : Dir} (h : walWrites dir = []) : logRecords dir = [] := by
  rw [logRecords, h, List.flatten_nil, Wal.replayBytes_nil]

/-- A flush that returns `Ok` leaves memory and the log empty. -/
theorem Orderly.flush (ov : Overflow) {s : Sys} {m : Bytes → Option Bytes} (h : Orderly s m)
    (hok : (exec ov s (quietly (.call .flush))).1 = .ok ()) :
    ∃ db, (exec ov s (quietly (.call .flush))).2.proc = some db ∧ (∀ k, db.mem.get k = none) ∧
      walWrites (exec ov s (quietly (.call .flush))).2.dir = [] := by
  obtain ⟨d, p, hm, _⟩ := h.refines
  obtain ⟨db, hdb, _⟩ := hm.up p rfl
  obtain ⟨s', hdrained, heq⟩ := exec_call ov hdb .flush quiet
    (flush_drains ov ⟨db, ⟨s.dir, quiet⟩⟩ (h.drained db hdb))
  rw [show quietly (.call .flush) = ⟨.call .flush, quiet⟩ from rfl] at hok ⊢
  obtain ⟨hmem, hwal⟩ := hdrained hok
  rw [heq, hok]
  exact ⟨s'.db, rfl, hmem, hwal⟩

/-- With one table or none, `compact` does nothing. -/
theorem exec_compact_few (ov : Overflow) {s : Sys} {db : Db} (hdb : s.proc = some db)
    (hfew : db.sstables.length < 2) (plan : Plan Site) :
    exec ov s ⟨.call .compact, plan⟩ = (.ok (), s) := by
  have hnothing : Post (Db.compact ov) ⟨db, ⟨s.dir, plan⟩⟩ fun out s' =>
      out = .ok () ∧ s' = ⟨db, ⟨s.dir, plan⟩⟩ := by
    simp only [Db.compact, Post_bind, Post_self]
    rw [if_pos hfew]
    exact ⟨rfl, rfl⟩
  obtain ⟨s', ⟨hok, rfl⟩, heq⟩ := exec_call ov hdb .compact plan hnothing
  refine Prod.ext hok ?_
  rw [heq, hok, ← hdb]
  rfl

/-- The store after the operations `ops` on a fresh directory and a flush. -/
def flushedAfter (ov : Overflow) (dir : Dir) (opts : Options) (ops : List Op) : Sys :=
  runSys ov ⟨dir, none⟩ ((.openWith opts :: (ops ++ [.call .flush])).map quietly)

/-- The same store after a compaction. -/
def compactedAfter (ov : Overflow) (dir : Dir) (opts : Options) (ops : List Op) : Sys :=
  (exec ov (flushedAfter ov dir opts ops) (quietly (.call .compact))).2

/-- **A flush and a compaction leave the live data and nothing else.** After any operations
on a fresh directory, all returning `Ok`, and then these two, memory and the log are empty;
and unless there was one table at most to merge, which stays as it is, the directory has
one table file: the pairs of the map that the puts and deletes made, in key order. -/
theorem compacted_live {dir : Dir} (hfresh : Fresh dir) (opts : Options) (ops : List Op)
    (hstop : .stop ∉ ops) (hfits : ∀ op ∈ ops, op.Fits)
    (hroom : Along (exec ov) (fun s _ => Room s) ⟨dir, none⟩
      ((.openWith opts :: (ops ++ [.call .flush, .call .compact])).map quietly))
    (hok : AllOk ov ⟨dir, none⟩ (.openWith opts :: (ops ++ [.call .flush, .call .compact]))) :
    (∃ db, (compactedAfter ov dir opts ops).proc = some db ∧ ∀ k, db.mem.get k = none) ∧
      logRecords (compactedAfter ov dir opts ops).dir = [] ∧
      ∃ db, (flushedAfter ov dir opts ops).proc = some db ∧
        ((db.sstables.length < 2 ∧
            compactedAfter ov dir opts ops = flushedAfter ov dir opts ops) ∨
          (2 ≤ db.sstables.length ∧ Compacted (compactedAfter ov dir opts ops)
            (ops.foldl Op.bind fun _ => none) db.nextSstId)) := by
  obtain ⟨_, hroom⟩ := hroom
  obtain ⟨_, hok⟩ := hok
  rw [List.map_append] at hroom hok
  obtain ⟨hroom₁, hroom₂, hroom₃, _⟩ := Along.append.mp hroom
  obtain ⟨hok₁, hok₂, hok₃, _⟩ := Along.append.mp hok
  have hs₁ := (Orderly.init ov hfresh opts).run hroom₁ hfits hstop hok₁
  have hflushes : (Op.call .flush).Fits := fun _ _ h => by cases h
  have hs₂ := hs₁.step ov hroom₂ hflushes (by simp) hok₂
  obtain ⟨db, hdb, hmem, hwal⟩ := hs₁.flush ov hok₂
  have hflushed : flushedAfter ov dir opts ops =
      (exec ov (runSys ov (exec ov ⟨dir, none⟩ (quietly (.openWith opts))).2 (ops.map quietly))
        (quietly (.call .flush))).2 := by
    rw [flushedAfter, List.map_cons, runSys, runFrom_cons, List.map_append, runFrom_append]
    rfl
  unfold compactedAfter
  rw [← hflushed] at hs₂ hdb hwal hok₃ hroom₃
  generalize flushedAfter ov dir opts ops = s at *
  obtain ⟨d, p, hm, _⟩ := hs₂.refines
  obtain ⟨_, _, _, _, _, hwal'⟩ := exec_compact ov hm hdb hroom₃ quiet
  obtain ⟨s', ⟨hmem', _⟩, heq⟩ := exec_call ov hdb .compact quiet (compact_one_table ov _)
  refine ⟨⟨s'.db, ?_, ?_⟩, logRecords_of_empty (hwal'.trans hwal), db, hdb, ?_⟩
  · show (exec ov s (quietly (.call .compact))).2.proc = some s'.db
    rw [show quietly (.call .compact) = ⟨.call .compact, quiet⟩ from rfl] at hok₃ ⊢
    rw [heq, hok₃]
    rfl
  · rw [hmem']
    exact hmem
  by_cases hfew : db.sstables.length < 2
  · refine .inl ⟨hfew, ?_⟩
    show (exec ov s ⟨.call .compact, quiet⟩).2 = s
    rw [exec_compact_few ov hdb hfew]
  · exact .inr ⟨Nat.le_of_not_lt hfew,
      hs₂.compact ov hdb hmem hroom₃ (Nat.le_of_not_lt hfew) hok₃⟩

/-- Three tables: an overwritten value, a deleted key, and a new one. -/
def mergeOps : List Op :=
  [.call (.put [97] [1]), .call (.put [98] [2]), .call (.put [97] [3]), .call (.delete [98]),
    .openWith ⟨60⟩, .call (.put [99] [4])]

theorem mergeOps_compacted :
    (∃ db, (compactedAfter .checked ∅ ⟨60⟩ mergeOps).proc = some db ∧
        ∀ k, db.mem.get k = none) ∧
      logRecords (compactedAfter .checked ∅ ⟨60⟩ mergeOps).dir = [] ∧
      ∃ db, (flushedAfter .checked ∅ ⟨60⟩ mergeOps).proc = some db ∧
        ((db.sstables.length < 2 ∧ compactedAfter .checked ∅ ⟨60⟩ mergeOps =
            flushedAfter .checked ∅ ⟨60⟩ mergeOps) ∨
          (2 ≤ db.sstables.length ∧ Compacted (compactedAfter .checked ∅ ⟨60⟩ mergeOps)
            (mergeOps.foldl Op.bind fun _ => none) db.nextSstId)) :=
  compacted_live Fresh.empty ⟨60⟩ mergeOps (by decide) (by decide +kernel) (by decide +kernel)
    (by decide +kernel)

end RustFundamentals.Lsmkv
