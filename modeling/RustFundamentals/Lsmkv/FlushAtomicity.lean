import RustFundamentals.Lsmkv.CompactionSafety

/-!
# lsmkv: flush cut short

A flush, or a compaction before its swap, may stop at any of its calls. In a settled store,
one that shows what its log says and hides nothing that a table on disk would bring back, the
store shows the same before and after, to the process if it is still there and to whoever
reopens the directory, and a flush that is tried again stores what the first one was to store
(`flush_atomic`). A session settles the store when it opens it, and only a write that failed
with its whole frame in the log, or a removal that failed, unsettles it again. That holds
however often flushes were interrupted before.

The three provisos are needed. A put whose `sync` fails is in doubt: its frame is in the log,
its record is not in memory, and the reopen after an interrupted flush shows it
(`inDoubt_appears`). A removal that fails leaves a put that the merge has forgotten
(`leftTable_appears`). And an open that found bytes behind an incomplete frame may have read
a frame nobody wrote (`staleFrame_appears`).
-/

namespace RustFundamentals.Lsmkv

open Foundation Foundation.Fs Foundation.Lsm

variable {ov : Overflow} {loose mayTear : Prop}

/-- The store answers like `m`, to the process if there is one and to whoever reopens the
directory. -/
def Keeps (ov : Overflow) (s : Sys) (m : Bytes → Option Bytes) : Prop :=
  (s.proc.isSome → Serves s m) ∧
    ∀ opts, (exec ov s (quietly (.openWith opts))).1 = .ok () ∧
      Serves (exec ov s (quietly (.openWith opts))).2 m

/-- A flush succeeds: it empties the memory table, and the store answers like `m` as before. -/
def Flushes (ov : Overflow) (s : Sys) (m : Bytes → Option Bytes) : Prop :=
  let s' := (exec ov s (quietly (.call .flush))).2
  (exec ov s (quietly (.call .flush))).1 = .ok () ∧ Keeps ov s' m ∧
    ∃ db, s'.proc = some db ∧ db.mem.isEmpty

/-! ## Settled stores -/

/-- No write is in doubt, since `get` shows what the log says; and no table file below the
next id would bring back a key that memory does not know and `get` does not show. -/
structure Settled (s : Sys) (db : Db) : Prop where
  log_shown : ∀ k r, Newest {x | x ∈ logRecords s.dir} k r → db.get k = .ok r.value.toOption
  buried : ∀ k, db.mem.get k = none → db.get k = .ok none →
    ∀ r, Newest {x | x ∈ leftRecords s.dir db 0} k r → r.value = .delete

theorem settled_iff {s : Sys} {d : Disk Record} {p : Proc Record Bytes} {db : Db}
    (hs : Stores mayTear s.dir d) (hclean : CleanLog s.dir) (hwf : Wf d p)
    (hrun : Running db s.dir d p) : Settled s db ↔ LogShown d p ∧ Buried d p := by
  have hburied : (∀ k, db.mem.get k = none → db.get k = .ok none →
      ∀ r, Newest {x | x ∈ leftRecords s.dir db 0} k r → r.value = .delete) ↔ Buried d p := by
    refine forall_congr' fun k => imp_congr (by rw [hrun.mem]) ?_
    exact imp_congr (get_eq_iff hs hwf hrun) (left_none_iff hs hwf hrun)
  rw [← logShown_iff_get hs hclean hwf hrun, ← hburied]
  exact ⟨fun h => ⟨h.log_shown, h.buried⟩, fun h => ⟨h.1, h.2⟩⟩

/-- The record a step writes, under the number 0. -/
def Op.record : Op → Option Record
  | .call c => c.record 0
  | .openWith _ => none
  | .stop => none

/-- No `sync` or `remove_file` of the step returns an error, and an append that returns one has
not stored the whole frame. -/
def Settling (st : Step) : Prop :=
  (∀ site ∈ [Site.walSync, .removeOld], ∀ f ∈ st.plan site, f.isErr = false) ∧
    ∀ r ∈ st.op.record, ∀ f ∈ st.plan .walAppend, f.isErr = true → f.stored < (frame r).length

instance (st : Step) : Decidable (Settling st) := inferInstanceAs (Decidable (_ ∧ _))

/-- What the `sync` or a removal of a settling step may be blamed for is a death. -/
theorem Settling.died {st : Step} (h : Settling st) {site : Site}
    (hsite : site ∈ [Site.walSync, .removeOld]) {e : Stop Error}
    (hb : BlamedOn st.plan site e) : e = .died :=
  hb.died fun _ hmem => absurd (h.1 site hsite _ hmem) (by simp [Fault.isErr])

/-- So is what an append that stored the whole frame may be blamed for. -/
theorem Settling.append_died {st : Step} (h : Settling st) {c : Call} (hop : st.op = .call c)
    {seq : Seq} {r : Record} (hr : c.record seq = some r) {n : Nat}
    (hn : (frame r).length ≤ n) {e : Stop Error} (hb : BlamedAt st.plan .walAppend n e) :
    e = .died := by
  rcases hb with ⟨hmem, _⟩ | ⟨_, he⟩
  · have hrec : ({ r with seq := 0 } : Record) ∈ st.op.record := by
      rw [hop]
      exact Call.record_zero hr
    have hlen : (frame { r with seq := 0 }).length = (frame r).length := by
      rw [Wal.frame_length, Wal.frame_length]
      exact congrArg (8 + ·) (Record.encode_length_congr rfl rfl)
    have hlt : n < (frame { r with seq := 0 }).length := h.2 _ hrec _ hmem rfl
    omega
  · exact he

/-- A running store shows its log, and has no table on disk that it does not read. -/
def Tidy (s : Sys) : Prop :=
  ∃ d op, Models False True s d op ∧ ∀ p, op = some p → NoLeftover d p ∧ LogShown d p

theorem Tidy.settled {s : Sys} (h : Tidy s) (hclean : CleanLog s.dir) {db : Db}
    (hdb : s.proc = some db) : Settled s db := by
  obtain ⟨d, op, hm, hset⟩ := h
  obtain ⟨p, rfl, hwf, hrun⟩ := hm.of_proc hdb
  obtain ⟨hn, hshown⟩ := hset p rfl
  exact (settled_iff hm.stores hclean hwf hrun).mpr ⟨hshown, hn.buried hwf⟩

/-- **An open tidies the store**, and settling steps keep it so. -/
theorem Tidy.step {s : Sys} {d : Disk Record} {op : Option (Proc Record Bytes)} {st : Step}
    (hm : Models False True s d op) (hsound : Sound False s st)
    (h : (∃ opts, st.op = .openWith opts) ∨
      Settling st ∧ ∀ p, op = some p → NoLeftover d p ∧ LogShown d p) :
    Tidy (exec ov s st).2 := by
  obtain ⟨d', op', hm', hend⟩ := exec_models ov (fun hf => hf.elim) hm hsound
  refine ⟨d', op', hm'.mono fun _ => trivial, ?_⟩
  generalize (exec ov s st).1 = out at hend
  cases hend with
  | @opened _ p _ hr _ =>
    intro q hq
    obtain rfl : p = q := Option.some.inj hq
    exact ⟨hr.noLeftover, hr.logShown (hm.wf.reopen hr)⟩
  | failed _ _ => exact fun p hp => by simp at hp
  | stopped _ => exact fun p hp => by simp at hp
  | absent _ _ => exact fun p hp => by simp at hp
  | @called c p db out d' p' hop hp _ hend =>
    obtain ⟨opts, hopen⟩ | ⟨hst, hset⟩ := h
    · rw [hop] at hopen
      exact absurd hopen (by simp)
    obtain ⟨_, _, hwf, _⟩ := hm.up p hp
    obtain ⟨hn, hshown⟩ := hset p hp
    intro q hq
    cases ha : alive out with
    | false => simp [ha] at hq
    | true =>
      simp only [ha, if_true, Option.some.injEq] at hq
      subst hq
      -- a process that is still there did not die
      have hlive : ∀ e, out = .error e → e ≠ .died := by
        intro e he heq
        subst he
        subst heq
        simp [alive] at ha
      cases hend with
      | @wrote r _ _ _ hrec hwrite =>
        have hseq : r.seq = p.seq := Call.record_seq hrec
        refine ⟨hn.write hwrite.exit, ?_⟩
        cases hwrite with
        | refused _ => exact hshown
        | unlogged _ _ => exact hshown
        | logged _ hb =>
          -- the whole frame is in the log, so the process is gone
          rcases hb with ⟨n, hn, hb⟩ | hb
          · exact absurd (hst.append_died hop hrec hn hb) (hlive _ rfl)
          · exact absurd (hst.died (by simp) hb) (hlive _ rfl)
        | applied _ hflush =>
          exact hflush.exit.logShown (hwf.applied hseq) (hshown.applied hwf hseq)
      | flushed _ hflush => exact ⟨hflush.exit.noLeftover hn, hflush.exit.logShown hwf hshown⟩
      | compacted _ j hcomp =>
        refine ⟨hcomp.exit.noLeftover hn ?_, (hcomp.exit.logShown_iff hwf).mpr hshown⟩
        rcases hcomp.left with hids | hj | ⟨e, he, hb⟩
        · exact .inl hids
        · exact .inr hj
        · exact absurd (hst.died (by simp) hb) (hlive e he)

/-- **A session starts tidy and stays so**, whatever happened before it. -/
theorem tidy_run {dir : Dir} (hfresh : Fresh dir) {before session : List Step}
    {opts : Options} {plan : Plan Site}
    (ha : Along (exec ov) (Sound False) ⟨dir, none⟩
      (before ++ ⟨.openWith opts, plan⟩ :: session))
    (hsession : ∀ st ∈ session, Settling st) :
    Tidy (runSys ov ⟨dir, none⟩ (before ++ ⟨.openWith opts, plan⟩ :: session)) := by
  obtain ⟨hbefore, hopen, hafter⟩ := Along.append.mp ha
  obtain ⟨d, op, hm⟩ := models_run (fun hf => hf.elim) hfresh hbefore
  have hstart : Tidy (exec ov (runSys ov ⟨dir, none⟩ before) ⟨.openWith opts, plan⟩).2 :=
    Tidy.step hm hopen (.inl ⟨opts, rfl⟩)
  rw [runSys, runFrom_append, runFrom_cons]
  generalize (exec ov _ _).2 = s at hstart hafter
  clear hm hopen hbefore ha
  induction session generalizing s with
  | nil => exact hstart
  | cons st session ih =>
    obtain ⟨hsound, hafter⟩ := hafter
    obtain ⟨d, op, hm, hset⟩ := hstart
    have hst : Settling st := hsession st (by simp)
    refine ih (fun st' hst' => hsession st' (by simp [hst'])) _ ?_ hafter
    exact Tidy.step hm hsound (.inr ⟨hst, hset⟩)

/-! ## The interrupted call -/

/-- **A flush step**, however it ends. -/
theorem exec_flush (ov : Overflow) {s : Sys} {d : Disk Record} {p : Proc Record Bytes} {db : Db}
    (hm : Models False mayTear s d (some p)) (hdb : s.proc = some db)
    (hroom : db.nextSstId + 1 < 2 ^ 64) (plan : Plan Site) :
    ∃ d' p', FlushEnd ⟨s.dir, plan⟩ db.mem.records d p (exec ov s ⟨.call .flush, plan⟩).1 d' p' ∧
      Models False mayTear (exec ov s ⟨.call .flush, plan⟩).2 d'
        (if alive (exec ov s ⟨.call .flush, plan⟩).1 then some p' else none) ∧
      ∀ db', (exec ov s ⟨.call .flush, plan⟩).2.proc = some db' →
        Retriable db (exec ov s ⟨.call .flush, plan⟩).1 db' := by
  obtain ⟨hwf, hrun⟩ := hm.running hdb
  have hlt : p.next + 1 < 2 ^ 64 := hrun.next ▸ hroom
  have hspec := flush_spec ov (w := ⟨s.dir, plan⟩) hm.stores hwf hrun (.inr hlt)
  simp only [exec, hdb, Call.run]
  unfold Post at hspec
  generalize (Db.flush ov).run ⟨db, ⟨s.dir, plan⟩⟩ = res at hspec
  obtain ⟨out, s'⟩ := res
  obtain ⟨d', p', hend, hleaves, _, hretry⟩ := hspec
  dsimp only at hend hleaves hretry ⊢
  have hcall : CallEnd ⟨s.dir, plan⟩ db d p .flush _ d' p' := .flushed rfl hend
  refine ⟨d', p', hend, hcall.models hm hleaves (.inr hlt), ?_⟩
  intro db' hdb'
  split at hdb'
  · exact Option.some.inj hdb' ▸ hretry ‹_›
  · exact absurd hdb' (by simp)

/-- Flushing an empty memory table does nothing. -/
theorem exec_flush_empty {s : Sys} {db : Db} (hdb : s.proc = some db)
    (hempty : db.mem.isEmpty = true) (plan : Plan Site) :
    exec ov s ⟨.call .flush, plan⟩ = (.ok (), s) := by
  obtain ⟨dir, proc⟩ := s
  obtain rfl : proc = some db := hdb
  have hrun : (Db.flush ov).run ⟨db, ⟨dir, plan⟩⟩ = (.ok (), ⟨db, ⟨dir, plan⟩⟩) := by
    show (if db.mem.isEmpty = true then (pure () : DbM Unit) else _).run _ = _
    rw [if_pos hempty]
    rfl
  simp only [exec, Call.run, hrun]
  rfl

/-- A settled store with a whole log that answers like `m`. -/
def Steady (s : Sys) (m : Bytes → Option Bytes) : Prop :=
  ∃ d p, Models False False s d (some p) ∧ LogShown d p ∧ Buried d p ∧ view (live d p) = m

theorem Steady.serves {s : Sys} {m : Bytes → Option Bytes} (h : Steady s m) : Serves s m := by
  obtain ⟨d, p, hm, _, _, rfl⟩ := h
  exact hm.serves

/-- It answers so once reopened, too. -/
theorem Steady.keeps {s : Sys} {m : Bytes → Option Bytes} (h : Steady s m) : Keeps ov s m := by
  refine ⟨fun _ => h.serves, fun opts => ?_⟩
  obtain ⟨d, p, hm, hshown, hburied, rfl⟩ := h
  obtain ⟨_, _, hwf, _⟩ := hm.up p rfl
  rw [← hwf.reopened_view_of_buried hshown hburied]
  exact hm.reopen_serves ov (hm.stores.wholeLog id).clean opts

/-- **A quiet flush succeeds**, unless its table is too large. -/
theorem Steady.flushes {s : Sys} {m : Bytes → Option Bytes} (h : Steady s m)
    {db : Db} (hdb : s.proc = some db)
    (hroom : db.mem.isEmpty = true ∨ db.nextSstId + 1 < 2 ^ 64) :
    Flushes ov s m ∨ Exhausts ov s (.call .flush) := by
  by_cases hempty : db.mem.isEmpty = true
  · -- nothing to flush
    left
    unfold Flushes quietly
    rw [exec_flush_empty hdb hempty]
    exact ⟨rfl, h.keeps, db, hdb, hempty⟩
  replace hroom : db.nextSstId + 1 < 2 ^ 64 := hroom.resolve_left hempty
  obtain ⟨d, p, hm, hshown, hburied, hview⟩ := h
  obtain ⟨hwf, hrun⟩ := hm.running hdb
  obtain ⟨d', p', hend, hm', hretry⟩ := exec_flush ov hm hdb hroom quiet
  have hlt : p.next + 1 < 2 ^ 64 := hrun.next ▸ hroom
  unfold Flushes Exhausts quietly
  generalize hout : (exec ov s ⟨.call .flush, quiet⟩).1 = out at hend hm' hretry
  cases out with
  | ok =>
    left
    have hsteady : Steady (exec ov s ⟨.call .flush, quiet⟩).2 m := by
      refine ⟨d', p', hm', hend.exit.logShown hwf hshown, hend.exit.buried hwf hburied, ?_⟩
      rw [hend.exit.live_eq hwf, hview]
    obtain ⟨db'', hdb'', _⟩ := hm'.up p' rfl
    refine ⟨rfl, hsteady.keeps, db'', hdb'', ?_⟩
    rcases hretry db'' hdb'' with hnone | ⟨hne, _⟩
    · exact MemTable.isEmpty_iff.mpr hnone
    · exact absurd rfl hne
  | error e =>
    right
    rcases hend.stop e rfl with hb | ⟨rfl, hover | hge⟩
    · exact absurd quiet_quiet hb.not_quiet
    · exact ⟨rfl, db, .flush, hdb, rfl, hover⟩
    · exact absurd hge (not_le.mpr hlt)

/-- **A flush that stopped anywhere** has changed nothing, and can be tried again. -/
theorem Steady.interrupted_flush {s : Sys} {m : Bytes → Option Bytes} (h : Steady s m)
    (hroom : Room s) (plan : Plan Site) :
    Keeps ov (exec ov s ⟨.call .flush, plan⟩).2 m ∧
      ((exec ov s ⟨.call .flush, plan⟩).2.proc.isSome →
        Flushes ov (exec ov s ⟨.call .flush, plan⟩).2 m) := by
  obtain ⟨d, p, hm, hshown, hburied, hview⟩ := h
  obtain ⟨db, hdb, hwf, hrun⟩ := hm.up p rfl
  have hnext : db.nextSstId + 1 < 2 ^ 64 := (hroom db hdb).2
  obtain ⟨d', p', hend, hm', hretry⟩ := exec_flush ov hm hdb hnext plan
  set s' := (exec ov s ⟨.call .flush, plan⟩).2 with hs'
  have hwf' : Wf d' p' := hend.exit.wf hwf
  have hshown' : LogShown d' p' := hend.exit.logShown hwf hshown
  have hburied' : Buried d' p' := hend.exit.buried hwf hburied
  have hview' : view (live d' p') = m := by rw [hend.exit.live_eq hwf, hview]
  have hstored : view d'.stored = m := by
    rw [hwf'.reopened_view_of_buried hshown' hburied', hview']
  have hsteady : s'.proc.isSome → Steady s' m := fun hsome =>
    ⟨d', p', hm'.of_alive hsome, hshown', hburied', hview'⟩
  refine ⟨⟨fun hsome => (hsteady hsome).serves, fun opts => ?_⟩, fun hsome => ?_⟩
  · rw [← hstored]
    exact hm'.reopen_serves ov (hm'.stores.wholeLog id).clean opts
  have hr : Steady s' m := hsteady hsome
  obtain ⟨db', hdb'⟩ := Option.isSome_iff_exists.mp hsome
  rcases hretry db' hdb' with hnone | ⟨_, hmem, hnext', hfit⟩
  · -- the table is adopted: nothing is left to flush
    have hempty : db'.mem.isEmpty = true := MemTable.isEmpty_iff.mpr hnone
    unfold Flushes quietly
    rw [exec_flush_empty hdb' hempty]
    exact ⟨rfl, hr.keeps, db', hdb', hempty⟩
  · -- the memory table is as it was, and it was found to fit
    refine (hr.flushes hdb' (.inr (hnext' ▸ hnext))).resolve_right ?_
    intro hfound
    obtain ⟨_, db'', c, hdb'', hc, hover⟩ := hfound
    obtain rfl : db' = db'' := Option.some.inj (hdb'.symm.trans hdb'')
    cases hc
    rw [Call.table, hmem] at hover
    exact hfit hover

/-- **A compaction that removed no table** has changed nothing. -/
theorem Steady.interrupted_compact {s : Sys} {m : Bytes → Option Bytes} (h : Steady s m)
    (hroom : Room s) (plan : Plan Site)
    (hkept : ∀ id ∈ foundIds s.dir, id ∈ foundIds (exec ov s ⟨.call .compact, plan⟩).2.dir) :
    Keeps ov (exec ov s ⟨.call .compact, plan⟩).2 m := by
  obtain ⟨d, p, hm, hshown, hburied, hview⟩ := h
  obtain ⟨db, hdb, hwf, hrun⟩ := hm.up p rfl
  obtain ⟨j, d', p', hend, hm', _⟩ := exec_compact ov hm hdb hroom plan
  have hnone : p.ids.take j = [] := by
    refine List.eq_nil_iff_forall_not_mem.mpr fun id hid => ?_
    have hopen : id ∈ p.ids := List.mem_of_mem_take hid
    have hfound : id ∈ foundIds s.dir := (mem_foundIds hm.stores).mpr (hwf.ids_file id hopen)
    have hfile := (mem_foundIds hm'.stores).mp (hkept id hfound)
    exact ((hend.exit.files_iff (hwf.ids_lt id hopen)).mp hfile).2 hid
  have hstored : view d'.stored = m := by
    rw [hend.exit.reopened_view hwf hshown hburied hnone, hview]
  refine ⟨fun hsome => ?_, fun opts => ?_⟩
  · rw [← hview, ← hend.exit.live_view hwf]
    exact (hm'.of_alive hsome).serves
  · rw [← hstored]
    exact hm'.reopen_serves ov (hm'.stores.wholeLog id).clean opts

/-- **A compaction that did not reach the swap** leaves a store that can flush. -/
theorem Steady.interrupted_swap {s : Sys} {m : Bytes → Option Bytes} (h : Steady s m)
    (hroom : Room s) (plan : Plan Site) {db db' : Db} (hdb : s.proc = some db)
    (hdb' : (exec ov s ⟨.call .compact, plan⟩).2.proc = some db')
    (htables : db'.sstables = db.sstables) :
    Flushes ov (exec ov s ⟨.call .compact, plan⟩).2 m ∨
      Exhausts ov (exec ov s ⟨.call .compact, plan⟩).2 (.call .flush) := by
  obtain ⟨d, p, hm, hshown, hburied, hview⟩ := h
  obtain ⟨hwf, hrun⟩ := hm.running hdb
  obtain ⟨j, d', p', hend, hm', _⟩ := exec_compact ov hm hdb hroom plan
  replace hm' := hm'.of_alive (by rw [hdb']; rfl)
  obtain ⟨_, hrun'⟩ := hm'.running hdb'
  -- the open tables are the old ones, so the swap was not reached
  have hids : p'.ids = p.ids := by
    have hmap := congrArg (List.map SsTable.id) htables
    rwa [hrun'.tables, hrun.tables, map_id_handle, map_id_handle] at hmap
  obtain rfl : p' = p := hend.exit.eq_of_ids hwf hids
  have hr : Steady (exec ov s ⟨.call .compact, plan⟩).2 m := by
    refine ⟨d', p', hm', (hend.exit.logShown_iff hwf).mpr hshown,
      hend.exit.buried hwf rfl hburied, ?_⟩
    rw [hend.exit.live_view hwf, hview]
  have hnext : db'.nextSstId + 1 < 2 ^ 64 := by
    rw [hrun'.next, ← hrun.next]
    exact (hroom db hdb).2
  exact hr.flushes hdb' (.inr hnext)

/-- What `flush_atomic` says of a store `s` with the fields `db` that answers like `m`: a flush
that stops at any call, or a compaction that stops before it removes a table, leaves a store
that answers so, to the process and to whoever reopens it; and a flush tried again succeeds. -/
structure FlushAtomic (ov : Overflow) (s : Sys) (db : Db) (m : Bytes → Option Bytes) : Prop where
  flush : ∀ plan, Keeps ov (exec ov s ⟨.call .flush, plan⟩).2 m
  retry : ∀ plan, (exec ov s ⟨.call .flush, plan⟩).2.proc.isSome →
    Flushes ov (exec ov s ⟨.call .flush, plan⟩).2 m
  compact : ∀ plan,
    (∀ id ∈ foundIds s.dir, id ∈ foundIds (exec ov s ⟨.call .compact, plan⟩).2.dir) →
      Keeps ov (exec ov s ⟨.call .compact, plan⟩).2 m
  /-- Before the swap of the open tables. -/
  compact_retry : ∀ plan db', (exec ov s ⟨.call .compact, plan⟩).2.proc = some db' →
    db'.sstables = db.sstables →
    Flushes ov (exec ov s ⟨.call .compact, plan⟩).2 m ∨
      Exhausts ov (exec ov s ⟨.call .compact, plan⟩).2 (.call .flush)

/-- **Flush is atomic.** In a run in which no open finds bytes behind an incomplete frame,
calls may fail and the process may die anywhere. A session of settling steps leaves the store
settled; and where a settled store's log holds whole frames only, flush is atomic. -/
theorem flush_atomic {dir : Dir} (hfresh : Fresh dir) {steps : List Step}
    (ha : Along (exec ov) (Sound False) ⟨dir, none⟩ steps) {db : Db}
    (hdb : (runSys ov ⟨dir, none⟩ steps).proc = some db)
    (hwhole : WholeLog (runSys ov ⟨dir, none⟩ steps).dir)
    (hroom : Room (runSys ov ⟨dir, none⟩ steps)) :
    let s := runSys ov ⟨dir, none⟩ steps
    (∀ before opts plan session, steps = before ++ ⟨.openWith opts, plan⟩ :: session →
        (∀ st ∈ session, Settling st) → Settled s db) ∧
      (Settled s db → ∃ m, Serves s m ∧ FlushAtomic ov s db m) := by
  intro s
  refine ⟨?_, fun hsettled => ?_⟩
  · intro before opts plan session hsteps hsession
    subst hsteps
    exact (tidy_run hfresh ha hsession).settled hwhole.clean hdb
  obtain ⟨d, op, hm⟩ := models_run (fun hf => hf.elim) hfresh ha
  obtain ⟨p, rfl, hwf, hrun⟩ := hm.of_proc hdb
  obtain ⟨hshown, hburied⟩ := (settled_iff hm.stores hwhole.clean hwf hrun).mp hsettled
  have hr : Steady s (view (live d p)) :=
    ⟨d, p, { hm with stores := hm.stores.whole hwhole }, hshown, hburied, rfl⟩
  exact ⟨_, hr.serves,
    { flush := fun plan => (hr.interrupted_flush hroom plan).1
      retry := fun plan => (hr.interrupted_flush hroom plan).2
      compact := fun plan => hr.interrupted_compact hroom plan
      compact_retry := fun plan db' => hr.interrupted_swap hroom plan hdb }⟩

/-- A put whose sync fails, and a put. -/
def inDoubt : List Step :=
  [⟨.openWith .default, quiet⟩,
    ⟨.call (.put [97] [1]), faultsAt .walSync [.err 0]⟩,
    ⟨.call (.put [98] [2]), quiet⟩]

/-- A put that fails after three bytes of its frame and the flush that truncates them away, a
flush that fails at its rename, one that dies in its truncation of the log, and writes between
them and after the reopen. -/
def interruptedFlushes : List Step :=
  [⟨.call (.put [97] [2]), quiet⟩,
    ⟨.call (.put [99] [4]), faultsAt .walAppend [.err 3]⟩,
    ⟨.call .flush, quiet⟩,
    ⟨.call (.delete [97]), quiet⟩,
    ⟨.call .flush, faultsAt .tmpRename [.err 0]⟩,
    ⟨.call .flush, faultsAt .walSetLen [.die 0]⟩,
    ⟨.openWith .default, quiet⟩,
    ⟨.call (.put [98] [3]), quiet⟩]

theorem interruptedFlushes_atomic :
    ∃ db m, Serves (runSys .checked ⟨∅, none⟩
        (inDoubt ++ ⟨.openWith .default, quiet⟩ :: interruptedFlushes)) m ∧
      FlushAtomic .checked (runSys .checked ⟨∅, none⟩
        (inDoubt ++ ⟨.openWith .default, quiet⟩ :: interruptedFlushes)) db m := by
  have hsome : (runSys .checked ⟨∅, none⟩
      (inDoubt ++ ⟨.openWith .default, quiet⟩ :: interruptedFlushes)).proc.isSome := by
    decide +kernel
  obtain ⟨db, hdb⟩ := Option.isSome_iff_exists.mp hsome
  have halong : Along (exec .checked) (Sound False) ⟨∅, none⟩
      (inDoubt ++ ⟨.openWith .default, quiet⟩ :: interruptedFlushes) := by decide +kernel
  obtain ⟨hsettled, hatomic⟩ :=
    flush_atomic Fresh.empty halong hdb (by decide +kernel) (by decide +kernel)
  exact ⟨db, hatomic (hsettled inDoubt .default quiet interruptedFlushes rfl (by decide +kernel))⟩

/-- **A put in doubt appears** at the reopen after a flush that dies before it writes a table,
though all frames of the log are whole. -/
theorem inDoubt_appears :
    let s := runSys .checked ⟨∅, none⟩ inDoubt
    let s' := runSys .checked s
      [⟨.call .flush, faultsAt .tmpCreate [.die 0]⟩, ⟨.openWith .default, quiet⟩]
    WholeLog s.dir ∧ s.proc.map (·.get [97]) = some (.ok none) ∧
      s'.proc.map (·.get [97]) = some (.ok (some [1])) := by
  decide +kernel

/-- A compaction whose second removal fails, so that the put of a deleted key stays on disk,
and a put whose flush fails. -/
def leftTable : List Step :=
  [⟨.openWith ⟨0⟩, quiet⟩,
    ⟨.call (.put [97] [1]), quiet⟩,
    ⟨.call (.put [98] [2]), quiet⟩,
    ⟨.call (.delete [97]), quiet⟩,
    ⟨.call .compact, faultsAt .removeOld [.ok, .err 0]⟩,
    ⟨.call (.put [99] [3]), faultsAt .tmpCreate [.err 0]⟩]

/-- **A table left by a failed removal appears** the same way. -/
theorem leftTable_appears :
    let s := runSys .checked ⟨∅, none⟩ leftTable
    let s' := runSys .checked s
      [⟨.call .flush, faultsAt .tmpCreate [.die 0]⟩, ⟨.openWith .default, quiet⟩]
    WholeLog s.dir ∧ s.proc.map (·.get [97]) = some (.ok none) ∧
      s'.proc.map (·.get [97]) = some (.ok (some [1])) := by
  decide +kernel

/-- A put whose frame lacks its last four bytes, which are those the next session's first frame
begins with; an open that replays the frame so completed over a newer one, and a flush. -/
def staleFrame : List Step :=
  [⟨.openWith .default, quiet⟩,
    ⟨.call (.put [97] [106, 182, 238, 242]), faultsAt .walAppend [.die 26]⟩,
    ⟨.openWith .default, quiet⟩,
    ⟨.call (.put [97] [2]), quiet⟩,
    ⟨.call (.put [97] [3]), quiet⟩,
    ⟨.call .flush, faultsAt .walSetLen [.die 0]⟩,
    ⟨.openWith .default, quiet⟩,
    ⟨.call .flush, quiet⟩]

/-- **A frame nobody wrote is on top of a newer one**, until a compaction that dies before its
swap has merged them, though nothing but the process ever failed and the log is whole. -/
theorem staleFrame_appears :
    let s := runSys .checked ⟨∅, none⟩ staleFrame
    let s' := runSys .checked s
      [⟨.call .compact, faultsAt .tmpSyncDir [.die 0]⟩, ⟨.openWith .default, quiet⟩]
    (∀ st ∈ staleFrame, CrashOnly st.plan) ∧ WholeLog s.dir ∧
      s.proc.map (·.get [97]) = some (.ok (some [106, 182, 238, 242])) ∧
      s'.proc.map (·.get [97]) = some (.ok (some [3])) := by
  decide +kernel

end RustFundamentals.Lsmkv
