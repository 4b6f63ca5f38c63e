import RustFundamentals.Lsmkv.Moves
import RustFundamentals.Lsmkv.Reads

/-!
# lsmkv: every way an operation can end

One spec lemma for each operation of the store, under every fault plan: the abstract disk
and process it leaves (one of the ends of `LsmViews`) and what accounts for its stopping
there.
-/

namespace RustFundamentals.Lsmkv

open Foundation Foundation.Fs Foundation.Lsm

variable {mayTear : Prop} {ov : Overflow} {d : Disk Record} {p : Proc Record Bytes}

/-- What an operation that ended with `out` in `s'` left behind: a directory that stands for
`d'` and, if the process is still there, a `Db` that stands for `p'`. -/
structure Leaves {α : Type} (mayTear : Prop) (out : Except (Stop Error) α) (s' : Session)
    (d' : Disk Record)
    (p' : Proc Record Bytes) : Prop where
  stores : Stores mayTear s'.world.dir d'
  running : alive out = true → Running s'.db s'.world.dir d' p'

/-- The table of `rs` is beyond what one allocation may hold. -/
def Oversize (rs : List Record) : Prop :=
  isizeMax < (image rs).length ∨ isizeMax < rs.length * indexEntrySize

/-- Only the log of the disk changes: the handles stay. -/
theorem Running.withLog {db : Db} {dir dir' : Dir} (h : Running db dir d p) (log : List Record)
    (hwal : (dir'.lookup walName).isSome) : Running db dir' { d with log := log } p :=
  { h with wal := hwal }

/-! ## The log -/

/-- **Every way `append` can end.** -/
theorem append_spec {w : World Site} (hs : Stores mayTear w.dir d)
    (hwal : (w.dir.lookup walName).isSome)
    {r : Record} (hr : r.Fits) :
    Post (Wal.append r) w fun out w' =>
      Plan.Rest w'.plan w.plan ∧ (w'.dir.lookup walName).isSome ∧
      ((out = .ok () ∧ Stores mayTear w'.dir (d.append r)) ∨
        ∃ n e, out = .error e ∧ BlamedAt w.plan .walAppend n e ∧
          (Stores (mayTear ∨ Tearing w.plan) w'.dir d ∨
            (frame r).length ≤ n ∧
              Stores (mayTear ∨ Tearing w.plan) w'.dir (d.append r))) := by
  rw [Wal.append, writeAll]
  refine Post_call ?_ fun n e h => ?_
  · exact ⟨w.advance_rest _, wal_append_isSome hwal _, .inl ⟨rfl, hs.append hwal hr⟩⟩
  · exact ⟨w.advance_rest _, wal_append_isSome hwal _,
      .inr ⟨n, e, rfl, h.blamedAt,
        (hs.mono .inl).appendPart (.inr ⟨e, h.blamedOn⟩) hwal hr n⟩⟩

/-- **Every way `reset` can end.** -/
theorem reset_spec {w : World Site} (hs : Stores mayTear w.dir d)
    (hwal : (w.dir.lookup walName).isSome) :
    Post Wal.reset w fun out w' =>
      Plan.Rest w'.plan w.plan ∧ (w'.dir.lookup walName).isSome ∧
      ((Stores mayTear w'.dir d ∧ ∃ e, out = .error e ∧ Blames w.plan e) ∨
        (Stores mayTear w'.dir d.truncate ∧
          (out = .ok () ∨ ∃ e, out = .error e ∧ Blames w.plan e))) := by
  have htr : (Dir.truncate w.dir walName).lookup walName = some ⟨[]⟩ := by
    obtain ⟨f, hf⟩ := Option.isSome_iff_exists.mp hwal
    exact Dir.lookup_truncate_self hf
  rw [Wal.reset, Post_bind]
  refine Post_call ?_ fun n e h =>
    ⟨w.advance_rest _, hwal, .inl ⟨hs, e, rfl, h.blames⟩⟩
  set w₁ : World Site := ⟨Dir.truncate w.dir walName, w.advance .walSetLen⟩ with hw₁
  have hp₁ : Plan.Rest w₁.plan w.plan := w.advance_rest _
  have hs₁ : Stores mayTear w₁.dir d.truncate := hs.truncate
  have hwal₁ : (w₁.dir.lookup walName).isSome := by simp [hw₁, htr]
  simp only [Post_bind]
  refine Post_tick ?_ fun n e h => ⟨(w₁.advance_rest _).trans hp₁, hwal₁, .inr ⟨hs₁, .inr
    ⟨e, rfl, h.blames.mono hp₁⟩⟩⟩
  set w₂ : World Site := ⟨w₁.dir, w₁.advance .walResetSync⟩ with hw₂
  have hp₂ : Plan.Rest w₂.plan w.plan := (w₁.advance_rest _).trans hp₁
  refine Post_call ?_ fun n e h => ⟨(w₂.advance_rest _).trans hp₂, hwal₁, .inr ⟨hs₁, .inr
    ⟨e, rfl, h.blames.mono hp₂⟩⟩⟩
  exact ⟨(w₂.advance_rest _).trans hp₂, wal_touch_isSome _, .inr ⟨hs₁.touch, .inl rfl⟩⟩

/-! ## Flush -/

/-- How a flush of the memory table `recs` ended. -/
structure FlushEnd (w : World Site) (recs : List Record) (d : Disk Record)
    (p : Proc Record Bytes) (out : Except (Stop Error) Unit) (d' : Disk Record)
    (p' : Proc Record Bytes) : Prop where
  exit : FlushExit d p d' p'
  stop : ∀ e, out = .error e →
    Blames w.plan e ∨ (e = .panicked ∧ (Oversize recs ∨ 2 ^ 64 ≤ p.next + 1))

theorem Running.memory {db : Db} {dir : Dir} (hr : Running db dir d p) :
    Memory p db.mem.records := by
  intro r
  rw [MemTable.records, RecordMap.mem_records hr.keyed]
  exact iff_of_eq (congrArg (· = some r) (hr.mem r.key))

theorem Running.storable {db : Db} {dir : Dir} (hs : Stores mayTear dir d) (hwf : Wf d p)
    (hr : Running db dir d p) (hsize : (image db.mem.records).length ≤ isizeMax)
    (hfew : db.mem.records.length * indexEntrySize ≤ isizeMax) :
    SsTable.Storable db.mem.records where
  fits := fun r hmem => hs.log.fits r (hwf.mem_log _ _ ((hr.memory r).mp hmem)).1
  small := hsize
  few := hfew

theorem handle_install_ne {id next : Nat} (h : id ≠ next) (rs : List Record) :
    handle (d.install next rs) id = handle d id := by
  rw [handle, d.install_files_ne h, handle]

/-- The open handles survive the installation of a table. -/
theorem Running.install {db : Db} {dir dir' : Dir} (hwf : Wf d p) (hr : Running db dir d p)
    {rs : List Record} (h : Installed p.next rs dir dir') :
    Running db dir' (d.install p.next rs) p :=
  { hr with
    tables := by
      rw [hr.tables]
      exact List.map_congr_left fun i hi => (handle_install_ne (hwf.ids_lt i hi).ne rs).symm
    wal := by
      rw [h.other walName (tmpPath_ne_walName _).symm (sstPath_ne_walName _).symm]
      exact hr.wal }

theorem Running.sameButTmp {db : Db} {dir dir' : Dir} (hr : Running db dir d p) {id : Nat}
    (h : SameButTmp id dir dir') : Running db dir' d p :=
  { hr with wal := by rw [h walName (tmpPath_ne_walName id).symm]; exact hr.wal }

theorem Running.sameDir {db : Db} {dir dir' : Dir} (hr : Running db dir d p)
    (h : dir' = dir) : Running db dir' d p := h ▸ hr

/-! ### A table written and opened -/

/-- From `w` to `w'` the `Db` and the log file stayed as they were, and the disk the process `p`
runs on became `d'`. -/
structure Kept (mayTear : Prop) (db : Db) (w : World Site) (p : Proc Record Bytes)
    (d' : Disk Record) (w' : World Site) : Prop where
  stores : Stores mayTear w'.dir d'
  running : Running db w'.dir d' p
  plan : Plan.Rest w'.plan w.plan
  log : w'.dir.lookup walName = w.dir.lookup walName

theorem Kept.refl {db : Db} {w : World Site} (hs : Stores mayTear w.dir d)
    (hr : Running db w.dir d p) : Kept mayTear db w p d w := ⟨hs, hr, Plan.Rest.refl _, rfl⟩

/-- Reads keep everything. -/
theorem Kept.onlyRead {db : Db} {w w₁ w' : World Site} (h : Kept mayTear db w p d w₁)
    (hr : OnlyRead w₁ w') : Kept mayTear db w p d w' where
  stores := hr.dir ▸ h.stores
  running := h.running.sameDir hr.dir
  plan := hr.plan.trans h.plan
  log := by rw [hr.dir, h.log]

theorem Kept.sameButTmp {db : Db} {w w₁ w' : World Site} (h : Kept mayTear db w p d w₁) {id : Nat}
    (htmp : SameButTmp id w₁.dir w'.dir) (hp : Plan.Rest w'.plan w₁.plan) :
    Kept mayTear db w p d w' where
  stores := h.stores.congr htmp
  running := h.running.sameButTmp htmp
  plan := hp.trans h.plan
  log := by rw [htmp walName (tmpPath_ne_walName _).symm, h.log]

theorem Kept.install {db : Db} {w w₁ w' : World Site} (h : Kept mayTear db w p d w₁) (hwf : Wf d p)
    {rs : List Record} (hstore : SsTable.Storable rs) (hsorted : SortedByKey rs)
    (hinst : Installed p.next rs w₁.dir w'.dir) (hp : Plan.Rest w'.plan w₁.plan) :
    Kept mayTear db w p (d.install p.next rs) w' where
  stores := h.stores.install hinst hstore hsorted h.running.next_lt
  running := h.running.install hwf hinst
  plan := hp.trans h.plan
  log := by
    rw [hinst.other walName (tmpPath_ne_walName _).symm (sstPath_ne_walName _).symm, h.log]

/-- What accounts for a stop with `e` while the table of `rs` was made: the plan, or the
allocation the table asks for. -/
def MakeFailed (w : World Site) (rs : List Record) (e : Stop Error) : Prop :=
  (Blames w.plan e ∧ ¬ Oversize rs) ∨ (e = .panicked ∧ Oversize rs)

/-- How writing the table of `rs` and opening it ended. -/
inductive MakeEnd (mayTear : Prop) (db : Db) (w : World Site) (rs : List Record)
    (d : Disk Record) (p : Proc Record Bytes) : Except (Stop Error) SsTable → World Site → Prop
  | unwritten {e w'} (h : Kept mayTear db w p d w') (hfail : MakeFailed w rs e) :
      MakeEnd mayTear db w rs d p (.error e) w'
  | unopened {e w'} (h : Kept mayTear db w p (d.install p.next rs) w')
      (hfail : MakeFailed w rs e) : MakeEnd mayTear db w rs d p (.error e) w'
  | opened {w'} (h : Kept mayTear db w p (d.install p.next rs) w') :
      MakeEnd mayTear db w rs d p (.ok (SsTable.ofRecords p.next rs)) w'

/-- **Every way a table can be made.** -/
theorem makeTable_spec {db : Db} {w w₁ : World Site} {rs : List Record} (hwf : Wf d p)
    (h : Kept mayTear db w p d w₁) (hsorted : SortedByKey rs)
    (hstorable : ¬ Oversize rs → SsTable.Storable rs) :
    Post (SsTable.write p.next rs >>= fun path => SsTable.openTable path p.next) w₁
      (MakeEnd mayTear db w rs d p) := by
  rw [Post_bind]
  refine (SsTable.write_spec p.next rs w₁).mono ?_
  intro out w₂ hpost
  obtain ⟨hp₂, ⟨rfl, rfl, hbig⟩ | ⟨hsize, hfew, hrest⟩⟩ := hpost
  · -- the image does not fit in memory
    exact .unwritten h (.inr ⟨rfl, hbig⟩)
  have hfit : ¬ Oversize rs := not_or.mpr ⟨not_lt.mpr hsize, not_lt.mpr hfew⟩
  have hfail : ∀ e, Blames w₁.plan e → MakeFailed w rs e :=
    fun e hb => .inl ⟨hb.mono h.plan, hfit⟩
  rcases hrest with ⟨e, rfl, hb, htmp⟩ | ⟨hinst, hout⟩
  · -- at most the temporary file was written
    exact .unwritten (h.sameButTmp htmp hp₂) (hfail e hb)
  have h₂ : Kept mayTear db w p (d.install p.next rs) w₂ :=
    h.install hwf (hstorable hfit) hsorted hinst hp₂
  rcases hout with rfl | ⟨e, rfl, hb⟩
  swap
  · -- the table is in place, its directory entry is not synced
    exact .unopened h₂ (hfail e hb)
  obtain ⟨f, hf, hfb⟩ := hinst.table
  refine Post_onlyRead (.refl w₂) (SsTable.openTable_readOnly p.next (hstorable hfit) hf hfb)
    (fun w₃ h₃ => .opened (h₂.onlyRead h₃)) fun w₃ e h₃ hb => ?_
  exact .unopened (h₂.onlyRead h₃) (hfail e (hb.mono hp₂))

/-- What a flush that the process survives leaves of the memory table: nothing, or, where it
returned an error, all of it, and then the table fits in memory. -/
def Retriable (db : Db) (out : Except (Stop Error) Unit) (db' : Db) : Prop :=
  (∀ k, db'.mem.get k = none) ∨
    (out ≠ .ok () ∧ db'.mem = db.mem ∧ db'.nextSstId = db.nextSstId ∧ ¬ Oversize db.mem.records)

/-- A flush whose table was not made ends with the `Db` as it was. -/
theorem FlushEnd.unmade {db : Db} {w w' : World Site} {d' : Disk Record} {e : Stop Error}
    (hexit : FlushExit d p d' p) (h : Kept mayTear db w p d' w')
    (hfail : MakeFailed w db.mem.records e) :
    ∃ d' p', FlushEnd w db.mem.records d p (.error e) d' p' ∧
      Leaves mayTear (.error e : Except (Stop Error) Unit) ⟨db, w'⟩ d' p' ∧
        Plan.Rest w'.plan w.plan ∧
          (alive (.error e : Except (Stop Error) Unit) = true → Retriable db (.error e) db) := by
  refine ⟨d', p, ⟨hexit, ?_⟩, ⟨h.stores, fun _ => h.running⟩, h.plan, ?_⟩
  · intro e' he'
    cases he'
    exact hfail.imp And.left fun hbig => ⟨hbig.1, .inl hbig.2⟩
  · intro ha
    rcases hfail with ⟨_, hfit⟩ | ⟨rfl, _⟩
    · exact .inr ⟨by simp, rfl, rfl, hfit⟩
    · simp [alive] at ha

/-- The `Db` once it has adopted the table of its memory under `id`. -/
def Db.adopted (db : Db) (id : Nat) : Db :=
  { db with
    sstables := SsTable.ofRecords id db.mem.records :: db.sstables
    nextSstId := id + 1
    mem := db.mem.clear }

/-- The store reads the new table once it is adopted, whatever becomes of the log. -/
theorem Running.adopt {db : Db} {dir dir' : Dir}
    (hr : Running db dir (d.install p.next db.mem.records) p) (hlt : p.next + 1 < 2 ^ 64)
    (log : List Record) (hwal : (dir'.lookup walName).isSome) :
    Running (db.adopted p.next) dir' { d.install p.next db.mem.records with log := log }
      p.adopt where
  mem := fun k => MemTable.get_clear db.mem k
  keyed := Keyed.empty
  tables := by
    have hhead : handle { d.install p.next db.mem.records with log := log } p.next =
        SsTable.ofRecords p.next db.mem.records := by
      simp [handle, Disk.install_files_self]
    show SsTable.ofRecords p.next db.mem.records :: db.sstables = _ :: _
    rw [hhead, hr.tables]
    rfl
  seq := hr.seq
  next := rfl
  wal := hwal
  seq_lt := hr.seq_lt
  next_lt := hlt

/-- A flush that adopted its table, whatever became of the log. -/
theorem FlushEnd.adopted {db : Db} {w w₂ w' : World Site} {out : Except (Stop Error) Unit}
    {log : List Record} (hlt : p.next + 1 < 2 ^ 64)
    (h : Kept mayTear db w p (d.install p.next db.mem.records) w₂)
    (hexit : FlushExit d p { d.install p.next db.mem.records with log := log } p.adopt)
    (hs : Stores mayTear w'.dir { d.install p.next db.mem.records with log := log })
    (hwal : (w'.dir.lookup walName).isSome) (hp : Plan.Rest w'.plan w₂.plan)
    (hcause : ∀ e, out = .error e → Blames w₂.plan e) :
    ∃ d' p', FlushEnd w db.mem.records d p out d' p' ∧
      Leaves mayTear out ⟨db.adopted p.next, w'⟩ d' p' ∧ Plan.Rest w'.plan w.plan ∧
        (alive out = true → Retriable db out (db.adopted p.next)) :=
  ⟨_, p.adopt, ⟨hexit, fun e he => .inl ((hcause e he).mono h.plan)⟩,
    ⟨hs, fun _ => h.running.adopt hlt log hwal⟩, hp.trans h.plan,
    fun _ => .inl fun k => MemTable.get_clear db.mem k⟩

/-- **Every way `flush` can end.** -/
theorem flush_spec (ov : Overflow) {db : Db} {w : World Site} (hs : Stores mayTear w.dir d)
    (hwf : Wf d p)
    (hr : Running db w.dir d p) (hroom : ov = .checked ∨ p.next + 1 < 2 ^ 64) :
    Post (Db.flush ov) ⟨db, w⟩ fun out s' => ∃ d' p',
      FlushEnd w db.mem.records d p out d' p' ∧ Leaves mayTear out s' d' p' ∧
        Plan.Rest s'.world.plan w.plan ∧ (alive out = true → Retriable db out s'.db) := by
  simp only [Db.flush, Post_bind, Post_self]
  split
  · rename_i hempty
    refine ⟨d, p, ⟨.before, by rintro e ⟨⟩⟩, ⟨hs, fun _ => hr⟩, Plan.Rest.refl _, fun _ => .inl ?_⟩
    exact MemTable.isEmpty_iff.mp hempty
  simp only [Post_bind, Post_onDisk, hr.next]
  have hstorable : ¬ Oversize db.mem.records → SsTable.Storable db.mem.records := fun hfit =>
    hr.storable hs hwf (not_lt.mp (not_or.mp hfit).1) (not_lt.mp (not_or.mp hfit).2)
  have hmake := makeTable_spec hwf (.refl hs hr) (RecordMap.records_sorted hr.keyed) hstorable
  refine Post_of_bind (hmake.mono ?_)
  intro out w₂ hend
  cases hend with
  | unwritten h hfail => exact FlushEnd.unmade .before h hfail
  | unopened h hfail => exact FlushEnd.unmade (.installed hr.memory) h hfail
  | opened h =>
  simp only [Post_update]
  refine Post_fit hroom (fun hlt => ?_) fun hge => ?_
  swap
  · -- the table ids are used up
    refine ⟨_, p, ⟨.installed hr.memory, ?_⟩, ⟨h.stores, by simp [alive]⟩, h.plan,
      fun ha => by simp [alive] at ha⟩
    intro e he
    cases he
    exact .inr ⟨rfl, .inr hge⟩
  refine (reset_spec h.stores h.running.wal).mono ?_
  intro out w₃ hpost
  obtain ⟨hp₃, hwal₃, ⟨hs₃, e, rfl, hb⟩ | ⟨hs₃, hout⟩⟩ := hpost
  · refine FlushEnd.adopted hlt h (.adopted hr.memory) hs₃ hwal₃ hp₃ ?_
    intro e' he'
    cases he'
    exact hb
  · refine FlushEnd.adopted hlt h (.truncated hr.memory) hs₃ hwal₃ hp₃ ?_
    intro e' he'
    subst he'
    rcases hout with hout | ⟨e, he, hb⟩
    · exact absurd hout (by simp)
    · rw [Except.error.injEq] at he
      exact he ▸ hb

/-! ## Writes -/

/-- How a write of `r` ended, `recs` being the memory table with `r` applied. -/
inductive WriteEnd (w : World Site) (recs : List Record) (d : Disk Record)
    (p : Proc Record Bytes) (r : Record) :
    Except (Stop Error) Unit → Disk Record → Proc Record Bytes → Prop
  | refused (h : 2 ^ 64 ≤ p.seq + 1) : WriteEnd w recs d p r (.error .panicked) d p
  | unlogged {e} (hlt : p.seq + 1 < 2 ^ 64) (h : BlamedOn w.plan .walAppend e) :
      WriteEnd w recs d p r (.error e) d p.bump
  | logged {e} (hlt : p.seq + 1 < 2 ^ 64)
      (h : (∃ n, (frame r).length ≤ n ∧ BlamedAt w.plan .walAppend n e) ∨
        BlamedOn w.plan .walSync e) :
      WriteEnd w recs d p r (.error e) (d.append r) p.bump
  | applied {out d' p'} (hlt : p.seq + 1 < 2 ^ 64)
      (h : FlushEnd w recs (d.append r) (p.bump.insert r) out d' p') :
      WriteEnd w recs d p r out d' p'

theorem WriteEnd.exit {w : World Site} {recs : List Record} {r : Record}
    {out : Except (Stop Error) Unit} {d' : Disk Record} {p' : Proc Record Bytes}
    (h : WriteEnd w recs d p r out d' p') : WriteExit d p r d' p' := by
  cases h with
  | refused _ => exact .refused
  | unlogged _ _ => exact .unlogged
  | logged _ _ => exact .logged
  | applied _ h => exact .applied h.exit

/-- **Every way `maybe_flush` can end.** -/
theorem maybeFlush_spec {db : Db} {w : World Site} (hs : Stores mayTear w.dir d) (hwf : Wf d p)
    (hr : Running db w.dir d p) (hroom : ov = .checked ∨ p.next + 1 < 2 ^ 64) :
    Post (Db.maybeFlush ov) ⟨db, w⟩ fun out s' => ∃ d' p',
      FlushEnd w db.mem.records d p out d' p' ∧ Leaves mayTear out s' d' p' ∧
        Plan.Rest s'.world.plan w.plan := by
  simp only [Db.maybeFlush, Post_bind, Post_self]
  split
  · refine (flush_spec ov hs hwf hr hroom).mono ?_
    intro out s' hpost
    obtain ⟨d', p', hend, hleaves, hp, _⟩ := hpost
    exact ⟨d', p', hend, hleaves, hp⟩
  · exact ⟨d, p, ⟨.before, by rintro e ⟨⟩⟩, ⟨hs, fun _ => hr⟩, Plan.Rest.refl _⟩

/-- **Every way a write can end.** -/
theorem writeRecord_spec {db : Db} {w : World Site} (mk : Seq → Record)
    (hs : Stores mayTear w.dir d)
    (hwf : Wf d p) (hr : Running db w.dir d p) (hseq : (mk p.seq).seq = p.seq)
    (hfits : (mk p.seq).Fits)
    (hroom : ov = .checked ∨ (p.seq + 1 < 2 ^ 64 ∧ p.next + 1 < 2 ^ 64)) :
    Post (Db.writeRecord ov mk) ⟨db, w⟩ fun out s' => ∃ d' p',
      WriteEnd w (db.mem.insert (mk p.seq)).records d p (mk p.seq) out d' p' ∧
        Leaves (mayTear ∨ Tearing w.plan) out s' d' p' ∧ Plan.Rest s'.world.plan w.plan := by
  have hseqroom : ov = .checked ∨ p.seq + 1 < 2 ^ 64 := hroom.imp_right And.left
  have hidroom : ov = .checked ∨ p.next + 1 < 2 ^ 64 := hroom.imp_right And.right
  simp only [Db.writeRecord, Post_bind, Post_self, hr.seq]
  refine Post_fit hseqroom (fun hlt => ?_) fun hge => ?_
  swap
  · exact ⟨d, p, .refused hge, ⟨hs.mono .inl, by simp [alive]⟩, Plan.Rest.refl _⟩
  set r := mk p.seq with hrdef
  -- the number is taken, whatever follows
  have hr₁ : Running { db with seq := p.seq + 1 } w.dir d p.bump :=
    { hr with seq := rfl, seq_lt := hlt }
  simp only [Post_update, Post_onDisk]
  refine (append_spec hs hr.wal hfits).mono ?_
  intro out w₁ hpost
  obtain ⟨hp₁, hwal₁, ⟨rfl, hs₁⟩ | ⟨n, e, rfl, hb, hs₁ | ⟨hn, hs₁⟩⟩⟩ := hpost
  rotate_left
  · exact ⟨d, p.bump, .unlogged hlt hb.blamedOn, ⟨hs₁, fun _ => hr₁.withLog _ hwal₁⟩, hp₁⟩
  · exact ⟨_, p.bump, .logged hlt (.inl ⟨n, hn, hb⟩), ⟨hs₁, fun _ => hr₁.withLog _ hwal₁⟩, hp₁⟩
  refine Post_tick ?_ fun n e h => ?_
  swap
  · exact ⟨_, p.bump, .logged hlt (.inr (h.blamedOn.mono hp₁)),
      ⟨hs₁.mono .inl, fun _ => hr₁.withLog _ hwal₁⟩, (w₁.advance_rest _).trans hp₁⟩
  set w₂ : World Site := ⟨w₁.dir, w₁.advance .walSync⟩ with hw₂
  have hp₂ : Plan.Rest w₂.plan w.plan := (w₁.advance_rest _).trans hp₁
  have hr₂ : Running { db with seq := p.seq + 1, mem := db.mem.insert r } w₂.dir (d.append r)
      (p.bump.insert r) :=
    { hr₁ with
      mem := by
        intro k
        show (db.mem.insert r).get k = Function.update p.mem r.key (some r) k
        rw [MemTable.get_insert, hr.mem, Function.update_apply]
        by_cases hk : r.key = k
        · rw [if_pos hk, if_pos hk.symm]
        · rw [if_neg hk, if_neg (Ne.symm hk)]
      keyed := by
        show Keyed (db.mem.insert r).map
        rw [MemTable.insert_map]
        exact hr.keyed.insert r
      wal := hwal₁ }
  have hs₂ : Stores (mayTear ∨ Tearing w.plan) w₂.dir (d.append r) := hs₁.mono .inl
  refine (maybeFlush_spec hs₂ (hwf.applied hseq) hr₂ hidroom).mono ?_
  intro out s' hpost
  obtain ⟨d', p', hend, hleaves, hp⟩ := hpost
  refine ⟨d', p', .applied hlt ⟨hend.exit, fun e he => ?_⟩, hleaves, hp.trans hp₂⟩
  exact (hend.stop e he).imp_left fun hb => hb.mono hp₂

end RustFundamentals.Lsmkv
