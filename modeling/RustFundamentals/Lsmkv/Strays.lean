import RustFundamentals.Foundation.Blindness
import RustFundamentals.Lsmkv.System
import RustFundamentals.Lsmkv.TableNames

/-!
# lsmkv: stray files

The store calls the filesystem with the names it gives its files, and lists the directory for those
of its tables. So files with other names change nothing about any of its runs, unless the parser
takes one of them for a table's (`strays_ignored_iff`).
-/

namespace RustFundamentals.Lsmkv

open Foundation Foundation.Fs

/-- A name that the store gives a file. -/
inductive Own : Name → Prop
  | log : Own walName
  | table (id : Nat) : Own (sstPath id)
  | tmp (id : Nat) : Own (tmpPath id)

/-- The store's names stay, and none that goes is taken for a table's. -/
structure Hides (keep : Name → Bool) : Prop where
  own : ∀ name, Own name → keep name = true
  unlisted : ∀ name, keep name = false → parseSstId name = none

variable {keep : Name → Bool}

/-! ## Tables and the log -/

theorem blind_pread (site : Site) (file : Bytes) (offset len : Nat) :
    Blind (World.only keep) (SsTable.pread site file offset len) := by
  unfold SsTable.pread
  refine Blind.ite (Blind.throw _) ?_
  refine (Blind.mapErr _ (Blind.tick _)).bind fun _ => ?_
  exact Blind.ofExcept _

theorem blind_collectRecords (tables : List SsTable) :
    Blind (World.only keep) (collectRecords tables) := by
  induction tables with
  | nil => exact Blind.pure _
  | cons table tables ih =>
    refine Blind.bind ?_ fun records => ih.bind fun rest => Blind.pure _
    exact (blind_pread _ _ _ _).bind fun data => Blind.ofExcept _

/-- The path that is returned is the table's. -/
theorem write_path {id : Nat} {records : List Record} {w : World Site} {path : Name}
    (h : ((SsTable.write id records).run w).1 = .ok path) : path = sstPath id := by
  unfold SsTable.write at h
  dsimp only at h
  split at h
  · cases h
  · obtain ⟨_, _, -, h⟩ := exists_of_bind_ok h
    obtain ⟨_, _, -, h⟩ := exists_of_bind_ok h
    obtain ⟨_, _, -, h⟩ := exists_of_bind_ok h
    obtain ⟨_, _, -, h⟩ := exists_of_bind_ok h
    obtain ⟨_, _, -, h⟩ := exists_of_bind_ok h
    exact (Except.ok.inj h).symm

theorem compact_path {id : Nat} {tables : List SsTable} {w : World Site} {path : Name}
    (h : ((Lsmkv.compact id tables).run w).1 = .ok path) : path = sstPath id := by
  obtain ⟨records, w', -, h⟩ := exists_of_bind_ok h
  exact write_path h

namespace Hides

variable (h : Hides keep)

include h

theorem write (id : Nat) (records : List Record) :
    Blind (World.only keep) (SsTable.write id records) := by
  have htmp := h.own _ (.tmp id)
  have htable := h.own _ (.table id)
  unfold SsTable.write
  dsimp only
  refine Blind.ite (Blind.throw _) ?_
  refine (Blind.create _ htmp).bind fun _ => ?_
  refine (Blind.writeAll _ htmp _).bind fun _ => ?_
  refine (Blind.tick _).bind fun _ => ?_
  refine (Blind.rename _ htmp htable).bind fun _ => ?_
  refine (Blind.tick _).bind fun _ => ?_
  exact Blind.pure _

theorem merge (id : Nat) (tables : List SsTable) :
    Blind (World.only keep) (Lsmkv.compact id tables) :=
  (blind_collectRecords tables).bind fun _ => h.write id _

theorem openTable (i id : Nat) : Blind (World.only keep) (SsTable.openTable (sstPath i) id) := by
  unfold SsTable.openTable
  refine (Blind.openRead _ (h.own _ (.table i))).bind fun file => ?_
  refine (Blind.tick _).bind fun _ => ?_
  dsimp only
  refine Blind.ite (Blind.throw _) ?_
  refine (blind_pread _ _ _ _).bind fun footer => ?_
  refine Blind.ite (Blind.throw _) ?_
  refine (blind_pread _ _ _ _).bind fun indexBytes => ?_
  refine Blind.ite (Blind.throw _) ?_
  refine (Blind.orPanic _).bind fun index => ?_
  exact Blind.pure _

theorem openTables (ids : List Nat) : Blind (World.only keep) (openTables ids) := by
  induction ids with
  | nil => exact Blind.pure _
  | cons id ids ih =>
    refine (h.openTable id id).bind fun table => ?_
    refine ih.bind fun tables => ?_
    exact Blind.pure _

theorem replay : Blind (World.only keep) Wal.replay := by
  refine (Blind.openIfPresent _ (h.own _ .log)).bind fun buf => ?_
  cases buf with
  | none => exact Blind.pure _
  | some buf => exact (Blind.tick _).bind fun _ => Blind.pure _

theorem append (record : Record) : Blind (World.only keep) (Wal.append record) :=
  Blind.writeAll _ (h.own _ .log) _

theorem reset : Blind (World.only keep) Wal.reset := by
  have hlog := h.own _ .log
  refine (Blind.truncate _ hlog).bind fun _ => ?_
  refine (Blind.tick _).bind fun _ => ?_
  exact Blind.openAppend _ hlog

theorem removeOld (ids : List Nat) : Blind (World.only keep) (Db.removeOld ids) := by
  induction ids with
  | nil => exact Blind.pure _
  | cons id ids ih => exact (Blind.removeFile _ (h.own _ (.table id))).bind fun _ => ih

/-- **Opening** lists the store's tables alone. -/
theorem openWith (ov : Overflow) (opts : Options) :
    Blind (World.only keep) (Db.openWith ov opts) := by
  unfold Db.openWith
  refine (Blind.tick _).bind fun _ => ?_
  refine (Blind.listing _ h.unlisted).bind fun ids => ?_
  refine (h.openTables _).bind fun tables => ?_
  dsimp only
  refine Blind.bind ?_ fun next => ?_
  · unfold nextIdAfter
    split
    · exact Blind.orPanic _
    · exact Blind.pure _
  refine h.replay.bind fun replayed => ?_
  refine (Blind.orPanic _).bind fun seq => ?_
  refine (Blind.openAppend _ (h.own _ .log)).bind fun _ => ?_
  exact Blind.pure _

end Hides

/-! ## Methods -/

/-- The session with the names that stay. -/
def Session.only (keep : Name → Bool) (s : Session) : Session :=
  { s with world := World.only keep s.world }

theorem blind_onDisk {α : Type} {x : FsM α} (hx : Blind (World.only keep) x) :
    Blind (Session.only keep) (onDisk x) := by
  intro s
  have hrun := hx s.world
  show ((x.run (World.only keep s.world)).1,
      (⟨s.db, (x.run (World.only keep s.world)).2⟩ : Session)) = _
  rw [hrun]
  rfl

theorem blind_self : Blind (Session.only keep) self := fun _ => rfl

theorem blind_update (f : Db → Db) : Blind (Session.only keep) (update f) := fun _ => rfl

theorem onDisk_ok {α : Type} {x : FsM α} {s : Session} {a : α}
    (h : ((onDisk x).run s).1 = .ok a) : (x.run s.world).1 = .ok a := h

namespace Hides

variable (h : Hides keep)

include h

theorem flush (ov : Overflow) : Blind (Session.only keep) (Db.flush ov) := by
  unfold Db.flush
  refine blind_self.bind fun db => ?_
  refine Blind.ite (Blind.pure _) ?_
  refine (blind_onDisk (h.write _ _)).bind_of fun s path hpath => ?_
  obtain rfl := write_path (onDisk_ok hpath)
  refine (blind_onDisk (h.openTable _ _)).bind fun table => ?_
  refine (blind_update _).bind fun _ => ?_
  refine (Blind.orPanic _).bind fun next => ?_
  refine (blind_update _).bind fun _ => ?_
  exact blind_onDisk h.reset

theorem writeRecord (ov : Overflow) (record : Seq → Record) :
    Blind (Session.only keep) (Db.writeRecord ov record) := by
  unfold Db.writeRecord
  refine blind_self.bind fun db => ?_
  refine (Blind.orPanic _).bind fun next => ?_
  refine (blind_update _).bind fun _ => ?_
  refine (blind_onDisk (h.append _)).bind fun _ => ?_
  refine (blind_onDisk (Blind.tick _)).bind fun _ => ?_
  refine (blind_update _).bind fun _ => ?_
  refine blind_self.bind fun db => ?_
  exact Blind.ite (h.flush ov) (Blind.pure _)

theorem compact (ov : Overflow) : Blind (Session.only keep) (Db.compact ov) := by
  unfold Db.compact
  refine blind_self.bind fun db => ?_
  refine Blind.ite (Blind.pure _) ?_
  dsimp only
  refine (blind_onDisk (h.merge _ _)).bind_of fun s path hpath => ?_
  obtain rfl := compact_path (onDisk_ok hpath)
  refine (blind_onDisk (h.openTable _ _)).bind fun merged => ?_
  refine (blind_update _).bind fun _ => ?_
  refine (Blind.orPanic _).bind fun next => ?_
  refine (blind_update _).bind fun _ => ?_
  refine (blind_onDisk (h.removeOld _)).bind fun _ => ?_
  exact blind_onDisk (Blind.tick Site.removeSyncDir)

theorem call (ov : Overflow) (c : Call) : Blind (Session.only keep) (c.run ov) := by
  cases c with
  | put key value => exact h.writeRecord ov fun seq => Record.put seq key value
  | delete key => exact h.writeRecord ov fun seq => Record.tombstone seq key
  | flush => exact h.flush ov
  | compact => exact h.compact ov

end Hides

/-! ## Runs -/

/-- The state with the names that stay. -/
def Sys.only (keep : Name → Bool) (s : Sys) : Sys := { s with dir := Dir.only keep s.dir }

/-- What the caller sees of a run: what each step returns, and the store it leaves open. -/
def trace (ov : Overflow) : Sys → List Step → List (Except (Stop Error) Unit × Option Db)
  | _, [] => []
  | s, st :: steps => ((exec ov s st).1, (exec ov s st).2.proc) :: trace ov (exec ov s st).2 steps

/-- **A step** neither looks at the files that are hidden nor touches them. -/
theorem Hides.exec (h : Hides keep) (ov : Overflow) (s : Sys) (st : Step) :
    exec ov (s.only keep) st = ((exec ov s st).1, (exec ov s st).2.only keep) := by
  obtain ⟨op, plan⟩ := st
  obtain ⟨dir, proc⟩ := s
  cases op with
  | openWith opts =>
    have hrun : (Db.openWith ov opts).run ⟨Dir.only keep dir, plan⟩ =
        (((Db.openWith ov opts).run ⟨dir, plan⟩).1,
          World.only keep ((Db.openWith ov opts).run ⟨dir, plan⟩).2) :=
      h.openWith ov opts ⟨dir, plan⟩
    simp only [Lsmkv.exec, Sys.only, hrun]
    rcases (Db.openWith ov opts).run ⟨dir, plan⟩ with ⟨e | db, w⟩ <;> rfl
  | call c =>
    cases proc with
    | none => rfl
    | some db =>
      have hrun : (c.run ov).run ⟨db, ⟨Dir.only keep dir, plan⟩⟩ =
          (((c.run ov).run ⟨db, ⟨dir, plan⟩⟩).1,
            Session.only keep ((c.run ov).run ⟨db, ⟨dir, plan⟩⟩).2) := h.call ov c ⟨db, ⟨dir, plan⟩⟩
      simp only [Lsmkv.exec, Sys.only, hrun]
      rfl
  | stop => rfl

/-- **A run** goes the same way with files hidden. -/
theorem Hides.trace (h : Hides keep) (ov : Overflow) (s : Sys) (steps : List Step) :
    trace ov (s.only keep) steps = trace ov s steps := by
  induction steps generalizing s with
  | nil => rfl
  | cons st steps ih =>
    rw [Lsmkv.trace, Lsmkv.trace, h.exec ov s st, ih]
    rfl

/-! ## What opening finds -/

theorem openTable_id {name : Name} {id : Nat} {w : World Site} {table : SsTable}
    (h : ((SsTable.openTable name id).run w).1 = .ok table) : table.id = id := by
  unfold SsTable.openTable at h
  obtain ⟨file, _, -, h⟩ := exists_of_bind_ok h
  obtain ⟨_, _, -, h⟩ := exists_of_bind_ok h
  dsimp only at h
  split at h
  · cases h
  obtain ⟨footer, _, -, h⟩ := exists_of_bind_ok h
  split at h
  · cases h
  obtain ⟨indexBytes, _, -, h⟩ := exists_of_bind_ok h
  split at h
  · cases h
  obtain ⟨index, _, -, h⟩ := exists_of_bind_ok h
  rw [← Except.ok.inj h]

theorem openTables_ids {ids : List Nat} {w : World Site} {tables : List SsTable}
    (h : ((openTables ids).run w).1 = .ok tables) : tables.map SsTable.id = ids := by
  induction ids generalizing w tables with
  | nil => rw [← Except.ok.inj h, List.map_nil]
  | cons id ids ih =>
    obtain ⟨table, w₁, htable, h⟩ := exists_of_bind_ok h
    obtain ⟨rest, w₂, hrest, h⟩ := exists_of_bind_ok h
    have hid := openTable_id (congrArg Prod.fst htable)
    rw [← Except.ok.inj h, List.map_cons, hid, ih (congrArg Prod.fst hrest)]

/-- **The tables of a store** that has been opened are those that are listed. -/
theorem openWith_ids {ov : Overflow} {opts : Options} {dir : Dir} {plan : Plan Site} {db : Db}
    (h : ((Db.openWith ov opts).run ⟨dir, plan⟩).1 = .ok db) :
    (db.sstables.map SsTable.id).Perm (dir.keys.filterMap parseSstId) := by
  have hpost : Post (Db.openWith ov opts) ⟨dir, plan⟩ fun out _ => ∀ db, out = .ok db →
      (db.sstables.map SsTable.id).Perm (dir.keys.filterMap parseSstId) := by
    rw [Db.openWith, Post_bind]
    refine Post_tick ?_ fun _ _ _ _ hdb => by cases hdb
    rw [Post_bind, listSstableIds, Post_bind]
    refine Post_readDir ?_ fun _ _ _ _ hdb => by cases hdb
    intro db hdb
    obtain ⟨tables, _, htables, hdb⟩ := exists_of_bind_ok hdb
    obtain ⟨next, _, -, hdb⟩ := exists_of_bind_ok hdb
    obtain ⟨replayed, _, -, hdb⟩ := exists_of_bind_ok hdb
    obtain ⟨seq, _, -, hdb⟩ := exists_of_bind_ok hdb
    obtain ⟨_, _, -, hdb⟩ := exists_of_bind_ok hdb
    have hids := openTables_ids (congrArg Prod.fst htables)
    rw [← Except.ok.inj hdb]
    show (tables.reverse.map SsTable.id).Perm _
    rw [List.map_reverse, hids]
    exact (List.reverse_perm _).trans (List.perm_insertionSort _ _)
  exact hpost db h

/-! ## Stray files -/

/-- Stray files do no harm: a name is taken for a table's if it is one, no id is listed twice, a
store that has been opened has each table that is there once, and any run goes as it would without
the files that are not the store's. -/
structure StraysIgnored (dir : Dir) : Prop where
  parses : ∀ name ∈ dir, ∀ id < 2 ^ 64, parseSstId name = some id ↔ name = sstPath id
  listed : (dir.keys.filterMap parseSstId).Nodup
  opened : ∀ ov opts plan db, ((Db.openWith ov opts).run ⟨dir, plan⟩).1 = .ok db →
    (db.sstables.map SsTable.id).Nodup ∧
      ∀ id < 2 ^ 64, id ∈ db.sstables.map SsTable.id ↔ sstPath id ∈ dir
  runs : ∀ keep : Name → Bool, (∀ name, Own name → keep name = true) → ∀ ov steps,
    trace ov ⟨Dir.only keep dir, none⟩ steps = trace ov ⟨dir, none⟩ steps

section Spelt

variable {dir : Dir} (hspelt : ∀ name ∈ dir, ¬ Misspelt name)

include hspelt

/-- A name that is there and taken for a table's is the table's. -/
theorem eq_sstPath_of_parse {name : Name} (hname : name ∈ dir) {id : Nat}
    (h : parseSstId name = some id) : name = sstPath id := by
  by_contra hne
  exact hspelt name hname (misspelt_iff.mpr ⟨id, h, hne⟩)

theorem listed_nodup : (dir.keys.filterMap parseSstId).Nodup := by
  refine nodup_filterMap_parse fun a ha b hb id hia hib => ?_
  rw [eq_sstPath_of_parse hspelt ha hia, eq_sstPath_of_parse hspelt hb hib]

theorem mem_listed {id : Nat} (hid : id < 2 ^ 64) :
    id ∈ dir.keys.filterMap parseSstId ↔ sstPath id ∈ dir := by
  rw [List.mem_filterMap]
  refine ⟨?_, ?_⟩
  · rintro ⟨name, hname, hparse⟩
    have hmem := AList.mem_keys.mpr hname
    rwa [eq_sstPath_of_parse hspelt hmem hparse] at hmem
  · exact fun hmem => ⟨sstPath id, AList.mem_keys.mp hmem, parseSstId_sstPath hid⟩

/-- The strays that are there can be hidden. -/
theorem hides_strays {keep : Name → Bool} (hown : ∀ name, Own name → keep name = true) :
    Hides fun name => keep name || decide (name ∉ dir) where
  own := fun name h => by rw [hown name h, Bool.true_or]
  unlisted := by
    intro name hhidden
    rw [Bool.or_eq_false_iff, decide_eq_false_iff_not, not_not] at hhidden
    obtain ⟨hkeep, hname⟩ := hhidden
    cases hparse : parseSstId name with
    | none => rfl
    | some id =>
      have hstays := hown _ (.table id)
      rw [← eq_sstPath_of_parse hspelt hname hparse, hkeep] at hstays
      cases hstays

end Spelt

/-- **Stray files are ignored exactly when no name is misspelt.** -/
theorem strays_ignored_iff (dir : Dir) :
    StraysIgnored dir ↔ ∀ name ∈ dir, ¬ Misspelt name := by
  refine ⟨?_, ?_⟩
  · intro h name hname hmisspelt
    obtain ⟨id, hparse, hne⟩ := misspelt_iff.mp hmisspelt
    exact hne ((h.parses name hname id (parseSstId_lt hparse)).mp hparse)
  · intro hspelt
    refine ⟨?_, listed_nodup hspelt, ?_, ?_⟩
    · intro name hname id hid
      refine ⟨eq_sstPath_of_parse hspelt hname, ?_⟩
      rintro rfl
      exact parseSstId_sstPath hid
    · intro ov opts plan db hopen
      have hperm := openWith_ids hopen
      refine ⟨hperm.nodup_iff.mpr (listed_nodup hspelt), ?_⟩
      intro id hid
      rw [hperm.mem_iff, mem_listed hspelt hid]
    · intro keep hown ov steps
      have hides := hides_strays hspelt hown
      have hsame : Dir.only keep dir =
          Dir.only (fun name => keep name || decide (name ∉ dir)) dir := by
        refine Dir.only_congr fun name hname => ?_
        rw [decide_eq_false (not_not.mpr hname), Bool.or_false]
      rw [hsame]
      exact hides.trace ov ⟨dir, none⟩ steps

/-- An empty file that is not the store's. -/
def oneStray : Dir := (∅ : Dir).insert (ascii "7.sst") ⟨[]⟩

/-- A store with one table, and an empty file with another spelling of its name. -/
def doubledTable : Dir :=
  (runSys .checked ⟨∅, none⟩ [⟨.openWith .default, quiet⟩, ⟨.call (.put [97] [1]), quiet⟩,
    ⟨.call .flush, quiet⟩]).dir.insert (ascii "0.sst") ⟨[]⟩

/-- The one makes the store fail to open; with the other its table is loaded twice, and the
compaction fails to delete it a second time. -/
theorem misspelt_breaks :
    ¬ StraysIgnored oneStray ∧ ¬ StraysIgnored doubledTable ∧
    (exec .checked ⟨oneStray, none⟩ ⟨.openWith .default, quiet⟩).1 =
      .error (.err (.io .notFound)) ∧
    (runSys .checked ⟨doubledTable, none⟩ [⟨.openWith .default, quiet⟩]).proc.map
      (fun db => db.sstables.map SsTable.id) = some [0, 0] ∧
    (exec .checked (runSys .checked ⟨doubledTable, none⟩ [⟨.openWith .default, quiet⟩])
      ⟨.call .compact, quiet⟩).1 = .error (.err (.io .notFound)) := by
  refine ⟨?_, ?_, by decide +kernel, by decide +kernel, by decide +kernel⟩
  · intro h
    have hname : ascii "7.sst" ∈ oneStray := by decide
    have hpath := (h.parses _ hname 7 (by decide)).mp (by decide)
    exact absurd hpath (by decide)
  · intro h
    have hname : ascii "0.sst" ∈ doubledTable := (AList.mem_insert _).mpr (.inl rfl)
    have hpath := (h.parses _ hname 0 (by decide)).mp (by decide)
    exact absurd hpath (by decide)

end RustFundamentals.Lsmkv
