import Mathlib.Data.List.Sort
import RustFundamentals.Lsmkv.Compaction

/-!
# lsmkv: the store

`db.rs`: the `Db` that wires the log, the memtable and the tables together. `openWith` is
the recovery, `get` and `scan` the two readings, `put` and `delete` the logged writes,
`flush` and `compact` the moves down the hierarchy.

`ov` says what arithmetic does at the end of its range: a build with overflow checks panics,
one without wraps around.
-/

namespace RustFundamentals.Lsmkv

open Foundation Foundation.Fs

/-- Tunables of the store. -/
structure Options where
  memtableFlushBytes : Nat
  deriving DecidableEq, Repr

/-- `Options::default`: 1 MiB. -/
def Options.default : Options := ⟨2 ^ 20⟩

/-- The store. The directory and the log are the world it runs in. -/
structure Db where
  opts : Options
  mem : MemTable
  /-- Open tables, newest first. -/
  sstables : List SsTable
  /-- The next sequence number to hand out. -/
  seq : Seq
  /-- The id of the next table written. -/
  nextSstId : Nat

/-- A running store and its world. -/
structure Session where
  db : Db
  world : World Site

/-- Methods on `&mut self`. -/
abbrev DbM := Io Session Error

/-- A filesystem program inside a method. -/
def onDisk {α : Type} (x : FsM α) : DbM α := fun s =>
  let (r, w) := x.run s.world
  (r, { s with world := w })

/-- The fields of `self`. -/
def self : DbM Db := return (← get).db

/-- An assignment to the fields of `self`. -/
def update (f : Db → Db) : DbM Unit := modify fun s => { s with db := f s.db }

/-- `list_sstable_ids`. -/
def listSstableIds : FsM (List Nat) := do
  return (← readDir .readDir).filterMap parseSstId

/-- The loop of `open_with` over the sorted ids. -/
def openTables : List Nat → FsM (List SsTable)
  | [] => pure []
  | id :: ids => do
    let table ← SsTable.openTable (sstPath id) id
    let tables ← openTables ids
    pure (table :: tables)

/-- `iter().max().unwrap_or(0)`. -/
def maxOr0 (seqs : List Seq) : Seq := seqs.foldl max 0

/-- `ids.last().map(|m| m + 1).unwrap_or(0)`. -/
def nextIdAfter (ov : Overflow) (ids : List Nat) : FsM Nat :=
  match ids.getLast? with
  | some m => orPanic (ov.fit 64 (m + 1))
  | none => pure 0

namespace Db

/-- `Db::open_with`: list and open the tables, replay the log, recompute the counters. -/
def openWith (ov : Overflow) (opts : Options) : FsM Db := do
  tick .createDir
  let ids := (← listSstableIds).insertionSort (· ≤ ·)
  let sstables := (← openTables ids).reverse
  let nextSstId ← nextIdAfter ov ids
  let replayed ← Wal.replay
  let mem := replayed.foldl MemTable.insert MemTable.new
  let maxWalSeq := maxOr0 (replayed.map Record.seq)
  let maxSstSeq := maxOr0 (sstables.map SsTable.maxSeq)
  let seq ← orPanic (ov.fit 64 (max maxWalSeq maxSstSeq + 1))
  Wal.openLog
  return { opts, mem, sstables, seq, nextSstId }

/-- The tables, newest first, up to the first that has the key. -/
def getFrom : List SsTable → Bytes → Except (Stop Error) (Option Record)
  | [], _ => .ok none
  | table :: tables, key => do
    match ← table.get key with
    | some record => .ok (some record)
    | none => getFrom tables key

/-- `Db::get`: memory, then the tables; a tombstone is an absent key. -/
def get (db : Db) (key : Bytes) : Except (Stop Error) (Option Bytes) :=
  match db.mem.get key with
  | some record => .ok record.value.toOption
  | none => do
    match ← getFrom db.sstables key with
    | some record => .ok record.value.toOption
    | none => .ok none

/-- The records of all tables, as `scan` meets them. -/
def tableRecords : List SsTable → Except (Stop Error) (List Record)
  | [] => .ok []
  | table :: tables => do
    let records ← table.iter
    let rest ← tableRecords tables
    .ok (records ++ rest)

/-- `Db::scan`: all live pairs, by a newest-wins merge of everything. -/
def scan (db : Db) : Except (Stop Error) (List (Bytes × Bytes)) := do
  let records ← tableRecords db.sstables
  let best := (records ++ db.mem.records).foldl keepNewest ∅
  .ok (best.toList.filterMap fun (key, rec) => rec.value.toOption.map (key, ·))

/-- `Db::flush`. -/
def flush (ov : Overflow) : DbM Unit := do
  let db ← self
  if db.mem.isEmpty then return
  let path ← onDisk (SsTable.write db.nextSstId db.mem.records)
  let table ← onDisk (SsTable.openTable path db.nextSstId)
  update fun db => { db with sstables := table :: db.sstables }
  let next ← orPanic (ov.fit 64 (db.nextSstId + 1))
  update fun db => { db with nextSstId := next, mem := db.mem.clear }
  onDisk Wal.reset

/-- `Db::maybe_flush`. -/
def maybeFlush (ov : Overflow) : DbM Unit := do
  let db ← self
  if db.mem.approxBytes ≥ db.opts.memtableFlushBytes then flush ov

/-- The body `put` and `delete` share: take the next number, build the record, log it, sync,
apply it. -/
def writeRecord (ov : Overflow) (record : Seq → Record) : DbM Unit := do
  let seq := (← self).seq
  let next ← orPanic (ov.fit 64 (seq + 1))
  update fun db => { db with seq := next }
  let record := record seq
  onDisk (Wal.append record)
  onDisk Wal.sync
  update fun db => { db with mem := db.mem.insert record }
  maybeFlush ov

/-- `Db::put`. -/
def put (ov : Overflow) (key value : Bytes) : DbM Unit :=
  writeRecord ov fun seq => Record.put seq key value

/-- `Db::delete`. -/
def delete (ov : Overflow) (key : Bytes) : DbM Unit :=
  writeRecord ov fun seq => Record.tombstone seq key

/-- The deletion loop of `compact`. -/
def removeOld : List Nat → FsM Unit
  | [] => pure ()
  | id :: ids => do
    removeFile .removeOld (sstPath id)
    removeOld ids

/-- `Db::compact`. -/
def compact (ov : Overflow) : DbM Unit := do
  let db ← self
  if db.sstables.length < 2 then return
  let newId := db.nextSstId
  let path ← onDisk (Lsmkv.compact newId db.sstables)
  let merged ← onDisk (SsTable.openTable path newId)
  let oldIds := db.sstables.map SsTable.id
  update fun db => { db with sstables := [merged] }
  let next ← orPanic (ov.fit 64 (newId + 1))
  update fun db => { db with nextSstId := next }
  onDisk (removeOld oldIds)
  onDisk (tick .removeSyncDir)

end Db

end RustFundamentals.Lsmkv
