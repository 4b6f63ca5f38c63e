import RustFundamentals.Lsmkv.TableLemmas

/-!
# lsmkv: compaction

`compaction.rs`: merge every table into one, keeping the newest record of each key and
dropping the keys whose newest record is a tombstone.
-/

namespace RustFundamentals.Lsmkv

open Foundation Foundation.Fs

/-- The step of the newest-wins merge: `rec` goes in unless the map has a record of its key
that is at least as new. (`keep_newest` in `db.rs`, and the loop body of
`newest_per_key`.) -/
def keepNewest (best : RecordMap) (record : Record) : RecordMap :=
  match best[record.key]? with
  | some existing =>
    if existing.seq ≥ record.seq then best else best.insert record.key record
  | none => best.insert record.key record

/-- The newest record of each key, tombstones included, in key order. -/
def newestPerKey (records : List Record) : List Record :=
  RecordMap.records (records.foldl keepNewest ∅)

/-- `SsTable::iter`, its read being one the environment may fail. -/
def SsTable.iterFs (t : SsTable) : FsM (List Record) := do
  let data ← pread .iterRead t.file 0 t.dataLen
  ofExcept (decodeAll t.id data.length 0 data)

/-- The loop of `compact` that collects the records of all tables. -/
def collectRecords : List SsTable → FsM (List Record)
  | [] => pure []
  | table :: tables => do
    let records ← table.iterFs
    let rest ← collectRecords tables
    pure (records ++ rest)

/-- `compact`. -/
def compact (newId : Nat) (tables : List SsTable) : FsM Name := do
  let records ← collectRecords tables
  let survivors := (newestPerKey records).filter fun rec => rec.value ≠ .delete
  SsTable.write newId survivors

end RustFundamentals.Lsmkv
