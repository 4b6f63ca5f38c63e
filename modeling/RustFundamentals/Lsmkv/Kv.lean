import RustFundamentals.Lsmkv.Db

/-!
# lsmkv: the `kv` command

`bin/kv.rs`: a process opens the store in the directory its first argument names, runs one
command against it and prints. Each process recovers the store from the directory alone.
The paths name different directories; what a panic prints is left out.
-/

namespace RustFundamentals.Lsmkv

open Foundation Foundation.Fs

/-! ## What the store says of itself -/

/-- A snapshot of the store's shape. -/
structure Stats where
  memtableEntries : Nat
  memtableBytes : Nat
  sstables : Nat
  sstableRecords : Nat
  nextSeq : Seq
  deriving DecidableEq, Repr

/-- `SsTable::len`. -/
def SsTable.records (t : SsTable) : Nat := t.index.length

/-- `Db::stats`. -/
def Db.stats (db : Db) : Stats where
  memtableEntries := db.mem.len
  memtableBytes := db.mem.approxBytes
  sstables := db.sstables.length
  sstableRecords := (db.sstables.map SsTable.records).sum
  nextSeq := db.seq

/-- `{n:#010x}`. -/
def hex (n : Nat) : Bytes :=
  let digits := (Nat.digits 16 n).reverse.map hexDigit
  ascii "0x" ++ List.replicate (8 - digits.length) (digitByte 0) ++ digits

/-- The path of a file of the store in the directory `dir`. -/
def pathIn (dir : Bytes) (name : Name) : Bytes := dir ++ ascii "/" ++ name

/-- What the messages of `Error::Corrupt` say. -/
def Corruption.what (dir : Bytes) : Corruption → Bytes
  | .shortFile name fileLen =>
    ascii "file " ++ pathIn dir name ++ ascii " is only " ++ decimal fileLen ++
      ascii " bytes, shorter than the " ++ decimal footerSize ++ ascii "-byte footer"
  | .badMagic magic name =>
    ascii "bad magic " ++ hex magic ++ ascii " in " ++ pathIn dir name ++ ascii " (expected " ++
      hex sstMagic ++ ascii ")"
  | .badRecord offset id =>
    ascii "bad record at offset " ++ decimal offset ++ ascii " in sstable " ++ decimal id
  | .shortRead len offset =>
    ascii "short read of " ++ decimal len ++ ascii " bytes at offset " ++ decimal offset

/-- `Display for Error`; `osText` is the operating system's description of an I/O error. -/
def Error.display (osText : IoError → Bytes) (dir : Bytes) : Error → Bytes
  | .io e => ascii "io error: " ++ osText e
  | .corrupt what => ascii "corrupt data: " ++ what.what dir

/-! ## One process -/

namespace Kv

/-- How a process ends. -/
inductive Exit
  | success | failure | panicked | died
  deriving DecidableEq, Repr

/-- What a process prints and how it ends. -/
structure Output where
  stdout : Bytes
  stderr : Bytes
  exit : Exit
  deriving DecidableEq, Repr

/-- `map_err` with a message in place of the error. -/
def mapErr {α : Type} (tell : Error → Bytes) : Except (Stop Error) α → Except (Stop Bytes) α
  | .ok a => .ok a
  | .error (.err e) => .error (.err (tell e))
  | .error .died => .error .died
  | .error .panicked => .error .panicked

/-- A program whose errors are told. -/
def orTell {σ α : Type} (tell : Error → Bytes) (x : Io σ Error α) : Io σ Bytes α := fun s =>
  let (r, s') := x.run s
  (mapErr tell r, s')

/-- `ok_or`. -/
def okOr {σ α : Type} (v : Option α) (msg : Bytes) : Io σ Bytes α :=
  match v with
  | some a => pure a
  | none => throw (.err msg)

/-- A line on standard output. -/
def println (text : Bytes) : Bytes := text ++ ascii "\n"

/-- The `match` of `run` on the open store: what it prints. -/
def command (ov : Overflow) (io : Error → Bytes) (cmd : Bytes) (args : List Bytes) :
    Io Session Bytes Bytes :=
  if cmd = ascii "put" then do
    let key ← okOr args[2]? (ascii "put needs <key> <value>")
    let value ← okOr args[3]? (ascii "put needs <key> <value>")
    orTell io (Db.put ov key value)
    return println (ascii "ok")
  else if cmd = ascii "get" then do
    let key ← okOr args[2]? (ascii "get needs <key>")
    match ← orTell io (ofExcept ((← get).db.get key)) with
    | some v => return println (fromUtf8Lossy v)
    | none => return println (ascii "(not found)")
  else if cmd = ascii "del" ∨ cmd = ascii "delete" then do
    let key ← okOr args[2]? (ascii "del needs <key>")
    orTell io (Db.delete ov key)
    return println (ascii "ok")
  else if cmd = ascii "scan" then do
    let pairs ← orTell io (ofExcept (← get).db.scan)
    return pairs.flatMap fun (k, v) =>
      println (fromUtf8Lossy k ++ ascii "=" ++ fromUtf8Lossy v)
  else if cmd = ascii "flush" then do
    orTell io (Db.flush ov)
    return println (ascii "ok")
  else if cmd = ascii "compact" then do
    orTell io (Db.compact ov)
    return println (ascii "ok")
  else if cmd = ascii "stats" then do
    let s := (← get).db.stats
    return println (ascii "memtable_entries  " ++ decimal s.memtableEntries) ++
      println (ascii "memtable_bytes    " ++ decimal s.memtableBytes) ++
      println (ascii "sstables          " ++ decimal s.sstables) ++
      println (ascii "sstable_records   " ++ decimal s.sstableRecords) ++
      println (ascii "next_seq          " ++ decimal s.nextSeq)
  else throw (.err (ascii "unknown command '" ++ cmd ++ ascii "'"))

/-- A program of the open store, from the disk it was opened on to the disk it leaves. -/
def withDb {α : Type} (db : Db) (x : Io Session Bytes α) : Io (World Site) Bytes α := fun w =>
  let (r, s) := x.run ⟨db, w⟩
  (r, s.world)

/-- `run`. -/
def run (ov : Overflow) (osText : IoError → Bytes) (args : List Bytes) :
    Io (World Site) Bytes Bytes := do
  let dir ← okOr args[0]? (ascii "missing <dir>")
  let cmd ← okOr args[1]? (ascii "missing <command>")
  let db ← orTell (fun e => ascii "open " ++ dir ++ ascii ": " ++ e.display osText dir)
    (Db.openWith ov .default)
  withDb db (command ov (fun e => e.display osText dir) cmd args)

/-- `usage`. -/
def usage : Bytes :=
  ([ascii "usage: kv <dir> <command> [args]",
    ascii "  put <key> <value>   insert or overwrite",
    ascii "  get <key>           read a value",
    ascii "  del <key>           delete a key",
    ascii "  scan                list all live key=value pairs",
    ascii "  flush               force the memtable out to an SSTable",
    ascii "  compact             merge all SSTables into one",
    ascii "  stats               show store internals"]).flatMap println

/-- `main`, from what `run` returned. -/
def report : Except (Stop Bytes) Bytes → Output
  | .ok out => ⟨out, [], .success⟩
  | .error (.err msg) => ⟨[], println (ascii "error: " ++ msg) ++ println [] ++ usage, .failure⟩
  | .error .panicked => ⟨[], [], .panicked⟩
  | .error .died => ⟨[], [], .died⟩

/-- The directories, by path. -/
abbrev Dirs := Bytes → Dir

/-- One process, on the directory its first argument names. -/
def kv (ov : Overflow) (osText : IoError → Bytes) (plan : Plan Site) (dirs : Dirs)
    (args : List Bytes) : Output × Dirs :=
  let path := args.headD []
  let (r, w) := (run ov osText args).run ⟨dirs path, plan⟩
  (report r, Function.update dirs path w.dir)

end Kv

end RustFundamentals.Lsmkv
