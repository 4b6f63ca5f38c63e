import Mathlib.Data.Fintype.Basic
import RustFundamentals.Foundation.FaultyFs

/-!
# lsmkv: errors and call sites

`error.rs`, and the places in the crate where a filesystem call is made. A fault plan
speaks of these places: each holds the verdicts for the calls made there, in order.
-/

namespace RustFundamentals.Lsmkv

open Foundation Foundation.Fs

/-- What is wrong with an on-disk structure; each carries what its message prints. -/
inductive Corruption
  /-- "file {path} is only {file_len} bytes, shorter than the 36-byte footer" -/
  | shortFile (name : Name) (fileLen : Nat)
  /-- "bad magic {magic:#010x} in {path} (expected 0x4c534d31)" -/
  | badMagic (magic : Nat) (name : Name)
  /-- "bad record at offset {offset} in sstable {id}" -/
  | badRecord (offset id : Nat)
  /-- "short read of {len} bytes at offset {offset}" -/
  | shortRead (len offset : Nat)
  deriving DecidableEq, Repr

/-- The crate's error type. -/
inductive Error
  | io (e : IoError)
  | corrupt (what : Corruption)
  deriving DecidableEq, Repr

instance : FromIo Error := ⟨Error.io⟩

/-- The filesystem calls of the crate, by the line that makes them. -/
inductive Site
  /-- `open_with`: `create_dir_all`, `read_dir`. -/
  | createDir | readDir
  /-- `SsTable::open`: `File::open`, `metadata`, the two positioned reads. -/
  | sstOpen | sstMetadata | sstFooter | sstIndex
  /-- `Wal::replay`: `File::open`, `read_to_end`; `Wal::open`. -/
  | walReplayOpen | walReplayRead | walOpen
  /-- `Wal::append`: `write_all`; `Wal::sync`: `sync_all`. -/
  | walAppend | walSync
  /-- `Wal::reset`: `set_len`, `sync_all`, the second open. -/
  | walSetLen | walResetSync | walReopen
  /-- `SsTable::write`: `File::create`, `write_all`, `sync_all`, `rename`, `sync_dir`. -/
  | tmpCreate | tmpWrite | tmpSync | tmpRename | tmpSyncDir
  /-- `compact`: the positioned read of `iter`, `remove_file`, the last `sync_dir`. -/
  | iterRead | removeOld | removeSyncDir
  deriving DecidableEq, Repr

/-- Every site. -/
def Site.all : List Site :=
  [.createDir, .readDir, .sstOpen, .sstMetadata, .sstFooter, .sstIndex, .walReplayOpen,
    .walReplayRead, .walOpen, .walAppend, .walSync, .walSetLen, .walResetSync, .walReopen,
    .tmpCreate, .tmpWrite, .tmpSync, .tmpRename, .tmpSyncDir, .iterRead, .removeOld,
    .removeSyncDir]

instance : Fintype Site := Fintype.ofList Site.all fun site => by cases site <;> decide

/-- Programs that touch the filesystem only. -/
abbrev FsM := Io (World Site) Error

end RustFundamentals.Lsmkv
