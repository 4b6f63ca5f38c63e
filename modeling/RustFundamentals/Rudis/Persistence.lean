import RustFundamentals.Foundation.Usize
import RustFundamentals.Rudis.Error
import RustFundamentals.Rudis.Store

/-!
# rudis: snapshots

The state the commands run in, and `persistence.rs`. The clock and the file calls are the
environment's: the state holds the readings and the outcomes still to come.
-/

namespace RustFundamentals.Rudis

open Foundation Foundation.Fs

/-- How a call on a file ends. A failed write may have stored a part of its bytes. -/
inductive FileCall
  | done
  | failed (stored : Nat) (text : Str)
  deriving DecidableEq

/-- The store and what is around it: the readings of the clock to come, the outcomes of the
file calls to come, and the files. -/
structure Core where
  store : Store
  clock : Nat → Nat
  fileCalls : Nat → FileCall
  files : Path → Option Bytes

/-- A new store, the clock at 0, and files that do as they are told. -/
def Core.fresh : Core := ⟨Store.new none, fun _ => 0, fun _ => .done, fun _ => none⟩

variable {ε α : Type}

/-- `now_ms`: the next reading. -/
def nowMs : Io Core ε Nat := do
  let core ← get
  set { core with clock := fun i => core.clock (i + 1) }
  return core.clock 0

@[simp] theorem Post_nowMs (core : Core) (Q : Except (Stop ε) Nat → Core → Prop) :
    Post nowMs core Q ↔
      Q (.ok (core.clock 0)) { core with clock := fun i => core.clock (i + 1) } := Iff.rfl

/-- An operation of the store, at its reading of the clock. -/
def timed (op : Nat → Store → Option (α × Store)) : Io Core ε α := do
  let now ← nowMs
  let core ← get
  let (a, store) ← orPanic (op now core.store)
  set { core with store := store }
  return a

/-- The operation sees the next reading, and only the store and the clock move. -/
theorem timed_run (op : Nat → Store → Option (α × Store)) (core : Core) :
    (timed op : Io Core ε α).run core =
      match op (core.clock 0) core.store with
      | some (a, s) => (.ok a, { core with clock := fun i => core.clock (i + 1), store := s })
      | none => (.error .panicked, { core with clock := fun i => core.clock (i + 1) }) := by
  unfold timed
  rw [run_bind]
  show (orPanic (op (core.clock 0) core.store) >>= _).run
    { core with clock := fun i => core.clock (i + 1) } = _
  rw [run_bind]
  cases op (core.clock 0) core.store <;> rfl

/-- `Store::purge_expired` at the next reading. -/
def purge : Io Core ε Unit := timed fun now s => some ((), s.purgeExpired now)

/-- One call on the file `path`: what it leaves there when it is done, and when it fails after
storing some bytes. -/
def fileCall (path : Path) (onDone : Option Bytes → Option Bytes)
    (onFailed : Nat → Option Bytes → Option Bytes) : Io Core Error Unit := do
  let core ← get
  let leave (file : Option Bytes) : Core :=
    { core with
      fileCalls := fun i => core.fileCalls (i + 1)
      files := Function.update core.files path file }
  match core.fileCalls 0 with
  | .done => set (leave (onDone (core.files path)))
  | .failed stored text =>
    set (leave (onFailed stored (core.files path)))
    throw (.err (.io text))

namespace Persistence

/-- `MAGIC`. -/
def magic : Bytes := ascii "RUDISDB1"

/-- One record of a snapshot. -/
def record : Store.Saved → Bytes
  | (key, value, expiresAt) =>
    leBytes 4 key.length ++ key ++ leBytes 4 value.length ++ value ++ leBytes 8 expiresAt

/-- The bytes of a snapshot. -/
def snapshot (entries : List Store.Saved) : Bytes := magic ++ (entries.map record).flatten

/-- `save`: build the bytes, then create the file, write them, and sync. -/
def save (path : Path) : Io Core Error Unit := do
  let now ← nowMs
  let bytes := snapshot ((← get).store.snapshotIter now)
  fileCall path (fun _ => some []) (fun _ file => file)
  fileCall path (fun _ => some bytes) (fun stored _ => some (bytes.take stored))
  fileCall path id (fun _ file => file)

/-- `get_u32` and `get_u64`: a little-endian integer at `off`, and what is behind it. -/
def getUint (width : Nat) (bytes : Bytes) (off : Nat) : Option (Nat × Nat) := do
  let stop ← checkedAdd off width
  let slice ← slice? bytes off stop
  return (ofLe slice, stop)

/-- `get_u32`. -/
def getU32 : Bytes → Nat → Option (Nat × Nat) := getUint 4

/-- `get_u64`. -/
def getU64 : Bytes → Nat → Option (Nat × Nat) := getUint 8

/-- `get_bytes`. -/
def getBytes (bytes : Bytes) (off len : Nat) : Option (Bytes × Nat) := do
  let stop ← checkedAdd off len
  let slice ← slice? bytes off stop
  return (slice, stop)

/-- `Error::Snapshot("truncated".into())`. -/
def truncated : Error := .snapshot (Str.lit "truncated")

/-- `ok_or_else(|| Error::Snapshot("truncated".into()))`. -/
def orTruncated (v : Option α) : Io Core Error α :=
  match v with
  | some a => pure a
  | none => throw (.err truncated)

/-- `Store::load_entry`: the clock is read for an entry that has a deadline. -/
def loadEntry (key value : Bytes) (expiresAt : Nat) : Io Core ε Unit :=
  if expiresAt = 0 then modify fun core => { core with store := core.store.set key value none }
  else do
    if expiresAt ≤ (← nowMs) then pure ()
    else modify fun core => { core with store := core.store.set key value (some expiresAt) }

/-- The loop of `load`, for a bounded number of records. -/
def loadLoop (bytes : Bytes) : Nat → Nat → Io Core Error Unit
  | 0, _ => throw .panicked
  | fuel + 1, off =>
    if off < bytes.length then do
      let (keyLen, off) ← orTruncated (getU32 bytes off)
      let (key, off) ← orTruncated (getBytes bytes off keyLen)
      let (valLen, off) ← orTruncated (getU32 bytes off)
      let (value, off) ← orTruncated (getBytes bytes off valLen)
      let (expiresAt, off) ← orTruncated (getU64 bytes off)
      loadEntry key value expiresAt
      loadLoop bytes fuel off
    else pure ()

/-- `File::open` and `Mmap::map`: the bytes of the file. -/
def mapFile (path : Path) : Io Core Error Bytes := do
  match (← get).files path with
  | some bytes => do
    fileCall path id (fun _ file => file)
    fileCall path id (fun _ file => file)
    return bytes
  | none => throw (.err (.io (Str.lit "No such file or directory (os error 2)")))

/-- `load`: every record takes a byte, so the file bounds their number. -/
def load (path : Path) : Io Core Error Unit := do
  let bytes ← mapFile path
  if bytes.length < 8 ∨ bytes.take 8 ≠ magic then
    throw (.err (.snapshot (Str.lit "badmagic")))
  loadLoop bytes (bytes.length + 1) 8

end Persistence

end RustFundamentals.Rudis
