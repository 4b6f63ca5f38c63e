import RustFundamentals.Foundation.Decimal
import RustFundamentals.Foundation.Expiry
import RustFundamentals.Foundation.Utf8

/-!
# rudis: the keyspace

`store.rs`: a map from keys to values with optional deadlines. Every operation that reads the
clock reads it once, at its start, and takes that reading as `now`. An operation that may
overflow returns an `Option`, `none` being the panic.
-/

namespace RustFundamentals.Rudis

open Foundation

/-- `Entry`: a value and the time from which it is dead. -/
structure Entry where
  value : Bytes
  expiresAt : Option Nat
  deriving DecidableEq, Repr

/-- `Entry::is_expired`. -/
def Entry.isExpired (now : Nat) (e : Entry) : Bool :=
  match e.expiresAt with
  | some t => t ≤ now
  | none => false

/-- The name of a file. -/
abbrev Path := Bytes

/-- `Store`. -/
structure Store where
  map : HashMap Bytes Entry
  snapshotPath : Option Path

namespace Store

/-- `Store::new`. -/
def new (snapshotPath : Option Path) : Store := ⟨∅, snapshotPath⟩

/-- `Store::len`. -/
def len (now : Nat) (s : Store) : Nat := (s.map.entries.filter fun e => !e.2.isExpired now).length

/-- `Store::purge_expired`. -/
def purgeExpired (now : Nat) (s : Store) : Store :=
  { s with map := s.map.retain fun _ e => !e.isExpired now }

/-- What a snapshot holds of an entry: key, value, and deadline with 0 for none. -/
abbrev Saved := Bytes × Bytes × Nat

/-- `Store::snapshot_iter`. -/
def snapshotIter (now : Nat) (s : Store) : List Saved :=
  s.map.entries.filterMap fun e =>
    if e.2.isExpired now then none else some (e.1, e.2.value, e.2.expiresAt.getD 0)

/-- `Store::get`. -/
def get (key : Bytes) (now : Nat) (s : Store) : Option Bytes × Store :=
  match s.map.lookup key with
  | some e => if e.isExpired now then (none, { s with map := s.map.erase key })
    else (some e.value, s)
  | none => (none, s)

/-- `Store::set`. -/
def set (key value : Bytes) (expireAt : Option Nat) (s : Store) : Store :=
  { s with map := s.map.insert key ⟨value, expireAt⟩ }

/-- `Store::del`. -/
def del (key : Bytes) (now : Nat) (s : Store) : Bool × Store :=
  ((s.map.lookup key).elim false fun e => !e.isExpired now, { s with map := s.map.erase key })

/-- `Store::exists`. -/
def «exists» (key : Bytes) (now : Nat) (s : Store) : Bool × Store :=
  let (value, s) := s.get key now
  (value.isSome, s)

/-- The value of a counter: its text as an `i64`. -/
def counter (bytes : Bytes) : Option Int :=
  (Str.fromUtf8 bytes).bind fun text => parseSigned 64 text.bytes

/-- `Store::incr`; a value that is not an integer is an `Err(())`. -/
def incr (ov : Overflow) (key : Bytes) (now : Nat) (s : Store) :
    Option (Except Unit Int × Store) :=
  let existing := (s.map.lookup key).filter fun e => !e.isExpired now
  let currentTtl := existing.bind fun e => e.expiresAt
  let current := match existing with
    | some e => counter e.value
    | none => some 0
  match current with
  | none => some (.error (), s)
  | some current => do
    let next ← ov.fitInt 64 (current + 1)
    return (.ok next, s.set key (decimalInt next) currentTtl)

/-- `now + amount * unit`, in `u64`. -/
def deadlineAfter (ov : Overflow) (now amount unit : Nat) : Option Nat := do
  let millis ← ov.fit 64 (amount * unit)
  ov.fit 64 (now + millis)

/-- `Store::expire`. -/
def expire (ov : Overflow) (key : Bytes) (seconds : Nat) (now : Nat) (s : Store) :
    Option (Bool × Store) :=
  match s.map.lookup key with
  | some e =>
    if e.isExpired now then some (false, s)
    else do
      let deadline ← deadlineAfter ov now seconds 1000
      return (true, { s with map := s.map.insert key { e with expiresAt := some deadline } })
  | none => some (false, s)

/-- `Store::ttl`. -/
def ttl (ov : Overflow) (key : Bytes) (now : Nat) (s : Store) : Option (Int × Store) :=
  match s.map.lookup key with
  | some e =>
    if e.isExpired now then some (-2, s)
    else match e.expiresAt with
      | some deadline => (ov.sub 64 deadline now).map fun left => (castI64 (left / 1000), s)
      | none => some (-1, s)
  | none => some (-2, s)

end Store

end RustFundamentals.Rudis
