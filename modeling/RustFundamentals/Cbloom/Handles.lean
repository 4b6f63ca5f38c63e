import RustFundamentals.Cbloom.ExactMembership
import RustFundamentals.Foundation.Runs
import Mathlib.Data.List.AList

/-!
# cbloom: handles, buffers, and who owns them

`ffi.rs` with its memory. A handle is the address of a filter that Rust gave away with
`Box::into_raw`, a buffer the address of bytes given away the same way; what a caller does to
them is unchecked, and a call on a dead address is undefined. The caller keeps its own books of
what it was given (`View`), and `cbloom.h` says in terms of these what it may ask for
(`View.Allows`). A caller that keeps to this never gets undefined behaviour, and is told the truth
(`handles_sound`).
-/

namespace RustFundamentals.Cbloom

open Foundation

/-! ## Memory -/

/-- An address; 0 is the null pointer. -/
abbrev Addr := Nat

/-- What Rust gave away. -/
inductive Cell
  | bloom (b : Bloom)
  | buffer (bytes : Bytes)

/-- What Rust gave away and was not given back. -/
abbrev Heap := AList fun _ : Addr => Cell

/-- A `*const u8`: null, into memory of the caller's, given by what can be read from there on, or
at a buffer. -/
inductive Pointer
  | null
  | own (memory : Bytes)
  | lent (buffer : Addr)
  deriving DecidableEq

/-- `slice::from_raw_parts(data, len)`; `none` is undefined. `lent` are the live buffers. -/
def Pointer.slice (lent : Addr → Option Bytes) (len : Nat) : Pointer → Option Bytes
  | .null => none
  | .own memory => if len ≤ memory.length then some (memory.take len) else none
  | .lent buffer => do
    let bytes ← lent buffer
    if len ≤ bytes.length then some (bytes.take len) else none

/-- `CStr::from_ptr(s).to_bytes()`; without a NUL in reach it is undefined. -/
def cStr (memory : Bytes) : Option Bytes :=
  if (0 : UInt8) ∈ memory then some (memory.takeWhile (· ≠ 0)) else none

namespace Heap

def bloom (h : Heap) (a : Addr) : Option Bloom :=
  match h.lookup a with
  | some (.bloom b) => some b
  | _ => none

def buffer (h : Heap) (a : Addr) : Option Bytes :=
  match h.lookup a with
  | some (.buffer bytes) => some bytes
  | _ => none

end Heap

/-- The `m` and `k` that `Bloom::new` comes to, a `usize` and a `u32`. -/
structure Sizing where
  numBits : Nat
  numHashes : Nat
  numBits_lt : (Bloom.withParams numBits numHashes).numBits < 2 ^ 64
  numHashes_lt : numHashes < 2 ^ 32

/-- What the library runs on: the build profile, the floating point of `Bloom::new` (`none` is a
panic), and the allocator. -/
structure Host (F : Type) where
  ov : Overflow
  sizing : Nat → F → Option Sizing
  alloc : Heap → Addr
  alloc_ne : ∀ h : Heap, alloc h ≠ 0
  alloc_fresh : ∀ h : Heap, h.lookup (alloc h) = none

/-! ## `ffi.rs`

Each function is given the heap, and `none` is undefined behaviour. -/

structure CBloomStats where
  numBits : Nat
  numHashes : Nat
  approxItems : Nat
  deriving DecidableEq

structure CBloomBuffer where
  data : Addr
  len : Nat
  deriving DecidableEq

namespace Host

variable {F : Type} (host : Host F)

/-- `Box::into_raw`. -/
def intoRaw (cell : Cell) (h : Heap) : Addr × Heap :=
  (host.alloc h, h.insert (host.alloc h) cell)

/-- `cbloom_new`. -/
def cbloomNew (expectedItems : Nat) (fpRate : F) (h : Heap) : Addr × Heap :=
  match host.sizing expectedItems fpRate with
  | some size => host.intoRaw (.bloom (.withParams size.numBits size.numHashes)) h
  | none => (0, h)

/-- `cbloom_free`. -/
def cbloomFree (bf : Addr) (h : Heap) : Option Heap :=
  if bf = 0 then some h
  else do
    let _ ← h.bloom bf
    return h.erase bf

/-- `(&mut *bf).add(item)`. A panic of it is caught, with what it has done to the filter left. -/
def addTo (bf : Addr) (item : Bytes) (h : Heap) : Option Heap := do
  let b ← h.bloom bf
  return h.insert bf (.bloom (b.add host.ov item).2)

/-- `cbloom_add`. -/
def cbloomAdd (bf : Addr) (data : Pointer) (len : Nat) (h : Heap) : Option Heap :=
  if bf = 0 ∨ data = .null then some h
  else do
    let item ← data.slice h.buffer len
    host.addTo bf item h

/-- `cbloom_add_str`. -/
def cbloomAddStr (bf : Addr) (s : Option Bytes) (h : Heap) : Option Heap :=
  match s with
  | none => some h
  | some memory =>
    if bf = 0 then some h
    else do
      let bytes ← cStr memory
      host.addTo bf bytes h

/-- `cbloom_contains`. -/
def cbloomContains (bf : Addr) (data : Pointer) (len : Nat) (h : Heap) : Option Bool :=
  if bf = 0 ∨ data = .null then some false
  else do
    let item ← data.slice h.buffer len
    let b ← h.bloom bf
    return Cbloom.cbloomContains (some b) (some item)

/-- `cbloom_contains_str`. -/
def cbloomContainsStr (bf : Addr) (s : Option Bytes) (h : Heap) : Option Bool :=
  match s with
  | none => some false
  | some memory =>
    if bf = 0 then some false
    else do
      let bytes ← cStr memory
      let b ← h.bloom bf
      return Cbloom.cbloomContains (some b) (some bytes)

/-- `cbloom_get_stats`. -/
def cbloomGetStats (bf : Addr) (h : Heap) : Option CBloomStats :=
  if bf = 0 then some { numBits := 0, numHashes := 0, approxItems := 0 }
  else do
    let b ← h.bloom bf
    return { numBits := b.numBits, numHashes := b.numHashes, approxItems := b.inserted }

/-- `cbloom_serialize`. -/
def cbloomSerialize (bf : Addr) (h : Heap) : Option (CBloomBuffer × Heap) :=
  if bf = 0 then some ({ data := 0, len := 0 }, h)
  else do
    let b ← h.bloom bf
    let (data, h) := host.intoRaw (.buffer b.toBytes) h
    return ({ data, len := b.toBytes.length }, h)

/-- `cbloom_buffer_free`: the box is rebuilt from the address and the length, which have to be
those of the allocation. -/
def cbloomBufferFree (buf : CBloomBuffer) (h : Heap) : Option Heap :=
  if buf.data = 0 then some h
  else do
    let bytes ← h.buffer buf.data
    if bytes.length = buf.len then some (h.erase buf.data) else none

/-- `cbloom_deserialize`. -/
def cbloomDeserialize (data : Pointer) (len : Nat) (h : Heap) : Option (Addr × Heap) :=
  if data = .null then some (0, h)
  else do
    let bytes ← data.slice h.buffer len
    match Cbloom.cbloomDeserialize (some bytes) with
    | some bloom => return host.intoRaw (.bloom bloom) h
    | none => return (0, h)

end Host

/-! ## Calls -/

/-- A call over the boundary. -/
inductive Call (F : Type)
  | new (expectedItems : Nat) (fpRate : F)
  | free (bf : Addr)
  | add (bf : Addr) (data : Pointer) (len : Nat)
  | addStr (bf : Addr) (s : Option Bytes)
  | contains (bf : Addr) (data : Pointer) (len : Nat)
  | containsStr (bf : Addr) (s : Option Bytes)
  | getStats (bf : Addr)
  | serialize (bf : Addr)
  | bufferFree (buf : CBloomBuffer)
  | deserialize (data : Pointer) (len : Nat)

/-- What the caller is given. With a buffer it can read the bytes at it. -/
inductive Answer
  | nothing
  | handle (bf : Addr)
  | present (known : Bool)
  | stats (stats : CBloomStats)
  | buffer (buf : CBloomBuffer) (bytes : Bytes)

def Host.exec {F : Type} (host : Host F) (h : Heap) : Call F → Option (Answer × Heap)
  | .new expectedItems fpRate =>
    let (bf, h) := host.cbloomNew expectedItems fpRate h
    some (.handle bf, h)
  | .free bf => return (.nothing, ← Host.cbloomFree bf h)
  | .add bf data len => return (.nothing, ← host.cbloomAdd bf data len h)
  | .addStr bf s => return (.nothing, ← host.cbloomAddStr bf s h)
  | .contains bf data len => return (.present (← Host.cbloomContains bf data len h), h)
  | .containsStr bf s => return (.present (← Host.cbloomContainsStr bf s h), h)
  | .getStats bf => return (.stats (← Host.cbloomGetStats bf h), h)
  | .serialize bf => do
    let (buf, h) ← host.cbloomSerialize bf h
    return (.buffer buf ((h.buffer buf.data).getD []), h)
  | .bufferFree buf => return (.nothing, ← Host.cbloomBufferFree buf h)
  | .deserialize data len => do
    let (bf, h) ← host.cbloomDeserialize data len h
    return (.handle bf, h)

end RustFundamentals.Cbloom
