import RustFundamentals.Foundation.Bytes
import Mathlib.Data.Nat.Bitwise

/-!
# cbloom: the filter

`hash.rs` and `bloom.rs`: the two hashes of an item, its probes, the bit array packed into
64-bit words, and the wire format. A call may panic: on a remainder by zero, outside the
words, or in a checked build on the counter of additions.
-/

namespace RustFundamentals.Cbloom

open Foundation

/-- Why a call panicked. -/
inductive Panic
  | remainderByZero
  | indexOutOfRange
  | counterOverflow
  deriving DecidableEq, Repr

/-! ## `hash.rs` -/

def fnvOffset : UInt64 := 0xcbf29ce484222325

def fnvPrime : UInt64 := 0x00000100000001b3

/-- `fnv1a`. -/
def fnv1a (data : Bytes) (basis : UInt64) : UInt64 :=
  data.foldl (fun hash byte => (hash ^^^ byte.toUInt64) * fnvPrime) basis

/-- `hash_pair`. -/
def hashPair (item : Bytes) : UInt64 × UInt64 :=
  (fnv1a item fnvOffset, fnv1a item fnvPrime ||| 1)

/-- `h1.wrapping_add((i as u64).wrapping_mul(h2))`. -/
def combined (h1 h2 : UInt64) (i : Nat) : UInt64 := h1 + UInt64.ofNat i * h2

/-- `bit_index`. -/
def bitIndex (h1 h2 : UInt64) (i numBits : Nat) : Except Panic Nat :=
  if numBits = 0 then .error .remainderByZero else .ok ((combined h1 h2 i).toNat % numBits)

/-! ## `bloom.rs` -/

/-- `Bloom`. -/
structure Bloom where
  bits : List UInt64
  numBits : Nat
  numHashes : Nat
  inserted : Nat
  deriving DecidableEq, Repr

namespace Bloom

/-- `Bloom::with_params`. -/
def withParams (numBits numHashes : Nat) : Bloom :=
  let words := max ((numBits + 63) / 64) 1
  { bits := List.replicate words 0
    numBits := words * 64
    numHashes := max numHashes 1
    inserted := 0 }

/-- `set_bit`. -/
def setBit (b : Bloom) (index : Nat) : Except Panic Bloom :=
  match b.bits[index / 64]? with
  | none => .error .indexOutOfRange
  | some word =>
    .ok { b with bits := b.bits.set (index / 64) (word ||| (1 <<< UInt64.ofNat (index % 64))) }

/-- `get_bit`. -/
def getBit (b : Bloom) (index : Nat) : Except Panic Bool :=
  match b.bits[index / 64]? with
  | none => .error .indexOutOfRange
  | some word => .ok ((word >>> UInt64.ofNat (index % 64)) &&& 1 == 1)

/-- The loop of `add`. A panic leaves the bits set so far. -/
def addLoop (h1 h2 : UInt64) : List Nat → Bloom → Except Panic Unit × Bloom
  | [], b => (.ok (), b)
  | i :: is, b =>
    match bitIndex h1 h2 i b.numBits >>= b.setBit with
    | .ok b => addLoop h1 h2 is b
    | .error p => (.error p, b)

/-- `Bloom::add`. -/
def add (ov : Overflow) (item : Bytes) (b : Bloom) : Except Panic Unit × Bloom :=
  let (h1, h2) := hashPair item
  match addLoop h1 h2 (List.range b.numHashes) b with
  | (.ok (), b) =>
    match ov.fit 64 (b.inserted + 1) with
    | some n => (.ok (), { b with inserted := n })
    | none => (.error .counterOverflow, b)
  | stopped => stopped

/-- The `all` of `contains`: it stops at the first bit that is not set. -/
def allLoop (b : Bloom) (h1 h2 : UInt64) : List Nat → Except Panic Bool
  | [] => .ok true
  | i :: is => do
    let index ← bitIndex h1 h2 i b.numBits
    if ← b.getBit index then b.allLoop h1 h2 is else .ok false

/-- `Bloom::contains`. -/
def contains (b : Bloom) (item : Bytes) : Except Panic Bool :=
  let (h1, h2) := hashPair item
  b.allLoop h1 h2 (List.range b.numHashes)

end Bloom

/-! ## The wire format -/

def magic : Bytes := ascii "CBLM"

def version : UInt8 := 1

/-- The bytes in front of the words. -/
def headerLen : Nat := 25

/-- `Bloom::to_bytes`. -/
def Bloom.toBytes (b : Bloom) : Bytes :=
  magic ++ [version] ++ leBytes 4 b.numHashes ++ leBytes 8 b.inserted ++ leBytes 8 b.numBits ++
    b.bits.flatMap fun word => leBytes 8 word.toNat

/-- A field of the header, read as a little-endian integer. -/
def field (data : Bytes) (start stop : Nat) : Nat := ofLe ((data.drop start).take (stop - start))

/-- `data[5..9]`: the number of hashes a buffer claims. -/
def numHashesField (data : Bytes) : Nat := field data 5 9

/-- `data[9..17]`. -/
def insertedField (data : Bytes) : Nat := field data 9 17

/-- `data[17..25]`: the number of bits a buffer claims. -/
def numBitsField (data : Bytes) : Nat := field data 17 25

/-- `chunks_exact(8)` of that many chunks, each a little-endian word. -/
def wordsOf : Nat → Bytes → List UInt64
  | 0, _ => []
  | n + 1, bs => UInt64.ofNat (ofLe (bs.take 8)) :: wordsOf n (bs.drop 8)

/-- `Bloom::from_bytes`. -/
def Bloom.fromBytes (data : Bytes) : Option Bloom :=
  if data.length < headerLen then none
  else if data.take 4 ≠ magic ∨ data[4]? ≠ some version then none
  else
    let wordCount := numBitsField data / 64
    if data.length ≠ headerLen + wordCount * 8 then none
    else
      let tail := data.drop headerLen
      some
        { bits := wordsOf (tail.length / 8) tail
          numBits := numBitsField data
          numHashes := numHashesField data
          inserted := insertedField data }

end RustFundamentals.Cbloom
