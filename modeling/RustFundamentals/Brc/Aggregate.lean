import Std.Data.TreeMap.Lemmas
import RustFundamentals.Foundation.Bytes
import RustFundamentals.Foundation.Lines
import RustFundamentals.Foundation.Tally

/-!
# brc: aggregation

`parse.rs`, `aggregate.rs`, `io.rs` and `runner.rs`. Temperatures are integers, in tenths of a
degree; their `i64` sum and `u64` count stay in range for any buffer there is room for, and are
not cut to it here. `none` is a panic.
-/

namespace RustFundamentals.Brc

open Foundation

/-! ## Lines -/

/-- `split_line`: the name before the first `;`, and what comes after. -/
def splitLine (line : Bytes) : Option (Bytes × Bytes) :=
  (line.findIdx? (· == 59)).map fun i => (line.take i, line.drop (i + 1))

/-- `(d - b'0') as i32`. -/
def digitValue (ov : Overflow) (d : UInt8) : Option Int :=
  (ov.sub 8 d.toNat 48).map fun (v : Nat) => (v : Int)

/-- The digits of a temperature. -/
def parseTenths (ov : Overflow) : Bytes → Option Int
  | [d1, 46, d2] => do return (← digitValue ov d1) * 10 + (← digitValue ov d2)
  | [d1, d2, 46, d3] => do
    return (← digitValue ov d1) * 100 + (← digitValue ov d2) * 10 + (← digitValue ov d3)
  | _ => none

/-- `parse_temp`. -/
def parseTemp (ov : Overflow) : Bytes → Option Int
  | 45 :: rest => (parseTenths ov rest).map fun v => -v
  | bytes => parseTenths ov bytes

/-! ## Accumulators -/

/-- `Stats`. -/
structure Stats where
  min : Int
  max : Int
  sum : Int
  count : Nat
  deriving DecidableEq, Repr

namespace Stats

/-- `Stats::default`: `min` is `i32::MAX`, `max` is `i32::MIN`. -/
def default : Stats := ⟨2 ^ 31 - 1, -2 ^ 31, 0, 0⟩

/-- `Stats::record`. -/
def record (s : Stats) (temp : Int) : Stats :=
  ⟨Min.min s.min temp, Max.max s.max temp, s.sum + temp, s.count + 1⟩

/-- `Stats::merge`. -/
def merge (s other : Stats) : Stats :=
  ⟨Min.min s.min other.min, Max.max s.max other.max, s.sum + other.sum, s.count + other.count⟩

end Stats

/-- `FastMap<&[u8], Stats>`. -/
abbrev FastMap := HashMap Bytes Stats

/-- `BTreeMap<Vec<u8>, Stats>`. -/
abbrev SortedMap := Std.TreeMap Bytes Stats compare

/-- `into_sorted`. -/
def intoSorted (map : FastMap) : SortedMap :=
  Std.TreeMap.ofList (map.entries.map fun e => (e.1, e.2)) compare

/-! ## One thread -/

/-- The byte that ends a line. -/
def isNewline (b : UInt8) : Bool := b == 10

/-- `memchr_iter(b'\n', data)`: the indices of the newlines, counting from `i`. -/
def newlines : Bytes → Nat → List Nat
  | [], _ => []
  | b :: data, i => if isNewline b then i :: newlines data (i + 1) else newlines data (i + 1)

/-- The body of the loop of `aggregate`. -/
def aggregateLine (ov : Overflow) (map : FastMap) (line : Bytes) : Option FastMap := do
  let (name, temp) ← splitLine line
  let temp ← parseTemp ov temp
  return map.entry name Stats.default fun s => s.record temp

/-- The loop of `aggregate`. -/
def aggregateLoop (ov : Overflow) (data : Bytes) : List Nat → Nat → FastMap → Option FastMap
  | [], _, map => some map
  | nl :: nls, start, map => do
    let line ← slice? data start nl
    let map ← aggregateLine ov map line
    aggregateLoop ov data nls (nl + 1) map

/-- `aggregate`. -/
def aggregate (ov : Overflow) (data : Bytes) : Option FastMap :=
  aggregateLoop ov data (newlines data 0) 0 ∅

/-- `run_sequential`. -/
def runSequential (ov : Overflow) (data : Bytes) : Option SortedMap :=
  (aggregate ov data).map intoSorted

/-! ## Threads -/

/-- The loop of `split_chunks`: the chunks, and where the last of them ends. -/
def splitLoop (data : Bytes) (approx : Nat) : Nat → Nat → Option (List Bytes × Nat)
  | 0, start => some ([], start)
  | k + 1, start => do
    let stop := Lines.cut isNewline data (min (start + approx) data.length)
    let chunk ← slice? data start stop
    if data.length ≤ stop then return ([chunk], stop)
    let (chunks, last) ← splitLoop data approx k stop
    return (chunk :: chunks, last)

/-- `split_chunks`. A slice has 16 bytes, and a `Vec` at most `isize::MAX`. -/
def splitChunks (data : Bytes) (n : Nat) : Option (List Bytes) :=
  if data.isEmpty then some []
  else if isizeMax < 16 * n ∨ n = 0 then none
  else do
    let (chunks, start) ← splitLoop data (data.length / n) (n - 1) 0
    return if start < data.length then chunks ++ [data.drop start] else chunks

/-- The merge of a thread's map into `global`. -/
def mergePartial (global map : FastMap) : FastMap := global.mergeWith Stats.merge Stats.default map

/-- `run_parallel`. The threads' maps are taken in the order the threads were spawned. -/
def runParallel (ov : Overflow) (data : Bytes) (threads : Nat) : Option SortedMap :=
  if threads ≤ 1 then runSequential ov data
  else do
    let chunks ← splitChunks data threads
    let partials ← chunks.mapM (aggregate ov)
    return intoSorted (partials.foldl mergePartial ∅)

end RustFundamentals.Brc
