import Mathlib.Data.Char
import Mathlib.Data.List.Lex
import RustFundamentals.Foundation.FloatFormat
import RustFundamentals.Foundation.ParseInt
import RustFundamentals.Foundation.Tally
import RustFundamentals.Foundation.TextLines

/-!
# logcrunch: lines, statistics and reports

`parser.rs` and `stats.rs`. `none` is a panic: of the byte total when it overflows, of the
comparison of request times when one is NaN, of an index past the end. The other counts are of
lines, and do not overflow. Request times are compared by value, as `partial_cmp` does; strings
by their characters, whose order is that of their UTF-8.
-/

namespace RustFundamentals.Logcrunch

open Foundation

/-! ## Lines -/

/-- `LogEntry`. -/
structure LogEntry where
  ip : Text
  status : Nat
  bytes : Nat
  requestTimeMs : FloatValue
  method : Text
  path : Text
  deriving DecidableEq

/-- `ParseError`. -/
inductive ParseError
  | wrongFieldCount (found : Nat)
  | badNumber (field : Text)
  deriving DecidableEq

/-- `parse` into an unsigned integer of that many bits, or the error of the field. -/
def parseUint (bits : Nat) (field s : Text) : Except ParseError Nat :=
  match parseInt 0 (2 ^ bits - 1) s with
  | .ok n => .ok n.toNat
  | .error _ => .error (.badNumber field)

/-- `parse_line`. -/
def parseLine (line : Text) : Except ParseError LogEntry :=
  match line.splitWhitespace with
  | [ip, status, bytes, requestTimeMs, method, path] => do
    let status ← parseUint 16 "status".toList status
    let bytes ← parseUint 64 "bytes".toList bytes
    match f32.parse requestTimeMs with
    | some requestTimeMs => return ⟨ip, status, bytes, requestTimeMs, method, path⟩
    | none => throw (.badNumber "request_time_ms".toList)
  | parts => throw (.wrongFieldCount parts.length)

/-! ## Statistics -/

/-- `Stats`. -/
structure Stats where
  requests : Nat
  malformed : Nat
  totalBytes : Nat
  statusCounts : HashMap Nat Nat
  pathCounts : HashMap Text Nat
  ipCounts : HashMap Text Nat
  requestTimes : List FloatValue

/-- `*counts.entry(k).or_insert(0) += 1`. -/
def bump {κ : Type} [DecidableEq κ] (counts : HashMap κ Nat) (k : κ) : HashMap κ Nat :=
  counts.entry k 0 fun n => n + 1

/-- `*counts.entry(k).or_insert(0) += count`, for every entry of `other`. -/
def addCounts {κ : Type} [DecidableEq κ] (counts other : HashMap κ Nat) : HashMap κ Nat :=
  counts.mergeWith (fun n count => n + count) 0 other

namespace Stats

/-- `Stats::default`. -/
def default : Stats := ⟨0, 0, 0, ∅, ∅, ∅, []⟩

/-- `Stats::record`. -/
def record (ov : Overflow) (s : Stats) (entry : LogEntry) : Option Stats := do
  let totalBytes ← ov.fit 64 (s.totalBytes + entry.bytes)
  return { s with
    requests := s.requests + 1
    totalBytes := totalBytes
    statusCounts := bump s.statusCounts entry.status
    pathCounts := bump s.pathCounts entry.path
    ipCounts := bump s.ipCounts entry.ip
    requestTimes := s.requestTimes ++ [entry.requestTimeMs] }

/-- `Stats::record_malformed`. -/
def recordMalformed (s : Stats) : Stats := { s with malformed := s.malformed + 1 }

/-- `Merge for Stats`. -/
def merge (ov : Overflow) (s other : Stats) : Option Stats := do
  let totalBytes ← ov.fit 64 (s.totalBytes + other.totalBytes)
  return {
    requests := s.requests + other.requests
    malformed := s.malformed + other.malformed
    totalBytes := totalBytes
    statusCounts := addCounts s.statusCounts other.statusCounts
    pathCounts := addCounts s.pathCounts other.pathCounts
    ipCounts := addCounts s.ipCounts other.ipCounts
    requestTimes := s.requestTimes ++ other.requestTimes }

/-- `Stats::percentile`. Sorting compares as soon as there are two request times. -/
def percentile (s : Stats) (p : FloatValue) : Option (Option FloatValue) :=
  if s.requestTimes.isEmpty then some none
  else if 2 ≤ s.requestTimes.length ∧ .nan ∈ s.requestTimes then none
  else
    let sorted := s.requestTimes.mergeSort FloatValue.le
    let rank := f32.mul (f32.div p (.finite 100)) (f32.ofNat (sorted.length - 1))
    sorted[rank.round.toUsize]?.map some

end Stats

/-! ## Reports -/

/-- `Report`. -/
structure Report where
  requests : Nat
  malformed : Nat
  totalBytes : Nat
  statusCounts : List (Nat × Nat)
  topPaths : List (Text × Nat)
  topIps : List (Text × Nat)
  errorRate : FloatValue
  p50 : Option FloatValue
  p95 : Option FloatValue
  p99 : Option FloatValue
  deriving DecidableEq

section Counts

variable {κ : Type} [LinearOrder κ]

/-- `b.1.cmp(&a.1).then_with(|| a.0.cmp(&b.0))` is not `Greater`. -/
def countLe (a b : κ × Nat) : Bool := decide (b.2 < a.2 ∨ b.2 = a.2 ∧ a.1 ≤ b.1)

/-- The entries of a map, the largest counts first. -/
def sortCounts (counts : HashMap κ Nat) : List (κ × Nat) :=
  (counts.entries.map fun e => (e.1, e.2)).mergeSort countLe

end Counts

/-- The count of the responses 500 to 599. -/
def serverErrors (statusCounts : List (Nat × Nat)) : Nat :=
  ((statusCounts.filter fun e => 500 ≤ e.1 ∧ e.1 ≤ 599).map Prod.snd).sum

/-- `Stats::into_report`. -/
def Stats.intoReport (s : Stats) (topK : Nat) : Option Report := do
  let p50 ← s.percentile (.finite 50)
  let p95 ← s.percentile (.finite 95)
  let p99 ← s.percentile (.finite 99)
  let statusCounts := sortCounts s.statusCounts
  return {
    requests := s.requests
    malformed := s.malformed
    totalBytes := s.totalBytes
    statusCounts := statusCounts
    topPaths := (sortCounts s.pathCounts).take topK
    topIps := (sortCounts s.ipCounts).take topK
    errorRate :=
      if s.requests = 0 then .finite 0
      else f32.div (f32.ofNat (serverErrors statusCounts)) (f32.ofNat s.requests)
    p50 := p50
    p95 := p95
    p99 := p99 }

end RustFundamentals.Logcrunch
