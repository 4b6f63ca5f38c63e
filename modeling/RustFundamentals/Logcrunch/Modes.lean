import RustFundamentals.Foundation.Runs
import RustFundamentals.Logcrunch.Stats

/-!
# logcrunch: the modes

`sequential.rs`, `parallel.rs`, `pipeline.rs` and `rayon_impl.rs`. Threads that share nothing
are run one after the other and joined in order. The pipeline is a machine, whose events come in
any order. What rayon decides is the tree along which it folds and reduces.
-/

namespace RustFundamentals.Logcrunch

open Foundation

/-! ## Sequential -/

/-- The body of every mode's loop: a line is recorded, one way or the other. -/
def Stats.recordLine (ov : Overflow) (s : Stats) (line : Text) : Option Stats :=
  match parseLine line with
  | .ok entry => s.record ov entry
  | .error _ => some s.recordMalformed

/-- The loop over the lines that are not empty. -/
def Stats.recordLines (ov : Overflow) (s : Stats) (lines : List Text) : Option Stats :=
  lines.foldlM (fun s line => if line.isEmpty then some s else s.recordLine ov line) s

/-- `analyze_sequential`. -/
def analyzeSequential (ov : Overflow) (data : Bytes) : Option Stats :=
  Stats.default.recordLines ov (Text.linesLossy data)

/-! ## Parallel -/

/-- The bounds of the chunks, interior ones walked to the end of their line. -/
def chunkBounds (ov : Overflow) (data : Bytes) (n : Nat) : Option (List Nat) := do
  let interior ← (List.range' 1 (n - 1)).mapM fun i => do
    let raw := (← ov.fit 64 (i * data.length)) / n
    return Lines.cut Text.newlineByte data raw
  return 0 :: interior ++ [data.length]

/-- `bounds.windows(2)`, as slices of the data. -/
def windowSlices (data : Bytes) : List Nat → Option (List Bytes)
  | start :: stop :: bounds => do
    let chunk ← slice? data start stop
    let chunks ← windowSlices data (stop :: bounds)
    return chunk :: chunks
  | _ => some []

/-- `split_into_chunks`. -/
def splitIntoChunks (ov : Overflow) (data : Bytes) (n : Nat) : Option (List Bytes) :=
  if data.isEmpty then some []
  else do
    let bounds ← chunkBounds ov data (max n 1)
    let chunks ← windowSlices data bounds
    return chunks.filter fun chunk => !chunk.isEmpty

/-- The merge of the locals, in order. -/
def mergeAll (ov : Overflow) (locals : List Stats) : Option Stats :=
  locals.foldlM (Stats.merge ov) Stats.default

/-- `analyze_parallel`. -/
def analyzeParallel (ov : Overflow) (data : Bytes) (nThreads : Nat) : Option Stats := do
  let chunks ← splitIntoChunks ov data nThreads
  let locals ← chunks.mapM (analyzeSequential ov)
  mergeAll ov locals

/-! ## Pipeline -/

/-- `BATCH`. -/
def batchSize : Nat := 1024

/-- The capacity of the channel. -/
def channelCapacity : Nat := 64

/-- `size_of::<ScopedJoinHandle<Stats>>()`. -/
def joinHandleSize : Nat := 24

/-- The loop of the producer: the batches it sends, of which `batch` is begun. -/
def batchLoop : List Text → List Text → List (List Text)
  | [], batch => if batch.isEmpty then [] else [batch]
  | line :: lines, batch =>
    if line.isEmpty then batchLoop lines batch
    else if (batch ++ [line]).length = batchSize then (batch ++ [line]) :: batchLoop lines []
    else batchLoop lines (batch ++ [line])

/-- A worker: its local statistics, or `none` when it has panicked, and whether it has left its
loop. -/
structure Worker where
  localStats : Option Stats
  returned : Bool

/-- The pipeline: the batches still to be sent, the channel, whether its sender is dropped, and
the workers. -/
structure Pipeline where
  toSend : List (List Text)
  channel : List (List Text)
  closed : Bool
  workers : List Worker

/-- What can happen next. -/
inductive PipelineEvent
  | send
  | close
  | receive (worker : Nat)
  | leave (worker : Nat)
  deriving DecidableEq

namespace Pipeline

/-- The threads before any of them has run. Collecting the join handles reserves room for all of
them first; `none` is the capacity-overflow panic of that, and no worker is spawned. -/
def start (data : Bytes) (nWorkers : Nat) : Option Pipeline :=
  if isizeMax < joinHandleSize * nWorkers then none
  else some ⟨batchLoop (Text.linesLossy data) [], [], false,
    List.replicate nWorkers ⟨some Stats.default, false⟩⟩

/-- A worker records a batch. -/
def record (ov : Overflow) (batch : List Text) (w : Worker) : Worker :=
  match w.localStats.bind fun s => batch.foldlM (Stats.recordLine ov) s with
  | some s => ⟨some s, false⟩
  | none => ⟨none, true⟩

/-- A worker is in its loop. -/
def running (p : Pipeline) (worker : Nat) : Bool :=
  (p.workers[worker]?).any fun w => !w.returned

/-- One event; one that cannot happen changes nothing. -/
def step (ov : Overflow) (p : Pipeline) : PipelineEvent → Pipeline
  | .send =>
    match p.toSend with
    | batch :: toSend =>
      if p.channel.length < channelCapacity then
        { p with toSend := toSend, channel := p.channel ++ [batch] }
      else p
    | [] => p
  | .close => if p.toSend.isEmpty then { p with closed := true } else p
  | .receive worker =>
    match p.channel with
    | batch :: channel =>
      if p.running worker then
        { p with channel := channel, workers := p.workers.modify worker (record ov batch) }
      else p
    | [] => p
  | .leave worker =>
    if p.channel.isEmpty ∧ p.closed ∧ p.running worker then
      { p with workers := p.workers.modify worker fun w => { w with returned := true } }
    else p

/-- The pipeline after an event; events have no answer. -/
def exec (ov : Overflow) (p : Pipeline) (e : PipelineEvent) : Unit × Pipeline := ((), p.step ov e)

/-- All the threads have ended. -/
def Done (p : Pipeline) : Prop := p.closed = true ∧ ∀ w ∈ p.workers, w.returned = true

/-- What `analyze_pipeline` returns then: the locals are joined in order. -/
def result (ov : Overflow) (p : Pipeline) : Option Stats := do
  let locals ← p.workers.mapM Worker.localStats
  mergeAll ov locals

end Pipeline

/-! ## Rayon -/

/-- A tree of folds and reductions over a sequence of lines. -/
inductive Reduction
  | fold (lines : List Text)
  | reduce (left right : Reduction)

namespace Reduction

/-- The lines of the tree, from left to right. -/
def lines : Reduction → List Text
  | fold lines => lines
  | reduce left right => left.lines ++ right.lines

/-- `fold(…).reduce(…)` along the tree. A leaf is folded, and reduced with the identity. -/
def eval (ov : Overflow) : Reduction → Option Stats
  | fold lines => do
    let acc ← lines.foldlM (Stats.recordLine ov) Stats.default
    Stats.default.merge ov acc
  | reduce left right => do (← left.eval ov).merge ov (← right.eval ov)

end Reduction

/-- The lines `analyze_rayon` collects. -/
def rayonLines (data : Bytes) : List Text := (Text.linesLossy data).filter fun l => !l.isEmpty

end RustFundamentals.Logcrunch
