import RustFundamentals.Aprobe.Proxy
import RustFundamentals.Aprobe.Target

/-!
# aprobe: the scanner

`scan` and the tasks it spawns, as one machine. An event is a turn of `scan` itself, the end of a
probe, the drop of a permit, or a task handed out by `join_next`; it leaves a state in which it
cannot happen as it is. A semaphore gives out no more permits than it was created with, and a
`JoinSet` every result once.
-/

namespace RustFundamentals.Aprobe

open Foundation

/-- `PortState`. -/
inductive PortState
  | open
  | closed
  | filtered
  deriving DecidableEq

/-- `ScanOutcome`. -/
structure ScanOutcome where
  port : Nat
  state : PortState
  rtt : Time
  deriving DecidableEq

/-! ## Probes -/

/-- What a `connect` has come to under its timeout, and when; `none` is the timeout. -/
structure Connect where
  result : Option (Except IoError Unit)
  rtt : Time
  deriving DecidableEq

/-- The nested result, as a state of the port. -/
def Connect.state (c : Connect) : PortState :=
  match c.result with
  | some (.ok ()) => .open
  | some (.error _) => .closed
  | none => .filtered

/-- `probe_port`. -/
def probePort (port : Nat) (c : Connect) : ScanOutcome := ⟨port, c.state, c.rtt⟩

/-- Where a spawned task is: it probes its port, drops its permit, and is joined. -/
inductive ProbeTask
  | probing
  | probed (outcome : ScanOutcome)
  | ended (outcome : ScanOutcome)
  | joined
  deriving DecidableEq

/-- A task of the `JoinSet`, with its port. -/
structure Spawned where
  port : Nat
  task : ProbeTask
  deriving DecidableEq

/-- The task has its permit. -/
def Spawned.holds (t : Spawned) : Bool :=
  match t.task with
  | .probing | .probed _ => true
  | .ended _ | .joined => false

/-- `join_next` has handed the task out. -/
def Spawned.isJoined (t : Spawned) : Bool := t.task = .joined

/-! ## The scan -/

/-- `Semaphore::MAX_PERMITS`; a semaphore with more of them panics when it is created. -/
def maxPermits : Nat := (2 ^ 64 - 1) / 2 ^ 3

/-- Where `scan` is: it waits for the permit of the first port, spawns the task of a port, or joins
the tasks. -/
inductive ScanPhase
  | acquiring (ports : List Nat)
  | spawning (port : Nat) (ports : List Nat)
  | joining (outcomes : List ScanOutcome)
  | returned (outcomes : List ScanOutcome)
  | panicked
  deriving DecidableEq

/-- The scan, the permits the semaphore has left, and the tasks in the order they were spawned. -/
structure Scan where
  phase : ScanPhase
  permits : Nat
  tasks : List Spawned
  deriving DecidableEq

/-- What can happen. -/
inductive ScanEvent
  | turn
  | connected (task : Nat) (c : Connect)
  | released (task : Nat)
  | joined (task : Nat)
  deriving DecidableEq

/-- `outcomes.sort_by_key(|o| o.port)`. -/
def sortByPort (outcomes : List ScanOutcome) : List ScanOutcome :=
  outcomes.mergeSort fun a b => decide (a.port ≤ b.port)

namespace Scan

/-- The scan with its semaphore. -/
def start (target : Target) (concurrency : Nat) : Scan :=
  if maxPermits < max concurrency 1 then ⟨.panicked, 0, []⟩
  else ⟨.acquiring target.ports, max concurrency 1, []⟩

/-- What `scan` does next, if it need not wait: take a permit, spawn, leave the loop, return. -/
def turn (s : Scan) : Scan :=
  match s.phase with
  | .acquiring [] => { s with phase := .joining [] }
  | .acquiring (port :: ports) =>
    if s.permits = 0 then s
    else { s with phase := .spawning port ports, permits := s.permits - 1 }
  | .spawning port ports =>
    { s with phase := .acquiring ports, tasks := s.tasks ++ [⟨port, .probing⟩] }
  | .joining outcomes =>
    if s.tasks.all Spawned.isJoined then { s with phase := .returned (sortByPort outcomes) }
    else s
  | .returned _ | .panicked => s

/-- A task has come to that. -/
def become (s : Scan) (i : Nat) (task : ProbeTask) : Scan :=
  { s with tasks := s.tasks.modify i fun t => { t with task := task } }

/-- One event. -/
def step (s : Scan) : ScanEvent → Scan
  | .turn => s.turn
  | .connected i c =>
    match s.tasks[i]? with
    | some ⟨port, .probing⟩ => s.become i (.probed (probePort port c))
    | _ => s
  | .released i =>
    match s.tasks[i]? with
    | some ⟨_, .probed outcome⟩ => { s.become i (.ended outcome) with permits := s.permits + 1 }
    | _ => s
  | .joined i =>
    match s.phase, s.tasks[i]? with
    | .joining outcomes, some ⟨_, .ended outcome⟩ =>
      { s.become i .joined with phase := .joining (outcomes ++ [outcome]) }
    | _, _ => s

/-- The scan after an event; events have no answer. -/
def exec (s : Scan) (e : ScanEvent) : Unit × Scan := ((), s.step e)

/-- The probes in flight. -/
def inFlight (s : Scan) : Nat := s.tasks.countP fun t => t.task = .probing

end Scan

/-! ## The oracle -/

/-- `scan_sequential`: the `i`th `connect` of it comes to `connects i`. -/
def scanSequential (target : Target) (connects : Nat → Connect) : List ScanOutcome :=
  target.ports.mapIdx fun i port => probePort port (connects i)

end RustFundamentals.Aprobe
