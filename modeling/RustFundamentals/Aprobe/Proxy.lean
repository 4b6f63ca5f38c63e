import RustFundamentals.Foundation.Runs
import RustFundamentals.Foundation.Text

/-!
# aprobe: the proxy

`run_proxy` and the handlers it spawns, as one machine. An event is something that happens to
the proxy: a future of its `select!` that is ready, a step of a handler, the trigger, the passing
of time. An event that cannot happen in a state leaves it as it is.
-/

namespace RustFundamentals.Aprobe

open Foundation

/-- A time, in nanoseconds. -/
abbrev Time := Nat

/-- `DRAIN_TIMEOUT`: one second. -/
def drainTimeout : Time := 1000000000

/-- An `io::Error`, as its text. -/
abbrev IoError := Text

/-- `Transferred`. -/
structure Transferred where
  clientToUpstream : Nat
  upstreamToClient : Nat
  deriving DecidableEq

/-! ## Handlers -/

/-- Where `handle_conn` is. -/
inductive Handler
  | connecting
  | copying
  | ended (r : Except IoError Transferred)
  | aborted
  deriving DecidableEq

namespace Handler

/-- The task has not come to an end. -/
def live : Handler → Bool
  | connecting | copying => true
  | ended _ | aborted => false

/-- `TcpStream::connect(upstream).await?`. -/
def connected (r : Except IoError Unit) : Handler → Handler
  | connecting =>
    match r with
    | .ok () => copying
    | .error e => ended (.error e)
  | h => h

/-- `copy_bidirectional(&mut inbound, &mut upstream).await?`, and the result. -/
def copied (r : Except IoError (Nat × Nat)) : Handler → Handler
  | copying =>
    match r with
    | .ok (clientToUpstream, upstreamToClient) => ended (.ok ⟨clientToUpstream, upstreamToClient⟩)
    | .error e => ended (.error e)
  | h => h

/-- A task that is aborted stops where it is, unless it has ended. -/
def abort (h : Handler) : Handler := if h.live then aborted else h

end Handler

/-! ## The proxy -/

/-- A task of the `JoinSet`: its handler, and whether `join_next` has returned it. -/
structure Slot where
  handler : Handler
  joined : Bool
  deriving DecidableEq

/-- Where `run_proxy` is. -/
inductive Phase
  | binding
  | accepting
  | draining (deadline : Time)
  | aborting
  | returned (r : Except IoError Unit)
  deriving DecidableEq

/-- The proxy, its tasks in the order they were spawned, and the clock. -/
structure Proxy where
  phase : Phase
  slots : List Slot
  triggered : Option Time
  now : Time
  deriving DecidableEq

/-- What can happen. -/
inductive Event
  | bound (r : Except IoError Unit)
  | accepted (r : Except IoError Unit)
  | connected (task : Nat) (r : Except IoError Unit)
  | copied (task : Nat) (r : Except IoError (Nat × Nat))
  | trigger
  | cancelled
  | elapse (d : Time)
  | joined (task : Nat)
  | emptied
  | timedOut
  deriving DecidableEq

namespace Proxy

/-- The proxy before it binds its listener. -/
def start : Proxy := ⟨.binding, [], none, 0⟩

/-- A step of one handler. -/
def handle (p : Proxy) (task : Nat) (f : Handler → Handler) : Proxy :=
  { p with slots := p.slots.modify task fun slot => { slot with handler := f slot.handler } }

/-- Aborting the tasks of the `JoinSet`, as dropping it and `shutdown` do. -/
def abortAll (p : Proxy) : Proxy :=
  { p with slots := p.slots.map fun slot => { slot with handler := slot.handler.abort } }

/-- `conns.spawn`. -/
def spawn (p : Proxy) : Proxy := { p with slots := p.slots ++ [⟨.connecting, false⟩] }

/-- The `JoinSet` is empty. -/
def allJoined (p : Proxy) : Bool := p.slots.all Slot.joined

/-- `join_next` returns a task that has come to an end. -/
def join (p : Proxy) (task : Nat) : Proxy :=
  { p with slots := p.slots.modify task fun slot =>
      { slot with joined := slot.joined || !slot.handler.live } }

/-- One event. -/
def step (p : Proxy) : Event → Proxy
  | .bound r =>
    match p.phase, r with
    | .binding, .ok () => { p with phase := .accepting }
    | .binding, .error e => { p with phase := .returned (.error e) }
    | _, _ => p
  | .accepted r =>
    match p.phase, r with
    | .accepting, .ok () => p.spawn
    -- `accepted?` returns, which drops the `JoinSet`.
    | .accepting, .error e => { p.abortAll with phase := .returned (.error e) }
    | _, _ => p
  | .connected task r => p.handle task (Handler.connected r)
  | .copied task r => p.handle task (Handler.copied r)
  | .trigger => { p with triggered := some (p.triggered.getD p.now) }
  | .cancelled =>
    match p.phase, p.triggered with
    | .accepting, some _ => { p with phase := .draining (p.now + drainTimeout) }
    | _, _ => p
  | .elapse d => { p with now := p.now + d }
  | .joined task =>
    match p.phase with
    | .draining _ | .aborting => p.join task
    | _ => p
  | .emptied =>
    match p.phase with
    | .draining _ | .aborting => if p.allJoined then { p with phase := .returned (.ok ()) } else p
    | _ => p
  | .timedOut =>
    match p.phase with
    | .draining deadline =>
      if deadline ≤ p.now ∧ ¬ p.allJoined then { p.abortAll with phase := .aborting } else p
    | _ => p

/-- The proxy after an event; events have no answer. -/
def exec (p : Proxy) (e : Event) : Unit × Proxy := ((), p.step e)

end Proxy

end RustFundamentals.Aprobe
