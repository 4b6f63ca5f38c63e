import RustFundamentals.Rudis.Connection

/-!
# rudis: the event loop

`server.rs`: one thread that takes readiness events one after the other. An event carries the
outcomes of the calls made on its behalf. A step of the loop may end it: an error passed on with
`?`, a shutdown signal, or the end of the process in a panic. Connections that are removed from
the map are reported with the reason the loop logs.
-/

namespace RustFundamentals.Rudis

open Foundation Foundation.Fs

/-- The kinds of I/O error the loop tells apart. -/
inductive ErrorKind
  | wouldBlock
  | interrupted
  | connectionAborted
  | connectionReset
  | other
  deriving DecidableEq, Repr

/-- `is_transient`. -/
def ErrorKind.isTransient : ErrorKind → Bool
  | connectionAborted | connectionReset => true
  | _ => false

/-- The outcome of an `accept`. An accepted stream is registered, or registering it fails. -/
inductive AcceptCall
  | accepted (registered : Except Str Unit)
  | failed (kind : ErrorKind) (text : Str)

/-- Signals. -/
inductive Signal
  | sigint
  | sigterm
  | other
  deriving DecidableEq, Repr

/-- A readiness event of a client, with the outcomes of the reads, of the writes, and of
re-arming the interest. -/
structure Ready where
  token : Nat
  readable : Bool
  writable : Bool
  reads : List ReadCall
  writes : List WriteCall
  rearmed : Except Str Unit

/-- One step of the event loop. The tick ends every turn of it. -/
inductive Step
  | listener (calls : List AcceptCall)
  | signals (pending : List Signal)
  | ready (r : Ready)
  | tick

/-- Why a connection is removed. -/
inductive Reason
  | connectionError (e : Error)
  | readError (text : Str)
  | writeError (text : Str)
  | peerClosed
  | replaced

/-- The socket of the connection has failed. -/
def Reason.isSocketError : Reason → Bool
  | readError _ | writeError _ => true
  | _ => false

/-- A connection that has been removed from the map. -/
structure Closed where
  conn : Connection
  reason : Reason

/-- How the loop ends. -/
inductive Halt
  | io (text : Str)
  | shutdown
  | gone

/-- The state of `run`. -/
structure Server where
  conns : HashMap Nat Connection
  nextToken : Nat
  core : Core

/-- `FIRST_CONN`. -/
def firstConn : Nat := 16

/-- The loop of `next_free_token`, for a bounded number of candidates. -/
def nextFreeTokenLoop (conns : HashMap Nat Connection) : Nat → Nat → Option Nat
  | 0, _ => none
  | fuel + 1, candidate =>
    let candidate := if candidate + 1 < 2 ^ 64 then candidate + 1 else firstConn
    if firstConn ≤ candidate ∧ candidate ∉ conns then some candidate
    else nextFreeTokenLoop conns fuel candidate

/-- `next_free_token`: when all of that many candidates are taken, the loop never ends. -/
def nextFreeToken (candidate : Nat) (conns : HashMap Nat Connection) : Option Nat :=
  nextFreeTokenLoop conns (conns.entries.length + firstConn + 1) candidate

namespace Server

/-- The server before its first event. -/
def start (core : Core) : Server := ⟨∅, firstConn, core⟩

/-- The loop of the `LISTENER` arm; past the end of the list an `accept` would block. -/
def acceptLoop (s : Server) : List AcceptCall → Except Halt (Server × List Closed)
  | [] => .ok (s, [])
  | .accepted registered :: calls =>
    match nextFreeToken s.nextToken s.conns, registered with
    | none, _ => .error .gone
    | some _, .error text => .error (.io text)
    | some next, .ok () => do
      let replaced := (s.conns.lookup s.nextToken).map fun conn => ⟨conn, .replaced⟩
      let conns := s.conns.insert s.nextToken (.new ⟨[], []⟩)
      let (s, closed) ← acceptLoop { s with conns := conns, nextToken := next } calls
      return (s, replaced.toList ++ closed)
  | .failed .wouldBlock _ :: _ => .ok (s, [])
  | .failed .interrupted _ :: calls => s.acceptLoop calls
  | .failed kind text :: calls => if kind.isTransient then s.acceptLoop calls else .error (.io text)

/-- The readable part of a client's event: pull bytes in, then run what has come in. -/
def readPhase (ov : Overflow) (r : Ready) (conn : Connection) (core : Core) :
    Except Halt (Connection × Core × Option Reason) :=
  if r.readable then
    match conn.readIntoBuf r.reads with
    | (.ok peerClosed, conn) =>
      match (process ov).run ⟨conn, core⟩ with
      | (.ok (), ⟨conn, core⟩) => .ok (conn, core, if peerClosed then some .peerClosed else none)
      | (.error (.err e), ⟨conn, core⟩) => .ok (conn, core, some (.connectionError e))
      | (.error _, _) => .error .gone
    | (.error text, conn) => .ok (conn, core, some (.readError text))
  else .ok (conn, core, none)

/-- The writable part: flush, unless the connection is to be dropped. -/
def writePhase (r : Ready) (conn : Connection) (drop : Option Reason) :
    Connection × Option Reason :=
  if drop.isNone ∧ (r.writable ∨ conn.wantsWrite) then
    match conn.flushWriteBuf r.writes with
    | (.ok (), conn) => (conn, none)
    | (.error text, conn) => (conn, some (.writeError text))
  else (conn, drop)

/-- The arm of a client's token. -/
def onReady (ov : Overflow) (r : Ready) (s : Server) : Except Halt (Server × List Closed) :=
  match s.conns.lookup r.token with
  | none => .ok (s, [])
  | some conn => do
    let (conn, core, drop) ← readPhase ov r conn s.core
    match writePhase r conn drop with
    | (conn, some reason) =>
      return ({ s with conns := s.conns.erase r.token, core := core }, [⟨conn, reason⟩])
    | (conn, none) =>
      match r.rearmed with
      | .error text => .error (.io text)
      | .ok () => return ({ s with conns := s.conns.insert r.token conn, core := core }, [])

/-- One step of the loop. -/
def step (ov : Overflow) : Step → Server → Except Halt (Server × List Closed)
  | .listener calls, s => s.acceptLoop calls
  | .signals pending, s =>
    if .sigint ∈ pending ∨ .sigterm ∈ pending then .error .shutdown else .ok (s, [])
  | .ready r, s => s.onReady ov r
  | .tick, s =>
    match (purge : Io Core Empty Unit).run s.core with
    | (.ok (), core) => .ok ({ s with core := core }, [])
    | (.error _, _) => .error .gone

/-- The server behind an accept. -/
def accept (s : Server) (next : Nat) : Server :=
  { s with conns := s.conns.insert s.nextToken (.new ⟨[], []⟩), nextToken := next }

/-- The connection whose token is given away once more. -/
def replaced (s : Server) : Option Closed :=
  (s.conns.lookup s.nextToken).map fun conn => ⟨conn, .replaced⟩

/-- What the calls of a listener event do, when they do not end the loop of `run`: accept, or fail
in a way that is passed over, until one would block. -/
inductive Looped : Server → List AcceptCall → Server → List Closed → Prop
  | done (s : Server) (calls : List AcceptCall) : Looped s calls s []
  | accepted {s s' : Server} {next : Nat} {calls : List AcceptCall} {later : List Closed}
    (hnext : nextFreeToken s.nextToken s.conns = some next)
    (hlater : Looped (s.accept next) calls s' later) :
    Looped s (.accepted (.ok ()) :: calls) s' (s.replaced.toList ++ later)
  | failed {s s' : Server} {kind : ErrorKind} {text : Str} {calls : List AcceptCall}
    {closed : List Closed} (hkind : kind = .interrupted ∨ kind.isTransient = true)
    (hlater : Looped s calls s' closed) : Looped s (.failed kind text :: calls) s' closed

theorem looped_of_acceptLoop {calls : List AcceptCall} {s s' : Server} {closed : List Closed}
    (h : s.acceptLoop calls = .ok (s', closed)) : Looped s calls s' closed := by
  induction calls generalizing s closed with
  | nil =>
    obtain ⟨rfl, rfl⟩ := Prod.mk.inj (Except.ok.inj h)
    exact .done s []
  | cons call calls ih =>
    cases call with
    | accepted registered =>
      unfold acceptLoop at h
      cases hnext : nextFreeToken s.nextToken s.conns with
      | none =>
        rw [hnext] at h
        cases h
      | some next =>
        rw [hnext] at h
        cases registered with
        | error text => cases h
        | ok _ =>
          change ((s.accept next).acceptLoop calls >>= _) = _ at h
          rcases hrest : (s.accept next).acceptLoop calls with halt | ⟨after, later⟩
          · rw [hrest] at h
            cases h
          rw [hrest] at h
          obtain ⟨rfl, rfl⟩ := Prod.mk.inj (Except.ok.inj h)
          exact .accepted hnext (ih hrest)
    | failed kind text =>
      cases kind with
      | wouldBlock =>
        obtain ⟨rfl, rfl⟩ := Prod.mk.inj (Except.ok.inj h)
        exact .done s _
      | interrupted => exact .failed (.inl rfl) (ih h)
      | connectionAborted => exact .failed (.inr rfl) (ih h)
      | connectionReset => exact .failed (.inr rfl) (ih h)
      | other => cases h

/-- What a client's event does: nothing for a token that is gone; else the connection is read from
and written to, and taken out of the map or put back. -/
inductive Served (ov : Overflow) (r : Ready) (s : Server) : Server → List Closed → Prop
  | gone (hlookup : s.conns.lookup r.token = none) : Served ov r s s []
  | removed {conn conn₁ conn₂ : Connection} {core : Core} {drop : Option Reason} {reason : Reason}
    (hlookup : s.conns.lookup r.token = some conn)
    (hread : readPhase ov r conn s.core = .ok (conn₁, core, drop))
    (hwrite : writePhase r conn₁ drop = (conn₂, some reason)) :
    Served ov r s { s with conns := s.conns.erase r.token, core := core } [⟨conn₂, reason⟩]
  | kept {conn conn₁ conn₂ : Connection} {core : Core} {drop : Option Reason}
    (hlookup : s.conns.lookup r.token = some conn)
    (hread : readPhase ov r conn s.core = .ok (conn₁, core, drop))
    (hwrite : writePhase r conn₁ drop = (conn₂, none)) :
    Served ov r s { s with conns := s.conns.insert r.token conn₂, core := core } []

theorem served_of_onReady {ov : Overflow} {r : Ready} {s s' : Server} {closed : List Closed}
    (h : s.onReady ov r = .ok (s', closed)) : Served ov r s s' closed := by
  unfold onReady at h
  cases hlookup : s.conns.lookup r.token with
  | none =>
    rw [hlookup] at h
    obtain ⟨rfl, rfl⟩ := Prod.mk.inj (Except.ok.inj h)
    exact .gone hlookup
  | some conn =>
    rw [hlookup] at h
    rcases hread : readPhase ov r conn s.core with halt | ⟨conn₁, core, drop⟩
    · simp only [hread] at h
      cases h
    simp only [hread, bind, Except.bind] at h
    rcases hwrite : writePhase r conn₁ drop with ⟨conn₂, _ | reason⟩
    · rw [hwrite] at h
      cases hrearmed : r.rearmed with
      | error text =>
        rw [hrearmed] at h
        cases h
      | ok _ =>
        rw [hrearmed] at h
        obtain ⟨rfl, rfl⟩ := Prod.mk.inj (Except.ok.inj h)
        exact .kept hlookup hread hwrite
    · rw [hwrite] at h
      obtain ⟨rfl, rfl⟩ := Prod.mk.inj (Except.ok.inj h)
      exact .removed hlookup hread hwrite

/-- What a step of the loop does, when it does not end it. -/
inductive Stepped (ov : Overflow) (s : Server) : Step → Server → List Closed → Prop
  | listener {calls : List AcceptCall} {s' : Server} {closed : List Closed}
    (h : Looped s calls s' closed) : Stepped ov s (.listener calls) s' closed
  | signals (pending : List Signal) : Stepped ov s (.signals pending) s []
  | ready {r : Ready} {s' : Server} {closed : List Closed} (h : Served ov r s s' closed) :
    Stepped ov s (.ready r) s' closed
  | tick (core : Core) : Stepped ov s .tick { s with core := core } []

theorem stepped_of_step {ov : Overflow} {st : Step} {s s' : Server} {closed : List Closed}
    (h : s.step ov st = .ok (s', closed)) : Stepped ov s st s' closed := by
  cases st with
  | listener calls => exact .listener (looped_of_acceptLoop h)
  | signals pending =>
    rw [step] at h
    split at h
    · cases h
    · obtain ⟨rfl, rfl⟩ := Prod.mk.inj (Except.ok.inj h)
      exact .signals pending
  | ready r => exact .ready (served_of_onReady h)
  | tick =>
    rw [step] at h
    rcases hrun : (purge : Io Core Empty Unit).run s.core with ⟨res, core⟩
    rw [hrun] at h
    cases res with
    | error stop => cases h
    | ok _ =>
      obtain ⟨rfl, rfl⟩ := Prod.mk.inj (Except.ok.inj h)
      exact .tick core

/-- The connections that the loop removes over a run, until it ends. -/
def closes (ov : Overflow) : List Step → Server → List Closed
  | [], _ => []
  | st :: steps, s =>
    match s.step ov st with
    | .ok (s, closed) => closed ++ closes ov steps s
    | .error _ => []

end Server

end RustFundamentals.Rudis
