import RustFundamentals.Rudis.Command

/-!
# rudis: connections

`connection.rs`: the buffers of one client and the I/O that fills and drains them. What the
socket does is given as the outcomes of the calls made on it; past the end of the list a call
would block. A `Stream` remembers what the socket has taken and what it was last offered.
-/

namespace RustFundamentals.Rudis

open Foundation Foundation.Fs

/-- The outgoing side of a `TcpStream`: the bytes it has accepted, and everything it has been
handed by `write`, accepted or not. -/
structure Stream where
  accepted : Bytes
  offered : Bytes
  deriving DecidableEq, Repr

namespace Stream

/-- A slice is handed to `write`. -/
def offer (s : Stream) (slice : Bytes) : Stream := { s with offered := s.accepted ++ slice }

/-- The socket takes bytes. -/
def accept (s : Stream) (out : Bytes) : Stream := { s with accepted := s.accepted ++ out }

end Stream

/-- `Connection`. Its history `replied`, which no function reads, has the replies encoded for
the client so far. -/
structure Connection where
  stream : Stream
  readBuf : Bytes
  writeBuf : Bytes
  replied : List Resp
  deriving DecidableEq

/-- The outcome of a `read`. A peer that has closed its side delivers nothing. -/
inductive ReadCall
  | delivered (bytes : Bytes)
  | wouldBlock
  | interrupted
  | failed (text : Str)

/-- The outcome of a `write`: how much of the slice was taken. -/
inductive WriteCall
  | took (n : Nat)
  | wouldBlock
  | interrupted
  | failed (text : Str)

/-- A connection and the state its commands run in. -/
structure Session where
  conn : Connection
  core : Core

namespace Connection

/-- `Connection::new`. -/
def new (stream : Stream) : Connection := ⟨stream, [], [], []⟩

/-- `Connection::wants_write`. -/
def wantsWrite (conn : Connection) : Bool := !conn.writeBuf.isEmpty

/-- A reply is encoded into the write buffer. -/
def queue (conn : Connection) (reply : Resp) : Connection :=
  { conn with writeBuf := conn.writeBuf ++ reply.encode, replied := conn.replied ++ [reply] }

/-- `Connection::read_into_buf`: whether the peer has closed its side. -/
def readIntoBuf (conn : Connection) : List ReadCall → Except Str Bool × Connection
  | [] => (.ok false, conn)
  | .delivered [] :: _ => (.ok true, conn)
  | .delivered bytes :: calls =>
    { conn with readBuf := conn.readBuf ++ bytes }.readIntoBuf calls
  | .wouldBlock :: _ => (.ok false, conn)
  | .interrupted :: calls => conn.readIntoBuf calls
  | .failed text :: _ => (.error text, conn)

/-- The loop of `flush_write_buf`: `buf` is the write buffer, of which `sent` bytes are out. -/
def flushLoop (buf : Bytes) (stream : Stream) (sent : Nat) :
    List WriteCall → Except Str Unit × Stream × Nat
  | [] => (.ok (), if sent < buf.length then stream.offer (buf.drop sent) else stream, sent)
  | call :: calls =>
    if sent < buf.length then
      let slice := buf.drop sent
      let stream := stream.offer slice
      match call with
      | .took 0 => (.ok (), stream, sent)
      | .took n => flushLoop buf (stream.accept (slice.take n)) (sent + (slice.take n).length) calls
      | .wouldBlock => (.ok (), stream, sent)
      | .interrupted => flushLoop buf stream sent calls
      | .failed text => (.error text, stream, sent)
    else (.ok (), stream, sent)

/-- `Connection::flush_write_buf`. -/
def flushWriteBuf (conn : Connection) (calls : List WriteCall) : Except Str Unit × Connection :=
  let (r, stream, sent) := flushLoop conn.writeBuf conn.stream 0 calls
  (r, { conn with stream := stream, writeBuf := conn.writeBuf.drop sent })

end Connection

/-- A command run on behalf of a connection. -/
def onCore {α : Type} (x : Io Core Empty α) : Io Session Error α := fun session =>
  match x.run session.core with
  | (.ok a, core) => (.ok a, { session with core := core })
  | (.error .died, core) => (.error .died, { session with core := core })
  | (.error .panicked, core) => (.error .panicked, { session with core := core })

/-- The loop of `Connection::process`, for a bounded number of requests. -/
def processLoop (ov : Overflow) : Nat → Io Session Error Unit
  | 0 => throw .panicked
  | fuel + 1 => do
    let session ← get
    match ← ofExcept (Resp.parse session.conn.readBuf) with
    | some (value, consumed) =>
      -- `drain(..consumed)`
      if session.conn.readBuf.length < consumed then throw .panicked
      modify fun s => { s with conn.readBuf := s.conn.readBuf.drop consumed }
      let reply ← onCore (respond ov value)
      modify fun s => { s with conn := s.conn.queue reply }
      processLoop ov fuel
    | none => pure ()

/-- `Connection::process`: every request takes a byte, so the buffer bounds their number. -/
def process (ov : Overflow) : Io Session Error Unit := do
  processLoop ov ((← get).conn.readBuf.length + 1)

end RustFundamentals.Rudis
