import RustFundamentals.Foundation.Runs
import RustFundamentals.Rudis.Delivery

/-!
# rudis: the write buffer

What a socket has accepted and what is still in the write buffer are, put together, all replies in
the order in which they were made. No call on a connection changes that, however it ends, and
whatever the socket does (`write_buffer_exact`).
-/

namespace RustFundamentals.Rudis

open Foundation Foundation.Fs

/-- A call on a connection. `process` finds the store and the clock as the server has them then. -/
inductive ConnectionCall
  | readIntoBuf (calls : List ReadCall)
  | process (core : Core)
  | flushWriteBuf (calls : List WriteCall)

/-- An I/O error, as `?` passes it on. -/
def ioResult {α : Type} : Except Str α → Except (Stop Error) Unit
  | .ok _ => .ok ()
  | .error text => .error (.err (.io text))

/-- How a call ends, and the connection afterwards. -/
def Connection.exec (ov : Overflow) (conn : Connection) :
    ConnectionCall → Except (Stop Error) Unit × Connection
  | .readIntoBuf calls =>
    let (r, conn) := conn.readIntoBuf calls
    (ioResult r, conn)
  | .process core =>
    let (r, session) := (Rudis.process ov).run ⟨conn, core⟩
    (r, session.conn)
  | .flushWriteBuf calls =>
    let (r, conn) := conn.flushWriteBuf calls
    (ioResult r, conn)

/-! ## The replies of a run -/

/-- The replies to requests, up to one that a command does not survive. -/
def repliesTo (ov : Overflow) : List Resp → Core → List Resp
  | [], _ => []
  | request :: requests, core =>
    match (respond ov request).run core with
    | (.ok reply, core) => reply :: repliesTo ov requests core
    | (.error _, _) => []

/-- The replies that a call makes. -/
def Connection.repliesOf (ov : Overflow) (conn : Connection) : ConnectionCall → List Resp
  | .process core => repliesTo ov (frames conn.readBuf).requests core
  | _ => []

/-- The replies that the calls of a run make, in order. -/
def Connection.repliesOfRun (ov : Overflow) : Connection → List ConnectionCall → List Resp
  | _, [] => []
  | conn, call :: calls =>
    conn.repliesOf ov call ++ repliesOfRun ov (conn.exec ov call).2 calls

/-! ## One call -/

/-- The connection `conn'` has taken up these replies since `conn`. -/
def Connection.Carries (conn conn' : Connection) (replies : List Resp) : Prop :=
  conn'.stream.accepted ++ conn'.writeBuf =
    conn.stream.accepted ++ conn.writeBuf ++ encodeAll replies

theorem processLoop_carries (ov : Overflow) (fuel : Nat) (conn : Connection) (core : Core)
    (hfuel : conn.readBuf.length < fuel) :
    conn.Carries ((processLoop ov fuel).run ⟨conn, core⟩).2.conn
      (repliesTo ov (frames conn.readBuf).requests core) := by
  induction fuel generalizing conn core with
  | zero => exact absurd hfuel (Nat.not_lt_zero _)
  | succ fuel ih =>
    cases hp : Resp.parse conn.readBuf with
    | error stop =>
      rw [processLoop_stop ov fuel conn core hp, frames_stop hp]
      exact (List.append_nil _).symm
    | ok r =>
      cases r with
      | none =>
        rw [processLoop_incomplete ov fuel conn core hp, frames_incomplete hp]
        exact (List.append_nil _).symm
      | some r =>
        obtain ⟨value, consumed⟩ := r
        obtain ⟨hpos, hle⟩ := parse_consumed hp
        rw [processLoop_cut ov fuel conn core hp, frames_cons hp]
        unfold repliesTo
        rcases (respond ov value).run core with ⟨stop | reply, core₁⟩
        · exact (List.append_nil _).symm
        have hnext := ih ({ conn with readBuf := conn.readBuf.drop consumed }.queue reply) core₁
          (by
            show (conn.readBuf.drop consumed).length < fuel
            rw [List.length_drop]
            omega)
        show _ = conn.stream.accepted ++ conn.writeBuf ++ (reply.encode ++ _)
        rw [← List.append_assoc, List.append_assoc conn.stream.accepted]
        exact hnext

theorem Connection.exec_carries (ov : Overflow) (conn : Connection) (call : ConnectionCall) :
    conn.Carries (conn.exec ov call).2 (conn.repliesOf ov call) := by
  cases call with
  | readIntoBuf calls =>
    obtain ⟨bytes, hframe⟩ := conn.readIntoBuf_frame calls
    show conn.Carries (conn.readIntoBuf calls).2 []
    rw [hframe]
    exact (List.append_nil _).symm
  | process core =>
    exact processLoop_carries ov (conn.readBuf.length + 1) conn core (Nat.lt_succ_self _)
  | flushWriteBuf calls =>
    obtain ⟨hmoved, -⟩ := flushLoop_spec conn.writeBuf calls conn.stream 0
    show _ = conn.stream.accepted ++ conn.writeBuf ++ []
    rw [List.append_nil]
    exact hmoved

/-! ## Runs -/

theorem run_carries (ov : Overflow) (conn : Connection) (calls : List ConnectionCall) :
    conn.Carries (runFrom (Connection.exec ov) conn calls) (conn.repliesOfRun ov calls) := by
  induction calls generalizing conn with
  | nil => exact (List.append_nil _).symm
  | cons call calls ih =>
    have hfirst := conn.exec_carries ov call
    have hrest := ih (conn.exec ov call).2
    unfold Connection.Carries at hfirst hrest ⊢
    rw [runFrom_cons, hrest, hfirst, Connection.repliesOfRun, encodeAll_append, List.append_assoc]

/-- **The write buffer loses and reorders nothing**: after any calls on a new connection, what its
socket has accepted and what is in its write buffer are all replies in order, and no output is
pending exactly when the socket has accepted them all. -/
theorem write_buffer_exact (ov : Overflow) (calls : List ConnectionCall) :
    let conn := runFrom (Connection.exec ov) (.new ⟨[], []⟩) calls
    let replies := encodeAll (Connection.repliesOfRun ov (.new ⟨[], []⟩) calls)
    conn.stream.accepted ++ conn.writeBuf = replies ∧
      (conn.wantsWrite = false ↔ conn.stream.accepted = replies) := by
  intro conn replies
  have hcarries : conn.stream.accepted ++ conn.writeBuf = replies :=
    run_carries ov (.new ⟨[], []⟩) calls
  refine ⟨hcarries, ?_⟩
  have hwants : conn.wantsWrite = false ↔ conn.writeBuf = [] := by
    rw [Connection.wantsWrite, Bool.not_eq_false', List.isEmpty_iff]
  rw [hwants, ← hcarries, List.self_eq_append_right]

end RustFundamentals.Rudis
