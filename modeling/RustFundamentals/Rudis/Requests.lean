import RustFundamentals.Rudis.Connection
import RustFundamentals.Rudis.Framing
import RustFundamentals.Rudis.Soundness

/-!
# rudis: what one `process` does

`frames` cuts a buffer into the requests at its front, and `respondAll` answers requests one
after the other. `process` is the two together (`process_spec`): it appends the replies to the
requests in the read buffer, in order, and leaves the unfinished rest.
-/

namespace RustFundamentals.Rudis

open Foundation Foundation.Fs

/-! ## Requests in a buffer -/

/-- The requests at the front of a buffer, what is left behind them, and how the parse of the
rest ends: incomplete (`ok`), malformed or in a panic. -/
structure Frames where
  requests : List Resp
  rest : Bytes
  ending : Except (Stop Error) Unit

/-- `frames` for a bounded number of requests. -/
def framesLoop : Nat → Bytes → Frames
  | 0, buf => ⟨[], buf, .error .panicked⟩
  | fuel + 1, buf =>
    match Resp.parse buf with
    | .ok (some (value, consumed)) =>
      let after := framesLoop fuel (buf.drop consumed)
      { after with requests := value :: after.requests }
    | .ok none => ⟨[], buf, .ok ()⟩
    | .error stop => ⟨[], buf, .error stop⟩

/-- A buffer cut into its requests. -/
def frames (buf : Bytes) : Frames := framesLoop (buf.length + 1) buf

theorem framesLoop_eq {fuel : Nat} {buf : Bytes} (h : buf.length < fuel) :
    framesLoop fuel buf = frames buf := by
  refine fuel_irrelevant_lt _ List.length ?_ h (Nat.lt_succ_self _)
  intro m n buf hrest
  rw [framesLoop, framesLoop]
  cases hp : Resp.parse buf with
  | error stop => rfl
  | ok r =>
    cases r with
    | none => rfl
    | some r =>
      obtain ⟨value, consumed⟩ := r
      obtain ⟨hpos, hle⟩ := parse_consumed hp
      have hlen : (buf.drop consumed).length < buf.length := by
        rw [List.length_drop]
        omega
      simp only [hrest _ hlen]

/-- The first request, and the others behind it. -/
theorem frames_cons {buf : Bytes} {value : Resp} {consumed : Nat}
    (h : Resp.parse buf = .ok (some (value, consumed))) :
    frames buf = { frames (buf.drop consumed) with
      requests := value :: (frames (buf.drop consumed)).requests } := by
  obtain ⟨hpos, hle⟩ := parse_consumed h
  have hlen : (buf.drop consumed).length < buf.length := by
    rw [List.length_drop]
    omega
  have hloop := framesLoop_eq hlen
  rw [frames, framesLoop, h]
  simp only [hloop]

theorem frames_incomplete {buf : Bytes} (h : Resp.parse buf = .ok none) :
    frames buf = ⟨[], buf, .ok ()⟩ := by
  rw [frames, framesLoop, h]

theorem frames_stop {buf : Bytes} {stop : Stop Error} (h : Resp.parse buf = .error stop) :
    frames buf = ⟨[], buf, .error stop⟩ := by
  rw [frames, framesLoop, h]

/-- Induction over the requests of a buffer. -/
theorem frames_induction {motive : Bytes → Prop}
    (cut : ∀ buf value consumed, Resp.parse buf = .ok (some (value, consumed)) →
      motive (buf.drop consumed) → motive buf)
    (incomplete : ∀ buf, Resp.parse buf = .ok none → motive buf)
    (stopped : ∀ buf stop, Resp.parse buf = .error stop → motive buf) (buf : Bytes) :
    motive buf := by
  induction hlen : buf.length using Nat.strong_induction_on generalizing buf with
  | _ len ih =>
    cases hp : Resp.parse buf with
    | error stop => exact stopped buf stop hp
    | ok r =>
      cases r with
      | none => exact incomplete buf hp
      | some r =>
        obtain ⟨hpos, hle⟩ := parse_consumed hp
        exact cut buf r.1 r.2 hp (ih _ (by rw [List.length_drop]; omega) _ rfl)

theorem frames_rest_length (buf : Bytes) : (frames buf).rest.length ≤ buf.length := by
  induction buf using frames_induction with
  | cut buf value consumed h ih =>
    rw [frames_cons h]
    exact le_trans ih (by rw [List.length_drop]; omega)
  | incomplete buf h => rw [frames_incomplete h]
  | stopped buf stop h => rw [frames_stop h]

/-! ## Replies -/

/-- The replies to requests, one after the other. -/
def respondAll (ov : Overflow) : List Resp → Io Core Empty (List Resp)
  | [] => pure []
  | request :: requests => do
    let reply ← respond ov request
    let replies ← respondAll ov requests
    return reply :: replies

theorem respondAll_cons (ov : Overflow) (request : Resp) (requests : List Resp) (core : Core) :
    (respondAll ov (request :: requests)).run core =
      match (respond ov request).run core with
      | (.ok reply, core) =>
        match (respondAll ov requests).run core with
        | (.ok replies, core) => (.ok (reply :: replies), core)
        | (.error stop, core) => (.error stop, core)
      | (.error stop, core) => (.error stop, core) := by
  rw [respondAll, run_bind]
  rcases (respond ov request).run core with ⟨r, core'⟩
  cases r with
  | error stop => rfl
  | ok reply =>
    show (respondAll ov requests >>= _).run core' =
      match (respondAll ov requests).run core' with
      | (.ok replies, core) => (.ok (reply :: replies), core)
      | (.error stop, core) => (.error stop, core)
    rw [run_bind]
    rcases (respondAll ov requests).run core' with ⟨r, core''⟩
    cases r <;> rfl

/-- Requests are answered one at a time. -/
theorem respondAll_cons_ok {ov : Overflow} {request : Resp} {requests replies : List Resp}
    {core core' : Core}
    (h : (respondAll ov (request :: requests)).run core = (.ok replies, core')) :
    ∃ reply rest core₁, (respond ov request).run core = (.ok reply, core₁) ∧
      (respondAll ov requests).run core₁ = (.ok rest, core') ∧ replies = reply :: rest := by
  rw [respondAll_cons] at h
  rcases hr : (respond ov request).run core with ⟨r, core₁⟩
  rcases r with stop | reply
  · rw [hr] at h; cases h
  simp only [hr] at h
  rcases hrs : (respondAll ov requests).run core₁ with ⟨rs, core₂⟩
  rcases rs with stop | rest
  · rw [hrs] at h; cases h
  rw [hrs] at h
  obtain ⟨hreplies, rfl⟩ := Prod.mk.inj h
  exact ⟨reply, rest, core₁, rfl, hrs, (Except.ok.inj hreplies).symm⟩

theorem respondAll_nil_ok {ov : Overflow} {replies : List Resp} {core core' : Core}
    (h : (respondAll ov []).run core = (.ok replies, core')) : replies = [] ∧ core' = core := by
  obtain ⟨hreplies, hcore⟩ := Prod.mk.inj h
  exact ⟨(Except.ok.inj hreplies).symm, hcore.symm⟩

/-- A reply to every request. -/
theorem respondAll_length {ov : Overflow} {requests : List Resp} {core core' : Core}
    {replies : List Resp} (h : (respondAll ov requests).run core = (.ok replies, core')) :
    replies.length = requests.length := by
  induction requests generalizing core replies with
  | nil =>
    obtain ⟨rfl, -⟩ := respondAll_nil_ok h
    rfl
  | cons request requests ih =>
    obtain ⟨reply, rest, core₁, -, hrest, rfl⟩ := respondAll_cons_ok h
    rw [List.length_cons, List.length_cons, ih hrest]

/-! ## `process` -/

/-- The outcome of commands as `process` passes it on: they return no error. -/
def lifted {α : Type} : Stop Empty → Except (Stop Error) α
  | .died => .error .died
  | .panicked => .error .panicked

theorem onCore_run {α : Type} (x : Io Core Empty α) (conn : Connection) (core : Core) :
    (onCore x).run ⟨conn, core⟩ =
      match x.run core with
      | (.ok a, core) => (.ok a, ⟨conn, core⟩)
      | (.error stop, core) => (lifted stop, ⟨conn, core⟩) := by
  show onCore x ⟨conn, core⟩ = _
  unfold onCore
  rcases x.run core with ⟨r, core'⟩
  rcases r with (e | _ | _) | a
  · exact e.elim
  · rfl
  · rfl
  · rfl

theorem encodeAll_append (xs ys : List Resp) :
    encodeAll (xs ++ ys) = encodeAll xs ++ encodeAll ys := by
  induction xs with
  | nil => rfl
  | cons x xs ih => simp [encodeAll, ih]

theorem encodeAll_eq_nil {replies : List Resp} : encodeAll replies = [] ↔ replies = [] := by
  cases replies with
  | nil => simp [encodeAll]
  | cons reply replies =>
    have hne : reply.encode ≠ [] := by cases reply <;> simp [Resp.encode, crlf]
    simp [encodeAll, hne]

/-- The connection once the requests in its read buffer are answered. -/
def Connection.answered (conn : Connection) (replies : List Resp) : Connection :=
  { conn with
    readBuf := (frames conn.readBuf).rest
    writeBuf := conn.writeBuf ++ encodeAll replies
    replied := conn.replied ++ replies }

theorem Connection.answered_nil {conn : Connection}
    (h : (frames conn.readBuf).rest = conn.readBuf) : conn.answered [] = conn := by
  simp [answered, h, encodeAll]

/-- The request of one turn is taken off the buffer, answered, and its reply queued. -/
theorem processLoop_cut (ov : Overflow) (fuel : Nat) (conn : Connection) (core : Core)
    {value : Resp} {consumed : Nat}
    (h : Resp.parse conn.readBuf = .ok (some (value, consumed))) :
    (processLoop ov (fuel + 1)).run ⟨conn, core⟩ =
      match (respond ov value).run core with
      | (.ok reply, core) =>
        (processLoop ov fuel).run
          ⟨{ conn with readBuf := conn.readBuf.drop consumed }.queue reply, core⟩
      | (.error stop, core) =>
        (lifted stop, ⟨{ conn with readBuf := conn.readBuf.drop consumed }, core⟩) := by
  obtain ⟨-, hle⟩ := parse_consumed h
  simp only [processLoop, run_get_bind, h, run_ofExcept_ok_bind, if_neg (not_lt.mpr hle),
    run_modify_bind]
  rw [run_bind, onCore_run]
  rcases (respond ov value).run core with ⟨r, core'⟩
  rcases r with (e | _ | _) | reply
  · exact e.elim
  · rfl
  · rfl
  · rfl

theorem processLoop_incomplete (ov : Overflow) (fuel : Nat) (conn : Connection) (core : Core)
    (h : Resp.parse conn.readBuf = .ok none) :
    (processLoop ov (fuel + 1)).run ⟨conn, core⟩ = (.ok (), ⟨conn, core⟩) := by
  simp only [processLoop, run_get_bind, h, run_ofExcept_ok_bind]
  rfl

theorem processLoop_stop (ov : Overflow) (fuel : Nat) (conn : Connection) (core : Core)
    {stop : Stop Error} (h : Resp.parse conn.readBuf = .error stop) :
    (processLoop ov (fuel + 1)).run ⟨conn, core⟩ = (.error stop, ⟨conn, core⟩) := by
  simp only [processLoop, run_get_bind, h, run_ofExcept_error_bind]

/-- What a `process` that has started from `conn` comes to. -/
def ProcessEnds (ov : Overflow) (conn : Connection) (core : Core)
    (ended : Except (Stop Error) Unit × Session) : Prop :=
  match (respondAll ov (frames conn.readBuf).requests).run core with
  | (.ok replies, core') => ended = ((frames conn.readBuf).ending, ⟨conn.answered replies, core'⟩)
  | (.error stop, _) => ended.1 = lifted stop

theorem processLoop_ends (ov : Overflow) (fuel : Nat) (conn : Connection) (core : Core)
    (hfuel : conn.readBuf.length < fuel) :
    ProcessEnds ov conn core ((processLoop ov fuel).run ⟨conn, core⟩) := by
  induction fuel generalizing conn core with
  | zero => exact absurd hfuel (Nat.not_lt_zero _)
  | succ fuel ih =>
    cases hp : Resp.parse conn.readBuf with
    | error stop =>
      rw [processLoop_stop ov fuel conn core hp, ProcessEnds, frames_stop hp]
      show _ = (Except.error stop, Session.mk (conn.answered []) core)
      rw [Connection.answered_nil (by rw [frames_stop hp])]
    | ok r =>
      cases r with
      | none =>
        rw [processLoop_incomplete ov fuel conn core hp, ProcessEnds, frames_incomplete hp]
        show _ = (Except.ok (), Session.mk (conn.answered []) core)
        rw [Connection.answered_nil (by rw [frames_incomplete hp])]
      | some r =>
        obtain ⟨value, consumed⟩ := r
        obtain ⟨hpos, hle⟩ := parse_consumed hp
        rw [processLoop_cut ov fuel conn core hp, ProcessEnds, frames_cons hp, respondAll_cons]
        rcases (respond ov value).run core with ⟨r, core₁⟩
        rcases r with stop | reply
        · rfl
        have hnext := ih ({ conn with readBuf := conn.readBuf.drop consumed }.queue reply) core₁
          (by show (conn.readBuf.drop consumed).length < fuel; rw [List.length_drop]; omega)
        rw [ProcessEnds] at hnext
        simp only [Connection.queue] at hnext ⊢
        rcases hrest : (respondAll ov (frames (conn.readBuf.drop consumed)).requests).run core₁
          with ⟨rs, core₂⟩
        rw [hrest] at hnext
        rcases rs with stop | rest
        · exact hnext
        rw [hnext]
        simp [Connection.answered, frames_cons hp, encodeAll]

/-- **`process` answers the requests in the read buffer in order**: it queues their replies,
leaves the unfinished rest, and ends as the parse of the rest does. When a command stops the
process there is nothing left to say. -/
theorem process_spec (ov : Overflow) (conn : Connection) (core : Core) :
    ProcessEnds ov conn core ((process ov).run ⟨conn, core⟩) :=
  processLoop_ends ov (conn.readBuf.length + 1) conn core (Nat.lt_succ_self _)

end RustFundamentals.Rudis
