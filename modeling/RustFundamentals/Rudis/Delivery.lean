import RustFundamentals.Rudis.Requests
import RustFundamentals.Rudis.Server

/-!
# rudis: which replies are offered to the client

A connection that stays in the map has been offered every reply encoded for it (`UpToDate`). One
that is removed without an error of its socket has been, too, unless the event that removes it
strands replies: it finds complete requests in the read buffer and, behind them, the end of the
stream or a malformed frame (`offered_iff`).
-/

namespace RustFundamentals.Rudis

open Foundation Foundation.Fs

/-! ## Flushing -/

theorem take_append_drop_length (slice : Bytes) (n : Nat) :
    slice.take n ++ slice.drop (slice.take n).length = slice := by
  rw [List.length_take]
  rcases le_total n slice.length with h | h
  · rw [min_eq_left h, List.take_append_drop]
  · rw [min_eq_right h, List.take_of_length_le h, List.drop_length, List.append_nil]

/-- The loop moves bytes from the buffer to the socket, and offers all there is to send. -/
theorem flushLoop_spec (buf : Bytes) (calls : List WriteCall) (stream : Stream) (sent : Nat) :
    let out := Connection.flushLoop buf stream sent calls
    out.2.1.accepted ++ buf.drop out.2.2 = stream.accepted ++ buf.drop sent ∧
      out.2.1.offered =
        if sent < buf.length then stream.accepted ++ buf.drop sent else stream.offered := by
  induction calls generalizing stream sent with
  | nil =>
    refine ⟨?_, ?_⟩ <;> by_cases h : sent < buf.length <;>
      simp [Connection.flushLoop, h, Stream.offer]
  | cons call calls ih =>
    by_cases h : sent < buf.length
    · simp only [Connection.flushLoop, if_pos h]
      cases call with
      | took n =>
        cases n with
        | zero => exact ⟨rfl, rfl⟩
        -- a short write: the rest is offered again from where it ended
        | succ n =>
          have hsplit := take_append_drop_length (buf.drop sent) (n + 1)
          rw [List.drop_drop] at hsplit
          obtain ⟨hmoved, hoffered⟩ := ih
            ((stream.offer (buf.drop sent)).accept ((buf.drop sent).take (n + 1)))
            (sent + ((buf.drop sent).take (n + 1)).length)
          have hall : stream.accepted ++ (buf.drop sent).take (n + 1) ++
              buf.drop (sent + ((buf.drop sent).take (n + 1)).length) =
                stream.accepted ++ buf.drop sent := by rw [List.append_assoc, hsplit]
          refine ⟨hmoved.trans hall, hoffered.trans ?_⟩
          split
          · exact hall
          · rfl
      | wouldBlock => exact ⟨rfl, rfl⟩
      | interrupted =>
        obtain ⟨hmoved, hoffered⟩ := ih (stream.offer (buf.drop sent)) sent
        exact ⟨hmoved, hoffered.trans (if_pos h)⟩
      | failed text => exact ⟨rfl, rfl⟩
    · simp [Connection.flushLoop, h]

/-- The replies encoded for a connection, sent or still queued, in order. -/
def Connection.Queued (conn : Connection) : Prop :=
  conn.stream.accepted ++ conn.writeBuf = encodeAll conn.replied

/-- Every reply encoded for the connection has been offered to its socket. -/
def Connection.Offered (conn : Connection) : Prop :=
  conn.stream.offered = encodeAll conn.replied

/-- Nothing is held back. -/
structure Connection.UpToDate (conn : Connection) : Prop where
  queued : conn.Queued
  offered : conn.Offered

namespace Connection

variable {conn : Connection}

theorem new_upToDate : (new ⟨[], []⟩).UpToDate := ⟨rfl, rfl⟩

/-- A flush offers everything that is queued, however little of it the socket takes. -/
theorem flush_spec (conn : Connection) (calls : List WriteCall) (h : conn.Queued)
    (hoffered : conn.writeBuf = [] → conn.Offered) : (conn.flushWriteBuf calls).2.UpToDate := by
  obtain ⟨hmoved, hall⟩ := flushLoop_spec conn.writeBuf calls conn.stream 0
  rw [List.drop_zero] at hmoved hall
  refine ⟨hmoved.trans h, hall.trans ?_⟩
  split
  · exact h
  · rename_i hempty
    exact hoffered (List.eq_nil_of_length_eq_zero (by omega))

/-- Reading touches the read buffer only. -/
theorem readIntoBuf_frame (conn : Connection) (calls : List ReadCall) :
    ∃ bytes, (conn.readIntoBuf calls).2 = { conn with readBuf := bytes } := by
  induction calls generalizing conn with
  | nil => exact ⟨_, rfl⟩
  | cons call calls ih =>
    cases call with
    | delivered bytes =>
      cases bytes with
      | nil => exact ⟨_, rfl⟩
      | cons b bytes => exact ih { conn with readBuf := conn.readBuf ++ (b :: bytes) }
    | wouldBlock => exact ⟨_, rfl⟩
    | interrupted => exact ih conn
    | failed text => exact ⟨_, rfl⟩

theorem UpToDate.readBuf (h : conn.UpToDate) (bytes : Bytes) :
    UpToDate { conn with readBuf := bytes } := ⟨h.queued, h.offered⟩

theorem Queued.answered (h : conn.Queued) (replies : List Resp) :
    (conn.answered replies).Queued := by
  show conn.stream.accepted ++ (conn.writeBuf ++ encodeAll replies) =
    encodeAll (conn.replied ++ replies)
  rw [encodeAll_append, ← h, List.append_assoc]

/-- New replies have not been offered yet. -/
theorem UpToDate.offered_answered (h : conn.UpToDate) (replies : List Resp) :
    (conn.answered replies).Offered ↔ replies = [] := by
  show conn.stream.offered = encodeAll (conn.replied ++ replies) ↔ _
  rw [encodeAll_append, h.offered, List.self_eq_append_right, encodeAll_eq_nil]

/-- The event strands replies: there are complete requests to answer, and behind them the stream
ends or goes wrong, so that the connection is dropped before they are flushed. -/
def Strands (conn : Connection) (reads : List ReadCall) : Prop :=
  ∃ peerClosed conn', conn.readIntoBuf reads = (.ok peerClosed, conn') ∧
    (frames conn'.readBuf).requests ≠ [] ∧
    (peerClosed = true ∨ ∃ e, (frames conn'.readBuf).ending = .error (.err e))

end Connection

/-! ## One event -/

namespace Server

/-- What the readable part has come to, when nothing has panicked. -/
inductive Read (r : Ready) (conn : Connection) : Connection → Option Reason → Prop
  | unread : r.readable = false → Read r conn conn none
  | failed {text : Str} {bytes : Bytes} :
      r.readable = true → (conn.readIntoBuf r.reads).1 = .error text →
      Read r conn { conn with readBuf := bytes } (some (.readError text))
  | processed {peerClosed : Bool} {bytes : Bytes} {replies : List Resp} {drop : Option Reason} :
      r.readable = true →
      conn.readIntoBuf r.reads = (.ok peerClosed, { conn with readBuf := bytes }) →
      replies.length = (frames bytes).requests.length →
      ((frames bytes).ending = .ok () ∧ drop = (if peerClosed then some .peerClosed else none) ∨
        ∃ e, (frames bytes).ending = .error (.err e) ∧ drop = some (.connectionError e)) →
      Read r conn (Connection.answered { conn with readBuf := bytes } replies) drop

theorem readPhase_read {ov : Overflow} {r : Ready} {conn conn' : Connection} {core core' : Core}
    {drop : Option Reason} (h : readPhase ov r conn core = .ok (conn', core', drop)) :
    Read r conn conn' drop := by
  unfold readPhase at h
  by_cases hreadable : r.readable = true
  · rw [if_pos hreadable] at h
    obtain ⟨bytes, hbytes⟩ := conn.readIntoBuf_frame r.reads
    rcases hread : conn.readIntoBuf r.reads with ⟨res, conn₁⟩
    rw [hread] at hbytes h
    obtain rfl : conn₁ = { conn with readBuf := bytes } := hbytes
    cases res with
    | error text =>
      obtain ⟨rfl, -, rfl⟩ : _ ∧ _ ∧ _ := by simpa using h
      exact .failed hreadable (by rw [hread])
    | ok peerClosed =>
      have hends := process_spec ov { conn with readBuf := bytes } core
      unfold ProcessEnds at hends
      simp only at h hends
      rcases hrun : (respondAll ov (frames bytes).requests).run core with ⟨rs, core₁⟩
      rw [hrun] at hends
      rcases rs with stop | replies
      · -- a command has panicked
        rcases hprocess : (process ov).run ⟨{ conn with readBuf := bytes }, core⟩ with ⟨res, after⟩
        rw [hprocess] at h hends
        obtain rfl : res = lifted stop := hends
        rcases stop with e | _ | _
        · exact e.elim
        · cases h
        · cases h
      have hlength := respondAll_length hrun
      rw [hends] at h
      rcases hend : (frames bytes).ending with (e | _ | _) | _
      · rw [hend] at h
        obtain ⟨rfl, -, rfl⟩ : _ ∧ _ ∧ _ := by simpa using h
        exact .processed hreadable hread hlength (.inr ⟨e, hend, rfl⟩)
      · rw [hend] at h; cases h
      · rw [hend] at h; cases h
      · rw [hend] at h
        obtain ⟨rfl, -, rfl⟩ : _ ∧ _ ∧ _ := by simpa using h
        exact .processed hreadable hread hlength (.inl ⟨hend, rfl⟩)
  · rw [if_neg hreadable] at h
    obtain ⟨rfl, -, rfl⟩ : _ ∧ _ ∧ _ := by simpa using h
    exact .unread (by simpa using hreadable)

/-- Dropped while its socket is sound, or kept: the replies of the connection are then all
offered, or can be, exactly when the event strands none. -/
theorem Read.offered_iff {r : Ready} {conn conn' : Connection}
    {drop : Option Reason} (h : Read r conn conn' drop) (hconn : conn.UpToDate) :
    conn'.Queued ∧
      (drop = none → (conn'.writeBuf = [] → conn'.Offered) ∧
        ¬ (r.readable = true ∧ conn.Strands r.reads)) ∧
      ∀ reason, drop = some reason → ((reason.isSocketError = false → conn'.Offered) ↔
        ¬ (r.readable = true ∧ conn.Strands r.reads)) := by
  cases h with
  | unread hreadable =>
    refine ⟨hconn.queued, fun _ => ⟨fun _ => hconn.offered, ?_⟩, fun _ hdrop => by cases hdrop⟩
    simp [hreadable]
  | failed hreadable hread =>
    refine ⟨hconn.queued, (fun hdrop => by cases hdrop), fun reason hdrop => ?_⟩
    obtain rfl := Option.some.inj hdrop
    apply iff_of_true (fun hsound => by cases hsound)
    intro hfound
    obtain ⟨-, peerClosed, conn', hok, -⟩ := hfound
    rw [hok] at hread
    cases hread
  | @processed peerClosed bytes replies drop hreadable hread hlength hdrop =>
    have hlive := hconn.readBuf bytes
    have hnil : replies = [] ↔ (frames bytes).requests = [] := by
      rw [← List.length_eq_zero_iff, hlength, List.length_eq_zero_iff]
    have hstrands : conn.Strands r.reads ↔ (frames bytes).requests ≠ [] ∧
        (peerClosed = true ∨ ∃ e, (frames bytes).ending = .error (.err e)) := by
      constructor
      · intro ⟨peerClosed', conn', hok, hrest⟩
        rw [hread] at hok
        obtain ⟨hpeer, rfl⟩ := Prod.mk.inj hok
        obtain rfl := Except.ok.inj hpeer
        exact hrest
      · exact fun hrest => ⟨peerClosed, _, hread, hrest⟩
    -- once the connection is dropped, its last replies are the stranded ones
    have hdropped : (peerClosed = true ∨ ∃ e, (frames bytes).ending = .error (.err e)) →
        ((Connection.answered { conn with readBuf := bytes } replies).Offered ↔
          ¬ (r.readable = true ∧ conn.Strands r.reads)) := by
      intro hclosed
      rw [hlive.offered_answered, hnil, hstrands]
      simp [hreadable, hclosed]
    refine ⟨hlive.queued.answered replies, fun hnone => ?_, fun reason hsome => ?_⟩
    · obtain ⟨hend, hpeer⟩ | ⟨e, -, hpeer⟩ := hdrop
      · refine ⟨fun hempty => ?_, ?_⟩
        · rw [hlive.offered_answered, ← encodeAll_eq_nil]
          exact (List.append_eq_nil_iff.mp hempty).2
        · rw [hstrands, hend]
          rw [hnone] at hpeer
          cases peerClosed with
          | true => cases hpeer
          | false => simp
      · rw [hnone] at hpeer
        cases hpeer
    · obtain ⟨hend, hpeer⟩ | ⟨e, hend, hpeer⟩ := hdrop
      · rw [hsome] at hpeer
        cases peerClosed with
        | false => cases hpeer
        | true =>
          obtain rfl := Option.some.inj hpeer
          rw [← hdropped (.inl rfl)]
          exact ⟨fun hoffered => hoffered rfl, fun hoffered _ => hoffered⟩
      · rw [hsome] at hpeer
        obtain rfl := Option.some.inj hpeer
        rw [← hdropped (.inr ⟨e, hend⟩)]
        exact ⟨fun hoffered => hoffered rfl, fun hoffered _ => hoffered⟩

/-- Every connection in the map has been offered its replies. -/
def UpToDate (s : Server) : Prop := ∀ token conn, s.conns.lookup token = some conn → conn.UpToDate

/-- The step strands replies of a connection. -/
def Strands (st : Step) (s : Server) : Prop :=
  ∃ r conn, st = .ready r ∧ s.conns.lookup r.token = some conn ∧ r.readable = true ∧
    conn.Strands r.reads

/-- Every connection that is closed while its socket is sound has been offered its replies. -/
def AllOffered (closed : List Closed) : Prop :=
  ∀ c ∈ closed, c.reason.isSocketError = false → c.conn.Offered

theorem UpToDate.insert {s : Server} (h : s.UpToDate) (token : Nat) {conn : Connection}
    (hconn : conn.UpToDate) {next : Nat} {core : Core} :
    UpToDate ⟨s.conns.insert token conn, next, core⟩ := by
  intro t c hc
  by_cases ht : t = token
  · subst ht
    rw [AList.lookup_insert] at hc
    exact Option.some.inj hc ▸ hconn
  · rw [AList.lookup_insert_ne ht] at hc
    exact h t c hc

theorem UpToDate.erase {s : Server} (h : s.UpToDate) (token : Nat) {next : Nat} {core : Core} :
    UpToDate ⟨s.conns.erase token, next, core⟩ := by
  intro t c hc
  by_cases ht : t = token
  · subst ht
    rw [AList.lookup_erase] at hc
    cases hc
  · rw [AList.lookup_erase_ne ht] at hc
    exact h t c hc

theorem start_upToDate (core : Core) : (start core).UpToDate := fun _ _ h => by cases h

theorem looped_spec {calls : List AcceptCall} {s s' : Server} {closed : List Closed}
    (hs : s.UpToDate) (h : Looped s calls s' closed) : s'.UpToDate ∧ AllOffered closed := by
  induction h with
  | done s calls => exact ⟨hs, nofun⟩
  | failed _ _ ih => exact ih hs
  | @accepted s _ _ _ _ _ _ ih =>
    obtain ⟨hlive, hlater⟩ := ih (hs.insert s.nextToken Connection.new_upToDate)
    refine ⟨hlive, fun c hc hsound => ?_⟩
    rcases List.mem_append.mp hc with hc | hc
    · -- a connection whose token is given away once more
      obtain ⟨conn, hconn, rfl⟩ := Option.map_eq_some_iff.mp (Option.mem_toList.mp hc)
      exact (hs _ conn hconn).offered
    · exact hlater c hc hsound

/-- A flush leaves a connection up to date, whether or not it fails. -/
theorem writePhase_spec {r : Ready} {conn conn' : Connection} {drop drop' : Option Reason}
    (h : writePhase r conn drop = (conn', drop')) (hqueued : conn.Queued)
    (hempty : conn.writeBuf = [] → conn.Offered) (hdrop : drop = none) :
    conn'.UpToDate ∧ ∀ reason, drop' = some reason → reason.isSocketError = true := by
  subst hdrop
  have hflush := conn.flush_spec r.writes hqueued hempty
  unfold writePhase at h
  by_cases hwants : r.writable = true ∨ conn.wantsWrite = true
  · rw [if_pos ⟨rfl, hwants⟩] at h
    rcases hout : conn.flushWriteBuf r.writes with ⟨res, conn₁⟩
    rw [hout] at h hflush
    cases res with
    | ok _ =>
      obtain ⟨rfl, rfl⟩ := Prod.mk.inj h
      exact ⟨hflush, fun _ hreason => by cases hreason⟩
    | error text =>
      obtain ⟨rfl, rfl⟩ := Prod.mk.inj h
      exact ⟨hflush, fun _ hreason => Option.some.inj hreason ▸ rfl⟩
  · rw [if_neg fun hc => hwants hc.2] at h
    obtain ⟨rfl, rfl⟩ := Prod.mk.inj h
    have hnil : conn.writeBuf = [] := by
      simpa [Connection.wantsWrite] using (not_or.mp hwants).2
    exact ⟨⟨hqueued, hempty hnil⟩, fun _ hreason => by cases hreason⟩

theorem served_spec {ov : Overflow} {r : Ready} {s s' : Server} {closed : List Closed}
    (hs : s.UpToDate) (h : Served ov r s s' closed) :
    s'.UpToDate ∧ (AllOffered closed ↔ ¬ s.Strands (.ready r)) := by
  have hstrands : ∀ conn, s.conns.lookup r.token = some conn →
      (s.Strands (.ready r) ↔ r.readable = true ∧ conn.Strands r.reads) := by
    intro conn hlookup
    constructor
    · intro hstrands
      obtain ⟨r', conn', heq, hfound, hreads⟩ := hstrands
      obtain rfl := Step.ready.inj heq
      rw [hlookup] at hfound
      exact Option.some.inj hfound ▸ hreads
    · exact fun hreads => ⟨r, conn, rfl, hlookup, hreads⟩
  cases h with
  -- a token that is gone, closed earlier in the same poll
  | gone hlookup =>
    refine ⟨hs, iff_of_true (fun _ hc => by cases hc) ?_⟩
    intro hstrands
    obtain ⟨r', conn, heq, hfound, -⟩ := hstrands
    obtain rfl := Step.ready.inj heq
    rw [hlookup] at hfound
    cases hfound
  | @removed conn conn₁ conn₂ core drop reason hlookup hread hwrite =>
    obtain ⟨hqueued, hkept, hdropped⟩ := (readPhase_read hread).offered_iff (hs _ _ hlookup)
    rw [hstrands conn hlookup]
    refine ⟨hs.erase r.token, ?_⟩
    cases drop with
    | none =>
      obtain ⟨hempty, hnone⟩ := hkept rfl
      obtain ⟨-, hsocket⟩ := writePhase_spec hwrite hqueued hempty rfl
      refine iff_of_true (fun c hc hsound => ?_) hnone
      obtain rfl := List.mem_singleton.mp hc
      rw [hsocket reason rfl] at hsound
      cases hsound
    -- dropped while reading: what is queued is not written any more
    | some dropped =>
      rw [writePhase, if_neg (by simp)] at hwrite
      obtain ⟨rfl, hreason⟩ := Prod.mk.inj hwrite
      obtain rfl := Option.some.inj hreason
      rw [← hdropped dropped rfl]
      simp [AllOffered]
  | @kept conn conn₁ conn₂ core drop hlookup hread hwrite =>
    obtain ⟨hqueued, hkept, -⟩ := (readPhase_read hread).offered_iff (hs _ _ hlookup)
    rw [hstrands conn hlookup]
    have hdrop : drop = none := by
      cases drop with
      | none => rfl
      | some dropped =>
        rw [writePhase, if_neg (by simp)] at hwrite
        cases hwrite
    obtain ⟨hempty, hnone⟩ := hkept hdrop
    obtain ⟨hlive, -⟩ := writePhase_spec hwrite hqueued hempty hdrop
    exact ⟨hs.insert r.token hlive, iff_of_true (fun _ hc => by cases hc) hnone⟩

/-- **One step** keeps every connection up to date, and closes none short of its replies unless
it strands some. -/
theorem step_spec {ov : Overflow} {st : Step} {s s' : Server} {closed : List Closed}
    (hs : s.UpToDate) (h : s.step ov st = .ok (s', closed)) :
    s'.UpToDate ∧ (AllOffered closed ↔ ¬ s.Strands st) := by
  have hother : (∀ r, st ≠ .ready r) → AllOffered closed → (AllOffered closed ↔ ¬ s.Strands st) :=
    fun hst hall => iff_of_true hall fun ⟨r, _, heq, _⟩ => hst r heq
  cases stepped_of_step h with
  | listener hlooped =>
    obtain ⟨hs', hall⟩ := looped_spec hs hlooped
    exact ⟨hs', hother (fun _ => nofun) hall⟩
  | signals pending => exact ⟨hs, hother (fun _ => nofun) nofun⟩
  | ready hserved => exact served_spec hs hserved
  | tick core => exact ⟨hs, hother (fun _ => nofun) nofun⟩

/-! ## Whole runs -/

/-- `P` holds of every step of the run that the loop completes, in the state it is taken in. -/
def EachStep (ov : Overflow) (P : Server → Step → Prop) : List Step → Server → Prop
  | [], _ => True
  | st :: steps, s =>
    match s.step ov st with
    | .ok (s', _) => P s st ∧ EachStep ov P steps s'
    | .error _ => True

theorem closes_spec (ov : Overflow) (steps : List Step) {s : Server} (hs : s.UpToDate) :
    AllOffered (s.closes ov steps) ↔ EachStep ov (fun s st => ¬ s.Strands st) steps s := by
  induction steps generalizing s with
  | nil => exact iff_of_true (fun _ hc => by cases hc) trivial
  | cons st steps ih =>
    unfold closes EachStep
    rcases hstep : s.step ov st with halt | ⟨s', closed⟩
    · exact iff_of_true (fun _ hc => by cases hc) trivial
    · obtain ⟨hs', hiff⟩ := step_spec hs hstep
      show AllOffered (closed ++ s'.closes ov steps) ↔
        ¬ s.Strands st ∧ EachStep ov (fun s st => ¬ s.Strands st) steps s'
      rw [← hiff, ← ih hs']
      simp only [AllOffered, List.mem_append]
      constructor
      · exact fun hall => ⟨fun c hc => hall c (.inl hc), fun c hc => hall c (.inr hc)⟩
      · intro hboth c hc
        obtain ⟨hhere, hlater⟩ := hboth
        rcases hc with hc | hc
        · exact hhere c hc
        · exact hlater c hc

end Server

/-- **Replies are offered before the connection goes**: over a whole run of the server, every
connection removed while its socket is sound has been offered all its replies, exactly when no
step of the run strands any. -/
theorem replies_offered_iff (ov : Overflow) (core : Core) (steps : List Step) :
    (∀ c ∈ (Server.start core).closes ov steps, c.reason.isSocketError = false →
        c.conn.stream.offered = encodeAll c.conn.replied) ↔
      Server.EachStep ov (fun s st => ¬ s.Strands st) steps (Server.start core) :=
  Server.closes_spec ov steps (Server.start_upToDate core)

/-- A client that sends a request and closes its side, all of it seen in one event. -/
def halfClose : List Step :=
  [.listener [.accepted (.ok ())],
    .ready { token := firstConn, readable := true, writable := false,
             reads := [.delivered (ascii "*1\r\n$4\r\nPING\r\n"), .delivered []],
             writes := [], rearmed := .ok () }]

/-- Its `PONG` is encoded and never offered. -/
theorem halfClose_strands_reply :
    ¬ ∀ c ∈ (Server.start .fresh).closes .checked halfClose, c.reason.isSocketError = false →
        c.conn.stream.offered = encodeAll c.conn.replied := by
  intro h
  have hcloses : (Server.start .fresh).closes .checked halfClose =
      [⟨⟨⟨[], []⟩, [], ascii "+PONG\r\n", [.simple (Str.lit "PONG")]⟩, .peerClosed⟩] := rfl
  rw [hcloses] at h
  have hoffered := h _ (List.mem_singleton.mpr rfl) rfl
  exact absurd hoffered (by decide)

end RustFundamentals.Rudis
