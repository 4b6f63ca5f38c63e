import RustFundamentals.Rudis.ReplyStream

/-!
# rudis: framing and the pieces a stream arrives in

A parse that has come to something is not changed by bytes that arrive behind it
(`parse_append`). So the requests found in a stream do not depend on the reads it arrives in
(`framing_ignores_chunking`), and of an encoded value nothing less than all of it parses
(`encoded_parses_whole`).
-/

namespace RustFundamentals.Rudis

open Foundation Foundation.Fs

/-! ## Requests of a stream -/

/-- Behind requests already found, the search goes on in what was left and what arrived. -/
def Frames.andThen (f g : Frames) : Frames := { g with requests := f.requests ++ g.requests }

/-- A read: the bytes go behind what the last `process` left, and `process` runs again. -/
def Frames.feed (f : Frames) (piece : Bytes) : Frames := f.andThen (frames (f.rest ++ piece))

theorem frames_append (buf rest : Bytes) : frames (buf ++ rest) = (frames buf).feed rest := by
  induction buf using frames_induction with
  | cut buf value consumed h ih =>
    obtain ⟨-, hle⟩ := parse_consumed h
    have hmore : Resp.parse (buf ++ rest) = .ok (some (value, consumed)) := by
      rw [parse_append rest (by rw [h]; simp), h]
    rw [frames_cons hmore, List.drop_append_of_le_length hle, ih, frames_cons h]
    rfl
  | incomplete buf h => rw [frames_incomplete h]; rfl
  | stopped buf stop h => rw [frames_stop h]; rfl

/-- The reads one after the other come to what the whole stream does. -/
theorem feed_flatten (pieces : List Bytes) (buf : Bytes) :
    pieces.foldl Frames.feed (frames buf) = frames (buf ++ pieces.flatten) := by
  induction pieces generalizing buf with
  | nil => simp
  | cons piece pieces ih =>
    show pieces.foldl Frames.feed ((frames buf).feed piece) = _
    rw [← frames_append, ih, List.flatten_cons, List.append_assoc]

/-- How the rest of a buffer parses is how its search for requests ended. -/
theorem parse_rest (buf : Bytes) :
    Resp.parse (frames buf).rest = (frames buf).ending.map fun _ => none := by
  induction buf using frames_induction with
  | cut buf value consumed h ih => rw [frames_cons h]; exact ih
  | incomplete buf h => rw [frames_incomplete h, h]; rfl
  | stopped buf stop h => rw [frames_stop h, h]; rfl

/-! ## A connection that reads the stream -/

theorem respondAll_append (ov : Overflow) (xs ys : List Resp) (core : Core) :
    (respondAll ov (xs ++ ys)).run core =
      match (respondAll ov xs).run core with
      | (.ok replies, core) =>
        match (respondAll ov ys).run core with
        | (.ok later, core) => (.ok (replies ++ later), core)
        | (.error stop, core) => (.error stop, core)
      | (.error stop, core) => (.error stop, core) := by
  induction xs generalizing core with
  | nil =>
    show (respondAll ov ys).run core = match (respondAll ov ys).run core with
      | (.ok later, core) => (.ok ([] ++ later), core)
      | (.error stop, core) => (.error stop, core)
    rcases (respondAll ov ys).run core with ⟨r, core'⟩
    cases r <;> rfl
  | cons x xs ih =>
    rw [List.cons_append, respondAll_cons, respondAll_cons]
    rcases (respond ov x).run core with ⟨r, core₁⟩
    cases r with
    | error stop => rfl
    | ok reply =>
      simp only [ih]
      rcases (respondAll ov xs).run core₁ with ⟨rs, core₂⟩
      cases rs with
      | error stop => rfl
      | ok replies =>
        rcases hys : (respondAll ov ys).run core₂ with ⟨later, core₃⟩
        cases later <;> simp [hys]

/-- The connection with the bytes `left` unread and the replies queued. -/
def Connection.leaving (conn : Connection) (left : Bytes) (replies : List Resp) : Connection :=
  { conn with
    readBuf := left
    writeBuf := conn.writeBuf ++ encodeAll replies
    replied := conn.replied ++ replies }

theorem Connection.leaving_leaving (conn : Connection) (left left' : Bytes)
    (replies later : List Resp) :
    (conn.leaving left replies).leaving left' later = conn.leaving left' (replies ++ later) := by
  simp [leaving, encodeAll_append]

theorem Connection.leaving_self (conn : Connection) : conn.leaving conn.readBuf [] = conn := by
  simp [leaving, encodeAll]

/-- What serving the pieces to a connection comes to when the stream holds `whole`: the
requests are answered in order, and the search ends as it does in `whole`, with the same bytes
left. Pieces behind a malformed request stay unread. -/
def ServedAs (ov : Overflow) (conn : Connection) (core : Core) (pieces : List Bytes)
    (whole : Frames) : Prop :=
  match (respondAll ov whole.requests).run core with
  | (.ok replies, core') =>
    ∃ read unread left, pieces = read ++ unread ∧ (whole.ending = .ok () → unread = []) ∧
      left ++ unread.flatten = whole.rest ∧
      (serve ov pieces).run ⟨conn, core⟩ = (whole.ending, ⟨conn.leaving left replies, core'⟩)
  | (.error stop, _) => ((serve ov pieces).run ⟨conn, core⟩).1 = lifted stop

theorem served_nil (ov : Overflow) (conn : Connection) (core : Core)
    (h : Resp.parse conn.readBuf = .ok none) :
    ServedAs ov conn core [] (frames conn.readBuf) := by
  rw [ServedAs, frames_incomplete h]
  refine ⟨[], [], conn.readBuf, rfl, fun _ => rfl, by simp, ?_⟩
  rw [Connection.leaving_self]
  rfl

/-- A command that takes the process down takes it down in the piece it arrives in. -/
theorem served_stopped {ov : Overflow} {conn : Connection} {core core' : Core} {piece : Bytes}
    {stop : Stop Empty}
    (h : (respondAll ov (frames (conn.readBuf ++ piece)).requests).run core = (.error stop, core'))
    (pieces : List Bytes) :
    ((serve ov (piece :: pieces)).run ⟨conn, core⟩).1 = lifted stop := by
  have hends := process_spec ov { conn with readBuf := conn.readBuf ++ piece } core
  unfold ProcessEnds at hends
  simp only [h] at hends
  rw [serve_cons]
  rcases hrun : (process ov).run ⟨{ conn with readBuf := conn.readBuf ++ piece }, core⟩
    with ⟨e, session⟩
  rw [hrun] at hends
  obtain rfl : e = lifted stop := hends
  cases stop with
  | err e => exact e.elim
  | died => rfl
  | panicked => rfl

/-- The first piece, its requests answered. -/
theorem serve_answered {ov : Overflow} {conn : Connection} {core core' : Core} {piece : Bytes}
    {replies : List Resp}
    (h : (respondAll ov (frames (conn.readBuf ++ piece)).requests).run core = (.ok replies, core'))
    (pieces : List Bytes) :
    (serve ov (piece :: pieces)).run ⟨conn, core⟩ =
      match (frames (conn.readBuf ++ piece)).ending with
      | .ok _ => (serve ov pieces).run
          ⟨conn.leaving (frames (conn.readBuf ++ piece)).rest replies, core'⟩
      | .error stop =>
        (.error stop, ⟨conn.leaving (frames (conn.readBuf ++ piece)).rest replies, core'⟩) := by
  have hends := process_spec ov { conn with readBuf := conn.readBuf ++ piece } core
  unfold ProcessEnds at hends
  simp only [h] at hends
  rw [serve_cons, hends]
  cases (frames (conn.readBuf ++ piece)).ending <;> rfl

theorem serve_spec (ov : Overflow) (pieces : List Bytes) (conn : Connection) (core : Core)
    (h : Resp.parse conn.readBuf = .ok none) :
    ServedAs ov conn core pieces (frames (conn.readBuf ++ pieces.flatten)) := by
  induction pieces generalizing conn core with
  | nil =>
    rw [List.flatten_nil, List.append_nil]
    exact served_nil ov conn core h
  | cons piece pieces ih =>
    have hwhole : frames (conn.readBuf ++ (piece :: pieces).flatten) =
        (frames (conn.readBuf ++ piece)).feed pieces.flatten := by
      rw [← frames_append, List.flatten_cons, List.append_assoc]
    have hrest := parse_rest (conn.readBuf ++ piece)
    rw [hwhole, ServedAs, Frames.feed, Frames.andThen, respondAll_append]
    rcases hfirst : (respondAll ov (frames (conn.readBuf ++ piece)).requests).run core
      with ⟨r, core₁⟩
    cases r with
    | error stop => exact served_stopped hfirst pieces
    | ok replies =>
      simp only [serve_answered hfirst pieces]
      cases hending : (frames (conn.readBuf ++ piece)).ending with
      | error stop =>
        -- the connection is given up here; in the whole stream the search stops here too
        rw [hending] at hrest
        have hlate : Resp.parse ((frames (conn.readBuf ++ piece)).rest ++ pieces.flatten) =
            .error stop := by
          rw [parse_append _ (by rw [hrest]; simp [Except.map]), hrest]
          rfl
        rw [frames_stop hlate]
        refine ⟨[piece], pieces, (frames (conn.readBuf ++ piece)).rest, rfl, ?_, rfl, ?_⟩
        · intro hok
          cases hok
        · rw [List.append_nil]
      | ok _ =>
        rw [hending] at hrest
        have hnext := ih (conn.leaving (frames (conn.readBuf ++ piece)).rest replies) core₁ hrest
        change ServedAs ov _ core₁ pieces
          (frames ((frames (conn.readBuf ++ piece)).rest ++ pieces.flatten)) at hnext
        unfold ServedAs at hnext
        rcases hlater : (respondAll ov
          (frames ((frames (conn.readBuf ++ piece)).rest ++ pieces.flatten)).requests).run core₁
          with ⟨rs, core₂⟩
        rw [hlater] at hnext
        cases rs with
        | error stop => exact hnext
        | ok later =>
          obtain ⟨read, unread, left, hpieces, hall, hleft, hrun⟩ := hnext
          refine ⟨piece :: read, unread, left, by rw [hpieces]; rfl, hall, hleft, ?_⟩
          rw [hrun, Connection.leaving_leaving]

/-- The process loop ends by itself: any bound above the length of the buffer will do. -/
theorem processLoop_eq (ov : Overflow) {fuel : Nat} (conn : Connection) (core : Core)
    (h : conn.readBuf.length < fuel) :
    (processLoop ov fuel).run ⟨conn, core⟩ = (process ov).run ⟨conn, core⟩ := by
  refine fuel_irrelevant_lt (fun fuel s => (processLoop ov fuel).run s)
    (fun s : Session => s.conn.readBuf.length) ?_ h (Nat.lt_succ_self _)
  intro m n s hrest
  obtain ⟨conn, core⟩ := s
  cases hp : Resp.parse conn.readBuf with
  | error stop => rw [processLoop_stop ov m conn core hp, processLoop_stop ov n conn core hp]
  | ok r =>
    cases r with
    | none =>
      rw [processLoop_incomplete ov m conn core hp, processLoop_incomplete ov n conn core hp]
    | some r =>
      obtain ⟨value, consumed⟩ := r
      obtain ⟨hpos, hle⟩ := parse_consumed hp
      -- every request takes a byte
      have hshort : (conn.readBuf.drop consumed).length < conn.readBuf.length := by
        rw [List.length_drop]
        omega
      rw [processLoop_cut ov m conn core hp, processLoop_cut ov n conn core hp]
      rcases (respond ov value).run core with ⟨r, core₁⟩
      cases r with
      | error stop => rfl
      | ok reply =>
        exact hrest ⟨{ conn with readBuf := conn.readBuf.drop consumed }.queue reply, core₁⟩ hshort

/-- **Framing ignores how a stream is cut into reads.** Whatever the pieces, the same requests
are found with the same bytes left, and a connection served piece by piece comes to what one
served the whole stream does. Every parsed request takes a byte and none that is not there, so
the drain is in range and the process loop ends. -/
theorem framing_ignores_chunking (ov : Overflow) (stream : Stream) (core : Core)
    (pieces : List Bytes) :
    pieces.foldl Frames.feed (frames []) = frames pieces.flatten ∧
      ServedAs ov (.new stream) core pieces (frames pieces.flatten) ∧
      ServedAs ov (.new stream) core [pieces.flatten] (frames pieces.flatten) ∧
      (∀ buf v n, Resp.parse buf = .ok (some (v, n)) → 1 ≤ n ∧ n ≤ buf.length) ∧
      ∀ conn core fuel, conn.readBuf.length < fuel →
        (processLoop ov fuel).run ⟨conn, core⟩ = (process ov).run ⟨conn, core⟩ := by
  refine ⟨feed_flatten pieces [], serve_spec ov pieces (.new stream) core rfl, ?_, ?_, ?_⟩
  · have hwhole := serve_spec ov [pieces.flatten] (.new stream) core rfl
    rwa [List.flatten_cons, List.flatten_nil, List.append_nil] at hwhole
  · exact fun buf v n h => parse_consumed h
  · exact fun conn core fuel h => processLoop_eq ov conn core h

/-! ## Values cut short -/

/-- **The parser undoes the encoder, and needs all of it**: an encoded value is read back
whatever follows it, and none of its proper prefixes is read as anything. -/
theorem encoded_parses_whole (v : Resp) (h : v.Sendable) :
    (∀ rest, Resp.parse (v.encode ++ rest) = .ok (some (v, v.encode.length))) ∧
      ∀ cut, cut <+: v.encode → cut ≠ v.encode → Resp.parse cut = .ok none := by
  refine ⟨fun rest => parse_encode v rest h, ?_⟩
  intro cut hcut hne
  obtain ⟨rest, hrest⟩ := hcut
  have hwhole := parse_encode v [] h
  rw [List.append_nil, ← hrest] at hwhole
  by_contra hparse
  rw [parse_append rest hparse] at hwhole
  have hle := (parse_consumed hwhole).2
  have hnil : rest = [] := by
    rw [List.length_append] at hle
    exact List.length_eq_zero_iff.mp (by omega)
  exact hne (by rw [← hrest, hnil, List.append_nil])

/-- A value of every kind, one with a payload that looks like framing. -/
def nestedValue : Resp :=
  .array [.simple (Str.lit "ready"), .error (Str.lit "ERR\r"), .integer (-7),
    .bulk (ascii "$3\r\n\r\n"), .null, .array [], .array [.bulk [0xFF]]]

theorem nestedValue_parses_whole :
    (∀ rest, Resp.parse (nestedValue.encode ++ rest) =
        .ok (some (nestedValue, nestedValue.encode.length))) ∧
      ∀ cut, cut <+: nestedValue.encode → cut ≠ nestedValue.encode → Resp.parse cut = .ok none := by
  apply encoded_parses_whole
  simp only [nestedValue, Resp.Sendable, AllSendable]
  decide

end RustFundamentals.Rudis
