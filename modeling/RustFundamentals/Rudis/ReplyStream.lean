import RustFundamentals.Rudis.CommandSpec

/-!
# rudis: what a client decodes

A client takes the bytes it is sent apart with the same parser. It finds one value for each of
its requests, in order, exactly when none of them names its command with a CR LF
(`replies_decode_iff`).
-/

namespace RustFundamentals.Rudis

open Foundation Foundation.Fs

/-! ## Requests from a buffer -/

/-- The byte strings of a value, and those of its items, are at most `m` long. -/
def Shallow (m : Nat) (v : Resp) : Prop :=
  (∀ bytes, v = .bulk bytes → bytes.length ≤ m) ∧
    ∀ items, v = .array items → ∀ bytes, .bulk bytes ∈ items → bytes.length ≤ m

theorem EncodesAll.bulk_le {E : Bytes → Prop} : ∀ {items : List Resp} {body bytes : Bytes},
    EncodesAll E items body → .bulk bytes ∈ items → bytes.length ≤ body.length
  | item :: items, body, bytes, ⟨bs, rest, hitem, hitems, hbody⟩, hmem => by
    rw [hbody, List.length_append]
    rcases List.mem_cons.mp hmem with rfl | hmem
    · obtain ⟨line, ending, -, -, -, rfl⟩ := hitem
      simp only [List.length_append]
      omega
    · have := hitems.bulk_le hmem
      omega

/-- The byte strings of a request come from the buffer. -/
theorem parse_shallow {buf : Bytes} {m : Nat} (hbuf : buf.length ≤ m) {v : Resp} {n : Nat}
    (h : Resp.parse buf = .ok (some (v, n))) : Shallow m v := by
  obtain ⟨bs, rest, rfl, -, henc⟩ := parse_sound buf v n h
  rw [List.length_append] at hbuf
  constructor
  · intro bytes hv
    subst hv
    obtain ⟨line, ending, -, -, -, rfl⟩ := henc
    simp only [List.length_append] at hbuf
    omega
  · intro items hv bytes hmem
    subst hv
    obtain ⟨line, body, -, -, -, hitems, rfl⟩ := henc
    have hle := hitems.bulk_le hmem
    rw [List.length_append] at hbuf
    omega

/-- The requests in a buffer that fits in memory do. -/
theorem frames_fit {buf : Bytes} (hbuf : buf.length ≤ isizeMax) :
    ∀ request ∈ (frames buf).requests, RequestFits request := by
  induction buf using frames_induction with
  | cut buf value consumed hp ih =>
    rw [frames_cons hp]
    intro request hmem
    rcases List.mem_cons.mp hmem with rfl | hmem
    · intro name args hcommand arg harg
      refine (parse_shallow hbuf hp).2 _ hcommand arg ?_
      exact List.mem_cons_of_mem _ (List.mem_map_of_mem harg)
    · exact ih (le_trans (by rw [List.length_drop]; omega) hbuf) request hmem
  | incomplete buf hp => rw [frames_incomplete hp]; exact fun _ hmem => by cases hmem
  | stopped buf stop hp => rw [frames_stop hp]; exact fun _ hmem => by cases hmem

/-! ## Decoding -/

/-- The bytes are the encodings of the values, as the parser takes them apart. -/
inductive Decodes : Bytes → List Resp → Prop
  | done : Decodes [] []
  | more {buf : Bytes} {v : Resp} {n : Nat} {vs : List Resp} :
      Resp.parse buf = .ok (some (v, n)) → Decodes (buf.drop n) vs → Decodes buf (v :: vs)

theorem Decodes.cons_inv {buf : Bytes} {v : Resp} {vs : List Resp} (h : Decodes buf (v :: vs)) :
    ∃ n, Resp.parse buf = .ok (some (v, n)) ∧ Decodes (buf.drop n) vs := by
  cases h with
  | more hparse hrest => exact ⟨_, hparse, hrest⟩

theorem decodes_encodeAll {vs : List Resp} (h : ∀ v ∈ vs, v.Sendable) :
    Decodes (encodeAll vs) vs := by
  induction vs with
  | nil => exact .done
  | cons v vs ih =>
    apply Decodes.more (parse_encode v (encodeAll vs) (h v (by simp)))
    show Decodes ((v.encode ++ encodeAll vs).drop v.encode.length) vs
    rw [List.drop_left]
    exact ih fun w hw => h w (by simp [hw])

/-- An error of more than one line is cut at the first: it is not read back. -/
theorem Broken.not_parsed {reply : Resp} (h : Broken reply) (rest : Bytes) (n : Nat) :
    Resp.parse (reply.encode ++ rest) ≠ .ok (some (reply, n)) := by
  obtain ⟨text, rfl, htext⟩ := h
  intro hparse
  obtain ⟨bs, tail, -, -, hline, -⟩ := parse_sound _ _ _ hparse
  exact htext hline

/-- How a request and its reply go together. -/
def Replied (request reply : Resp) : Prop :=
  (¬ Injects request ∧ reply.Sendable) ∨ (Injects request ∧ Broken reply)

/-- The reply is read back as the one value it is exactly when the request does not inject. -/
theorem Replied.parsed_iff {request reply : Resp} (h : Replied request reply) :
    Resp.parse reply.encode = .ok (some (reply, reply.encode.length)) ↔ ¬ Injects request := by
  obtain ⟨hinj, hsend⟩ | ⟨hinj, hbroken⟩ := h
  · have hparse := parse_encode reply [] hsend
    rw [List.append_nil] at hparse
    exact iff_of_true hparse hinj
  · have hparse := hbroken.not_parsed [] reply.encode.length
    rw [List.append_nil] at hparse
    exact iff_of_false hparse (not_not_intro hinj)

/-- A stream of replies decodes into them exactly when no request injects. -/
theorem decodes_iff {requests replies : List Resp} (h : List.Forall₂ Replied requests replies) :
    Decodes (encodeAll replies) replies ↔ ∀ request ∈ requests, ¬ Injects request := by
  constructor
  · intro hdec
    induction h with
    | nil => exact fun _ hmem => by cases hmem
    | @cons request reply requests replies hr hrs ih =>
      obtain ⟨n, hparse, hrest⟩ := hdec.cons_inv
      obtain ⟨hinj, hsend⟩ | ⟨-, hbroken⟩ := hr
      · have hread := parse_encode reply (encodeAll replies) hsend
        obtain ⟨-, rfl⟩ := Prod.mk.inj (Option.some.inj (Except.ok.inj (hparse.symm.trans hread)))
        have hdrop : (encodeAll (reply :: replies)).drop reply.encode.length =
            encodeAll replies := List.drop_left
        rw [hdrop] at hrest
        intro q hmem
        rcases List.mem_cons.mp hmem with rfl | hmem
        · exact hinj
        · exact ih hrest q hmem
      · exact absurd hparse (hbroken.not_parsed _ n)
  · intro hclean
    apply decodes_encodeAll
    induction h with
    | nil => exact fun _ hmem => by cases hmem
    | @cons request reply requests replies hr hrs ih =>
      intro v hmem
      rcases List.mem_cons.mp hmem with rfl | hmem
      · obtain ⟨-, hsend⟩ | ⟨hinj, -⟩ := hr
        · exact hsend
        · exact absurd hinj (hclean request (by simp))
      · exact ih (fun q hq => hclean q (by simp [hq])) v hmem

theorem respondAll_replied (ov : Overflow) {requests replies : List Resp} {core core' : Core}
    (hcore : core.Tame) (hfit : ∀ request ∈ requests, RequestFits request)
    (h : (respondAll ov requests).run core = (.ok replies, core')) :
    core'.Tame ∧ List.Forall₂ Replied requests replies := by
  induction requests generalizing core replies with
  | nil =>
    obtain ⟨rfl, rfl⟩ := respondAll_nil_ok h
    exact ⟨hcore, .nil⟩
  | cons request requests ih =>
    obtain ⟨reply, rest, core₁, hreply, hrest, rfl⟩ := respondAll_cons_ok h
    have hkeeps := keeps_respond ov (hfit request (by simp)) core hcore
    rw [Post, hreply] at hkeeps
    obtain ⟨hcore', hreplied⟩ := ih hkeeps.1 (fun q hq => hfit q (by simp [hq])) hrest
    exact ⟨hcore', .cons hkeeps.2 hreplied⟩

/-! ## A whole conversation -/

/-- What a client sends arrives in pieces, and each piece is processed when it is there. -/
def serve (ov : Overflow) : List Bytes → Io Session Error Unit
  | [] => pure ()
  | piece :: pieces => do
    modify fun s => { s with conn.readBuf := s.conn.readBuf ++ piece }
    process ov
    serve ov pieces

/-- The requests in what arrives, up to the first malformed one. -/
def requestsIn (buf : Bytes) : List Bytes → List Resp
  | [] => []
  | piece :: pieces =>
    let f := frames (buf ++ piece)
    f.requests ++
      match f.ending with
      | .ok () => requestsIn f.rest pieces
      | .error _ => []

/-- The process is still there: nothing has panicked. -/
def Alive (r : Except (Stop Error) Unit) : Prop := r ≠ .error .panicked ∧ r ≠ .error .died

/-- One `process` on a buffer that fits in memory. -/
theorem process_replied (ov : Overflow) {conn : Connection} {core : Core} (hcore : core.Tame)
    (hsize : conn.readBuf.length ≤ isizeMax)
    (halive : Alive ((process ov).run ⟨conn, core⟩).1) :
    ∃ replies core', core'.Tame ∧ List.Forall₂ Replied (frames conn.readBuf).requests replies ∧
      (process ov).run ⟨conn, core⟩ =
        ((frames conn.readBuf).ending, ⟨conn.answered replies, core'⟩) := by
  have hends := process_spec ov conn core
  unfold ProcessEnds at hends
  rcases hrun : (respondAll ov (frames conn.readBuf).requests).run core with ⟨r, core'⟩
  rw [hrun] at hends
  rcases r with stop | replies
  · rw [hends] at halive
    rcases stop with e | _ | _
    · exact e.elim
    · exact absurd rfl halive.2
    · exact absurd rfl halive.1
  · obtain ⟨htame, hreplied⟩ := respondAll_replied ov hcore (frames_fit hsize) hrun
    exact ⟨replies, core', htame, hreplied, hends⟩

theorem serve_cons (ov : Overflow) (piece : Bytes) (pieces : List Bytes) (conn : Connection)
    (core : Core) :
    (serve ov (piece :: pieces)).run ⟨conn, core⟩ =
      match (process ov).run ⟨{ conn with readBuf := conn.readBuf ++ piece }, core⟩ with
      | (.ok _, session) => (serve ov pieces).run session
      | (.error stop, session) => (.error stop, session) := by
  rw [serve, run_modify_bind, run_bind]
  rcases (process ov).run _ with ⟨r, session⟩
  cases r <;> rfl

/-- Every request is replied to, in order, over a whole conversation. -/
theorem serve_replied (ov : Overflow) (pieces : List Bytes) {conn : Connection} {core : Core}
    (hcore : core.Tame)
    (hsize : conn.readBuf.length + (pieces.map List.length).sum ≤ isizeMax)
    (halive : Alive ((serve ov pieces).run ⟨conn, core⟩).1) :
    ∃ replies, List.Forall₂ Replied (requestsIn conn.readBuf pieces) replies ∧
      ((serve ov pieces).run ⟨conn, core⟩).2.conn.writeBuf =
        conn.writeBuf ++ encodeAll replies := by
  induction pieces generalizing conn core with
  | nil => exact ⟨[], .nil, by simp [serve, encodeAll]; rfl⟩
  | cons piece pieces ih =>
    rw [List.map_cons, List.sum_cons] at hsize
    have hpiece :
        Alive ((process ov).run ⟨{ conn with readBuf := conn.readBuf ++ piece }, core⟩).1 := by
      rw [serve_cons] at halive
      rcases hrun : (process ov).run ⟨{ conn with readBuf := conn.readBuf ++ piece }, core⟩
        with ⟨r, session⟩
      rw [hrun] at halive
      cases r with
      | ok _ => exact ⟨by simp, by simp⟩
      | error stop => exact halive
    have hroom : ({ conn with readBuf := conn.readBuf ++ piece } : Connection).readBuf.length ≤
        isizeMax := by
      rw [List.length_append]
      omega
    obtain ⟨replies, core', htame, hreplied, hrun⟩ := process_replied ov hcore hroom hpiece
    rw [serve_cons, hrun] at halive ⊢
    have hrest := frames_rest_length (conn.readBuf ++ piece)
    rw [List.length_append] at hrest
    simp only [requestsIn]
    cases hend : (frames (conn.readBuf ++ piece)).ending with
    | error stop =>
      refine ⟨replies, by rw [List.append_nil]; exact hreplied, ?_⟩
      rfl
    | ok _ =>
      simp only [hend] at halive ⊢
      obtain ⟨later, hlater, hbuf⟩ := ih htame
        (by show (frames (conn.readBuf ++ piece)).rest.length + _ ≤ _; omega) halive
      refine ⟨replies ++ later, List.rel_append hreplied hlater, ?_⟩
      rw [hbuf, encodeAll_append, ← List.append_assoc]
      rfl

/-- **One value a reply**: what is written to a client decodes into one value for each of its
requests, in order, exactly when no request names its command with a CR LF. -/
theorem replies_decode_iff (ov : Overflow) (conn : Connection) (core : Core) (pieces : List Bytes)
    (hcore : core.Tame) (hsize : conn.readBuf.length + (pieces.map List.length).sum ≤ isizeMax)
    (halive : Alive ((serve ov pieces).run ⟨conn, core⟩).1) :
    ∃ replies,
      ((serve ov pieces).run ⟨conn, core⟩).2.conn.writeBuf = conn.writeBuf ++ encodeAll replies ∧
      List.Forall₂ (fun request reply =>
        Resp.parse reply.encode = .ok (some (reply, reply.encode.length)) ↔ ¬ Injects request)
        (requestsIn conn.readBuf pieces) replies ∧
      (Decodes (encodeAll replies) replies ↔
        ∀ request ∈ requestsIn conn.readBuf pieces, ¬ Injects request) := by
  obtain ⟨replies, hreplied, hbuf⟩ := serve_replied ov pieces hcore hsize halive
  refine ⟨replies, hbuf, ?_, decodes_iff hreplied⟩
  exact hreplied.imp fun request reply h => h.parsed_iff

/-- A request for `PING`. -/
def pingRequest : Resp := .array [.bulk (ascii "PING")]

theorem Core.fresh_tame : Core.fresh.Tame where
  values := fun _ _ h => by cases h
  failures := fun _ _ _ h => by cases h

/-- A request that arrives in two pieces. -/
theorem pingInPieces_decodes :
    let pieces := [pingRequest.encode.take 5, pingRequest.encode.drop 5]
    let ended := (serve .checked pieces).run ⟨.new ⟨[], []⟩, .fresh⟩
    ∃ replies,
      ended.2.conn.writeBuf = [] ++ encodeAll replies ∧
      List.Forall₂ (fun request reply =>
        Resp.parse reply.encode = .ok (some (reply, reply.encode.length)) ↔ ¬ Injects request)
        (requestsIn [] pieces) replies ∧
      (Decodes (encodeAll replies) replies ↔
        ∀ request ∈ requestsIn [] pieces, ¬ Injects request) := by
  intro pieces ended
  refine replies_decode_iff .checked (.new ⟨[], []⟩) .fresh pieces Core.fresh_tame ?_ ?_
  · decide
  · have hended : ended.1 = .ok () := by rfl
    show Alive ended.1
    rw [hended]
    exact ⟨by simp, by simp⟩

/-- A request whose name goes on behind a CR LF with a status line of its own. -/
def smugglingRequest : Resp := .array [.bulk (ascii "X\r\n+OK")]

/-- Its reply is read as a shorter error, and what is left of it starts one more reply. -/
theorem smuggling_splits_reply :
    ∃ reply core', (respond .checked smugglingRequest).run .fresh = (.ok reply, core') ∧
      Resp.parse reply.encode ≠ .ok (some (reply, reply.encode.length)) ∧
      Resp.parse reply.encode =
        .ok (some (.error (Str.lit "ERR protocol error: unknown command 'X"), 41)) ∧
      reply.encode.drop 41 = ascii "+OK'\r\n" := by
  refine ⟨.error (Str.lit "ERR protocol error: unknown command 'X\r\n+OK'"), _, rfl, ?_⟩
  decide

end RustFundamentals.Rudis
