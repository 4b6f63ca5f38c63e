import RustFundamentals.Rudis.Chunking
import RustFundamentals.Rudis.Delivery
import RustFundamentals.Rudis.Exchanges

/-!
# rudis: many clients, one order

The event loop serves its clients interleaved, a few bytes at a time. A run of it has a log: the
tokens given away, the bytes that come in, the requests answered. All requests of the log, in the
order in which they are answered, get the replies of the reference; and those of one client are the
requests in the bytes it has sent, in their order (`server_linearizable`).
-/

namespace RustFundamentals.Rudis

open Foundation Foundation.Fs Foundation.Expiry

/-! ## The log of a run -/

/-- What is seen of a run from outside. -/
inductive Event
  | opened (token : Nat)
  | received (token : Nat) (bytes : Bytes)
  | answered (token : Nat) (x : Exchange)

/-- What a client has sent since its token was given to it, and what has been answered. -/
structure Account where
  bytes : Bytes
  exchanges : List Exchange

/-- One more event in the account of a token. -/
def Account.enter (token : Nat) (a : Account) : Event → Account
  | .opened t => if t = token then ⟨[], []⟩ else a
  | .received t bytes => if t = token then { a with bytes := a.bytes ++ bytes } else a
  | .answered t x => if t = token then { a with exchanges := a.exchanges ++ [x] } else a

/-- The account of the client that has the token, or had it last. -/
def account (token : Nat) (log : List Event) : Account :=
  log.foldl (Account.enter token) ⟨[], []⟩

/-- The exchange of an event, if it is one. -/
def Event.exchange? : Event → Option Exchange
  | .answered _ x => some x
  | _ => none

/-- All exchanges of a log. -/
def allExchanges (log : List Event) : List Exchange := log.filterMap Event.exchange?

namespace Server

/-- The tokens that a listener event gives away. -/
def openedBy (s : Server) : List AcceptCall → List Nat
  | [] => []
  | .accepted registered :: calls =>
    match nextFreeToken s.nextToken s.conns, registered with
    | some next, .ok () => s.nextToken :: (s.accept next).openedBy calls
    | _, _ => []
  | .failed .wouldBlock _ :: _ => []
  | .failed kind _ :: calls =>
    if kind = .interrupted ∨ kind.isTransient then s.openedBy calls else []

/-- What comes in on a client's event, and what is answered. Bytes in front of a failing read are
given up with the connection. -/
def servedBy (ov : Overflow) (r : Ready) (s : Server) : List Event :=
  match s.conns.lookup r.token with
  | none => []
  | some conn =>
    if r.readable then
      match conn.readIntoBuf r.reads with
      | (.ok _, conn') =>
        .received r.token (conn'.readBuf.drop conn.readBuf.length) ::
          (exchanges ov (frames conn'.readBuf).requests s.core).map (.answered r.token)
      | (.error _, _) => []
    else []

/-- The events of a step that the loop completes. -/
def events (ov : Overflow) : Step → Server → List Event
  | .listener calls, s => (s.openedBy calls).map .opened
  | .ready r, s => s.servedBy ov r
  | .signals _, _ | .tick, _ => []

/-- The log of a run, until the loop ends. -/
def log (ov : Overflow) : List Step → Server → List Event
  | [], _ => []
  | st :: steps, s =>
    match s.step ov st with
    | .ok (s', _) => s.events ov st ++ log ov steps s'
    | .error _ => []

/-- The state behind the last step that the loop completes. -/
def after (ov : Overflow) : List Step → Server → Server
  | [], s => s
  | st :: steps, s =>
    match s.step ov st with
    | .ok (s', _) => after ov steps s'
    | .error _ => s

end Server

/-! ## Accounts -/

theorem account_append (token : Nat) (log events : List Event) :
    account token (log ++ events) = events.foldl (Account.enter token) (account token log) :=
  List.foldl_append

/-- An account opened anew. -/
theorem account_opened (token : Nat) (log : List Event) :
    account token (log ++ [.opened token]) = ⟨[], []⟩ := by
  rw [account_append]
  exact if_pos rfl

theorem account_opened_ne {token t : Nat} (h : t ≠ token) (log : List Event) :
    account token (log ++ [.opened t]) = account token log := by
  rw [account_append]
  exact if_neg h

theorem foldl_answered (token : Nat) (xs : List Exchange) (a : Account) :
    (xs.map (Event.answered token)).foldl (Account.enter token) a =
      { a with exchanges := a.exchanges ++ xs } := by
  induction xs generalizing a with
  | nil => simp
  | cons x xs ih =>
    rw [List.map_cons, List.foldl_cons, ih]
    simp [Account.enter]

theorem foldl_answered_ne {token t : Nat} (h : t ≠ token) (xs : List Exchange) (a : Account) :
    (xs.map (Event.answered t)).foldl (Account.enter token) a = a := by
  induction xs with
  | nil => rfl
  | cons x xs ih =>
    rw [List.map_cons, List.foldl_cons, Account.enter, if_neg h]
    exact ih

/-- What an event of a client adds to its account. -/
theorem account_served (token : Nat) (log : List Event) (bytes : Bytes) (xs : List Exchange) :
    account token (log ++ .received token bytes :: xs.map (.answered token)) =
      ⟨(account token log).bytes ++ bytes, (account token log).exchanges ++ xs⟩ := by
  rw [account_append, List.foldl_cons, foldl_answered, Account.enter, if_pos rfl]

theorem account_served_ne {token t : Nat} (h : t ≠ token) (log : List Event) (bytes : Bytes)
    (xs : List Exchange) :
    account token (log ++ .received t bytes :: xs.map (.answered t)) = account token log := by
  rw [account_append, List.foldl_cons, foldl_answered_ne h, Account.enter, if_neg h]

/-- The requests answered are those in the bytes received. -/
def Account.Framed (a : Account) : Prop :=
  a.exchanges.map Exchange.request = (frames a.bytes).requests

/-- The connection is where its account is: it has yet to parse what no request is complete in. -/
structure Account.Of (a : Account) (conn : Connection) : Prop where
  ending : (frames a.bytes).ending = .ok ()
  readBuf : conn.readBuf = (frames a.bytes).rest
  replied : conn.replied = a.exchanges.map Exchange.reply

/-- Every account is in order. -/
structure Accounted (s : Server) (log : List Event) : Prop where
  framed : ∀ token, (account token log).Framed
  live : ∀ token conn, s.conns.lookup token = some conn → (account token log).Of conn

theorem accounted_start (core : Core) : Accounted (.start core) [] :=
  ⟨fun _ => rfl, fun _ _ h => by cases h⟩

/-! ## Accepts -/

namespace Accounted

variable {s s' : Server} {log : List Event}

/-- A new connection has a new account. -/
theorem accept (h : Accounted s log) (next : Nat) :
    Accounted (s.accept next) (log ++ [.opened s.nextToken]) := by
  constructor
  · intro token
    by_cases ht : s.nextToken = token
    · subst ht
      rw [account_opened]
      exact rfl
    · rw [account_opened_ne ht]
      exact h.framed token
  · intro token conn hconn
    by_cases ht : s.nextToken = token
    · subst ht
      rw [account_opened]
      have hnew : (s.conns.insert s.nextToken (.new ⟨[], []⟩)).lookup s.nextToken = some conn :=
        hconn
      rw [AList.lookup_insert] at hnew
      obtain rfl := Option.some.inj hnew
      exact ⟨rfl, rfl, rfl⟩
    · rw [account_opened_ne ht]
      have hold : (s.conns.insert s.nextToken (.new ⟨[], []⟩)).lookup token = some conn := hconn
      rw [AList.lookup_insert_ne (Ne.symm ht)] at hold
      exact h.live token conn hold

theorem acceptLoop (calls : List AcceptCall) (h : Accounted s log) {closed : List Closed}
    (hrun : s.acceptLoop calls = .ok (s', closed)) :
    Accounted s' (log ++ (s.openedBy calls).map .opened) ∧ s'.core = s.core := by
  induction calls generalizing s log closed with
  | nil =>
    obtain ⟨rfl, -⟩ := Prod.mk.inj (Except.ok.inj hrun)
    rw [Server.openedBy, List.map_nil, List.append_nil]
    exact ⟨h, rfl⟩
  | cons call calls ih =>
    cases call with
    | accepted registered =>
      unfold Server.acceptLoop at hrun
      unfold Server.openedBy
      cases hnext : nextFreeToken s.nextToken s.conns with
      | none =>
        rw [hnext] at hrun
        cases hrun
      | some next =>
        rw [hnext] at hrun
        cases registered with
        | error text => cases hrun
        | ok _ =>
          change ((s.accept next).acceptLoop calls >>= _) = _ at hrun
          rcases hrest : (s.accept next).acceptLoop calls with halt | ⟨after, later⟩
          · rw [hrest] at hrun
            cases hrun
          rw [hrest] at hrun
          obtain ⟨rfl, -⟩ := Prod.mk.inj (Except.ok.inj hrun)
          obtain ⟨hafter, hcore⟩ := ih (h.accept next) hrest
          refine ⟨?_, hcore⟩
          show Accounted after (log ++ .opened s.nextToken :: _)
          rwa [List.append_assoc] at hafter
    | failed kind text =>
      cases kind with
      | wouldBlock =>
        obtain ⟨rfl, -⟩ := Prod.mk.inj (Except.ok.inj hrun)
        show Accounted s (log ++ [].map .opened) ∧ _
        rw [List.map_nil, List.append_nil]
        exact ⟨h, rfl⟩
      | interrupted => exact ih h hrun
      | connectionAborted => exact ih h hrun
      | connectionReset => exact ih h hrun
      | other => cases hrun

end Accounted

/-! ## A client's event -/

/-- Reading puts bytes behind those that are there. -/
theorem Connection.readIntoBuf_appends (conn : Connection) (calls : List ReadCall) :
    ∃ new, (conn.readIntoBuf calls).2 = { conn with readBuf := conn.readBuf ++ new } := by
  have hself : conn = { conn with readBuf := conn.readBuf ++ [] } := by rw [List.append_nil]
  induction calls generalizing conn with
  | nil => exact ⟨[], hself⟩
  | cons call calls ih =>
    cases call with
    | delivered bytes =>
      cases bytes with
      | nil => exact ⟨[], hself⟩
      | cons b bytes =>
        obtain ⟨new, hnew⟩ := ih { conn with readBuf := conn.readBuf ++ (b :: bytes) }
          (by rw [List.append_nil])
        refine ⟨(b :: bytes) ++ new, ?_⟩
        rw [← List.append_assoc]
        exact hnew
    | wouldBlock => exact ⟨[], hself⟩
    | interrupted => exact ih conn hself
    | failed text => exact ⟨[], hself⟩

/-- The requests in what has been sent so far, once more has come in. -/
theorem frames_received {a : Account} {conn : Connection} (h : a.Of conn) (new : Bytes) :
    frames (a.bytes ++ new) =
      { frames (conn.readBuf ++ new) with
        requests := (frames a.bytes).requests ++ (frames (conn.readBuf ++ new)).requests } := by
  rw [frames_append, Frames.feed, ← h.readBuf]
  rfl

/-- What has been served on one event: bytes that have come in, and exchanges. -/
structure Round (ov : Overflow) (core core' : Core) (keys : Keyspace) (xs : List Exchange) :
    Prop where
  went : Went core core'
  clock : OneClock core.clock xs core'.clock
  explained : ∃ keys', Reference.Explains ov xs keys keys' ∧ Mirrors core' keys'
  kept : ∀ P, (∀ x ∈ xs, x.Puts ov P) → core.store.Holds P → core'.store.Holds P

theorem Round.none (ov : Overflow) {core : Core} {keys : Keyspace} (h : Mirrors core keys) :
    Round ov core core keys [] := ⟨.refl core, .refl _, ⟨keys, rfl, h⟩, fun _ _ hholds => hholds⟩

/-- **The readable part of an event** answers the requests that it completes. -/
theorem readPhase_round {ov : Overflow} {r : Ready} {s : Server} {conn conn₁ : Connection}
    {core₁ : Core} {drop : Option Reason} {a : Account} {keys : Keyspace}
    (hlookup : s.conns.lookup r.token = some conn)
    (h : Server.readPhase ov r conn s.core = .ok (conn₁, core₁, drop)) (ha : a.Framed)
    (hconn : a.Of conn) (hkeys : Mirrors s.core keys) :
    (s.servedBy ov r = [] ∧ core₁ = s.core ∧ (drop = none → conn₁ = conn)) ∨
      ∃ new xs, s.servedBy ov r = .received r.token new :: xs.map (.answered r.token) ∧
        Round ov s.core core₁ keys xs ∧
        Account.Framed ⟨a.bytes ++ new, a.exchanges ++ xs⟩ ∧
        (drop = none → Account.Of ⟨a.bytes ++ new, a.exchanges ++ xs⟩ conn₁) := by
  unfold Server.readPhase at h
  unfold Server.servedBy
  rw [hlookup]
  by_cases hreadable : r.readable = true
  · simp only [hreadable, if_true] at h ⊢
    obtain ⟨new, hnew⟩ := conn.readIntoBuf_appends r.reads
    rcases hread : conn.readIntoBuf r.reads with ⟨res, conn'⟩
    rw [hread] at hnew h
    obtain rfl : conn' = { conn with readBuf := conn.readBuf ++ new } := hnew
    cases res with
    | error text =>
      obtain ⟨rfl, rfl, rfl⟩ : _ ∧ _ ∧ _ := by simpa using h
      exact .inl ⟨rfl, rfl, fun hdrop => by cases hdrop⟩
    | ok peerClosed =>
      refine .inr ⟨new, exchanges ov (frames (conn.readBuf ++ new)).requests s.core, ?_, ?_⟩
      · simp only [List.drop_left]
      have hends := process_spec ov { conn with readBuf := conn.readBuf ++ new } s.core
      unfold ProcessEnds at hends
      simp only at h hends
      rcases hrun : (respondAll ov (frames (conn.readBuf ++ new)).requests).run s.core
        with ⟨rs, core'⟩
      rw [hrun] at hends
      rcases rs with stop | replies
      · -- a command has panicked
        rcases hprocess : (process ov).run ⟨{ conn with readBuf := conn.readBuf ++ new }, s.core⟩
          with ⟨res, after⟩
        rw [hprocess] at h hends
        obtain rfl : res = lifted stop := hends
        rcases stop with e | _ | _
        · exact e.elim
        · cases h
        · cases h
      obtain ⟨hwent, hrequests, hreplies, hclock, hexplained⟩ := exchanges_explained hkeys hrun
      have hround : Round ov s.core core' keys
          (exchanges ov (frames (conn.readBuf ++ new)).requests s.core) :=
        ⟨hwent, hclock, hexplained, fun _ hputs => exchanges_holds hrun hputs⟩
      have hframed : Account.Framed ⟨a.bytes ++ new,
          a.exchanges ++ exchanges ov (frames (conn.readBuf ++ new)).requests s.core⟩ := by
        unfold Account.Framed
        rw [frames_received hconn, List.map_append, hrequests, ha]
      rw [hends] at h
      rcases hend : (frames (conn.readBuf ++ new)).ending with (e | _ | _) | _
      · rw [hend] at h
        obtain ⟨rfl, rfl, rfl⟩ : _ ∧ _ ∧ _ := by simpa using h
        exact ⟨hround, hframed, fun hdrop => by cases hdrop⟩
      · rw [hend] at h
        cases h
      · rw [hend] at h
        cases h
      · rw [hend] at h
        obtain ⟨rfl, rfl, -⟩ : _ ∧ _ ∧ _ := by simpa using h
        refine ⟨hround, hframed, fun _ => ⟨?_, ?_, ?_⟩⟩
        · rw [frames_received hconn]
          exact hend
        · rw [frames_received hconn]
          rfl
        · rw [List.map_append, hreplies, ← hconn.replied]
          rfl
  · simp only [hreadable] at h ⊢
    obtain ⟨rfl, rfl, rfl⟩ : _ ∧ _ ∧ _ := by simpa using h
    exact .inl ⟨rfl, rfl, fun _ => rfl⟩

/-- The writable part leaves what has been read, and what has been answered. -/
theorem writePhase_frame {r : Ready} {conn conn' : Connection} {drop drop' : Option Reason}
    (h : Server.writePhase r conn drop = (conn', drop')) :
    conn'.readBuf = conn.readBuf ∧ conn'.replied = conn.replied ∧ (drop' = none → drop = none) := by
  unfold Server.writePhase at h
  split at h
  · rename_i hflush
    rcases hout : conn.flushWriteBuf r.writes with ⟨res, conn₁⟩
    have hsame : conn₁.readBuf = conn.readBuf ∧ conn₁.replied = conn.replied := by
      have hconn := congrArg Prod.snd hout
      rw [← show _ = conn₁ from hconn]
      exact ⟨rfl, rfl⟩
    rw [hout] at h
    have hnone : drop = none := Option.isNone_iff_eq_none.mp hflush.1
    cases res <;> obtain ⟨rfl, rfl⟩ := Prod.mk.inj h <;> exact ⟨hsame.1, hsame.2, fun _ => hnone⟩
  · obtain ⟨rfl, rfl⟩ := Prod.mk.inj h
    exact ⟨rfl, rfl, id⟩

namespace Accounted

variable {ov : Overflow} {s s' : Server} {log : List Event}

/-- The accounts behind a client's event. -/
theorem enter (h : Accounted s log) {token : Nat} {new : Bytes} {xs : List Exchange}
    (hframed : Account.Framed ⟨(account token log).bytes ++ new,
      (account token log).exchanges ++ xs⟩)
    (hothers : ∀ t conn, t ≠ token → s'.conns.lookup t = some conn → s.conns.lookup t = some conn)
    (hlive : ∀ conn, s'.conns.lookup token = some conn →
      Account.Of ⟨(account token log).bytes ++ new, (account token log).exchanges ++ xs⟩ conn) :
    Accounted s' (log ++ .received token new :: xs.map (.answered token)) := by
  constructor
  · intro t
    by_cases ht : token = t
    · subst ht
      rw [account_served]
      exact hframed
    · rw [account_served_ne ht]
      exact h.framed t
  · intro t conn hconn
    by_cases ht : token = t
    · subst ht
      rw [account_served]
      exact hlive conn hconn
    · rw [account_served_ne ht]
      exact h.live t conn (hothers t conn (Ne.symm ht) hconn)

/-- No client is heard of. -/
theorem silent (h : Accounted s log)
    (hconns : ∀ t conn, s'.conns.lookup t = some conn → ∃ old, s.conns.lookup t = some old ∧
      conn.readBuf = old.readBuf ∧ conn.replied = old.replied) : Accounted s' (log ++ []) := by
  rw [List.append_nil]
  refine ⟨h.framed, fun t conn hconn => ?_⟩
  obtain ⟨old, hold, hbuf, hreplied⟩ := hconns t conn hconn
  have hof := h.live t old hold
  exact ⟨hof.ending, hbuf.trans hof.readBuf, hreplied.trans hof.replied⟩

end Accounted

theorem allExchanges_append (log events : List Event) :
    allExchanges (log ++ events) = allExchanges log ++ allExchanges events :=
  List.filterMap_append

theorem allExchanges_opened (tokens : List Nat) : allExchanges (tokens.map .opened) = [] := by
  unfold allExchanges
  rw [List.filterMap_map]
  exact List.filterMap_eq_nil_iff.mpr fun _ _ => rfl

theorem allExchanges_served (token : Nat) (bytes : Bytes) (xs : List Exchange) :
    allExchanges (.received token bytes :: xs.map (.answered token)) = xs := by
  unfold allExchanges
  rw [List.filterMap_cons_none rfl, List.filterMap_map]
  exact List.filterMap_some

/-- **A client's event** is one round, and leaves every account in order. -/
theorem served_round {ov : Overflow} {r : Ready} {s s' : Server} {closed : List Closed}
    {log : List Event} {keys : Keyspace} (h : Server.Served ov r s s' closed)
    (hlog : Accounted s log) (hkeys : Mirrors s.core keys) :
    Accounted s' (log ++ s.servedBy ov r) ∧
      Round ov s.core s'.core keys (allExchanges (s.servedBy ov r)) := by
  cases h with
  | gone hlookup =>
    have hnone : s.servedBy ov r = [] := by
      unfold Server.servedBy
      rw [hlookup]
    rw [hnone]
    exact ⟨hlog.silent fun t conn hconn => ⟨conn, hconn, rfl, rfl⟩, .none ov hkeys⟩
  | @removed conn conn₁ conn₂ core drop reason hlookup hread hwrite =>
    have hconns : ∀ t conn, (s.conns.erase r.token).lookup t = some conn →
        t ≠ r.token ∧ s.conns.lookup t = some conn := by
      intro t conn hconn
      by_cases ht : t = r.token
      · subst ht
        rw [AList.lookup_erase] at hconn
        cases hconn
      · rw [AList.lookup_erase_ne ht] at hconn
        exact ⟨ht, hconn⟩
    rcases readPhase_round hlookup hread (hlog.framed _) (hlog.live _ _ hlookup) hkeys with
      ⟨hnone, rfl, -⟩ | ⟨new, xs, hevents, hround, hframed, -⟩
    · rw [hnone]
      exact ⟨hlog.silent fun t conn hconn => ⟨conn, (hconns t conn hconn).2, rfl, rfl⟩,
        .none ov hkeys⟩
    · rw [hevents, allExchanges_served]
      refine ⟨hlog.enter hframed (fun t conn _ hconn => (hconns t conn hconn).2) ?_, hround⟩
      intro conn hconn
      exact absurd rfl (hconns _ conn hconn).1
  | @kept conn conn₁ conn₂ core drop hlookup hread hwrite =>
    obtain ⟨hbuf, hreplied, hdrop⟩ := writePhase_frame hwrite
    obtain rfl := hdrop rfl
    have hself : ∀ conn, (s.conns.insert r.token conn₂).lookup r.token = some conn →
        conn = conn₂ := by
      intro conn hconn
      rw [AList.lookup_insert] at hconn
      exact (Option.some.inj hconn).symm
    have hothers : ∀ t conn, t ≠ r.token →
        (s.conns.insert r.token conn₂).lookup t = some conn → s.conns.lookup t = some conn := by
      intro t conn ht hconn
      rwa [AList.lookup_insert_ne ht] at hconn
    rcases readPhase_round hlookup hread (hlog.framed _) (hlog.live _ _ hlookup) hkeys with
      ⟨hnone, rfl, hsame⟩ | ⟨new, xs, hevents, hround, hframed, hof⟩
    · obtain rfl := hsame rfl
      rw [hnone]
      refine ⟨hlog.silent fun t conn hconn => ?_, .none ov hkeys⟩
      by_cases ht : t = r.token
      · subst ht
        obtain rfl := hself conn hconn
        exact ⟨_, hlookup, hbuf, hreplied⟩
      · exact ⟨conn, hothers t conn ht hconn, rfl, rfl⟩
    · rw [hevents, allExchanges_served]
      refine ⟨hlog.enter hframed hothers fun conn hconn => ?_, hround⟩
      obtain rfl := hself conn hconn
      have hof₁ := hof rfl
      exact ⟨hof₁.ending, hbuf.trans hof₁.readBuf, hreplied.trans hof₁.replied⟩

/-! ## Whole runs -/

/-- A purge is no exchange. -/
theorem purge_round (ov : Overflow) {core : Core} {keys : Keyspace} (h : Mirrors core keys) :
    let after := (purge : Io Core Empty Unit).run core
    after.1 = .ok () ∧ Round ov core after.2 keys [] := by
  intro after
  have hafter : after = (.ok (), { core with
      clock := fun i => core.clock (i + 1), store := core.store.purgeExpired (core.clock 0) }) :=
    timed_run _ core
  rw [hafter]
  refine ⟨rfl, (Went.refl core).stored rfl, ⟨1, rfl⟩, ⟨keys, rfl, ?_, ?_⟩,
    fun _ _ => purge_holds (core.clock 0)⟩
  · exact fun i j hij => h.mono (by omega)
  · show Agree _ _ (Store.view (core.store.purgeExpired (core.clock 0))) keys
    rw [Store.view_purgeExpired]
    exact h.agree.drop_left.mono isExpired_lasting (h.mono (Nat.zero_le 1))

/-- **A step of the loop** is one round, and leaves every account in order. -/
theorem step_round {ov : Overflow} {st : Step} {s s' : Server} {closed : List Closed}
    {log : List Event} {keys : Keyspace} (h : s.step ov st = .ok (s', closed))
    (hlog : Accounted s log) (hkeys : Mirrors s.core keys) :
    Accounted s' (log ++ s.events ov st) ∧
      Round ov s.core s'.core keys (allExchanges (s.events ov st)) := by
  cases st with
  | listener calls =>
    obtain ⟨hafter, hcore⟩ := hlog.acceptLoop calls h
    rw [Server.events, allExchanges_opened, hcore]
    exact ⟨hafter, .none ov hkeys⟩
  | signals pending =>
    rw [Server.step] at h
    split at h
    · cases h
    · obtain ⟨rfl, -⟩ := Prod.mk.inj (Except.ok.inj h)
      exact ⟨hlog.silent fun t conn hconn => ⟨conn, hconn, rfl, rfl⟩, .none ov hkeys⟩
  | ready r => exact served_round (Server.served_of_onReady h) hlog hkeys
  | tick =>
    obtain ⟨hdone, hround⟩ := purge_round ov hkeys
    rw [Server.step] at h
    rcases hrun : (purge : Io Core Empty Unit).run s.core with ⟨res, core⟩
    rw [hrun] at h hdone hround
    obtain rfl : res = .ok () := hdone
    obtain ⟨rfl, -⟩ := Prod.mk.inj (Except.ok.inj h)
    exact ⟨hlog.silent fun t conn hconn => ⟨conn, hconn, rfl, rfl⟩, hround⟩

theorem Round.append {ov : Overflow} {core core₁ core₂ : Core} {keys : Keyspace}
    {xs ys : List Exchange} (hxs : Round ov core core₁ keys xs)
    (hys : ∀ mid, Mirrors core₁ mid → Round ov core₁ core₂ mid ys) :
    Round ov core core₂ keys (xs ++ ys) := by
  obtain ⟨mid, hfirst, hmid⟩ := hxs.explained
  obtain ⟨keys', hsecond, hkeys'⟩ := (hys mid hmid).explained
  refine ⟨hxs.went.trans (hys mid hmid).went, hxs.clock.append (hys mid hmid).clock,
    ⟨keys', hfirst.append hsecond, hkeys'⟩, fun P hputs hholds => ?_⟩
  obtain ⟨hputs, hputs'⟩ := List.forall_mem_append.mp hputs
  exact (hys mid hmid).kept P hputs' (hxs.kept P hputs hholds)

/-- **A run of the loop**: all its steps together are one round. -/
theorem run_round (ov : Overflow) (steps : List Step) {s : Server} {log : List Event}
    {keys : Keyspace} (hlog : Accounted s log) (hkeys : Mirrors s.core keys) :
    Accounted (s.after ov steps) (log ++ s.log ov steps) ∧
      Round ov s.core (s.after ov steps).core keys (allExchanges (s.log ov steps)) := by
  induction steps generalizing s log keys with
  | nil =>
    rw [Server.log, List.append_nil]
    exact ⟨hlog, .none ov hkeys⟩
  | cons st steps ih =>
    unfold Server.after Server.log
    rcases hstep : s.step ov st with halt | ⟨s', closed⟩
    · simp only [List.append_nil]
      exact ⟨hlog, .none ov hkeys⟩
    · obtain ⟨hlog', hround⟩ := step_round hstep hlog hkeys
      show Accounted (s'.after ov steps) (log ++ (s.events ov st ++ s'.log ov steps)) ∧ _
      rw [← List.append_assoc, allExchanges_append]
      obtain ⟨mid, -, hmid⟩ := hround.explained
      exact ⟨(ih hlog' hmid).1, hround.append fun mid hmid => (ih hlog' hmid).2⟩

/-- A client's exchanges are among all of them, in the same order. -/
theorem account_sublist (token : Nat) (log : List Event) :
    (account token log).exchanges.Sublist (allExchanges log) := by
  induction log using List.reverseRecOn with
  | nil => exact .slnil
  | append_singleton log event ih =>
    rw [account_append, allExchanges_append]
    show (Account.enter token (account token log) event).exchanges.Sublist _
    have hstays : (account token log).exchanges.Sublist
        (allExchanges log ++ allExchanges [event]) := ih.trans (List.sublist_append_left _ _)
    cases event with
    | opened t =>
      by_cases ht : t = token
      · rw [Account.enter, if_pos ht]
        exact List.nil_sublist _
      · rw [Account.enter, if_neg ht]
        exact hstays
    | received t bytes =>
      by_cases ht : t = token
      · rw [Account.enter, if_pos ht]
        exact hstays
      · rw [Account.enter, if_neg ht]
        exact hstays
    | answered t x =>
      by_cases ht : t = token
      · rw [Account.enter, if_pos ht]
        exact ih.append (.refl [x])
      · rw [Account.enter, if_neg ht]
        exact hstays

theorem after_upToDate (ov : Overflow) (steps : List Step) {s : Server} (h : s.UpToDate) :
    (s.after ov steps).UpToDate := by
  induction steps generalizing s with
  | nil => exact h
  | cons st steps ih =>
    unfold Server.after
    rcases hstep : s.step ov st with halt | ⟨s', closed⟩
    · exact h
    · exact ih (Server.step_spec h hstep).1

/-- The clients of a run see one store that serves one request at a time. -/
structure Linearizable (ov : Overflow) (core : Core) (steps : List Step) : Prop where
  /-- The reference gives all replies, in the order of the log. -/
  explained : let s := (Server.start core).after ov steps
    ∃ keys, Reference.Explains ov (allExchanges ((Server.start core).log ov steps))
        core.store.view keys ∧
      s.core.store.live (s.core.clock 0) = keys.at (s.core.clock 0)
  /-- Time does not go back on the way. -/
  clock : OneClock core.clock (allExchanges ((Server.start core).log ov steps))
    ((Server.start core).after ov steps).core.clock
  /-- The exchanges of a client are its own requests, in the order in which it has sent them. -/
  account : ∀ token, let a := account token ((Server.start core).log ov steps)
    a.exchanges.Sublist (allExchanges ((Server.start core).log ov steps)) ∧
      a.exchanges.map Exchange.request = (frames a.bytes).requests
  /-- What a client has been sent, and is yet to be sent, are its replies. -/
  replied : ∀ token conn, ((Server.start core).after ov steps).conns.lookup token = some conn →
    conn.stream.accepted ++ conn.writeBuf = encodeAll
      ((Rudis.account token ((Server.start core).log ov steps)).exchanges.map Exchange.reply)

/-- A run from the start is one round over the entries that are there. -/
theorem start_round (ov : Overflow) {core : Core} (hmono : Monotone core.clock)
    (steps : List Step) :
    Accounted ((Server.start core).after ov steps) ((Server.start core).log ov steps) ∧
      Round ov core ((Server.start core).after ov steps).core core.store.view
        (allExchanges ((Server.start core).log ov steps)) := by
  obtain ⟨haccounts, hround⟩ := run_round ov steps (accounted_start core)
    (show Mirrors (Server.start core).core core.store.view from ⟨hmono, Agree.refl⟩)
  rw [List.nil_append] at haccounts
  exact ⟨haccounts, hround⟩

/-- The reference map of a round has what is alive behind it. -/
theorem Round.live {ov : Overflow} {core core' : Core} {keys : Keyspace} {xs : List Exchange}
    (h : Round ov core core' keys xs) :
    ∃ keys', Reference.Explains ov xs keys keys' ∧
      core'.store.live (core'.clock 0) = keys'.at (core'.clock 0) := by
  obtain ⟨keys', hexplains, hkeys⟩ := h.explained
  refine ⟨keys', hexplains, ?_⟩
  rw [Keyspace.at_eq]
  exact hkeys.agree

/-- **The server is linearizable**: however the clients' bytes arrive, and whenever connections
come and go, all replies are those of a map that serves one request at a time, client by client in
the order of its requests, and on the wire in that order too. -/
theorem server_linearizable (ov : Overflow) {core : Core} (hmono : Monotone core.clock)
    (steps : List Step) : Linearizable ov core steps := by
  obtain ⟨haccounts, hround⟩ := start_round ov hmono steps
  refine ⟨hround.live, hround.clock, ?_, ?_⟩
  · intro token
    exact ⟨account_sublist token _, haccounts.framed token⟩
  · intro token conn hconn
    have hqueued := (after_upToDate ov steps (Server.start_upToDate core) token conn hconn).queued
    rw [← (haccounts.live token conn hconn).replied]
    exact hqueued

/-- A client's event on which bytes come in, all that is queued being taken by the socket. -/
def Ready.delivering (token : Nat) (bytes : Bytes) : Ready :=
  ⟨token, true, true, [.delivered bytes], [.took 64], .ok ()⟩

/-- Two clients count the same key up, the first one's request cut by the second one's. -/
def twoCounters : List Step :=
  [.listener [.accepted (.ok ()), .accepted (.ok ())],
    .ready (.delivering 16 (ascii "*2\r\n$4\r\nINC")),
    .ready (.delivering 17 (ascii "*2\r\n$4\r\nINCR\r\n$1\r\nn\r\n")),
    .tick,
    .ready (.delivering 16 (ascii "R\r\n$1\r\nn\r\n"))]

theorem twoCounters_linearizable : Linearizable .checked .fresh twoCounters :=
  server_linearizable .checked monotone_const twoCounters

/-- The second client is the first one to be served. -/
example : (allExchanges ((Server.start .fresh).log .checked twoCounters)).map Exchange.reply =
    [.integer 1, .integer 2] := by
  decide +kernel

end RustFundamentals.Rudis
