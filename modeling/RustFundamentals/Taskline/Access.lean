import RustFundamentals.Taskline.Isolation
import RustFundamentals.Foundation.Modify

/-!
# taskline: access

`auth.rs` over the crates behind it. A token is the library's encoding of a user id and a lifetime,
and nobody but the server can make one. Then every caller of a task route has registered, has
logged in with its password since, and is not late (`access_earned`).
-/

namespace RustFundamentals.Taskline

open Foundation

/-! ## `auth.rs` -/

/-- `Claims`. -/
structure Claims where
  sub : Uuid
  exp : Nat
  iat : Nat
  deriving DecidableEq

/-- argon2 and jsonwebtoken: a password is hashed with a salt, and a token decoded at a time. They
fail on a hash that cannot be parsed and on a token that is not signed or has expired. -/
structure Crates where
  hashPassword : Text → Text → Option Text
  verifyPassword : Text → Text → Option Bool
  encode : Claims → Option Text
  decode : Text → Int → Option Claims

/-- `Validation::default`: a token is good for so many seconds after it has expired. -/
def leeway : Nat := 60

/-- What the crates document: a hash is verified by the password it was made of, and a token is
decoded to the claims it was made of, until it expires. -/
structure Crates.Lawful (crates : Crates) : Prop where
  verify_hash : ∀ {password salt hash}, crates.hashPassword password salt = some hash →
    ∀ candidate, crates.verifyPassword candidate hash = some (decide (candidate = password))
  decode_encode : ∀ {claims token}, crates.encode claims = some token →
    ∀ now read, crates.decode token now = some read ↔
      read = claims ∧ now ≤ claims.exp + leeway

/-- `Utc::now().timestamp()`. -/
def seconds (now : Timestamp) : Int := now / 1000000

/-- An `i64` `as usize`. -/
def asUsize (n : Int) : Nat := (n % 2 ^ 64).toNat

/-- `AuthConfig::issue`. -/
def Crates.issue (crates : Crates) (ttlSecs : Int) (user : Uuid) (now : Timestamp) : Option Text :=
  let exp := seconds now + ttlSecs
  crates.encode { sub := user, exp := asUsize exp, iat := asUsize (seconds now) }

/-- `auth.rs` as the handlers use it. -/
def Crates.services (crates : Crates) (ttlSecs : Int) : Services where
  hash := crates.hashPassword
  verify := crates.verifyPassword
  issue := crates.issue ttlSecs
  claims := fun token now => (crates.decode token (seconds now)).map Claims.sub

theorem asUsize_of_range {n : Int} (h : 0 ≤ n) (hlt : n < 2 ^ 63) : (asUsize n : Int) = n := by
  unfold asUsize
  rw [Int.emod_eq_of_lt h (hlt.trans (by decide)), Int.toNat_of_nonneg h]

/-! ## What a run shows -/

/-- The `Authorization` header of a request to a task route. -/
def Request.auth : Request → Option (Option Text)
  | .register _ | .login _ => none
  | .listTasks auth | .createTask auth _ | .getTask auth _ | .updateTask auth _ _
  | .deleteTask auth _ => some auth

/-- The token a request to a task route presents. -/
def Request.bearer (request : Request) : Option Text :=
  request.auth.bind fun header => header.bind (stripPrefix "Bearer ".toList)

section Runs

variable (sv : Services)

/-- The requests of a run, each with its response. -/
def log (db : Db) : List Event → List (Event × Response)
  | [] => []
  | e :: es => (e, (exec sv db e).1) :: log (exec sv db e).2 es

/-- The database after these requests. -/
def after (es : List Event) : Db := runFrom (exec sv) Db.empty es

/-- The response to a request that follows these. -/
def response (past : List Event) (e : Event) : Response := (exec sv (after sv past) e).1

/-- A registration that succeeded: the id, and what was registered. -/
def registration : Event × Response → Option (Uuid × RegisterRequest)
  | (⟨.register (.ok body), _⟩, ⟨201, .user id _⟩) => some (id, body)
  | _ => none

def registrations (es : List Event) : List (Uuid × RegisterRequest) :=
  (log sv Db.empty es).filterMap registration

/-- A login that succeeded gave this token, for these credentials. -/
def GivesToken (past : List Event) (e : Event) (body : LoginRequest) (token : Text) : Prop :=
  e.request = .login (.ok body) ∧ response sv past e = ⟨200, .token token "Bearer".toList⟩

/-- **Nobody forges tokens**: one that the server takes was given to somebody before. -/
def NoForgery (es : List Event) : Prop :=
  ∀ past e rest, es = past ++ e :: rest → ∀ token, e.request.bearer = some token →
    sv.claims token e.fate.now ≠ none →
    ∃ before login between body, past = before ++ login :: between ∧
      GivesToken sv before login body token

end Runs

/-- The times at which tokens expire are representable. -/
def Clocked (ttlSecs : Int) (es : List Event) : Prop :=
  ∀ e ∈ es, 0 ≤ seconds e.fate.now + ttlSecs ∧ seconds e.fate.now + ttlSecs < 2 ^ 63

instance (ttlSecs : Int) (es : List Event) : Decidable (Clocked ttlSecs es) :=
  inferInstanceAs (Decidable (∀ e ∈ es,
    0 ≤ seconds e.fate.now + ttlSecs ∧ seconds e.fate.now + ttlSecs < 2 ^ 63))

/-! ## One request -/

section Steps

variable {sv : Services} {db : Db} {e : Event}

theorem authUser_toOption (sv : Services) (now : Timestamp) (header : Option Text) :
    (authUser sv now header).toOption =
      (header.bind (stripPrefix "Bearer ".toList)).bind fun token => sv.claims token now := by
  unfold authUser
  cases header.bind (stripPrefix "Bearer ".toList) with
  | none => rfl
  | some token =>
    show _ = sv.claims token now
    dsimp only
    cases sv.claims token now with
    | none => rfl
    | some user => rfl

/-- The caller is who the token says. -/
theorem callerOf_eq (sv : Services) (e : Event) :
    callerOf sv e = e.request.bearer.bind fun token => sv.claims token e.fate.now := by
  unfold callerOf Request.bearer
  cases e.request with
  | register body => rfl
  | login body => rfl
  | listTasks | createTask | getTask | updateTask | deleteTask => exact authUser_toOption sv _ _

/-- Without a caller, a task route refuses. -/
theorem exec_refused (hauth : e.request.auth.isSome) (hcaller : callerOf sv e = none) (db : Db) :
    exec sv db e = (AppError.unauthorized.intoResponse, db) := by
  have hrefused : ∀ {auth : Option Text} {handler : Uuid → Response × Db},
      (authUser sv e.fate.now auth).toOption = none →
      authenticated sv e.fate db auth handler = (AppError.unauthorized.intoResponse, db) := by
    intro auth handler hnone
    have herror : authUser sv e.fate.now auth = .error .unauthorized := by
      unfold authUser at hnone ⊢
      split
      · rfl
      · next token htoken =>
        rw [htoken] at hnone
        dsimp only at hnone
        split
        · next user huser =>
          rw [huser] at hnone
          cases hnone
        · rfl
    rw [authenticated, herror]
    rfl
  cases hreq : e.request with
  | register body => rw [hreq] at hauth; cases hauth
  | login body => rw [hreq] at hauth; cases hauth
  | listTasks | createTask | getTask | updateTask | deleteTask =>
    simp only [callerOf, hreq] at hcaller
    simp only [exec, hreq]
    exact hrefused hcaller

/-- Only registrations change the users. -/
theorem users_of_not_register (h : ∀ body, e.request ≠ .register (.ok body)) :
    (exec sv db e).2.users = db.users := by
  cases hcaller : callerOf sv e with
  | some user => exact taskRequest_users hcaller
  | none =>
    cases hreq : e.request with
    | register body =>
      cases body with
      | error rejected => simp only [exec, hreq]; rfl
      | ok body => exact absurd hreq (h body)
    | login body =>
      simp only [exec, hreq]
      cases body with
      | error rejected => rfl
      | ok body => exact congrArg Db.users (query_read e.fate db (.ok (db.userByEmail body.email)))
    | listTasks | createTask | getTask | updateTask | deleteTask =>
      rw [exec_refused (by rw [hreq]; rfl) hcaller]

/-- A row is what was registered. -/
def Records (sv : Services) (u : User) (entry : Uuid × RegisterRequest) : Prop :=
  u.id = entry.1 ∧ u.email = entry.2.email ∧
    ∃ salt, sv.hash entry.2.password salt = some u.passwordHash

/-- No other user has this email, or this id. -/
def Distinct (db : Db) (u : User) : Prop := ∀ v ∈ db.users, v.email ≠ u.email ∧ v.id ≠ u.id

theorem insertUser_cases (db : Db) (fate : Fate) (email passwordHash : Text) :
    db.insertUser fate email passwordHash = (.error (.database true), db) ∨
      Distinct db ⟨fate.freshId, email, passwordHash, fate.now⟩ ∧
        db.insertUser fate email passwordHash =
          (.ok ⟨fate.freshId, email, passwordHash, fate.now⟩,
            { db with users := db.users ++ [⟨fate.freshId, email, passwordHash, fate.now⟩] }) := by
  unfold Db.insertUser
  split
  · exact .inl rfl
  · next hany =>
    refine .inr ⟨?_, rfl⟩
    intro v hv
    have hboth : ¬ (decide (v.email = email) || decide (v.id = fate.freshId)) = true :=
      fun htrue => hany (List.any_eq_true.mpr ⟨v, hv, htrue⟩)
    rw [Bool.or_eq_true, not_or, decide_eq_true_eq, decide_eq_true_eq] at hboth
    exact hboth

theorem intoResponse_status (err : AppError) : 400 ≤ err.intoResponse.status := by
  cases err <;> simp [AppError.intoResponse]

/-- A registration fails and changes nothing, or adds its row. -/
theorem register_cases (sv : Services) (fate : Fate) (body : RegisterRequest) (db : Db) :
    ((respond (register sv fate body db)).1.status ≠ 201 ∧
        (respond (register sv fate body db)).2.users = db.users) ∨
      ∃ u, Distinct db u ∧ Records sv u (u.id, body) ∧
        respond (register sv fate body db) =
          (⟨201, .user u.id u.email⟩, { db with users := db.users ++ [u] }) := by
  have hfailed : ∀ err : AppError, err.intoResponse.status ≠ 201 := by
    intro err heq
    have := intoResponse_status err
    omega
  unfold register
  cases body.validate with
  | error errors => exact .inl ⟨hfailed (.validation errors), rfl⟩
  | ok _ =>
    cases hhash : sv.hash body.password fate.salt with
    | none => exact .inl ⟨hfailed .internal, rfl⟩
    | some passwordHash =>
      dsimp only
      cases hfate : fate.dbError with
      | some failure =>
        rw [query_error hfate]
        exact .inl ⟨hfailed (.ofSqlx failure), rfl⟩
      | none =>
        rw [query_none hfate]
        rcases insertUser_cases db fate body.email passwordHash with h | ⟨hnew, h⟩
        · rw [h]
          exact .inl ⟨hfailed (.ofSqlx (.database true)), rfl⟩
        · rw [h]
          exact .inr ⟨_, hnew, ⟨rfl, rfl, fate.salt, hhash⟩, rfl⟩

theorem registration_eq_some {r : Response} {entry : Uuid × RegisterRequest} :
    registration (e, r) = some entry ↔
      e.request = .register (.ok entry.2) ∧ ∃ email, r = ⟨201, .user entry.1 email⟩ := by
  obtain ⟨request, fate⟩ := e
  obtain ⟨id, body⟩ := entry
  constructor
  · intro h
    unfold registration at h
    split at h
    · next body' _ id' email heq =>
      obtain ⟨rfl, rfl⟩ := Prod.mk.inj (Option.some.inj h)
      obtain ⟨hevent, rfl⟩ := Prod.mk.inj heq
      obtain ⟨rfl, -⟩ := Event.mk.inj hevent
      exact ⟨rfl, email, rfl⟩
    · cases h
  · intro h
    obtain ⟨hreq, email, rfl⟩ := h
    obtain rfl : request = .register (.ok body) := hreq
    rfl

/-- A request adds a user and its registration, or neither. -/
theorem exec_registers (sv : Services) (db : Db) (e : Event) :
    (registration (e, (exec sv db e).1) = none ∧ (exec sv db e).2.users = db.users) ∨
      ∃ u entry, Distinct db u ∧ Records sv u entry ∧
        registration (e, (exec sv db e).1) = some entry ∧
        (exec sv db e).2.users = db.users ++ [u] := by
  by_cases hreg : ∃ body, e.request = .register (.ok body)
  · obtain ⟨body, hreq⟩ := hreg
    have hexec : exec sv db e = respond (register sv e.fate body db) := by
      rw [exec, hreq]
      rfl
    rw [hexec]
    rcases register_cases sv e.fate body db with ⟨hstatus, husers⟩ | ⟨u, hnew, hrow, heq⟩
    · refine .inl ⟨Option.eq_none_iff_forall_not_mem.mpr fun entry hentry => ?_, husers⟩
      obtain ⟨-, email, hresp⟩ := registration_eq_some.mp hentry
      rw [hresp] at hstatus
      exact hstatus rfl
    · rw [heq]
      exact .inr ⟨u, (u.id, body), hnew, hrow, registration_eq_some.mpr ⟨hreq, u.email, rfl⟩, rfl⟩
  · have hnot : ∀ body, e.request ≠ .register (.ok body) := fun body hreq => hreg ⟨body, hreq⟩
    refine .inl ⟨Option.eq_none_iff_forall_not_mem.mpr fun entry hentry => ?_,
      users_of_not_register hnot⟩
    exact hnot entry.2 (registration_eq_some.mp hentry).1

/-- A login that gives a token has found its user, and the password right. -/
theorem login_gives {body : LoginRequest} {fate : Fate} {token : Text}
    (h : (respond (login sv fate body db)).1 = ⟨200, .token token "Bearer".toList⟩) :
    ∃ u ∈ db.users, u.email = body.email ∧ sv.verify body.password u.passwordHash = some true ∧
      sv.issue u.id fate.now = some token := by
  have hfailed : ∀ err : AppError, err.intoResponse ≠ ⟨200, .token token "Bearer".toList⟩ := by
    intro err heq
    have hstatus := intoResponse_status err
    rw [heq] at hstatus
    exact absurd hstatus (show ¬ 400 ≤ 200 by decide)
  unfold login at h
  cases hfate : fate.dbError with
  | some failure =>
    rw [query_error hfate] at h
    exact absurd h (hfailed (.ofSqlx failure))
  | none =>
    rw [query_none hfate] at h
    cases huser : db.userByEmail body.email with
    | none =>
      rw [huser] at h
      exact absurd h (hfailed .unauthorized)
    | some u =>
      rw [huser] at h
      cases hverify : sv.verify body.password u.passwordHash with
      | none =>
        dsimp only [Except.mapError, respond, Except.bind, bind] at h
        rw [hverify] at h
        exact absurd h (hfailed .internal)
      | some right =>
        dsimp only [Except.mapError, respond, Except.bind, bind] at h
        rw [hverify] at h
        cases right with
        | false => exact absurd h (hfailed .unauthorized)
        | true =>
          cases hissue : sv.issue u.id fate.now with
          | none =>
            dsimp only at h
            rw [hissue] at h
            exact absurd h (hfailed .unauthorized)
          | some issued =>
            dsimp only at h
            rw [hissue] at h
            have hbody := congrArg Response.body h
            obtain ⟨rfl, -⟩ := Body.token.inj hbody
            refine ⟨u, List.mem_of_find?_eq_some huser, ?_, hverify, hissue⟩
            simpa using List.find?_some huser

end Steps

/-! ## Runs -/

section Runs

variable {sv : Services}

theorem after_snoc (past : List Event) (e : Event) :
    after sv (past ++ [e]) = (exec sv (after sv past) e).2 := by
  rw [after, runFrom_append]
  rfl

theorem log_append (db : Db) (es es' : List Event) :
    log sv db (es ++ es') = log sv db es ++ log sv (runFrom (exec sv) db es) es' := by
  induction es generalizing db with
  | nil => rfl
  | cons e es ih => rw [List.cons_append, log, log, ih, List.cons_append, runFrom_cons]

theorem registrations_snoc (past : List Event) (e : Event) :
    registrations sv (past ++ [e]) =
      registrations sv past ++ (registration (e, response sv past e)).toList := by
  rw [registrations, log_append, List.filterMap_append, registrations]
  rfl

/-- Earlier registrations are there later. -/
theorem registrations_append (past rest : List Event) :
    registrations sv past ⊆ registrations sv (past ++ rest) := by
  rw [registrations, registrations, log_append, List.filterMap_append]
  exact List.subset_append_left _ _

/-- **The users are the registrations that succeeded**, in their order, with no email and no id
twice. -/
structure Registered (sv : Services) (es : List Event) : Prop where
  rows : List.Forall₂ (Records sv) (after sv es).users (registrations sv es)
  distinct : (after sv es).users.Pairwise fun u v => u.email ≠ v.email ∧ u.id ≠ v.id

theorem registered (sv : Services) (es : List Event) : Registered sv es := by
  induction es using List.reverseRecOn with
  | nil => exact ⟨.nil, .nil⟩
  | append_singleton past e ih =>
    rcases exec_registers sv (after sv past) e with ⟨hnone, husers⟩ | ⟨u, entry, hnew, hrow, hsome,
      husers⟩
    · refine ⟨?_, ?_⟩
      · rw [after_snoc, registrations_snoc, response, husers, hnone]
        show List.Forall₂ _ _ (registrations sv past ++ [])
        rw [List.append_nil]
        exact ih.rows
      · rw [after_snoc, husers]
        exact ih.distinct
    · refine ⟨?_, ?_⟩
      · rw [after_snoc, registrations_snoc, response, husers, hsome]
        exact List.rel_append ih.rows (.cons hrow .nil)
      · rw [after_snoc, husers, List.pairwise_append]
        refine ⟨ih.distinct, List.pairwise_singleton _ _, ?_⟩
        intro v hv w hw
        rw [List.mem_singleton.mp hw]
        exact hnew v hv

/-- A token that a login gave is for the user that was registered with these credentials. -/
theorem gives_registered {crates : Crates} (hlaw : crates.Lawful) {ttlSecs : Int}
    {past : List Event} {e : Event} {body : LoginRequest} {token : Text}
    (h : GivesToken (crates.services ttlSecs) past e body token) :
    ∃ user, (user, body) ∈ registrations (crates.services ttlSecs) past ∧
      crates.issue ttlSecs user e.fate.now = some token := by
  obtain ⟨hreq, hresponse⟩ := h
  have hlogin : (respond (login (crates.services ttlSecs) e.fate body
      (after (crates.services ttlSecs) past))).1 = ⟨200, .token token "Bearer".toList⟩ := by
    rw [response, exec, hreq] at hresponse
    exact hresponse
  obtain ⟨u, hu, hemail, hverify, hissue⟩ := login_gives hlogin
  obtain ⟨entry, hentry, hid, hmail, salt, hhash⟩ :=
    forall₂_mem (registered (crates.services ttlSecs) past).rows hu
  have hright : some (decide (body.password = entry.2.password)) = some true :=
    (hlaw.verify_hash hhash body.password).symm.trans hverify
  have hpassword := of_decide_eq_true (Option.some.inj hright)
  refine ⟨u.id, ?_, hissue⟩
  have heq : (u.id, body) = entry := by
    apply Prod.ext hid
    show body = entry.2
    cases hbody : entry.2 with
    | mk email password =>
      rw [hbody] at hmail hpassword
      cases body with
      | mk email' password' =>
        congr 1
        exact hemail.symm.trans hmail
  rw [heq]
  exact hentry

/-- **A token is good until its time is up**, and for its user only. -/
theorem claims_of_issue {crates : Crates} (hlaw : crates.Lawful) {ttlSecs : Int} {user : Uuid}
    {since : Timestamp} {token : Text} (hissue : crates.issue ttlSecs user since = some token)
    (hclock : 0 ≤ seconds since + ttlSecs ∧ seconds since + ttlSecs < 2 ^ 63) (now : Timestamp) :
    (crates.services ttlSecs).claims token now =
      if seconds now ≤ seconds since + ttlSecs + leeway then some user else none := by
  have hdecode := hlaw.decode_encode hissue (seconds now)
  simp only [asUsize_of_range hclock.1 hclock.2] at hdecode
  show (crates.decode token (seconds now)).map Claims.sub = _
  split
  · next hin =>
    rw [(hdecode _).mpr ⟨rfl, hin⟩]
    rfl
  · next hout =>
    rw [Option.map_eq_none_iff, Option.eq_none_iff_forall_not_mem]
    intro read hread
    exact hout ((hdecode read).mp hread).2

/-- Who may call, and when. -/
structure AccessControlled (crates : Crates) (ttlSecs : Int) (es : List Event) : Prop where
  earned : ∀ past e rest user, es = past ++ e :: rest →
    callerOf (crates.services ttlSecs) e = some user →
    ∃ before login between body token, past = before ++ login :: between ∧
      (user, body) ∈ registrations (crates.services ttlSecs) before ∧
      GivesToken (crates.services ttlSecs) before login body token ∧
      e.request.bearer = some token ∧
      seconds e.fate.now ≤ seconds login.fate.now + ttlSecs + leeway
  granted : ∀ before login between e rest body token,
    es = before ++ login :: (between ++ e :: rest) →
    GivesToken (crates.services ttlSecs) before login body token →
    e.request.bearer = some token →
    ∃ user, (user, body) ∈ registrations (crates.services ttlSecs) before ∧
      callerOf (crates.services ttlSecs) e =
        if seconds e.fate.now ≤ seconds login.fate.now + ttlSecs + leeway then some user else none
  refused : ∀ past e rest, es = past ++ e :: rest → e.request.auth.isSome →
    callerOf (crates.services ttlSecs) e = none →
    exec (crates.services ttlSecs) (after (crates.services ttlSecs) past) e =
      (⟨401, .error "unauthorized".toList⟩, after (crates.services ttlSecs) past)
  once : (registrations (crates.services ttlSecs) es).Pairwise fun a b =>
    a.2.email ≠ b.2.email ∧ a.1 ≠ b.1
  owners : ∀ t ∈ (after (crates.services ttlSecs) es).tasks,
    ∃ body, (t.userId, body) ∈ registrations (crates.services ttlSecs) es

theorem registrations_once (sv : Services) (es : List Event) :
    (registrations sv es).Pairwise fun a b => a.2.email ≠ b.2.email ∧ a.1 ≠ b.1 := by
  apply forall₂_pairwise (registered sv es).rows ?_ (registered sv es).distinct
  intro u v a b hu hv hdistinct
  rw [← hu.1, ← hu.2.1, ← hv.1, ← hv.2.1]
  exact hdistinct

theorem earned {crates : Crates} (hlaw : crates.Lawful) {ttlSecs : Int} {es : List Event}
    (hclock : Clocked ttlSecs es) (hforge : NoForgery (crates.services ttlSecs) es)
    {past rest : List Event} {e : Event} {user : Uuid} (hes : es = past ++ e :: rest)
    (hcaller : callerOf (crates.services ttlSecs) e = some user) :
    ∃ before login between body token, past = before ++ login :: between ∧
      (user, body) ∈ registrations (crates.services ttlSecs) before ∧
      GivesToken (crates.services ttlSecs) before login body token ∧
      e.request.bearer = some token ∧
      seconds e.fate.now ≤ seconds login.fate.now + ttlSecs + leeway := by
  rw [callerOf_eq] at hcaller
  obtain ⟨token, hbearer, hclaims⟩ := Option.bind_eq_some_iff.mp hcaller
  obtain ⟨before, login, between, body, hpast, hgives⟩ :=
    hforge past e rest hes token hbearer (by rw [hclaims]; exact Option.some_ne_none _)
  obtain ⟨user', hreg, hissue⟩ := gives_registered hlaw hgives
  have hlogin : login ∈ es := by
    rw [hes, hpast]
    simp
  rw [claims_of_issue hlaw hissue (hclock login hlogin)] at hclaims
  split at hclaims
  · next hin =>
    obtain rfl := Option.some.inj hclaims
    exact ⟨before, login, between, body, token, hpast, hreg, hgives, hbearer, hin⟩
  · cases hclaims

theorem granted {crates : Crates} (hlaw : crates.Lawful) {ttlSecs : Int} {es : List Event}
    (hclock : Clocked ttlSecs es) {before between rest : List Event} {login e : Event}
    {body : LoginRequest} {token : Text} (hes : es = before ++ login :: (between ++ e :: rest))
    (hgives : GivesToken (crates.services ttlSecs) before login body token)
    (hbearer : e.request.bearer = some token) :
    ∃ user, (user, body) ∈ registrations (crates.services ttlSecs) before ∧
      callerOf (crates.services ttlSecs) e =
        if seconds e.fate.now ≤ seconds login.fate.now + ttlSecs + leeway then some user
        else none := by
  obtain ⟨user, hreg, hissue⟩ := gives_registered hlaw hgives
  have hlogin : login ∈ es := by
    rw [hes]
    simp
  refine ⟨user, hreg, ?_⟩
  rw [callerOf_eq, hbearer]
  exact claims_of_issue hlaw hissue (hclock login hlogin) e.fate.now

/-- A row of a request is a row there was, or the caller's. -/
theorem exec_owner {db : Db} {e : Event} {t : Task} (ht : t ∈ (exec sv db e).2.tasks) :
    (∃ t' ∈ db.tasks, t'.userId = t.userId) ∨ callerOf sv e = some t.userId := by
  suffices hall : ∀ db', TaskWrite sv e db db' → t ∈ db'.tasks →
      (∃ t' ∈ db.tasks, t'.userId = t.userId) ∨ callerOf sv e = some t.userId from
    hall _ (exec_writes sv db e) ht
  intro db' hwrite ht
  cases hwrite with
  | none hsame => exact .inl ⟨t, hsame ▸ ht, rfl⟩
  | created hreq hauth _ _ =>
    rcases List.mem_append.mp ht with ht | ht
    · exact .inl ⟨t, ht, rfl⟩
    · obtain rfl := List.mem_singleton.mp ht
      refine .inr ?_
      rw [callerOf, hreq]
      simp only [hauth, Except.toOption]
  | updated _ _ _ =>
    obtain ⟨t', ht', ⟨-, rfl⟩ | rfl⟩ := mem_updateTask ht
    · exact .inl ⟨t', ht', rfl⟩
    · exact .inl ⟨t, ht', rfl⟩
  | deleted _ _ => exact .inl ⟨t, (List.mem_filter.mp ht).1, rfl⟩

/-- **Access is earned.** Whoever calls a task route has, in this order, registered and logged in
with the email and the password registered, and presents the token of that login within its time.
Such a token names its user until then and nobody afterwards. Everybody else is refused, and changes
nothing; no email is registered twice, and every task belongs to a registration. -/
theorem access_earned {crates : Crates} (hlaw : crates.Lawful) {ttlSecs : Int} {es : List Event}
    (hclock : Clocked ttlSecs es) (hforge : NoForgery (crates.services ttlSecs) es) :
    AccessControlled crates ttlSecs es where
  earned := fun _ _ _ _ hes hcaller => earned hlaw hclock hforge hes hcaller
  granted := fun _ _ _ _ _ _ _ hes hgives hbearer => granted hlaw hclock hes hgives hbearer
  refused := fun _ _ _ _ hauth hcaller => exec_refused hauth hcaller _
  once := registrations_once _ es
  owners := by
    suffices hprefix : ∀ past rest, es = past ++ rest →
        ∀ t ∈ (after (crates.services ttlSecs) past).tasks,
          ∃ body, (t.userId, body) ∈ registrations (crates.services ttlSecs) past from
      hprefix es [] (List.append_nil es).symm
    intro past
    induction past using List.reverseRecOn with
    | nil => exact fun _ _ => List.forall_mem_nil _
    | append_singleton past e ih =>
      intro rest hes t ht
      have hes' : es = past ++ e :: rest := by rw [hes, List.append_assoc]; rfl
      rw [after_snoc] at ht
      rcases exec_owner ht with ⟨t', ht', howner⟩ | hcaller
      · obtain ⟨body, hreg⟩ := ih (e :: rest) hes' t' ht'
        rw [howner] at hreg
        exact ⟨body, registrations_append past [e] hreg⟩
      · obtain ⟨before, login, between, body, token, hpast, hreg, -⟩ :=
          earned hlaw hclock hforge hes' hcaller
        refine ⟨body, registrations_append past [e] ?_⟩
        rw [hpast]
        exact registrations_append before (login :: between) hreg

/-- A run goes on without a forged token. -/
theorem NoForgery.snoc {past : List Event} {e : Event} (h : NoForgery sv past)
    (he : ∀ token, e.request.bearer = some token → sv.claims token e.fate.now ≠ none →
      ∃ before login between body, past = before ++ login :: between ∧
        GivesToken sv before login body token) : NoForgery sv (past ++ [e]) := by
  intro past' e' rest hes
  rcases List.eq_nil_or_concat rest with rfl | ⟨rest', last, rfl⟩
  · obtain ⟨rfl, hlast⟩ := List.append_inj' hes rfl
    obtain rfl := List.singleton_inj.mp hlast
    exact he
  · rw [List.concat_eq_append, ← List.cons_append, ← List.append_assoc] at hes
    obtain ⟨rfl, -⟩ := List.append_inj' hes rfl
    exact h past' e' rest' rfl

end Runs

/-- Crates that hash by doing nothing, and count to encode. -/
def countingCrates : Crates where
  hashPassword := fun password _ => some password
  verifyPassword := fun password hash => some (decide (password = hash))
  encode := fun c =>
    some (List.replicate c.sub 'u' ++ List.replicate c.exp 'e' ++ List.replicate c.iat 'i')
  decode := fun token now =>
    let c : Claims := ⟨token.count 'u', token.count 'e', token.count 'i'⟩
    if now ≤ c.exp + leeway then some c else none

theorem countingCrates_lawful : countingCrates.Lawful where
  verify_hash := by
    intro password salt hash hhash candidate
    obtain rfl := Option.some.inj hhash
    rfl
  decode_encode := by
    intro claims token hencode now read
    obtain rfl := Option.some.inj hencode
    simp only [countingCrates, List.count_append, List.count_replicate]
    simp only [Char.reduceBEq, if_true, if_false, Bool.false_eq_true, Nat.add_zero, Nat.zero_add]
    split
    · next hin => exact ⟨fun h => ⟨(Option.some.inj h).symm, hin⟩, fun h => congrArg some h.1.symm⟩
    · next hout => exact ⟨(fun h => by cases h), fun h => absurd h.2 hout⟩

/-- A user registers, logs in for three seconds, stores a task, and comes back after them and the
leeway. -/
def lateComer : List Event :=
  [⟨.register (.ok ⟨"a@b".toList, "password".toList⟩), calm 1⟩,
    ⟨.login (.ok ⟨"a@b".toList, "password".toList⟩), calm 2⟩,
    ⟨.createTask (some "Bearer ueee".toList) (.ok ⟨"plan".toList⟩), calm 3⟩,
    ⟨.listTasks (some "Bearer ueee".toList), { calm 4 with now := 64000000 }⟩]

theorem lateComer_controlled : AccessControlled countingCrates 3 lateComer := by
  have hgives : GivesToken (countingCrates.services 3)
      [⟨.register (.ok ⟨"a@b".toList, "password".toList⟩), calm 1⟩]
      ⟨.login (.ok ⟨"a@b".toList, "password".toList⟩), calm 2⟩
      ⟨"a@b".toList, "password".toList⟩ "ueee".toList := ⟨rfl, by decide +kernel⟩
  have hnone : NoForgery (countingCrates.services 3) [] := by
    intro past e rest hes
    cases past <;> cases hes
  have hbearer : ∀ token, Request.bearer (.listTasks (some "Bearer ueee".toList)) = some token →
      token = "ueee".toList := by
    intro token htoken
    exact (Option.some.inj htoken).symm
  refine access_earned countingCrates_lawful (by decide) ?_
  refine (((hnone.snoc ?_).snoc ?_).snoc ?_).snoc ?_
  · intro token htoken
    cases htoken
  · intro token htoken
    cases htoken
  · intro token htoken _
    obtain rfl := hbearer token htoken
    exact ⟨_, _, [], _, rfl, hgives⟩
  · intro token htoken _
    obtain rfl := hbearer token htoken
    exact ⟨_, _, [_], _, rfl, hgives⟩

end RustFundamentals.Taskline
