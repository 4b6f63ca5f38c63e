import RustFundamentals.Rudis.CommandSpec
import RustFundamentals.Rudis.Keyspace

/-!
# rudis: deadlines

`SET` with `EX` or `PX` and `EXPIRE` add an amount of the client's to the clock, in `u64` and
unchecked. The deadline is exact where the sum fits (`deadline_exact_iff`); elsewhere the process
is gone, or the sum wraps around.
-/

namespace RustFundamentals.Rudis

open Foundation Foundation.Fs

/-! ## Sums -/

theorem Store.deadlineAfter_of_lt (ov : Overflow) {now amount unit : Nat}
    (h : now + amount * unit < 2 ^ 64) :
    deadlineAfter ov now amount unit = some (now + amount * unit) := by
  have hmillis : amount * unit < 2 ^ 64 := by omega
  simp only [deadlineAfter, ov.fit_of_lt hmillis, Option.bind_eq_bind, Option.bind_some,
    ov.fit_of_lt h]

/-- An amount of milliseconds needs no product. -/
theorem Store.deadlineAfter_one (ov : Overflow) (now : Nat) {amount : Nat} (h : amount < 2 ^ 64) :
    deadlineAfter ov now amount 1 = ov.fit 64 (now + amount) := by
  simp only [deadlineAfter, Nat.mul_one, ov.fit_of_lt h, Option.bind_eq_bind, Option.bind_some]

/-! ## Requests that ask for a deadline -/

/-- The word that a name or a unit comes to. -/
def Spells (bs : Bytes) (word : String) : Prop :=
  (Str.fromUtf8Lossy bs).toAsciiUppercase.bytes = ascii word

/-- An argument as a `u64`. -/
def amountOf (arg : Bytes) : Option Nat :=
  (Str.fromUtf8 arg).bind fun text => parseUnsigned 64 text.bytes

/-- The request of these words. -/
def request (words : List Bytes) : Resp := .array (words.map Resp.bulk)

/-- At `now` the request asks that `key` hold a value for `ahead` milliseconds more: the value that
`SET` brings, or the one that `EXPIRE` finds, if it finds one. -/
inductive Asks (s : Store) (now : Nat) : Resp → Bytes → Option Bytes → Nat → Prop
  | setSeconds (name key value unit arg : Bytes) (n : Nat) (hname : Spells name "SET")
      (hunit : Spells unit "EX") (hn : amountOf arg = some n) :
    Asks s now (request [name, key, value, unit, arg]) key (some value) (n * 1000)
  | setMillis (name key value unit arg : Bytes) (n : Nat) (hname : Spells name "SET")
      (hunit : Spells unit "PX") (hn : amountOf arg = some n) :
    Asks s now (request [name, key, value, unit, arg]) key (some value) n
  | expire (name key arg : Bytes) (n : Nat) (hname : Spells name "EXPIRE")
      (hn : amountOf arg = some n) :
    Asks s now (request [name, key, arg]) key ((s.live now key).map Entry.value) (n * 1000)

theorem Spells.eq {bs : Bytes} {word : String} (h : Spells bs word)
    (hword : validUtf8 (ascii word) = true) :
    (Str.fromUtf8Lossy bs).toAsciiUppercase = Str.lit word hword := by
  cases hs : (Str.fromUtf8Lossy bs).toAsciiUppercase with
  | mk bytes valid =>
    have hbytes : bytes = ascii word := by
      rw [Spells, hs] at h
      exact h
    subst hbytes
    rfl

theorem amount_of_some {arg : Bytes} {n : Nat} (h : amountOf arg = some n) (complaint : Str) :
    Command.amount arg complaint = .ok n := by
  rw [amountOf] at h
  rw [Command.amount, h]

theorem amountOf_lt {arg : Bytes} {n : Nat} (h : amountOf arg = some n) : n < 2 ^ 64 := by
  obtain ⟨text, -, htext⟩ := Option.bind_eq_some_iff.mp h
  exact parseUnsigned_lt htext

/-! ## What they parse as -/

/-- A `SET` whose deadline is a function of the clock. -/
def setAt (deadline : Nat → Option Nat) (key value : Bytes) : Io Core Error Command := do
  let t ← orPanic (deadline (← nowMs))
  return .set key value (some t)

theorem parse_request (ov : Overflow) (name : Bytes) (args : List Bytes) :
    Command.parse ov (request (name :: args)) =
      Command.parseNamed ov (Str.fromUtf8Lossy name).toAsciiUppercase args := by
  have hargs : argsOf (request (name :: args)) = .ok (name, args) := argsOf_of_isCommand rfl
  rw [Command.parse, hargs]
  rfl

theorem parse_setSeconds (ov : Overflow) {name unit arg : Bytes} (key value : Bytes) {n : Nat}
    (hname : Spells name "SET") (hunit : Spells unit "EX") (hn : amountOf arg = some n) :
    Command.parse ov (request [name, key, value, unit, arg]) =
      setAt (fun now => Store.deadlineAfter ov now n 1000) key value := by
  have hset : (Str.fromUtf8Lossy name).toAsciiUppercase = Str.lit "SET" := hname.eq _
  have hex : (Str.fromUtf8Lossy unit).toAsciiUppercase = Str.lit "EX" := hunit.eq _
  rw [parse_request, hset]
  show Command.parseSet ov [key, value, unit, arg] = _
  simp only [Command.parseSet, amount_of_some hn, hex, if_true]
  exact ofExcept_ok_bind n fun amount =>
    setAt (fun now => Store.deadlineAfter ov now amount 1000) key value

theorem parse_setMillis (ov : Overflow) {name unit arg : Bytes} (key value : Bytes) {n : Nat}
    (hname : Spells name "SET") (hunit : Spells unit "PX") (hn : amountOf arg = some n) :
    Command.parse ov (request [name, key, value, unit, arg]) =
      setAt (fun now => Store.deadlineAfter ov now n 1) key value := by
  have hset : (Str.fromUtf8Lossy name).toAsciiUppercase = Str.lit "SET" := hname.eq _
  have hpx : (Str.fromUtf8Lossy unit).toAsciiUppercase = Str.lit "PX" := hunit.eq _
  have hne : Str.lit "PX" ≠ Str.lit "EX" := by decide
  rw [parse_request, hset]
  show Command.parseSet ov [key, value, unit, arg] = _
  simp only [Command.parseSet, amount_of_some hn, hpx, hne, if_true, if_false,
    Store.deadlineAfter_one ov _ (amountOf_lt hn)]
  rfl

theorem parse_expire (ov : Overflow) {name arg : Bytes} (key : Bytes) {n : Nat}
    (hname : Spells name "EXPIRE") (hn : amountOf arg = some n) :
    Command.parse ov (request [name, key, arg]) = pure (.expire key n) := by
  have hexpire : (Str.fromUtf8Lossy name).toAsciiUppercase = Str.lit "EXPIRE" := hname.eq _
  rw [parse_request, hexpire]
  show ofExcept (Command.expire key <$> Command.amount arg _) = _
  rw [amount_of_some hn]
  rfl

theorem parse_ttl (ov : Overflow) {name : Bytes} (key : Bytes) (hname : Spells name "TTL") :
    Command.parse ov (request [name, key]) = pure (.ttl key) := by
  have httl : (Str.fromUtf8Lossy name).toAsciiUppercase = Str.lit "TTL" := hname.eq _
  rw [parse_request, httl]
  rfl

/-! ## What they do -/

/-- The clock has given a reading. -/
def Core.tick (core : Core) : Core := { core with clock := fun i => core.clock (i + 1) }

/-- A request that is a command is answered by running it. -/
theorem respond_of_parse {ov : Overflow} {r : Resp} {c : Command} (h : Command.parse ov r = pure c)
    (core : Core) : (respond ov r).run core = (c.execute ov).run core := by
  rw [respond, h]
  rfl

section SetAt

variable {ov : Overflow} {r : Resp} {deadline : Nat → Option Nat} {key value : Bytes} {core : Core}

theorem setAt_run_some {t : Nat} (ht : deadline (core.clock 0) = some t) :
    (setAt deadline key value).run core = (.ok (.set key value (some t)), core.tick) := by
  show (orPanic (deadline (core.clock 0)) >>= _).run core.tick = _
  rw [ht]
  rfl

theorem setAt_run_none (ht : deadline (core.clock 0) = none) :
    (setAt deadline key value).run core = (.error .panicked, core.tick) := by
  show (orPanic (deadline (core.clock 0)) >>= _).run core.tick = _
  rw [ht]
  rfl

theorem respond_setAt_some (h : Command.parse ov r = setAt deadline key value) {t : Nat}
    (ht : deadline (core.clock 0) = some t) :
    (respond ov r).run core =
      (.ok Command.okReply, { core.tick with store := core.store.set key value (some t) }) := by
  rw [respond, h, run_bind, run_attempt, setAt_run_some ht]
  rfl

theorem respond_setAt_none (h : Command.parse ov r = setAt deadline key value)
    (ht : deadline (core.clock 0) = none) :
    (respond ov r).run core = (.error .panicked, core.tick) := by
  rw [respond, h, run_bind, run_attempt, setAt_run_none ht]
  rfl

end SetAt

section Expire

variable {ov : Overflow} {r : Resp} {key : Bytes} {n : Nat} {core : Core}

/-- A key that is not there, or no longer: no sum is made. -/
theorem respond_expire_absent (h : Command.parse ov r = pure (.expire key n))
    (hkey : core.store.live (core.clock 0) key = none) :
    (respond ov r).run core = (.ok (.integer 0), core.tick) := by
  have hrun : Store.expire ov key n (core.clock 0) core.store = some (false, core.store) := by
    have hdead := Store.live_eq_none.mp hkey
    unfold Store.expire
    cases he : core.store.map.lookup key with
    | none => rfl
    | some e => simp only [hdead e he, if_true]
  rw [respond_of_parse h, Command.execute, run_bind, timed_run, hrun]
  rfl

variable {e : Entry} (hkey : core.store.live (core.clock 0) key = some e)
include hkey

theorem respond_expire_some (h : Command.parse ov r = pure (.expire key n)) {t : Nat}
    (ht : Store.deadlineAfter ov (core.clock 0) n 1000 = some t) :
    (respond ov r).run core = (.ok (.integer 1), { core.tick with
      store := { core.store with
        map := core.store.map.insert key { e with expiresAt := some t } } }) := by
  obtain ⟨he, halive⟩ := Store.live_eq_some.mp hkey
  have hrun : Store.expire ov key n (core.clock 0) core.store = some (true,
      { core.store with map := core.store.map.insert key { e with expiresAt := some t } }) := by
    simp only [Store.expire, he, halive, Bool.false_eq_true, if_false, ht, Option.bind_eq_bind,
      Option.bind_some]
    rfl
  rw [respond_of_parse h, Command.execute, run_bind, timed_run, hrun]
  rfl

theorem respond_expire_none (h : Command.parse ov r = pure (.expire key n))
    (ht : Store.deadlineAfter ov (core.clock 0) n 1000 = none) :
    (respond ov r).run core = (.error .panicked, core.tick) := by
  obtain ⟨he, halive⟩ := Store.live_eq_some.mp hkey
  have hrun : Store.expire ov key n (core.clock 0) core.store = none := by
    simp only [Store.expire, he, halive, Bool.false_eq_true, if_false, ht, Option.bind_eq_bind,
      Option.bind_none]
  rw [respond_of_parse h, Command.execute, run_bind, timed_run, hrun]
  rfl

end Expire

/-! ## Exact or refused -/

/-- What a request that asks for a deadline should come to: the deadline is the sum, or, where that
is no `u64`, the reply is an error and nothing has changed. A request that finds no value to keep
asks for none. -/
structure ExactOrRefused (ov : Overflow) (core : Core) (r : Resp) (key : Bytes)
    (value : Option Bytes) (ahead : Nat) : Prop where
  exact : ∀ v, value = some v → core.clock 0 + ahead < 2 ^ 64 →
    ∃ reply core', (respond ov r).run core = (.ok reply, core') ∧ (∀ text, reply ≠ .error text) ∧
      core'.store.view =
        Function.update core.store.view key (some ⟨v, some (core.clock 0 + ahead)⟩)
  refused : ∀ v, value = some v → 2 ^ 64 ≤ core.clock 0 + ahead →
    ∃ text core', (respond ov r).run core = (.ok (.error text), core') ∧ core'.store = core.store
  absent : value = none →
    ∃ reply core', (respond ov r).run core = (.ok reply, core') ∧ core'.store = core.store

/-- The request asks for a deadline that is no `u64`: it is not refused, whatever the build. -/
theorem Asks.not_refused {ov : Overflow} {core : Core} {r : Resp} {key v : Bytes} {ahead : Nat}
    (h : Asks core.store (core.clock 0) r key (some v) ahead) (text : Str) (core' : Core) :
    (respond ov r).run core ≠ (.ok (.error text), core') := by
  have hset : ∀ {deadline : Nat → Option Nat} {value : Bytes},
      Command.parse ov r = setAt deadline key value →
        (respond ov r).run core ≠ (.ok (.error text), core') := by
    intro deadline value hparse hrun
    cases ht : deadline (core.clock 0) with
    | none =>
      rw [respond_setAt_none hparse ht] at hrun
      cases hrun
    | some t =>
      rw [respond_setAt_some hparse ht] at hrun
      cases hrun
  generalize hvalue : some v = value at h
  cases h with
  | setSeconds name _ value unit arg n hname hunit hn =>
    exact hset (parse_setSeconds ov key value hname hunit hn)
  | setMillis name _ value unit arg n hname hunit hn =>
    exact hset (parse_setMillis ov key value hname hunit hn)
  | expire name _ arg n hname hn =>
    obtain ⟨e, hkey, -⟩ := Option.map_eq_some_iff.mp hvalue.symm
    have hparse := parse_expire ov key hname hn
    intro hrun
    cases ht : Store.deadlineAfter ov (core.clock 0) n 1000 with
    | none =>
      rw [respond_expire_none hkey hparse ht] at hrun
      cases hrun
    | some t =>
      rw [respond_expire_some hkey hparse ht] at hrun
      cases hrun

/-- A deadline that is a `u64` is set. -/
theorem Asks.run_exact {ov : Overflow} {core : Core} {r : Resp} {key v : Bytes} {ahead : Nat}
    (h : Asks core.store (core.clock 0) r key (some v) ahead)
    (hfit : core.clock 0 + ahead < 2 ^ 64) :
    ∃ reply core', (respond ov r).run core = (.ok reply, core') ∧ (∀ text, reply ≠ .error text) ∧
      core'.store.view =
        Function.update core.store.view key (some ⟨v, some (core.clock 0 + ahead)⟩) := by
  have hset : ∀ {n unit : Nat} {value : Bytes}, core.clock 0 + n * unit < 2 ^ 64 →
      Command.parse ov r = setAt (fun now => Store.deadlineAfter ov now n unit) key value →
        ∃ reply core', (respond ov r).run core = (.ok reply, core') ∧
          (∀ text, reply ≠ .error text) ∧
          core'.store.view =
            Function.update core.store.view key (some ⟨value, some (core.clock 0 + n * unit)⟩) := by
    intro n unit value hfit hparse
    refine ⟨_, _, respond_setAt_some hparse (Store.deadlineAfter_of_lt ov hfit), ?_, ?_⟩
    · intro text
      exact Resp.noConfusion
    · exact Store.view_set _ _ _ _
  generalize hvalue : some v = value at h
  cases h with
  | setSeconds name _ value unit arg n hname hunit hn =>
    obtain rfl := Option.some.inj hvalue
    exact hset hfit (parse_setSeconds ov key v hname hunit hn)
  | setMillis name _ value unit arg _ hname hunit hn =>
    obtain rfl := Option.some.inj hvalue
    rw [← Nat.mul_one ahead] at hfit ⊢
    exact hset hfit (parse_setMillis ov key v hname hunit hn)
  | expire name _ arg n hname hn =>
    obtain ⟨e, hkey, rfl⟩ := Option.map_eq_some_iff.mp hvalue.symm
    refine ⟨_, _, respond_expire_some hkey (parse_expire ov key hname hn)
      (Store.deadlineAfter_of_lt ov hfit), ?_, ?_⟩
    · intro text
      exact Resp.noConfusion
    · exact HashMap.lookup_insert _ _ _

/-- Nothing is done for a key that is not there. -/
theorem Asks.run_absent {ov : Overflow} {core : Core} {r : Resp} {key : Bytes} {ahead : Nat}
    (h : Asks core.store (core.clock 0) r key none ahead) :
    ∃ reply core', (respond ov r).run core = (.ok reply, core') ∧ core'.store = core.store := by
  generalize hvalue : (none : Option Bytes) = value at h
  cases h with
  | setSeconds => cases hvalue
  | setMillis => cases hvalue
  | expire name _ arg n hname hn =>
    have hkey := Option.map_eq_none_iff.mp hvalue.symm
    refine ⟨.integer 0, core.tick, ?_, rfl⟩
    exact respond_expire_absent (parse_expire ov key hname hn) hkey

/-- The reply to `TTL` for a key that lives and has a deadline is the whole seconds that are left;
the deadline is ahead. -/
def TtlExact (ov : Overflow) (core : Core) : Prop :=
  ∀ name key e deadline, Spells name "TTL" → core.store.live (core.clock 0) key = some e →
    e.expiresAt = some deadline → deadline < 2 ^ 64 →
    core.clock 0 < deadline ∧
      (respond ov (request [name, key])).run core =
        (.ok (.integer ((deadline - core.clock 0) / 1000 : Nat)), core.tick)

theorem ttl_exact (ov : Overflow) (core : Core) : TtlExact ov core := by
  intro name key e deadline hname hkey hdeadline hlt
  obtain ⟨he, halive⟩ := Store.live_eq_some.mp hkey
  have hahead : core.clock 0 < deadline := Entry.deadline_ahead halive hdeadline
  have hcast := castI64_of_lt (show (deadline - core.clock 0) / 1000 < 2 ^ 63 by omega)
  have hrun : Store.ttl ov key (core.clock 0) core.store =
      some ((((deadline - core.clock 0) / 1000 : Nat) : Int), core.store) := by
    simp only [Store.ttl, he, halive, Bool.false_eq_true, if_false, hdeadline,
      ov.sub_of_le 64 hahead.le, Option.map_some, hcast]
  refine ⟨hahead, ?_⟩
  rw [respond_of_parse (parse_ttl ov key hname), Command.execute, run_bind, timed_run, hrun]
  rfl

/-- **Deadlines are exact or refused** exactly where the sum is a `u64`, or none is made: what does
not fit is never refused. The reply to `TTL` is exact in every state. -/
theorem deadline_exact_iff (ov : Overflow) (core : Core) {r : Resp} {key : Bytes}
    {value : Option Bytes} {ahead : Nat}
    (h : Asks core.store (core.clock 0) r key value ahead) :
    (ExactOrRefused ov core r key value ahead ∧ ∀ later, TtlExact ov later) ↔
      value = none ∨ core.clock 0 + ahead < 2 ^ 64 := by
  constructor
  · intro hexact
    cases value with
    | none => exact .inl rfl
    | some v =>
      by_contra hfit
      rw [not_or, not_lt] at hfit
      obtain ⟨text, core', hrun, -⟩ := hexact.1.refused v rfl hfit.2
      exact h.not_refused text core' hrun
  · intro hcond
    refine ⟨⟨?_, ?_, ?_⟩, ttl_exact ov⟩
    · intro v hv hfit
      subst hv
      exact h.run_exact hfit
    · intro v hv hbig
      subst hv
      rcases hcond with hnone | hfit
      · cases hnone
      · exact absurd hfit (not_lt.mpr hbig)
    · intro hnone
      subst hnone
      exact h.run_absent

/-- A new store, in November 2023. -/
def novemberCore : Core := { Core.fresh with clock := fun _ => 1700000000000 }

/-- `SET k v EX` with an amount of seconds. -/
def setSeconds (arg : Bytes) : Resp := request [ascii "SET", [107], [118], ascii "EX", arg]

theorem minute_exact :
    ExactOrRefused .checked novemberCore (setSeconds (ascii "60")) [107] (some [118]) (60 * 1000) ∧
      ∀ later, TtlExact .checked later := by
  have hasks : Asks novemberCore.store (novemberCore.clock 0) (setSeconds (ascii "60")) [107]
      (some [118]) (60 * 1000) := .setSeconds _ _ _ _ _ 60 rfl rfl rfl
  exact (deadline_exact_iff .checked novemberCore hasks).mpr (.inr (by decide))

/-- The greatest amount there is. -/
def greatestAmount : Bytes := ascii "18446744073709551615"

/-- The greatest amount is accepted. A checked build panics; in a release build the reply is `OK`
and the deadline has been a second ago. -/
theorem greatestAmount_not_refused :
    Asks novemberCore.store (novemberCore.clock 0) (setSeconds greatestAmount) [107] (some [118])
        (18446744073709551615 * 1000) ∧
      ((respond .checked (setSeconds greatestAmount)).run novemberCore).1 = .error .panicked ∧
      ((respond .wrapping (setSeconds greatestAmount)).run novemberCore).2.store =
        novemberCore.store.set [107] [118] (some 1699999999000) ∧
      (¬ ExactOrRefused .checked novemberCore (setSeconds greatestAmount) [107] (some [118])
        (18446744073709551615 * 1000)) ∧
      ¬ ExactOrRefused .wrapping novemberCore (setSeconds greatestAmount) [107] (some [118])
        (18446744073709551615 * 1000) := by
  have hasks : Asks novemberCore.store (novemberCore.clock 0) (setSeconds greatestAmount) [107]
      (some [118]) (18446744073709551615 * 1000) :=
    .setSeconds _ _ _ _ _ 18446744073709551615 rfl rfl rfl
  have hrefused : ∀ ov, ¬ ExactOrRefused ov novemberCore (setSeconds greatestAmount) [107]
      (some [118]) (18446744073709551615 * 1000) := by
    intro ov h
    obtain ⟨text, core', hrun, -⟩ := h.refused _ rfl (by decide)
    exact hasks.not_refused text core' hrun
  have hparse : ∀ ov, Command.parse ov (setSeconds greatestAmount) =
      setAt (fun now => Store.deadlineAfter ov now 18446744073709551615 1000) [107] [118] :=
    fun ov => parse_setSeconds ov _ _ rfl rfl rfl
  refine ⟨hasks, ?_, ?_, hrefused .checked, hrefused .wrapping⟩
  · rw [respond_setAt_none (hparse .checked) (by decide)]
  · have hwrapped : Store.deadlineAfter .wrapping (novemberCore.clock 0) 18446744073709551615 1000 =
        some 1699999999000 := by decide
    rw [respond_setAt_some (hparse .wrapping) hwrapped]

end RustFundamentals.Rudis
