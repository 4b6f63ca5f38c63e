import RustFundamentals.Rudis.Keyspace
import RustFundamentals.Rudis.ReplyStream

/-!
# rudis: requests put to the reference

A request that has been answered, with the readings the clock gave from then on, is an `Exchange`.
`Reference.Gives` says that the reference answers so, and `Reference.Explains` that it answers
request after request so. The store never answers otherwise (`respond_explained`), whatever it has
purged in between.
-/

namespace RustFundamentals.Rudis

open Foundation Foundation.Fs Foundation.Expiry

/-! ## Parsing looks at the clock only -/

/-- How `Command::parse` ends, and the readings that are left, when the clock gives these. -/
def parsedAt (ov : Overflow) (request : Resp) (clock : Nat → Nat) :
    Except (Stop Error) Command × (Nat → Nat) :=
  let out := (Command.parse ov request).run { Core.fresh with clock := clock }
  (out.1, out.2.clock)

/-- The program looks at the clock and at nothing else. -/
def ReadsClock {ε α : Type} (x : Io Core ε α) : Prop :=
  ∀ clock : Nat → Nat, ∃ r n, ∀ core : Core, core.clock = clock →
    x.run core = (r, { core with clock := fun i => clock (i + n) })

namespace ReadsClock

variable {ε α β : Type}

theorem still {x : Io Core ε α} {r : Except (Stop ε) α} (h : ∀ core, x.run core = (r, core)) :
    ReadsClock x := by
  intro clock
  refine ⟨r, 0, fun core hclock => ?_⟩
  rw [h, ← hclock]
  rfl

theorem pure (a : α) : ReadsClock (pure a : Io Core ε α) := still fun _ => rfl

theorem throw (stop : Stop ε) : ReadsClock (throw stop : Io Core ε α) := still fun _ => rfl

theorem ofExcept (v : Except (Stop ε) α) : ReadsClock (ofExcept v : Io Core ε α) := by
  cases v with
  | error stop => exact throw stop
  | ok a => exact pure a

theorem orPanic (v : Option α) : ReadsClock (orPanic v : Io Core ε α) := by
  cases v with
  | none => exact throw .panicked
  | some a => exact pure a

theorem nowMs : ReadsClock (nowMs : Io Core ε Nat) := by
  intro clock
  refine ⟨.ok (clock 0), 1, fun core hclock => ?_⟩
  show (Except.ok (core.clock 0), { core with clock := fun i => core.clock (i + 1) }) = _
  rw [hclock]

theorem bind {x : Io Core ε α} {f : α → Io Core ε β} (hx : ReadsClock x)
    (hf : ∀ a, ReadsClock (f a)) : ReadsClock (x >>= f) := by
  intro clock
  obtain ⟨r, n, hrun⟩ := hx clock
  cases r with
  | error stop =>
    refine ⟨.error stop, n, fun core hclock => ?_⟩
    rw [run_bind, hrun core hclock]
  | ok a =>
    obtain ⟨r', n', hrun'⟩ := hf a fun i => clock (i + n)
    refine ⟨r', n' + n, fun core hclock => ?_⟩
    rw [run_bind, hrun core hclock]
    show (f a).run { core with clock := fun i => clock (i + n) } = _
    rw [hrun' _ rfl]
    simp only [Nat.add_assoc]

theorem ite {c : Prop} [Decidable c] {x y : Io Core ε α} (hx : ReadsClock x)
    (hy : ReadsClock y) : ReadsClock (if c then x else y) := by
  split
  · exact hx
  · exact hy

end ReadsClock

theorem parseSet_readsClock (ov : Overflow) (args : List Bytes) :
    ReadsClock (Command.parseSet ov args) := by
  unfold Command.parseSet
  split
  · exact .pure _
  · refine .bind (.ofExcept _) fun amount => ?_
    refine .ite ?_ (.ite ?_ ?_)
    · exact .bind .nowMs fun now => .bind (.orPanic _) fun deadline => .pure _
    · exact .bind .nowMs fun now => .bind (.orPanic _) fun deadline => .pure _
    · exact .bind (.throw _) fun deadline => .pure _
  · exact .throw _

theorem parseNamed_readsClock (ov : Overflow) (name : Str) (args : List Bytes) :
    ReadsClock (Command.parseNamed ov name args) := by
  unfold Command.parseNamed
  refine .ite (.pure _) (.ite (.ofExcept _) (.ite (.ofExcept _) (.ite (.ofExcept _)
    (.ite (.ofExcept _) (.ite (.ofExcept _) (.ite (.ofExcept _) (.ite ?_ (.ite ?_
      (.ite (.pure _) (.ite (.pure _) (.ite (.pure _) (.throw _))))))))))))
  · split
    · exact .ofExcept _
    · exact .throw _
  · exact parseSet_readsClock ov args

theorem parse_readsClock (ov : Overflow) (request : Resp) :
    ReadsClock (Command.parse ov request) :=
  .bind (.ofExcept _) fun _ => parseNamed_readsClock ov _ _

/-- **Parsing a request** takes readings off the clock, and that is all. -/
theorem parse_run (ov : Overflow) (request : Resp) (core : Core) :
    ∃ n, (Command.parse ov request).run core =
        ((parsedAt ov request core.clock).1, { core with clock := fun i => core.clock (i + n) }) ∧
      (parsedAt ov request core.clock).2 = fun i => core.clock (i + n) := by
  obtain ⟨r, n, hrun⟩ := parse_readsClock ov request core.clock
  refine ⟨n, ?_, ?_⟩
  · rw [parsedAt, hrun { Core.fresh with clock := core.clock } rfl]
    exact hrun core rfl
  · rw [parsedAt, hrun { Core.fresh with clock := core.clock } rfl]

/-! ## Exchanges -/

/-- A request and its reply, with the readings of the clock from then on and those that are left
behind it. -/
structure Exchange where
  request : Resp
  clock : Nat → Nat
  reply : Resp
  rest : Nat → Nat

namespace Reference

theorem errorText_valid (e : Error) : validUtf8 (ascii "ERR " ++ e.display.bytes) = true :=
  validUtf8_append (by decide) e.display.valid

/-- What a reply says of an error. -/
def errorText (e : Error) : Str := ⟨ascii "ERR " ++ e.display.bytes, errorText_valid e⟩

/-- The reference gives this reply, and is left with these keys. What `SAVE` replies is up to the
files. -/
def Gives (ov : Overflow) (x : Exchange) (keys keys' : Keyspace) : Prop :=
  match parsedAt ov x.request x.clock with
  | (.ok c, clock) =>
    if h : c = .save then
      (x.reply = Command.okReply ∨ ∃ text, x.reply = .error text) ∧ keys' = keys
    else (Reference.execute ov c h).run ⟨keys, clock⟩ = (.ok x.reply, ⟨keys', x.rest⟩)
  | (.error (.err e), _) => x.reply = .error (errorText e) ∧ keys' = keys
  | (.error _, _) => False

/-- The reference gives these replies, one after the other. -/
def Explains (ov : Overflow) : List Exchange → Keyspace → Keyspace → Prop
  | [], keys, keys' => keys' = keys
  | x :: xs, keys, keys' => ∃ mid, Gives ov x keys mid ∧ Explains ov xs mid keys'

theorem Explains.append {ov : Overflow} {xs ys : List Exchange} {keys mid keys' : Keyspace}
    (hxs : Explains ov xs keys mid) (hys : Explains ov ys mid keys') :
    Explains ov (xs ++ ys) keys keys' := by
  induction xs generalizing keys with
  | nil =>
    obtain rfl := hxs
    exact hys
  | cons x xs ih =>
    obtain ⟨first, hx, hrest⟩ := hxs
    exact ⟨first, hx, ih hrest⟩

end Reference

/-- Requests put to the store one after the other, up to one that a command does not survive. -/
def exchanges (ov : Overflow) : List Resp → Core → List Exchange
  | [], _ => []
  | request :: requests, core =>
    match (respond ov request).run core with
    | (.ok reply, core') =>
      ⟨request, core.clock, reply, core'.clock⟩ :: exchanges ov requests core'
    | (.error _, _) => []

/-- The readings `later` are what is left of `clock` at some time. -/
def Later (clock later : Nat → Nat) : Prop := ∃ n, later = fun i => clock (i + n)

namespace Later

theorem refl (clock : Nat → Nat) : Later clock clock := ⟨0, rfl⟩

theorem trans {c d e : Nat → Nat} (h : Later c d) (h' : Later d e) : Later c e := by
  obtain ⟨n, rfl⟩ := h
  obtain ⟨m, rfl⟩ := h'
  refine ⟨m + n, ?_⟩
  simp only [Nat.add_assoc]

theorem mono {c d : Nat → Nat} (h : Later c d) (hmono : Monotone c) : Monotone d := by
  obtain ⟨n, rfl⟩ := h
  exact fun i j hij => hmono (by omega)

/-- The clock does not go back. -/
theorem le {c d : Nat → Nat} (h : Later c d) (hmono : Monotone c) : c 0 ≤ d 0 := by
  obtain ⟨n, rfl⟩ := h
  exact hmono (Nat.zero_le _)

end Later

/-- One clock gives the readings of the exchanges, one exchange after the other. -/
def OneClock : (Nat → Nat) → List Exchange → (Nat → Nat) → Prop
  | clock, [], later => Later clock later
  | clock, x :: xs, later =>
    Later clock x.clock ∧ Later x.clock x.rest ∧ OneClock x.rest xs later

theorem OneClock.append {xs ys : List Exchange} {c d e : Nat → Nat} (hxs : OneClock c xs d)
    (hys : OneClock d ys e) : OneClock c (xs ++ ys) e := by
  induction xs generalizing c with
  | nil =>
    cases ys with
    | nil => exact hxs.trans hys
    | cons y ys => exact ⟨hxs.trans hys.1, hys.2⟩
  | cons x xs ih => exact ⟨hxs.1, hxs.2.1, ih hxs.2.2⟩

/-! ## What a request moves -/

/-- The clock has gone on, and the snapshot is still kept in the same file. No other file has
changed. -/
structure Went (core core' : Core) : Prop where
  clock : Later core.clock core'.clock
  path : core'.store.snapshotPath = core.store.snapshotPath
  files : ∀ path, core.store.snapshotPath ≠ some path → core'.files path = core.files path

namespace Went

theorem refl (core : Core) : Went core core := ⟨.refl _, rfl, fun _ _ => rfl⟩

theorem trans {core core₁ core₂ : Core} (h : Went core core₁) (h' : Went core₁ core₂) :
    Went core core₂ := by
  refine ⟨h.clock.trans h'.clock, h'.path.trans h.path, fun path hne => ?_⟩
  rw [h'.files path (h.path ▸ hne), h.files path hne]

/-- A step that moves the clock and the store only. -/
theorem stored {core core' : Core} (h : Went core core') {n : Nat} {s : Store}
    (hs : s.snapshotPath = core'.store.snapshotPath) :
    Went core { core' with clock := fun i => core'.clock (i + n), store := s } :=
  h.trans ⟨⟨n, rfl⟩, hs, fun _ _ => rfl⟩

end Went

/-- What an operation on a key leaves: the store as it was, the key taken out, or an entry in `P`
put under it. -/
inductive Store.Edited (key : Bytes) (P : Entry → Prop) (s : Store) : Store → Prop
  | same : Edited key P s s
  | erased : Edited key P s { s with map := s.map.erase key }
  | written (e : Entry) (he : P e) : Edited key P s { s with map := s.map.insert key e }

namespace Store

variable {key : Bytes} {P Q : Entry → Prop} {s s' : Store} {now : Nat}

theorem Edited.snapshotPath (h : Edited key P s s') : s'.snapshotPath = s.snapshotPath := by
  cases h <;> rfl

theorem Edited.mono (h : Edited key P s s') (hPQ : ∀ e, P e → Q e) : Edited key Q s s' := by
  cases h with
  | same => exact .same
  | erased => exact .erased
  | written e he => exact .written e (hPQ e he)

/-- Of the entries behind an operation, those that were not there before are in `P`. -/
theorem Edited.lookup (h : Edited key P s s') {k : Bytes} {e : Entry}
    (he : s'.map.lookup k = some e) : s.map.lookup k = some e ∨ (k = key ∧ P e) := by
  cases h with
  | same => exact .inl he
  | erased =>
    by_cases hk : k = key
    · subst hk
      rw [AList.lookup_erase] at he
      cases he
    · rw [AList.lookup_erase_ne hk] at he
      exact .inl he
  | written e' he' =>
    by_cases hk : k = key
    · subst hk
      rw [AList.lookup_insert] at he
      exact .inr ⟨rfl, Option.some.inj he ▸ he'⟩
    · rw [AList.lookup_insert_ne hk] at he
      exact .inl he

theorem get_edited (key : Bytes) (now : Nat) (s : Store) :
    Edited key (fun _ => False) s (s.get key now).2 := by
  unfold get
  split
  · split
    · exact .erased
    · exact .same
  · exact .same

theorem incr_edited {ov : Overflow} {r : Except Unit Int} (h : s.incr ov key now = some (r, s')) :
    Edited key (fun e => (∃ next, IsI64 next ∧ e.value = decimalInt next) ∧
      ∀ t, e.expiresAt = some t → ∃ old, s.map.lookup key = some old ∧ old.expiresAt = some t)
      s s' := by
  unfold incr at h
  simp only at h
  split at h
  · obtain ⟨-, rfl⟩ := Prod.mk.inj (Option.some.inj h)
    exact .same
  · rename_i current _
    obtain ⟨next, hfit, hset⟩ := Option.bind_eq_some_iff.mp h
    obtain ⟨-, rfl⟩ := Prod.mk.inj (Option.some.inj hset)
    refine .written _ ⟨⟨next, Overflow.isI64_fitInt hfit, rfl⟩, fun t ht => ?_⟩
    obtain ⟨old, hold, hdeadline⟩ := Option.bind_eq_some_iff.mp ht
    exact ⟨old, (Option.filter_eq_some_iff.mp hold).1, hdeadline⟩

theorem expire_edited {ov : Overflow} {seconds : Nat} {hit : Bool}
    (h : s.expire ov key seconds now = some (hit, s')) :
    Edited key (fun e => (∃ old, s.map.lookup key = some old ∧ e.value = old.value) ∧
      ∀ t, e.expiresAt = some t → t < 2 ^ 64) s s' := by
  unfold expire at h
  split at h
  · rename_i old hold
    split at h
    · obtain ⟨-, rfl⟩ := Prod.mk.inj (Option.some.inj h)
      exact .same
    · obtain ⟨deadline, hdeadline, hset⟩ := Option.bind_eq_some_iff.mp h
      obtain ⟨-, rfl⟩ := Prod.mk.inj (Option.some.inj hset)
      refine .written _ ⟨⟨old, hold, rfl⟩, fun t ht => ?_⟩
      obtain rfl := Option.some.inj ht
      obtain ⟨millis, -, hfit⟩ := Option.bind_eq_some_iff.mp hdeadline
      exact Overflow.fit_lt hfit
  · obtain ⟨-, rfl⟩ := Prod.mk.inj (Option.some.inj h)
    exact .same

theorem ttl_edited {ov : Overflow} {left : Int} (h : s.ttl ov key now = some (left, s')) :
    Edited key (fun _ => False) s s' := by
  have hsame : ∀ {i : Int}, some (i, s) = some (left, s') → Edited key (fun _ => False) s s' := by
    intro i hrun
    obtain ⟨-, rfl⟩ := Prod.mk.inj (Option.some.inj hrun)
    exact .same
  unfold ttl at h
  split at h
  · split at h
    · exact hsame h
    split at h
    · obtain ⟨d, -, hd⟩ := Option.map_eq_some_iff.mp h
      exact hsame (congrArg some hd)
    · exact hsame h
  · exact hsame h

end Store

/-- The keys a command names. -/
def Command.keys : Command → List Bytes
  | .get key | .set key _ _ | .incr key | .expire key _ | .ttl key => [key]
  | .del keys | .exists keys => keys
  | .ping _ | .echo _ | .dbSize | .save | .command => []

/-- The entries a command may put under a key, over what the store has there. -/
def Command.Writes (s : Store) (key : Bytes) : Command → Entry → Prop
  | .set _ value expireAt, e => e = ⟨value, expireAt⟩
  | .incr _, e => (∃ next, IsI64 next ∧ e.value = decimalInt next) ∧
      ∀ t, e.expiresAt = some t → ∃ old, s.map.lookup key = some old ∧ old.expiresAt = some t
  | .expire _ _, e => (∃ old, s.map.lookup key = some old ∧ e.value = old.value) ∧
      ∀ t, e.expiresAt = some t → t < 2 ^ 64
  | _, _ => False

section Steps

variable {I : Core → Prop}

theorem keeps_timed_step {ε α : Type} {E : ε → Prop} {op : Nat → Store → Option (α × Store)}
    (hclock : ∀ core, I core → I { core with clock := fun i => core.clock (i + 1) })
    (h : ∀ core a s', I core → op (core.clock 0) core.store = some (a, s') →
      I { core with clock := fun i => core.clock (i + 1), store := s' }) :
    Keeps I (timed op) (fun _ => True) E := by
  intro core hcore
  rw [Post, timed_run]
  cases hop : op (core.clock 0) core.store with
  | none => exact ⟨hclock core hcore, trivial⟩
  | some x => exact ⟨h core x.1 x.2 hcore hop, trivial⟩

theorem keeps_countKeys_step {op : Bytes → Nat → Store → Bool × Store} (keys : List Bytes)
    (hclock : ∀ core, I core → I { core with clock := fun i => core.clock (i + 1) })
    (h : ∀ key ∈ keys, ∀ core, I core → I { core with
      clock := fun i => core.clock (i + 1), store := (op key (core.clock 0) core.store).2 }) :
    Keeps I (Command.countKeys op keys) (fun _ => True) fun _ => True := by
  induction keys with
  | nil => exact Keeps.pure trivial
  | cons key keys ih =>
    refine Keeps.bind (keeps_timed_step hclock ?_) fun hit _ => ?_
    · intro core a s' hcore hop
      obtain ⟨-, rfl⟩ := Prod.mk.inj (Option.some.inj hop)
      exact h key (by simp) core hcore
    · exact Keeps.bind (ih fun k hk => h k (List.mem_cons_of_mem _ hk)) fun rest _ =>
        Keeps.pure trivial

/-- **What a command may do to the store**: it edits the keys it names, one after the other. -/
theorem keeps_execute_step (ov : Overflow) {c : Command} (hc : c ≠ .save)
    (hclock : ∀ core, I core → I { core with clock := fun i => core.clock (i + 1) })
    (h : ∀ core n, ∀ key ∈ c.keys, ∀ s', I core →
      core.store.Edited key (c.Writes core.store key) s' →
        I { core with clock := fun i => core.clock (i + n), store := s' }) :
    Keeps I (c.execute ov) (fun _ => True) fun _ => True := by
  cases c with
  | ping message => cases message <;> exact Keeps.pure trivial
  | echo message => exact Keeps.pure trivial
  | get key =>
    refine Keeps.bind (P := fun _ => True) (keeps_timed_step hclock ?_) fun value _ => ?_
    · intro core a s' hcore hop
      obtain ⟨-, rfl⟩ := Prod.mk.inj (Option.some.inj hop)
      exact h core 1 key (by simp [Command.keys]) _ hcore
        (Store.get_edited key (core.clock 0) core.store)
    · cases value <;> exact Keeps.pure trivial
  | set key value expireAt =>
    intro core hcore
    exact ⟨h core 0 key (by simp [Command.keys]) _ hcore (.written ⟨value, expireAt⟩ rfl), trivial⟩
  | del keys =>
    refine Keeps.bind (P := fun _ => True) (keeps_countKeys_step keys hclock ?_)
      fun removed _ => Keeps.pure trivial
    exact fun key hkey core hcore => h core 1 key hkey _ hcore .erased
  | «exists» keys =>
    refine Keeps.bind (P := fun _ => True) (keeps_countKeys_step keys hclock ?_)
      fun present _ => Keeps.pure trivial
    exact fun key hkey core hcore => h core 1 key hkey _ hcore
      (Store.get_edited key (core.clock 0) core.store)
  | incr key =>
    refine Keeps.bind (P := fun _ => True) (keeps_timed_step hclock ?_) fun next _ => ?_
    · exact fun core a s' hcore hop => h core 1 key (by simp [Command.keys]) s' hcore
        (Store.incr_edited hop)
    · cases next <;> exact Keeps.pure trivial
  | expire key seconds =>
    refine Keeps.bind (P := fun _ => True) (keeps_timed_step hclock ?_)
      fun hit _ => Keeps.pure trivial
    exact fun core a s' hcore hop => h core 1 key (by simp [Command.keys]) s' hcore
      (Store.expire_edited hop)
  | ttl key =>
    refine Keeps.bind (P := fun _ => True) (keeps_timed_step hclock ?_)
      fun left _ => Keeps.pure trivial
    exact fun core a s' hcore hop => h core 1 key (by simp [Command.keys]) s' hcore
      (Store.ttl_edited hop)
  | dbSize =>
    refine Keeps.bind (P := fun _ => True) (keeps_timed_step hclock ?_)
      fun size _ => Keeps.pure trivial
    intro core a s' hcore hop
    obtain ⟨-, rfl⟩ := Prod.mk.inj (Option.some.inj hop)
    exact hclock core hcore
  | save => exact absurd rfl hc
  | command => exact Keeps.pure trivial

end Steps

/-- One call on the file that holds the snapshot. -/
theorem keeps_fileCall_went {core : Core} {path : Path}
    (hpath : core.store.snapshotPath = some path) (onDone : Option Bytes → Option Bytes)
    (onFailed : Nat → Option Bytes → Option Bytes) :
    Keeps (Went core) (fileCall path onDone onFailed) (fun _ => True) fun _ => True := by
  intro core' hwent
  have hleft : ∀ file, Went core { core' with
      fileCalls := fun i => core'.fileCalls (i + 1)
      files := Function.update core'.files path file } := by
    intro file
    refine hwent.trans ⟨.refl _, rfl, fun other hne => ?_⟩
    rw [hwent.path, hpath] at hne
    exact Function.update_of_ne (fun heq => hne (congrArg some heq.symm)) _ _
  unfold fileCall
  rw [Post_bind, Post_get]
  simp only
  split
  · exact ⟨hleft _, trivial⟩
  · exact ⟨hleft _, trivial⟩

/-- A snapshot changes its own file and takes a reading. -/
theorem keeps_save_went {core : Core} {path : Path}
    (hpath : core.store.snapshotPath = some path) :
    Keeps (Went core) (Persistence.save path) (fun _ => True) fun _ => True := by
  refine Keeps.bind (P := fun _ => True) (fun core' hwent => ⟨hwent.stored (n := 1) rfl, trivial⟩)
    fun now _ => ?_
  refine Keeps.bind (P := fun _ => True) (fun core' hwent => ⟨hwent, trivial⟩) fun core' _ => ?_
  refine Keeps.bind (keeps_fileCall_went hpath _ _) fun _ _ => ?_
  refine Keeps.bind (keeps_fileCall_went hpath _ _) fun _ _ => ?_
  exact keeps_fileCall_went hpath _ _

theorem keeps_execute_went (ov : Overflow) (c : Command) (core : Core) :
    Keeps (Went core) (c.execute ov) (fun _ => True) fun _ => True := by
  by_cases hc : c = .save
  · subst hc
    refine Keeps.bind (P := fun core' => Went core core') (fun core' hwent => ⟨hwent, hwent⟩)
      fun core' hwent => ?_
    cases hpath : core'.store.snapshotPath with
    | none => exact Keeps.pure trivial
    | some path =>
      rw [hwent.path] at hpath
      refine Keeps.bind (Keeps.attempt (keeps_save_went hpath)) fun r _ => ?_
      cases r <;> exact Keeps.pure trivial
  · refine keeps_execute_step ov hc (fun core' h => h.stored rfl) ?_
    exact fun core' n key _ s' h hedited => h.stored hedited.snapshotPath

/-! ## One request -/

/-- Nothing that a file call does is seen in the store. -/
theorem keeps_fileCall_store {s : Store} (path : Path) (onDone : Option Bytes → Option Bytes)
    (onFailed : Nat → Option Bytes → Option Bytes) :
    Keeps (fun core => core.store = s) (fileCall path onDone onFailed) (fun _ => True)
      fun _ => True := by
  intro core hcore
  unfold fileCall
  rw [Post_bind, Post_get]
  simp only
  split
  · exact ⟨hcore, trivial⟩
  · exact ⟨hcore, trivial⟩

/-- What `SAVE` replies, and that the store stays as it is. -/
theorem keeps_save_store (ov : Overflow) {s : Store} :
    Keeps (fun core => core.store = s) (Command.execute ov .save)
      (fun reply => reply = Command.okReply ∨ ∃ text, reply = .error text) fun _ => True := by
  refine Keeps.bind (P := fun _ => True) (fun core hcore => ⟨hcore, trivial⟩) fun core _ => ?_
  cases core.store.snapshotPath with
  | none => exact Keeps.pure (.inr ⟨_, rfl⟩)
  | some path =>
    have hsave : Keeps (fun core => core.store = s) (Persistence.save path) (fun _ => True)
        fun _ => True := by
      refine Keeps.bind (P := fun _ => True) (fun core hcore => ⟨hcore, trivial⟩) fun now _ => ?_
      refine Keeps.bind (P := fun _ => True) (fun core hcore => ⟨hcore, trivial⟩) fun core _ => ?_
      refine Keeps.bind (keeps_fileCall_store path _ _) fun _ _ => ?_
      refine Keeps.bind (keeps_fileCall_store path _ _) fun _ _ => ?_
      exact keeps_fileCall_store path _ _
    refine Keeps.bind (Keeps.attempt hsave) fun r _ => ?_
    cases r with
    | ok _ => exact Keeps.pure (.inl rfl)
    | error e => exact Keeps.pure (.inr ⟨_, rfl⟩)

/-- A reply is made in two stages: what the request parses to, and what the command does. -/
theorem respond_ok {ov : Overflow} {request reply : Resp} {core core' : Core}
    (h : (respond ov request).run core = (.ok reply, core')) :
    ∃ n, (parsedAt ov request core.clock).2 = (fun i => core.clock (i + n)) ∧
      ((∃ c, (parsedAt ov request core.clock).1 = .ok c ∧
          (c.execute ov).run { core with clock := fun i => core.clock (i + n) } =
            (.ok reply, core')) ∨
        ∃ e, (parsedAt ov request core.clock).1 = .error (.err e) ∧
          reply = .error (Str.lit "ERR " ++ e.display) ∧
            core' = { core with clock := fun i => core.clock (i + n) }) := by
  obtain ⟨n, hparse, hclock⟩ := parse_run ov request core
  refine ⟨n, hclock, ?_⟩
  unfold respond at h
  rw [run_bind, run_attempt, hparse] at h
  rcases hparsed : (parsedAt ov request core.clock).1 with (e | _ | _) | c
  · rw [hparsed] at h
    obtain ⟨hreply, hcore⟩ := Prod.mk.inj h
    exact .inr ⟨e, rfl, (Except.ok.inj hreply).symm, hcore.symm⟩
  · rw [hparsed] at h
    cases h
  · rw [hparsed] at h
    cases h
  · rw [hparsed] at h
    exact .inl ⟨c, rfl, h⟩

/-- The store shows the same keys as the reference, and time goes forward. -/
structure Mirrors (core : Core) (keys : Keyspace) : Prop where
  mono : Monotone core.clock
  agree : Agree Entry.isExpired (core.clock 0) core.store.view keys

/-- Time passes, and nothing else happens. -/
theorem Mirrors.later {core core' : Core} {keys : Keyspace} (h : Mirrors core keys)
    (hclock : Later core.clock core'.clock) (hstore : core'.store = core.store) :
    Mirrors core' keys := by
  refine ⟨hclock.mono h.mono, ?_⟩
  rw [hstore]
  exact h.agree.mono isExpired_lasting (hclock.le h.mono)

/-- **The reference gives every reply the store gives**, and goes on showing the same keys. -/
theorem respond_gives {ov : Overflow} {request reply : Resp} {core core' : Core} {keys : Keyspace}
    (hkeys : Mirrors core keys) (h : (respond ov request).run core = (.ok reply, core')) :
    Went core core' ∧
      ∃ keys', Reference.Gives ov ⟨request, core.clock, reply, core'.clock⟩ keys keys' ∧
        Mirrors core' keys' := by
  obtain ⟨n, hclock, ⟨c, hparsed, hrun⟩ | ⟨e, hparsed, rfl, rfl⟩⟩ := respond_ok h
  · have hstart : Went core { core with clock := fun i => core.clock (i + n) } :=
      (Went.refl core).stored rfl
    have hwent : Went core core' := by
      have hpost := keeps_execute_went ov c core _ hstart
      unfold Post at hpost
      rw [hrun] at hpost
      exact hpost.1
    refine ⟨hwent, ?_⟩
    have hboth : parsedAt ov request core.clock = (.ok c, fun i => core.clock (i + n)) :=
      Prod.ext hparsed hclock
    simp only [Reference.Gives, hboth]
    by_cases hc : c = .save
    · subst hc
      have hpost := keeps_save_store ov (s := core.store) _
        (show ({ core with clock := fun i => core.clock (i + n) } : Core).store = core.store
          from rfl)
      unfold Post at hpost
      rw [hrun] at hpost
      obtain ⟨hstore, hreply⟩ := hpost
      exact ⟨keys, by rw [dif_pos rfl]; exact ⟨hreply, rfl⟩, hkeys.later hwent.clock hstore⟩
    · have hlater : Mirrors { core with clock := fun i => core.clock (i + n) } keys :=
        hkeys.later ⟨n, rfl⟩ rfl
      have hrel : Related Set.univ { core with clock := fun i => core.clock (i + n) }
          ⟨keys, fun i => core.clock (i + n)⟩ :=
        ⟨rfl, hlater.mono, fun _ => trivial, hlater.agree⟩
      obtain ⟨hres, hafter⟩ := execute_sim ov c hc _ _ hrel
      rw [hrun] at hres hafter
      rcases href : (Reference.execute ov c hc).run ⟨keys, fun i => core.clock (i + n)⟩
        with ⟨r, ⟨keys', clock'⟩⟩
      rw [href] at hres hafter
      obtain rfl : .ok reply = r := hres
      obtain rfl : clock' = core'.clock := hafter.clock
      refine ⟨keys', ?_, hafter.mono, hafter.agree⟩
      rw [dif_neg hc]
      exact href
  · have hboth : parsedAt ov request core.clock =
        (.error (.err e), fun i => core.clock (i + n)) := Prod.ext hparsed hclock
    refine ⟨(Went.refl core).stored rfl, keys, ?_, hkeys.later ⟨n, rfl⟩ rfl⟩
    simp only [Reference.Gives, hboth]
    exact ⟨rfl, trivial⟩

/-! ## Request after request -/

/-- **Every reply to requests put one after the other is the reference's.** -/
theorem exchanges_explained {ov : Overflow} {requests replies : List Resp} {core core' : Core}
    {keys : Keyspace} (hkeys : Mirrors core keys)
    (h : (respondAll ov requests).run core = (.ok replies, core')) :
    Went core core' ∧
      (exchanges ov requests core).map Exchange.request = requests ∧
      (exchanges ov requests core).map Exchange.reply = replies ∧
      OneClock core.clock (exchanges ov requests core) core'.clock ∧
      ∃ keys', Reference.Explains ov (exchanges ov requests core) keys keys' ∧
        Mirrors core' keys' := by
  induction requests generalizing core keys replies with
  | nil =>
    obtain ⟨rfl, rfl⟩ := respondAll_nil_ok h
    exact ⟨.refl _, rfl, rfl, .refl _, keys, rfl, hkeys⟩
  | cons request requests ih =>
    obtain ⟨reply, rest, core₁, hfirst, hrest, rfl⟩ := respondAll_cons_ok h
    obtain ⟨hwent, mid, hgives, hmid⟩ := respond_gives hkeys hfirst
    obtain ⟨hwent', hrequests, hreplies, hclock, keys', hexplains, hkeys'⟩ := ih hmid hrest
    have hcons : exchanges ov (request :: requests) core =
        ⟨request, core.clock, reply, core₁.clock⟩ :: exchanges ov requests core₁ := by
      rw [exchanges, hfirst]
    rw [hcons]
    refine ⟨hwent.trans hwent', ?_, ?_, ?_, keys', ⟨mid, hgives, hexplains⟩, hkeys'⟩
    · rw [List.map_cons, hrequests]
    · rw [List.map_cons, hreplies]
    · exact ⟨.refl _, hwent.clock, hclock⟩

/-! ## What a store may come to hold -/

/-- Every entry of the store is in `P`. -/
def Store.Holds (P : Bytes → Entry → Prop) (s : Store) : Prop :=
  ∀ key e, s.map.lookup key = some e → P key e

/-- What the request puts into a store with entries in `P` is in `P`. -/
def Exchange.Puts (ov : Overflow) (P : Bytes → Entry → Prop) (x : Exchange) : Prop :=
  ∀ c, (parsedAt ov x.request x.clock).1 = .ok c → ∀ s : Store, s.Holds P → ∀ key ∈ c.keys, ∀ e,
    c.Writes s key e → P key e

variable {ov : Overflow} {P : Bytes → Entry → Prop} {core core' : Core}

theorem respond_holds {request reply : Resp} {rest : Nat → Nat}
    (h : (respond ov request).run core = (.ok reply, core'))
    (hputs : Exchange.Puts ov P ⟨request, core.clock, reply, rest⟩) (hholds : core.store.Holds P) :
    core'.store.Holds P := by
  obtain ⟨n, -, ⟨c, hparsed, hrun⟩ | ⟨e, -, -, rfl⟩⟩ := respond_ok h
  · by_cases hc : c = .save
    · subst hc
      have hpost := keeps_save_store ov (s := core.store) _
        (show ({ core with clock := fun i => core.clock (i + n) } : Core).store = core.store
          from rfl)
      unfold Post at hpost
      rw [hrun] at hpost
      rw [hpost.1]
      exact hholds
    · have hkeeps : Keeps (fun core => core.store.Holds P) (c.execute ov) (fun _ => True)
          fun _ => True := by
        refine keeps_execute_step ov hc (fun _ h => h) ?_
        intro core' _ key hkey s' hcore hedited k e he
        rcases hedited.lookup he with hold | ⟨rfl, hwrites⟩
        · exact hcore k e hold
        · exact hputs c hparsed core'.store hcore _ hkey e hwrites
      have hpost := hkeeps { core with clock := fun i => core.clock (i + n) } hholds
      unfold Post at hpost
      rw [hrun] at hpost
      exact hpost.1
  · exact hholds

theorem exchanges_holds {requests replies : List Resp}
    (h : (respondAll ov requests).run core = (.ok replies, core'))
    (hputs : ∀ x ∈ exchanges ov requests core, x.Puts ov P) (hholds : core.store.Holds P) :
    core'.store.Holds P := by
  induction requests generalizing core replies with
  | nil =>
    obtain ⟨-, rfl⟩ := respondAll_nil_ok h
    exact hholds
  | cons request requests ih =>
    obtain ⟨reply, rest, core₁, hfirst, hrest, rfl⟩ := respondAll_cons_ok h
    rw [exchanges, hfirst] at hputs
    obtain ⟨hputs₁, hputs⟩ := List.forall_mem_cons.mp hputs
    exact ih hrest hputs (respond_holds hfirst hputs₁ hholds)

theorem purge_holds (now : Nat) {s : Store} (h : s.Holds P) : (s.purgeExpired now).Holds P := by
  intro key e he
  have hlookup : (s.map.retain fun _ e => !e.isExpired now).lookup key = some e := he
  rw [HashMap.lookup_retain, Option.filter_eq_some_iff] at hlookup
  exact h key e hlookup.1

end RustFundamentals.Rudis
