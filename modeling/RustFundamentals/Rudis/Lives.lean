import RustFundamentals.Rudis.Linearizable
import RustFundamentals.Rudis.Reload

/-!
# rudis: from one process to the next

`bin/rudis.rs` around the event loop: the snapshot is loaded, the loop runs, and a signal has the
snapshot saved again. Over a sequence of processes that are all ended by a signal the clients see
one store that never goes away (`restarts_invisible`).
-/

namespace RustFundamentals.Rudis

open Foundation Foundation.Fs Foundation.Expiry Persistence

/-! ## A process -/

/-- `run` of the binary, up to the loop: `bound` is how parsing `BIND_ADDR` and binding to it end.
The line that is logged for a loaded snapshot counts the keys, which takes a reading. -/
def boot (path : Option Path) (bound : Except (Stop Error) Unit) : Io Core Error Unit := do
  modify fun core => { core with store := Store.new path }
  match path with
  | some path =>
    if ((← getThe Core).files path).isSome then do
      load path
      let _ ← nowMs
  | none => pure ()
  ofExcept bound

/-- The end of `server::run` behind the loop: an error of the snapshot is logged only. -/
def shutdown : Io Core Empty Unit := do
  match (← getThe Core).store.snapshotPath with
  | some path => do
    let _ ← attempt (save path)
    return
  | none => pure ()

/-- What a process meets with: the readings of its clock, how its file calls and binding its
address end, and the steps of its loop. -/
structure Life where
  clock : Nat → Nat
  fileCalls : Nat → FileCall
  bound : Except (Stop Error) Unit
  steps : List Step

deriving instance DecidableEq for Halt

/-- Why the loop ends, if it does. -/
def Server.halt (ov : Overflow) : List Step → Server → Option Halt
  | [], _ => none
  | st :: steps, s =>
    match s.step ov st with
    | .ok (s', _) => halt ov steps s'
    | .error halt => some halt

namespace Life

variable (ov : Overflow) (path : Path) (files : Path → Option Bytes) (l : Life)

/-- How booting ends, and the state it leaves. -/
def booted : Except (Stop Error) Unit × Core :=
  (boot (some path) l.bound).run ⟨Store.new none, l.clock, l.fileCalls, files⟩

/-- The log of the loop. -/
def log : List Event := (Server.start (l.booted path files).2).log ov l.steps

/-- The server when the loop ends. -/
def served : Server := (Server.start (l.booted path files).2).after ov l.steps

/-- The state the process leaves, when a signal ends the loop. -/
def ended : Core := ((shutdown : Io Core Empty Unit).run (l.served ov path files).core).2

/-- The process boots, is ended by a signal, and saves its snapshot, which still fits in memory. -/
structure Clean : Prop where
  boots : (l.booted path files).1 = .ok ()
  signalled : (Server.start (l.booted path files).2).halt ov l.steps = some .shutdown
  saves : ((save path).run (l.served ov path files).core).1 = .ok ()
  fits : ∀ bytes, (l.ended ov path files).files path = some bytes → bytes.length ≤ isizeMax

end Life

/-- All exchanges of the processes. -/
def lifelong (ov : Overflow) (path : Path) : List Life → (Path → Option Bytes) → List Exchange
  | [], _ => []
  | l :: ls, files =>
    allExchanges (l.log ov path files) ++ lifelong ov path ls (l.ended ov path files).files

/-- The arguments of the request fit the length fields of a snapshot. -/
def Short (request : Resp) : Prop :=
  ∀ name args, IsCommand request name args → ∀ arg ∈ args, arg.length < 2 ^ 32

/-- One process after the other, each with the files the one before it has left, and all ended by a
signal. The clock does not go back, not between processes either. -/
def CleanLives (ov : Overflow) (path : Path) : Nat → (Path → Option Bytes) → List Life → Prop
  | _, _, [] => True
  | now, files, l :: ls =>
    l.Clean ov path files ∧ Monotone l.clock ∧ now ≤ l.clock 0 ∧
      (∀ x ∈ allExchanges (l.log ov path files), Short x.request) ∧
      CleanLives ov path ((l.ended ov path files).clock 0) (l.ended ov path files).files ls

/-! ## What is stored can be saved -/

/-- What the command of a request may put into the store comes from its arguments. -/
def DrawnFrom (args : List Bytes) (c : Command) : Prop :=
  (∀ key ∈ c.keys, key ∈ args) ∧
    ∀ key value expireAt, c = .set key value expireAt →
      value ∈ args ∧ ∀ t, expireAt = some t → t < 2 ^ 64

section Parse

variable {args : List Bytes} {ov : Overflow}

theorem keeps_ofExcept {v : Except (Stop Error) Command} (h : ∀ c, v = .ok c → DrawnFrom args c) :
    Keeps (fun _ : Core => True) (ofExcept v) (DrawnFrom args) fun _ => True := by
  intro core _
  rw [Post_ofExcept]
  refine ⟨trivial, ?_⟩
  rcases v with (e | _ | _) | c
  · trivial
  · trivial
  · trivial
  · exact h c rfl

theorem keeps_refused (e : Error) :
    Keeps (fun _ : Core => True) (throw (.err e)) (DrawnFrom args) fun _ => True :=
  fun _ _ => ⟨trivial, trivial⟩

/-- A command that is not `SET` stores nothing but what its keys say. -/
theorem drawn_keys {c : Command} (hkeys : ∀ key ∈ c.keys, key ∈ args)
    (hset : ∀ key value expireAt, c ≠ .set key value expireAt) : DrawnFrom args c :=
  ⟨hkeys, fun key value expireAt h => absurd h (hset key value expireAt)⟩

theorem drawn_of_oneArg {complaint : Str} {f : Bytes → Command} {c : Command}
    (hkeys : ∀ arg, ∀ key ∈ (f arg).keys, key = arg)
    (hset : ∀ arg key value expireAt, f arg ≠ .set key value expireAt)
    (h : f <$> Command.oneArg args complaint = .ok c) : DrawnFrom args c := by
  match args with
  | [arg] =>
    obtain rfl := Except.ok.inj h
    exact drawn_keys (fun key hkey => by simp [hkeys arg key hkey]) (hset arg)
  | [] => cases h
  | _ :: _ :: _ => cases h

theorem drawn_of_someKeys {complaint : Str} {f : List Bytes → Command} {c : Command}
    (hkeys : ∀ names, (f names).keys = names)
    (hset : ∀ names key value expireAt, f names ≠ .set key value expireAt)
    (h : f <$> Command.someKeys args complaint = .ok c) : DrawnFrom args c := by
  cases args with
  | nil => cases h
  | cons name names =>
    obtain rfl := Except.ok.inj h
    exact drawn_keys (fun key hkey => by rwa [hkeys] at hkey) (hset _)

theorem keeps_parseSet :
    Keeps (fun _ : Core => True) (Command.parseSet ov args) (DrawnFrom args) fun _ => True := by
  unfold Command.parseSet
  split
  · next key value =>
    refine Keeps.pure ⟨by simp [Command.keys], ?_⟩
    rintro key' value' expireAt h
    obtain ⟨rfl, rfl, rfl⟩ := Command.set.inj h
    refine ⟨by simp, ?_⟩
    intro t ht
    cases ht
  · next key value unit arg =>
    have hput : ∀ t, t < 2 ^ 64 → Keeps (fun _ : Core => True)
        (pure (.set key value (some t)) : Io Core Error Command) (DrawnFrom [key, value, unit, arg])
          fun _ => True := by
      intro t ht
      refine Keeps.pure ⟨by simp [Command.keys], ?_⟩
      rintro key' value' expireAt h
      obtain ⟨rfl, rfl, rfl⟩ := Command.set.inj h
      exact ⟨by simp, fun t' ht' => Option.some.inj ht' ▸ ht⟩
    have hdeadline : ∀ deadline : Nat → Option Nat, (∀ now t, deadline now = some t → t < 2 ^ 64) →
        Keeps (fun _ : Core => True)
          (nowMs >>= fun now => orPanic (deadline now) >>= fun t =>
            pure (.set key value (some t)) : Io Core Error Command)
          (DrawnFrom [key, value, unit, arg]) fun _ => True := by
      intro deadline hfits
      refine Keeps.bind (P := fun _ => True) (fun _ _ => ⟨trivial, trivial⟩) fun now _ => ?_
      cases hd : deadline now with
      | none => exact fun _ _ => ⟨trivial, trivial⟩
      | some t => exact hput t (hfits now t hd)
    refine Keeps.bind (P := fun _ => True) ?_ fun amount _ => ?_
    · intro core _
      rw [Post_ofExcept]
      refine ⟨trivial, ?_⟩
      cases Command.amount arg (Str.lit "invalid SET expiry amount") with
      | error stop => cases stop <;> trivial
      | ok _ => trivial
    intro core _
    apply Post_ite
    · intro _
      refine hdeadline _ (fun now t ht => ?_) core trivial
      obtain ⟨millis, -, hfit⟩ := Option.bind_eq_some_iff.mp ht
      exact Overflow.fit_lt hfit
    intro _
    apply Post_ite
    · intro _
      exact hdeadline _ (fun now t ht => Overflow.fit_lt ht) core trivial
    · intro _
      exact ⟨trivial, trivial⟩
  · exact keeps_refused _

theorem keeps_parseNamed (name : Str) :
    Keeps (fun _ : Core => True) (Command.parseNamed ov name args) (DrawnFrom args)
      fun _ => True := by
  have hplain : ∀ c : Command, c.keys = [] → (∀ key value t, c ≠ .set key value t) →
      Keeps (fun _ : Core => True) (pure c : Io Core Error Command) (DrawnFrom args)
        fun _ => True := by
    intro c hkeys hset
    exact Keeps.pure (drawn_keys (by simp [hkeys]) hset)
  have hone : ∀ (f : Bytes → Command) (complaint : Str), (∀ arg, ∀ key ∈ (f arg).keys, key = arg) →
      (∀ arg key value t, f arg ≠ .set key value t) → Keeps (fun _ : Core => True)
        (ofExcept (f <$> Command.oneArg args complaint)) (DrawnFrom args) fun _ => True :=
    fun f complaint hkeys hset => keeps_ofExcept fun c h => drawn_of_oneArg hkeys hset h
  intro core _
  unfold Command.parseNamed
  -- PING
  apply Post_ite
  · exact fun _ => hplain _ rfl (by simp) core trivial
  intro _
  -- ECHO, GET, INCR, TTL
  iterate 4
    apply Post_ite
    · exact fun _ => hone _ _ (by simp [Command.keys]) (by simp) core trivial
    intro _
  -- DEL, EXISTS
  iterate 2
    apply Post_ite
    · exact fun _ => keeps_ofExcept (fun c h => drawn_of_someKeys (fun _ => rfl) (by simp) h)
        core trivial
    intro _
  -- EXPIRE
  apply Post_ite
  · intro _
    rcases args with _ | ⟨key, _ | ⟨seconds, _ | ⟨extra, args⟩⟩⟩
    · exact keeps_refused _ core trivial
    · exact keeps_refused _ core trivial
    · refine keeps_ofExcept (fun c h => ?_) core trivial
      unfold Command.amount at h
      split at h
      · obtain rfl := Except.ok.inj h
        exact drawn_keys (by simp [Command.keys]) (by simp)
      · cases h
    · exact keeps_refused _ core trivial
  intro _
  -- SET
  apply Post_ite
  · exact fun _ => keeps_parseSet core trivial
  intro _
  -- DBSIZE, SAVE, COMMAND
  iterate 3
    apply Post_ite
    · exact fun _ => hplain _ rfl (by simp) core trivial
    intro _
  exact ⟨trivial, trivial⟩

/-- **What a request stores comes from its arguments.** -/
theorem parsedAt_drawn {ov : Overflow} {request : Resp} {clock : Nat → Nat} {c : Command}
    (h : (parsedAt ov request clock).1 = .ok c) :
    ∃ name args, IsCommand request name args ∧ DrawnFrom args c := by
  obtain ⟨name, args, hok, hcommand⟩ | ⟨⟨msg, hmsg, -⟩, -⟩ := argsOf_cases request
  · have hkeeps : Keeps (fun _ : Core => True)
        (Command.parseNamed ov (Str.fromUtf8Lossy name).toAsciiUppercase args) (DrawnFrom args)
          fun _ => True := keeps_parseNamed _
    have hpost := hkeeps { Core.fresh with clock := clock } trivial
    have hrun : (Command.parse ov request).run { Core.fresh with clock := clock } =
        (Command.parseNamed ov (Str.fromUtf8Lossy name).toAsciiUppercase args).run
          { Core.fresh with clock := clock } := by
      unfold Command.parse
      rw [hok]
      rfl
    unfold parsedAt at h
    rw [hrun] at h
    unfold Post at hpost
    simp only at h
    rw [h] at hpost
    exact ⟨name, args, hcommand, hpost.2⟩
  · unfold parsedAt Command.parse at h
    rw [hmsg] at h
    cases h

end Parse

/-- An entry that the fields of a snapshot's record can hold. -/
def EncodableEntry (key : Bytes) (e : Entry) : Prop :=
  key.length < 2 ^ 32 ∧ e.value.length < 2 ^ 32 ∧ ∀ t, e.expiresAt = some t → t < 2 ^ 64

/-- **A short request puts into the store only what can be saved.** -/
theorem puts_encodable (ov : Overflow) {x : Exchange} (hshort : Short x.request) :
    x.Puts ov EncodableEntry := by
  intro c hparsed s hs key hkey e hwrites
  obtain ⟨name, args, hcommand, hkeys, hset⟩ := parsedAt_drawn hparsed
  have hlen : key.length < 2 ^ 32 := hshort name args hcommand key (hkeys key hkey)
  cases c with
  | set key' value expireAt =>
    obtain rfl : e = ⟨value, expireAt⟩ := hwrites
    obtain ⟨hvalue, hdeadline⟩ := hset key' value expireAt rfl
    exact ⟨hlen, hshort name args hcommand value hvalue, hdeadline⟩
  | incr key' =>
    obtain ⟨⟨next, hnext, hvalue⟩, hdeadline⟩ := hwrites
    refine ⟨hlen, ?_, fun t ht => ?_⟩
    · have hdigits : (decimalInt next).length ≤ 19 + 1 := by
        apply decimalInt_length_le (by decide)
        unfold IsI64 at hnext
        omega
      rw [hvalue]
      omega
    · obtain ⟨old, hold, hexpires⟩ := hdeadline t ht
      exact (hs key old hold).2.2 t hexpires
  | expire key' seconds =>
    obtain ⟨⟨old, hold, hvalue⟩, hdeadline⟩ := hwrites
    refine ⟨hlen, ?_, hdeadline⟩
    rw [hvalue]
    exact (hs key old hold).2.1
  | ping | echo | get | del | «exists» | ttl | dbSize | save | command => exact hwrites.elim

/-! ## Booting and shutting down -/

/-- Readings beyond `t` are cut down to it. -/
def capped (t : Nat) (core : Core) : Core := { core with clock := fun i => min (core.clock i) t }

theorem loaded_later (core : Core) (r : Store.Saved) : Later core.clock (loaded core r).clock := by
  unfold loaded
  split
  · exact .refl _
  · exact ⟨1, rfl⟩

theorem foldl_loaded_later (rs : List Store.Saved) (core : Core) :
    Later core.clock (rs.foldl loaded core).clock := by
  induction rs generalizing core with
  | nil => exact .refl _
  | cons r rs ih => exact (loaded_later core r).trans (ih _)

/-- Loading does not look at readings that it does not take. -/
theorem foldl_loaded_capped {t : Nat} (rs : List Store.Saved) {core : Core}
    (hmono : Monotone core.clock) (hlast : (rs.foldl loaded core).clock 0 ≤ t) :
    rs.foldl loaded (capped t core) = capped t (rs.foldl loaded core) := by
  induction rs generalizing core with
  | nil => rfl
  | cons r rs ih =>
    rw [List.foldl_cons] at hlast
    have hle : core.clock 0 ≤ t := ((loaded_later core r).trans
      (foldl_loaded_later rs _)).le hmono |>.trans hlast
    have hhere : loaded (capped t core) r = capped t (loaded core r) := by
      unfold loaded capped
      split
      · rfl
      · simp only [min_eq_left hle]
    rw [List.foldl_cons, List.foldl_cons, hhere]
    exact ih ((loaded_later core r).mono hmono) hlast

theorem foldl_loaded_path (rs : List Store.Saved) (core : Core) :
    (rs.foldl loaded core).store.snapshotPath = core.store.snapshotPath := by
  induction rs generalizing core with
  | nil => rfl
  | cons r rs ih =>
    rw [List.foldl_cons, ih]
    unfold loaded
    split
    · rfl
    · show (if _ then _ else _ : Store).snapshotPath = _
      split <;> rfl

/-- What has been loaded can be saved again. -/
theorem foldl_loaded_holds (rs : List Store.Saved) (hrs : ∀ r ∈ rs, Fits r) {core : Core}
    (h : core.store.Holds EncodableEntry) : (rs.foldl loaded core).store.Holds EncodableEntry := by
  induction rs generalizing core with
  | nil => exact h
  | cons r rs ih =>
    obtain ⟨⟨hkey, hvalue, hdeadline⟩, hrs⟩ := List.forall_mem_cons.mp hrs
    have hset : ∀ deadline, (∀ t, deadline = some t → t < 2 ^ 64) →
        (core.store.set r.1 r.2.1 deadline).Holds EncodableEntry := by
      intro deadline hfits key e he
      have hedited : core.store.Edited r.1 (· = ⟨r.2.1, deadline⟩)
          (core.store.set r.1 r.2.1 deadline) := .written _ rfl
      rcases hedited.lookup he with hold | ⟨rfl, rfl⟩
      · exact h key e hold
      · exact ⟨hkey, hvalue, hfits⟩
    refine ih hrs ?_
    unfold loaded
    split
    · exact hset none nofun
    · show Store.Holds _ (if _ then _ else _ : Store)
      split
      · exact h
      · refine hset _ fun t ht => ?_
        obtain rfl := Option.some.inj ht
        exact hdeadline

/-- What the snapshot file holds is what exists: no file, or the entries of a store. -/
inductive Holding (path : Path) (files : Path → Option Bytes) (now : Nat) (keys : Keyspace) : Prop
  | nothing (hfile : files path = none) (hkeys : ∀ t, now ≤ t → keys.at t = fun _ => none)
  | snapshot (s : Store) (saved : Nat) (hle : saved ≤ now)
    (hfile : files path = some (Persistence.snapshot (s.snapshotIter saved)))
    (hfits : (Persistence.snapshot (s.snapshotIter saved)).length ≤ isizeMax)
    (hencodable : Encodable s) (hkeys : ∀ t, now ≤ t → keys.at t = s.live t)

/-- **Loading the snapshot** brings back what exists. -/
theorem load_mirrors {core core' : Core} {path : Path} {s : Store} {saved : Nat}
    (hfile : core.files path = some (Persistence.snapshot (s.snapshotIter saved)))
    (hfits : (Persistence.snapshot (s.snapshotIter saved)).length ≤ isizeMax)
    (hencodable : Encodable s) (hempty : core.store.map = ∅) (hmono : Monotone core.clock)
    (hle : saved ≤ core.clock 0) (h : (load path).run core = (.ok (), core')) :
    Later core.clock core'.clock ∧ core'.store.snapshotPath = core.store.snapshotPath ∧
      Encodable core'.store ∧ ∀ t, core'.clock 0 ≤ t → core'.store.live t = s.live t := by
  have hopens : Opens core path (Persistence.snapshot (s.snapshotIter saved)) := by
    obtain ⟨bytes, core₁, hmap, -⟩ := run_bind_ok h
    rcases mapFile_cases core path with ⟨text, core₂, herror⟩ | ⟨-, -, h0, h1⟩
    · rw [herror] at hmap
      cases hmap
    · exact ⟨hfile, hfits, h0, h1⟩
  rw [load_complete hopens (snapshotIter_fits hencodable), loadEntries_run] at h
  obtain rfl := (Prod.mk.inj h).2
  have hnone : ∀ t key, (opened core).store.live t key = none := by
    intro t key
    rw [Store.live_eq_none]
    intro e he
    have hlookup : core.store.map.lookup key = some e := he
    rw [hempty, AList.lookup_empty] at hlookup
    cases hlookup
  refine ⟨foldl_loaded_later _ (opened core), ?_, ?_, ?_⟩
  · exact foldl_loaded_path _ (opened core)
  · refine foldl_loaded_holds _ (fun r hr => snapshotIter_fits hencodable r hr) ?_
    intro key e he
    have hlookup : core.store.map.lookup key = some e := he
    rw [hempty, AList.lookup_empty] at hlookup
    cases hlookup
  · intro t ht
    -- no reading beyond `t` has been taken
    have hcapped : (s.snapshotIter saved).foldl loaded (capped t (opened core)) = capped t _ :=
      foldl_loaded_capped (s.snapshotIter saved) hmono ht
    have hstore : ((s.snapshotIter saved).foldl loaded (opened core)).store =
        ((s.snapshotIter saved).foldl loaded (capped t (opened core))).store := by
      rw [hcapped]
      rfl
    rw [hstore, snapshotIter_eq]
    funext key
    have hsaved : saved ≤ t :=
      hle.trans (((foldl_loaded_later _ (opened core)).le hmono).trans ht)
    have hnew : ∀ e ∈ s.map.entries, (capped t (opened core)).store.live t e.1 = none :=
      fun e _ => hnone t e.1
    rw [live_foldl_loaded hsaved _ s.map.nodupKeys hnew]
    · show (s.map.lookup key).elim (Store.live t (opened core).store key) _ = _
      rw [hnone, Store.live_eq]
      cases s.map.lookup key <;> rfl
    · exact fun i _ => min_le_right _ _

/-- An empty store shows nothing. -/
theorem live_new (path : Option Path) (t : Nat) : (Store.new path).live t = fun _ => none := by
  funext key
  rw [Store.live_eq_none]
  intro e he
  have hlookup : (∅ : HashMap Bytes Entry).lookup key = some e := he
  rw [AList.lookup_empty] at hlookup
  cases hlookup

/-- **A process that boots** shows what its snapshot file holds. -/
theorem boot_mirrors {core core' : Core} {path : Path} {bound : Except (Stop Error) Unit}
    {now : Nat} {keys : Keyspace} (hholding : Holding path core.files now keys)
    (hmono : Monotone core.clock) (hnow : now ≤ core.clock 0)
    (h : (boot (some path) bound).run core = (.ok (), core')) :
    Mirrors core' keys ∧ Encodable core'.store ∧ core'.store.snapshotPath = some path := by
  have hbound : ∀ {core₁ : Core},
      (ofExcept bound : Io Core Error Unit).run core₁ = (.ok (), core') → core' = core₁ := by
    intro core₁ hrun
    cases bound with
    | error stop => cases hrun
    | ok _ => exact (Prod.mk.inj hrun).2.symm
  have hrun : (if (core.files path).isSome = true then
      (load path >>= fun _ => nowMs >>= fun _ => ofExcept bound : Io Core Error Unit)
      else ofExcept bound).run { core with store := Store.new (some path) } = (.ok (), core') := h
  have hempty : Encodable (Store.new (some path)) := by
    intro key e he
    have hlookup : (∅ : HashMap Bytes Entry).lookup key = some e := he
    rw [AList.lookup_empty] at hlookup
    cases hlookup
  cases hholding with
  | nothing hfile hkeys =>
    rw [hfile, if_neg (by simp)] at hrun
    obtain rfl := hbound hrun
    refine ⟨⟨hmono, ?_⟩, hempty, rfl⟩
    show (Store.new (some path)).live (core.clock 0) = alive Entry.isExpired (core.clock 0) keys
    rw [← Keyspace.at_eq, hkeys _ hnow, live_new]
  | snapshot s saved hle hfile hfits hencodable hkeys =>
    rw [hfile, Option.isSome_some, if_pos rfl] at hrun
    obtain ⟨⟨⟩, core₁, hload, hrun⟩ := run_bind_ok hrun
    obtain ⟨reading, core₂, hread, hrun⟩ := run_bind_ok hrun
    obtain rfl := hbound hrun
    obtain rfl : { core₁ with clock := fun i => core₁.clock (i + 1) } = core' :=
      (Prod.mk.inj hread).2
    have hthere : ({ core with store := Store.new (some path) } : Core).files path = _ := hfile
    obtain ⟨hlater, hpath, hholds, hlive⟩ := load_mirrors hthere hfits hencodable rfl hmono
      (hle.trans hnow) hload
    have hmono₁ := hlater.mono hmono
    refine ⟨⟨fun i j hij => hmono₁ (by omega), ?_⟩, hholds, hpath⟩
    have hreads : core₁.clock 0 ≤ core₁.clock 1 := hmono₁ (Nat.zero_le 1)
    have hnow₁ : now ≤ core₁.clock 1 := hnow.trans ((hlater.le hmono).trans hreads)
    show core₁.store.live (core₁.clock 1) = alive Entry.isExpired (core₁.clock 1) keys
    rw [← Keyspace.at_eq, hkeys _ hnow₁, hlive _ hreads]

/-- **A process that is ended by a signal** leaves what exists in its snapshot file. -/
theorem shutdown_holding {core : Core} {path : Path} {keys : Keyspace} (hkeys : Mirrors core keys)
    (hencodable : Encodable core.store) (hpath : core.store.snapshotPath = some path)
    (hsaves : ((save path).run core).1 = .ok ()) :
    let ended := ((shutdown : Io Core Empty Unit).run core).2
    (∀ bytes, ended.files path = some bytes → bytes.length ≤ isizeMax) →
      Holding path ended.files (ended.clock 0) keys := by
  intro ended hfits
  rcases hsave : (save path).run core with ⟨r, saved⟩
  rw [hsave] at hsaves
  obtain rfl : r = .ok () := hsaves
  have hended : ended = saved := by
    show ((shutdown : Io Core Empty Unit).run core).2 = saved
    have hrun : (attempt (save path) : Io Core Empty (Except Error Unit)).run core =
        (.ok (.ok ()), saved) := by
      rw [run_attempt, hsave]
      rfl
    have hget : (shutdown : Io Core Empty Unit).run core = (.ok (), saved) := by
      unfold shutdown
      rw [run_bind]
      have hget : (getThe Core : Io Core Empty Core).run core = (.ok core, core) := rfl
      simp only [hget, hpath]
      rw [run_bind, hrun]
      rfl
    rw [hget]
  rw [hended] at hfits ⊢
  have hfile := save_ok hsave
  have hpost := keeps_save_went hpath core (.refl core)
  unfold Post at hpost
  rw [hsave] at hpost
  have hlater : Later core.clock saved.clock := hpost.1.clock
  refine .snapshot core.store (core.clock 0) (hlater.le hkeys.mono) hfile (hfits _ hfile)
    hencodable fun t ht => ?_
  have hagree := hkeys.agree.mono isExpired_lasting ((hlater.le hkeys.mono).trans ht)
  rw [Keyspace.at_eq]
  exact hagree.symm

/-! ## One process after the other -/

/-- **One life**: it answers as the reference does, from what it finds to what it leaves. -/
theorem life_explained {ov : Overflow} {path : Path} {files : Path → Option Bytes} {l : Life}
    {now : Nat} {keys : Keyspace} (hholding : Holding path files now keys)
    (hclean : l.Clean ov path files) (hmono : Monotone l.clock) (hnow : now ≤ l.clock 0)
    (hshort : ∀ x ∈ allExchanges (l.log ov path files), Short x.request) :
    ∃ keys', Reference.Explains ov (allExchanges (l.log ov path files)) keys keys' ∧
      Holding path (l.ended ov path files).files ((l.ended ov path files).clock 0) keys' := by
  obtain ⟨hboots, -, hsaves, hfits⟩ := hclean
  have hboot : (boot (some path) l.bound).run ⟨Store.new none, l.clock, l.fileCalls, files⟩ =
      (.ok (), (l.booted path files).2) := Prod.ext hboots rfl
  obtain ⟨hmirrors, hencodable, hpath⟩ := boot_mirrors hholding hmono hnow hboot
  obtain ⟨-, hround⟩ := run_round ov l.steps (accounted_start (l.booted path files).2)
    (show Mirrors (Server.start (l.booted path files).2).core keys from hmirrors)
  obtain ⟨keys', hexplains, hkeys'⟩ := hround.explained
  have hencodable' : Encodable (l.served ov path files).core.store :=
    hround.kept EncodableEntry (fun x hx => puts_encodable ov (hshort x hx)) hencodable
  exact ⟨keys', hexplains, shutdown_holding hkeys' hencodable' (hround.went.path.trans hpath)
    hsaves hfits⟩

/-- All lives from here on. -/
theorem lives_explained {ov : Overflow} {path : Path} (ls : List Life)
    {files : Path → Option Bytes} {now : Nat} {keys : Keyspace}
    (hholding : Holding path files now keys) (hclean : CleanLives ov path now files ls) :
    ∃ keys', Reference.Explains ov (lifelong ov path ls files) keys keys' := by
  induction ls generalizing files now keys with
  | nil => exact ⟨keys, rfl⟩
  | cons l ls ih =>
    obtain ⟨hlife, hmono, hnow, hshort, hrest⟩ := hclean
    obtain ⟨mid, hfirst, hmid⟩ := life_explained hholding hlife hmono hnow hshort
    obtain ⟨keys', hlater⟩ := ih hmid hrest
    exact ⟨keys', hfirst.append hlater⟩

/-- **Restarts are invisible**: over processes that are all ended by a signal and save their
snapshots, the replies to all requests are those of one map that serves them one after the other,
with every deadline kept across the restarts. -/
theorem restarts_invisible (ov : Overflow) (path : Path) (files : Path → Option Bytes)
    (hnone : files path = none) (ls : List Life) (hclean : CleanLives ov path 0 files ls) :
    ∃ keys, Reference.Explains ov (lifelong ov path ls files) (fun _ => none) keys :=
  lives_explained ls (.nothing hnone fun _ _ => rfl) hclean

/-- A process that serves one client one request, and is then asked to stop. -/
def oneRequest (now : Nat) (request : Bytes) : Life where
  clock := fun _ => now
  fileCalls := fun _ => .done
  bound := .ok ()
  steps := [.listener [.accepted (.ok ())], .ready (.delivering 16 request), .tick,
    .signals [.sigterm]]

/-- A key is set to die in ten seconds, and asked for four seconds later, in another process. -/
def setThenGet : List Life :=
  [oneRequest 1000 (ascii "*5\r\n$3\r\nSET\r\n$1\r\nk\r\n$1\r\nv\r\n$2\r\nEX\r\n$2\r\n10\r\n"),
    oneRequest 5000 (ascii "*2\r\n$3\r\nGET\r\n$1\r\nk\r\n")]

theorem short_of_bulks {args : List Bytes} (h : ∀ arg ∈ args, arg.length < 2 ^ 32) :
    Short (.array (args.map Resp.bulk)) := by
  intro name args' hcommand arg harg
  have hargs : args.map Resp.bulk = (name :: args').map Resp.bulk := Resp.array.inj hcommand
  have hinj : Function.Injective Resp.bulk := fun _ _ => Resp.bulk.inj
  rw [hinj.list_map hargs] at h
  exact h arg (List.mem_cons_of_mem _ harg)

/-- What one of these processes is checked for, by running it. -/
theorem oneRequest_clean {path : Path} {files : Path → Option Bytes} {now : Nat} {request : Bytes}
    (h : let l := oneRequest now request
      (l.booted path files).1 = .ok () ∧
        (Server.start (l.booted path files).2).halt .checked l.steps = some .shutdown ∧
        ((save path).run (l.served .checked path files).core).1 = .ok () ∧
        ((l.ended .checked path files).files path).all (·.length ≤ isizeMax) = true) :
    (oneRequest now request).Clean .checked path files := by
  obtain ⟨hboots, hsignalled, hsaves, hfits⟩ := h
  refine ⟨hboots, hsignalled, hsaves, fun bytes hbytes => ?_⟩
  rw [hbytes] at hfits
  exact of_decide_eq_true hfits

theorem setThenGet_explained :
    ∃ keys, Reference.Explains .checked (lifelong .checked [112] setThenGet fun _ => none)
      (fun _ => none) keys := by
  refine restarts_invisible .checked [112] (fun _ => none) rfl setThenGet ?_
  have hshort : ∀ {xs : List Exchange} (args : List Bytes),
      xs.map Exchange.request = [.array (args.map Resp.bulk)] →
        (∀ arg ∈ args, arg.length < 2 ^ 32) → ∀ x ∈ xs, Short x.request := by
    intro xs args hxs hargs x hx
    have hmem : x.request ∈ xs.map Exchange.request := List.mem_map_of_mem hx
    rw [hxs, List.mem_singleton] at hmem
    rw [hmem]
    exact short_of_bulks hargs
  refine ⟨oneRequest_clean (by decide +kernel), monotone_const, Nat.zero_le _,
    hshort [ascii "SET", ascii "k", ascii "v", ascii "EX", ascii "10"] (by decide +kernel)
      (by decide), oneRequest_clean (by decide +kernel), monotone_const, by decide +kernel,
    hshort [ascii "GET", ascii "k"] (by decide +kernel) (by decide), trivial⟩

example : (lifelong .checked [112] setThenGet fun _ => none).map Exchange.reply =
    [.simple (Str.lit "OK"), .bulk [118]] := by
  decide +kernel

end RustFundamentals.Rudis
