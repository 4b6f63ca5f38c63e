import RustFundamentals.Rudis.Command

/-!
# rudis: the keyspace a client sees

The reference the store is measured against: a plain map. Whenever the clock is read, the keys
whose deadline has passed cease to exist; apart from that no operation knows of deadlines.
`execute_sim` is the simulation: the store, which drops what is dead when it comes across it,
gives every reply the reference gives.
-/

namespace RustFundamentals.Rudis

open Foundation Foundation.Fs Foundation.Expiry

/-! ## The reference -/

/-- The keys that exist. -/
abbrev Keyspace := Bytes → Option Entry

/-- A key with the deadline `t` exists before `t`, and no longer. -/
def Entry.existsAt (now : Nat) (e : Entry) : Bool := e.expiresAt.all fun t => now < t

/-- What exists at `now`. -/
def Keyspace.at (now : Nat) (m : Keyspace) : Keyspace := fun key =>
  (m key).filter (Entry.existsAt now)

/-- The keyspace and the readings of the clock to come. -/
structure Reference where
  keys : Keyspace
  clock : Nat → Nat

namespace Reference

variable {ε α : Type}

/-- An operation on what exists at the next reading of the clock. -/
def reading (op : Nat → Keyspace → Option (α × Keyspace)) : Io Reference ε α := do
  let r ← get
  let now := r.clock 0
  let r : Reference := { keys := r.keys.at now, clock := fun i => r.clock (i + 1) }
  set r
  let (a, keys) ← orPanic (op now r.keys)
  set { r with keys := keys }
  return a

/-- `INCR`: the value goes up by one and the deadline stays. -/
def incr (ov : Overflow) (key : Bytes) (m : Keyspace) : Option (Except Unit Int × Keyspace) :=
  match m key with
  | none => do
    let next ← ov.fitInt 64 1
    return (.ok next, Function.update m key (some ⟨decimalInt next, none⟩))
  | some e =>
    match Store.counter e.value with
    | none => some (.error (), m)
    | some current => do
      let next ← ov.fitInt 64 (current + 1)
      return (.ok next, Function.update m key (some { e with value := decimalInt next }))

/-- `EXPIRE`. -/
def expire (ov : Overflow) (key : Bytes) (seconds now : Nat) (m : Keyspace) :
    Option (Bool × Keyspace) :=
  match m key with
  | none => some (false, m)
  | some e => do
    let deadline ← Store.deadlineAfter ov now seconds 1000
    return (true, Function.update m key (some { e with expiresAt := some deadline }))

/-- `TTL`: whole seconds to the deadline. -/
def ttl (key : Bytes) (now : Nat) (m : Keyspace) : Int :=
  match m key with
  | none => -2
  | some e => e.expiresAt.elim (-1) fun deadline => castI64 ((deadline - now) / 1000)

/-- How many of the keys an operation answers true for. -/
def countKeys (op : Bytes → Keyspace → Bool × Keyspace) : List Bytes → Io Reference Empty Nat
  | [] => pure 0
  | key :: keys => do
    let hit ← reading fun _ m => some (op key m)
    let rest ← countKeys op keys
    return hit.toNat + rest

/-- The reply to a command other than `SAVE`. -/
noncomputable def execute (ov : Overflow) : (c : Command) → c ≠ .save → Io Reference Empty Resp
  | .ping none, _ => pure Command.pong
  | .ping (some message), _ => pure (.bulk message)
  | .echo message, _ => pure (.bulk message)
  | .get key, _ => do
    match ← reading fun _ m => some ((m key).map Entry.value, m) with
    | some value => return .bulk value
    | none => return .null
  | .set key value expireAt, _ => do
    modify fun r => { r with keys := Function.update r.keys key (some ⟨value, expireAt⟩) }
    return Command.okReply
  | .del keys, _ => do
    let removed ← countKeys (fun key m => ((m key).isSome, Function.update m key none)) keys
    return .integer (castI64 removed)
  | .exists keys, _ => do
    let present ← countKeys (fun key m => ((m key).isSome, m)) keys
    return .integer (castI64 present)
  | .incr key, _ => do
    match ← reading fun _ m => incr ov key m with
    | .ok next => return .integer next
    | .error () => return Command.notAnInteger
  | .expire key seconds, _ => do
    return .integer (← reading (expire ov key seconds)).toNat
  | .ttl key, _ => do
    return .integer (← reading fun now m => some (ttl key now m, m))
  | .dbSize, _ => do
    return .integer (castI64 (← reading fun _ m => some (Set.ncard {k | (m k).isSome = true}, m)))
  | .save, h => absurd rfl h
  | .command, _ => pure (.array [])

end Reference

/-! ## Operations of the store -/

theorem Entry.existsAt_eq (now : Nat) (e : Entry) : e.existsAt now = !e.isExpired now := by
  unfold Entry.existsAt Entry.isExpired
  cases e.expiresAt with
  | none => rfl
  | some t =>
    show decide (now < t) = !decide (t ≤ now)
    rw [← decide_not]
    simp only [not_le]

/-- The deadline of an entry that is not expired is ahead. -/
theorem Entry.deadline_ahead {e : Entry} {now t : Nat} (halive : e.isExpired now = false)
    (ht : e.expiresAt = some t) : now < t := by
  simp only [Entry.isExpired, ht, decide_eq_false_iff_not] at halive
  omega

theorem isExpired_lasting : Lasting Entry.isExpired := by
  intro s t e hle hs
  unfold Entry.isExpired at hs ⊢
  cases hd : e.expiresAt with
  | none => simp [hd] at hs
  | some d =>
    simp only [hd, decide_eq_true_eq] at hs ⊢
    exact le_trans hs hle

theorem Keyspace.at_eq (now : Nat) (m : Keyspace) : m.at now = alive Entry.isExpired now m := by
  funext key
  simp only [Keyspace.at, alive, funext (Entry.existsAt_eq now)]

namespace Store

/-- The store as a map, with what is dead and still there. -/
def view (s : Store) : Keyspace := fun key => s.map.lookup key

/-- The keys of the store that exist at `now`. -/
def live (now : Nat) (s : Store) : Keyspace := alive Entry.isExpired now s.view

theorem live_eq (now : Nat) (s : Store) (key : Bytes) :
    s.live now key = (s.map.lookup key).filter fun e => !e.isExpired now := rfl

@[simp] theorem at_live (now : Nat) (s : Store) : (s.live now).at now = s.live now := by
  rw [Keyspace.at_eq, live, alive_self]

/-- A key that exists is in the map and not expired. -/
theorem live_eq_some {now : Nat} {s : Store} {key : Bytes} {e : Entry} :
    s.live now key = some e ↔ s.map.lookup key = some e ∧ e.isExpired now = false := by
  rw [live_eq, Option.filter_eq_some_iff]
  simp

/-- A map entry over which the clock has passed. -/
theorem live_eq_none {now : Nat} {s : Store} {key : Bytes} :
    s.live now key = none ↔ ∀ e, s.map.lookup key = some e → e.isExpired now = true := by
  rw [live_eq, Option.filter_eq_none_iff]
  simp

/-- What the map says of a key, and what exists: no entry, a dead one, or a live one. -/
theorem lookup_cases (now : Nat) (s : Store) (key : Bytes) :
    (s.map.lookup key = none ∧ s.live now key = none) ∨
      (∃ e, s.map.lookup key = some e ∧ e.isExpired now = true ∧ s.live now key = none) ∨
      ∃ e, s.map.lookup key = some e ∧ e.isExpired now = false ∧ s.live now key = some e := by
  rw [live_eq]
  cases he : s.map.lookup key with
  | none => exact .inl ⟨rfl, rfl⟩
  | some e =>
    refine .inr ?_
    cases hdead : e.isExpired now with
    | true => exact .inl ⟨e, rfl, hdead, by rw [Option.filter_some, hdead]; rfl⟩
    | false => exact .inr ⟨e, rfl, hdead, by rw [Option.filter_some, hdead]; rfl⟩

@[simp] theorem view_purgeExpired (now : Nat) (s : Store) :
    (s.purgeExpired now).view = s.live now := by
  funext key
  exact HashMap.lookup_retain _ _ _

@[simp] theorem view_set (s : Store) (key value : Bytes) (expireAt : Option Nat) :
    (s.set key value expireAt).view = Function.update s.view key (some ⟨value, expireAt⟩) :=
  HashMap.lookup_insert _ _ _

/-- An update of a key, once dead entries are left out. -/
theorem at_update (now : Nat) (s : Store) (key : Bytes) (x : Option Entry) :
    Keyspace.at now (Function.update (s.live now) key x) =
      alive Entry.isExpired now (Function.update s.view key x) := by
  rw [Keyspace.at_eq]
  exact (Agree.update (Agree.drop_left Agree.refl) key x)

/-- Removing a key that does not exist is no change. -/
theorem live_erase_dead {now : Nat} {s : Store} {key : Bytes} (h : s.live now key = none) :
    live now { s with map := s.map.erase key } = s.live now := by
  have hview : view { s with map := s.map.erase key } = Function.update s.view key none :=
    HashMap.lookup_erase _ _
  rw [live, hview, alive_update]
  show Function.update (s.live now) key none = s.live now
  rw [← h, Function.update_eq_self]

/-- An operation of the store at `now` does what the plain operation does to what exists. -/
def Alike {α : Type} (now : Nat) : Option (α × Store) → Option (α × Keyspace) → Prop
  | some (a, s), some (b, m) => a = b ∧ s.live now = m.at now
  | none, none => True
  | _, _ => False

/-- Nothing is changed. -/
theorem Alike.same {α : Type} (a : α) (now : Nat) (s : Store) :
    Alike now (some (a, s)) (some (a, s.live now)) := ⟨rfl, (at_live now s).symm⟩

theorem get_live (key : Bytes) (now : Nat) (s : Store) :
    (s.get key now).1 = (s.live now key).map Entry.value ∧
      (s.get key now).2.live now = s.live now := by
  rcases s.lookup_cases now key with
    ⟨he, hlive⟩ | ⟨e, he, hdead, hlive⟩ | ⟨e, he, halive, hlive⟩
  · rw [get, he, hlive]
    exact ⟨rfl, rfl⟩
  · simp only [get, he, hdead, if_true]
    exact ⟨by rw [hlive]; rfl, live_erase_dead hlive⟩
  · simp only [get, he, halive, Bool.false_eq_true, if_false]
    exact ⟨by rw [hlive]; rfl, trivial⟩

theorem get_alike (key : Bytes) (now : Nat) (s : Store) :
    Alike now (some (s.get key now)) (some ((s.live now key).map Entry.value, s.live now)) := by
  obtain ⟨hvalue, hlive⟩ := get_live key now s
  exact ⟨hvalue, hlive.trans (at_live now s).symm⟩

theorem exists_alike (key : Bytes) (now : Nat) (s : Store) :
    Alike now (some (s.exists key now)) (some ((s.live now key).isSome, s.live now)) := by
  obtain ⟨hvalue, hlive⟩ := get_live key now s
  refine ⟨?_, hlive.trans (at_live now s).symm⟩
  show (s.get key now).1.isSome = _
  rw [hvalue, Option.isSome_map]

theorem del_alike (key : Bytes) (now : Nat) (s : Store) :
    Alike now (some (s.del key now))
      (some ((s.live now key).isSome, Function.update (s.live now) key none)) := by
  constructor
  · show (s.map.lookup key).elim false (fun e => !e.isExpired now) = _
    rw [live_eq]
    cases s.map.lookup key with
    | none => rfl
    | some e => cases h : e.isExpired now <;> simp [h]
  · rw [at_update]
    exact congrArg (alive Entry.isExpired now) (HashMap.lookup_erase _ _)

theorem incr_alike (ov : Overflow) (key : Bytes) (now : Nat) (s : Store) :
    Alike now (s.incr ov key now) (Reference.incr ov key (s.live now)) := by
  unfold incr Reference.incr
  rw [← live_eq]
  cases hlive : s.live now key with
  | none =>
    simp only [Option.bind_none, zero_add]
    cases ov.fitInt 64 1 with
    | none => trivial
    | some next =>
      refine ⟨rfl, ?_⟩
      rw [at_update, live, view_set]
  | some e =>
    simp only [Option.bind_some]
    cases counter e.value with
    | none => exact Alike.same _ now s
    | some current =>
      simp only
      cases ov.fitInt 64 (current + 1) with
      | none => trivial
      | some next =>
        refine ⟨rfl, ?_⟩
        rw [at_update, live, view_set]

theorem expire_alike (ov : Overflow) (key : Bytes) (seconds now : Nat) (s : Store) :
    Alike now (s.expire ov key seconds now) (Reference.expire ov key seconds now (s.live now)) := by
  rcases s.lookup_cases now key with
    ⟨he, hlive⟩ | ⟨e, he, hdead, hlive⟩ | ⟨e, he, halive, hlive⟩
  · simp only [expire, Reference.expire, he, hlive]
    exact Alike.same _ now s
  · simp only [expire, Reference.expire, he, hdead, hlive, if_true]
    exact Alike.same _ now s
  · simp only [expire, Reference.expire, he, halive, hlive, Bool.false_eq_true, if_false]
    cases deadlineAfter ov now seconds 1000 with
    | none => trivial
    | some deadline =>
      refine ⟨rfl, ?_⟩
      rw [at_update]
      exact congrArg (alive Entry.isExpired now) (HashMap.lookup_insert _ _ _)

/-- The subtraction of `TTL` never underflows: an entry that is not expired has its deadline
ahead. -/
theorem ttl_alike (ov : Overflow) (key : Bytes) (now : Nat) (s : Store) :
    Alike now (s.ttl ov key now) (some (Reference.ttl key now (s.live now), s.live now)) := by
  rcases s.lookup_cases now key with
    ⟨he, hlive⟩ | ⟨e, he, hdead, hlive⟩ | ⟨e, he, halive, hlive⟩
  · simp only [ttl, Reference.ttl, he, hlive]
    exact Alike.same _ now s
  · simp only [ttl, Reference.ttl, he, hdead, hlive, if_true]
    exact Alike.same _ now s
  · simp only [ttl, Reference.ttl, he, halive, hlive, Bool.false_eq_true, if_false]
    cases hd : e.expiresAt with
    | none => exact Alike.same _ now s
    | some deadline =>
      have hle : now ≤ deadline := (Entry.deadline_ahead halive hd).le
      simp only [Overflow.sub_of_le ov 64 hle]
      rw [Option.map_some, Option.elim_some]
      exact Alike.same _ now s

theorem len_eq (now : Nat) (s : Store) :
    s.len now = Set.ncard {k | (s.live now k).isSome = true} := by
  have h := HashMap.length_entries (s.map.retain fun _ e => !e.isExpired now)
  simp only [HashMap.lookup_retain] at h
  exact h

theorem len_alike (now : Nat) (s : Store) :
    Alike now (some (s.len now, s))
      (some (Set.ncard {k | (s.live now k).isSome = true}, s.live now)) :=
  ⟨len_eq now s, (at_live now s).symm⟩

end Store

/-! ## The simulation -/

/-- The store and the reference show the same keys from the next reading on. `span` holds the
readings the clock may still give. -/
structure Related (span : Set Nat) (core : Core) (r : Reference) : Prop where
  clock : r.clock = core.clock
  mono : Monotone core.clock
  within : ∀ i, core.clock i ∈ span
  agree : Agree Entry.isExpired (core.clock 0) core.store.view r.keys

variable {span : Set Nat}

/-- What exists in the reference at the next reading exists in the store. -/
theorem Related.at_eq {core : Core} {r : Reference} (h : Related span core r) :
    r.keys.at (r.clock 0) = core.store.live (core.clock 0) := by
  rw [h.clock, Keyspace.at_eq]
  exact h.agree.symm

/-- After a reading, with the same keys left. -/
theorem Related.next {core : Core} {r : Reference} (h : Related span core r) {s : Store}
    {m : Keyspace} (hm : s.live (core.clock 0) = m.at (core.clock 0)) :
    Related span { core with clock := fun i => core.clock (i + 1), store := s }
      ⟨m, fun i => r.clock (i + 1)⟩ where
  clock := by rw [h.clock]
  mono := fun i j hij => h.mono (by omega)
  within := fun i => h.within (i + 1)
  agree := by
    have hnow : Agree Entry.isExpired (core.clock 0) s.view m := by
      rw [Keyspace.at_eq] at hm
      exact hm
    exact hnow.mono isExpired_lasting (h.mono (Nat.zero_le 1))

theorem reading_run {ε α : Type} (op : Nat → Keyspace → Option (α × Keyspace)) (r : Reference) :
    (Reference.reading op : Io Reference ε α).run r =
      match op (r.clock 0) (r.keys.at (r.clock 0)) with
      | some (a, m) => (.ok a, ⟨m, fun i => r.clock (i + 1)⟩)
      | none => (.error .panicked, ⟨r.keys.at (r.clock 0), fun i => r.clock (i + 1)⟩) := by
  unfold Reference.reading
  rw [run_bind]
  show (orPanic (op (r.clock 0) (r.keys.at (r.clock 0))) >>= _).run
    (Reference.mk (r.keys.at (r.clock 0)) fun i => r.clock (i + 1)) = _
  rw [run_bind]
  cases op (r.clock 0) (r.keys.at (r.clock 0)) <;> rfl

/-- An operation that reads the clock. -/
theorem timed_sim {ε α : Type} {op : Nat → Store → Option (α × Store)}
    {plain : Nat → Keyspace → Option (α × Keyspace)}
    (h : ∀ now s, Store.Alike now (op now s) (plain now (s.live now))) :
    Sim (Related span) (timed op : Io Core ε α) (Reference.reading plain) := by
  intro core r hrel
  have halike := h (core.clock 0) core.store
  have hplain : plain (r.clock 0) (r.keys.at (r.clock 0)) =
      plain (core.clock 0) (core.store.live (core.clock 0)) := by rw [hrel.at_eq, hrel.clock]
  rw [timed_run, reading_run, hplain]
  cases hop : op (core.clock 0) core.store with
  | none =>
    cases hop' : plain (core.clock 0) (core.store.live (core.clock 0)) with
    | none =>
      refine ⟨rfl, hrel.next ?_⟩
      rw [hrel.at_eq, Store.at_live]
    | some y => rw [hop, hop'] at halike; exact halike.elim
  | some x =>
    cases hop' : plain (core.clock 0) (core.store.live (core.clock 0)) with
    | none => rw [hop, hop'] at halike; exact halike.elim
    | some y =>
      rw [hop, hop'] at halike
      exact ⟨congrArg Except.ok halike.1, hrel.next halike.2⟩

theorem countKeys_sim {op : Bytes → Nat → Store → Bool × Store}
    {plain : Bytes → Keyspace → Bool × Keyspace}
    (h : ∀ key now s, Store.Alike now (some (op key now s)) (some (plain key (s.live now))))
    (keys : List Bytes) :
    Sim (Related span) (Command.countKeys op keys) (Reference.countKeys plain keys) := by
  induction keys with
  | nil => exact Sim.pure 0
  | cons key keys ih =>
    refine Sim.bind (timed_sim (h key)) fun hit => ?_
    refine Sim.bind ih fun rest => ?_
    exact Sim.pure _

/-- The store replies as the reference does. -/
theorem execute_sim (ov : Overflow) (c : Command) (hc : c ≠ .save) :
    Sim (Related span) (c.execute ov) (Reference.execute ov c hc) := by
  cases c with
  | ping message => cases message <;> exact Sim.pure _
  | echo message => exact Sim.pure _
  | get key =>
    refine Sim.bind (timed_sim (Store.get_alike key)) fun value => ?_
    cases value <;> exact Sim.pure _
  | set key value expireAt =>
    intro core r h
    refine ⟨rfl, h.clock, h.mono, h.within, ?_⟩
    show Agree _ _ (Store.view (core.store.set key value expireAt)) _
    rw [Store.view_set]
    exact h.agree.update key _
  | del keys =>
    refine Sim.bind (countKeys_sim Store.del_alike keys) fun removed => ?_
    exact Sim.pure _
  | «exists» keys =>
    refine Sim.bind (countKeys_sim Store.exists_alike keys) fun present => ?_
    exact Sim.pure _
  | incr key =>
    refine Sim.bind (timed_sim (Store.incr_alike ov key)) fun next => ?_
    cases next <;> exact Sim.pure _
  | expire key seconds =>
    refine Sim.bind (timed_sim (Store.expire_alike ov key seconds)) fun hit => ?_
    exact Sim.pure _
  | ttl key =>
    refine Sim.bind (timed_sim (Store.ttl_alike ov key)) fun left => ?_
    exact Sim.pure _
  | dbSize =>
    refine Sim.bind (timed_sim Store.len_alike) fun size => ?_
    exact Sim.pure _
  | save => exact absurd rfl hc
  | command => exact Sim.pure _

end RustFundamentals.Rudis
