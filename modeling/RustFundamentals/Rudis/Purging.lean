import RustFundamentals.Rudis.Keyspace

/-!
# rudis: purging is invisible

A history of the store: commands, snapshots and purges, each with the readings the clock gives
while it runs. Every answer is the reference's (`answers_eq_reference`), for which a purge is
nothing at all, so that histories which differ in their purges only have the same answers
(`purging_invisible`).
-/

namespace RustFundamentals.Rudis

open Foundation Foundation.Fs Foundation.Expiry

/-! ## Histories -/

/-- What happens to a store. The file that `SAVE` writes holds a snapshot. -/
inductive StoreEvent
  | command (c : Command) (notSave : c ≠ .save)
  | snapshot
  | purge

/-- An event, and the readings the clock gives meanwhile. -/
structure Moment where
  event : StoreEvent
  clock : Nat → Nat
  mono : Monotone clock

/-- The clock does not go back from one event to the next. -/
def Timely (es : List Moment) : Prop :=
  es.Pairwise fun e later => ∀ i j, e.clock i ≤ later.clock j

/-- What an event gives its caller. A snapshot is the set of its entries. -/
inductive Answer
  | reply (v : Resp)
  | snapshot (entries : Set Store.Saved)
  | panicked

namespace StoreEvent

def isPurge : StoreEvent → Bool
  | purge => true
  | _ => false

/-- The event on the store. -/
def run (ov : Overflow) : StoreEvent → Io Core Empty (Option Answer)
  | command c _ => do return some (.reply (← c.execute ov))
  | snapshot => do
    let entries ← timed fun now s => some ({x | x ∈ s.snapshotIter now}, s)
    return some (.snapshot entries)
  | purge => do
    Rudis.purge
    return none

/-- The event on the reference, where nothing is ever left to purge. -/
noncomputable def reference (ov : Overflow) : StoreEvent → Io Reference Empty (Option Answer)
  | command c notSave => do return some (.reply (← Reference.execute ov c notSave))
  | snapshot => do
    let entries ← Reference.reading fun _ m =>
      some ({x | ∃ e, m x.1 = some e ∧ x.2 = (e.value, e.expiresAt.getD 0)}, m)
    return some (.snapshot entries)
  | purge => pure none

end StoreEvent

/-- The answers of the store to a history; the process does not outlive a panic. -/
def answers (ov : Overflow) : List Moment → Core → List Answer
  | [], _ => []
  | e :: es, core =>
    match (e.event.run ov).run { core with clock := e.clock } with
    | (.ok answer, core) => answer.toList ++ answers ov es core
    | (.error _, _) => [.panicked]

/-- The answers of the reference. -/
noncomputable def Reference.answers (ov : Overflow) : List Moment → Keyspace → List Answer
  | [], _ => []
  | e :: es, keys =>
    match (e.event.reference ov).run ⟨keys, e.clock⟩ with
    | (.ok answer, r) => answer.toList ++ Reference.answers ov es r.keys
    | (.error _, _) => [.panicked]

/-- The history without its purges. -/
def withoutPurges (es : List Moment) : List Moment := es.filter fun e => !e.event.isPurge

/-! ## One event -/

theorem mem_snapshotIter {now : Nat} {s : Store} {x : Store.Saved} :
    x ∈ s.snapshotIter now ↔
      ∃ e, s.live now x.1 = some e ∧ x.2 = (e.value, e.expiresAt.getD 0) := by
  simp only [Store.snapshotIter, List.mem_filterMap, Store.live_eq_some]
  constructor
  · intro ⟨⟨key, e⟩, hmem, hsaved⟩
    split at hsaved
    · cases hsaved
    rename_i halive
    obtain rfl := Option.some.inj hsaved
    exact ⟨e, ⟨HashMap.mem_entries.mp hmem, by simpa using halive⟩, rfl⟩
  · intro ⟨e, ⟨hlookup, halive⟩, hrest⟩
    refine ⟨⟨x.1, e⟩, HashMap.mem_entries.mpr hlookup, ?_⟩
    rw [if_neg (by simp [halive]), ← hrest]

/-- A purge leaves what exists, now and later. -/
theorem purge_agree {core : Core} {keys : Keyspace} (hmono : Monotone core.clock)
    (h : Agree Entry.isExpired (core.clock 0) core.store.view keys) :
    let after := (purge : Io Core Empty Unit).run core
    after.1 = .ok () ∧ ∀ i, Agree Entry.isExpired (core.clock i) after.2.store.view keys := by
  intro after
  have hafter : after = (.ok (), { core with
      clock := fun i => core.clock (i + 1), store := core.store.purgeExpired (core.clock 0) }) :=
    timed_run _ core
  rw [hafter]
  refine ⟨rfl, fun i => ?_⟩
  show Agree _ _ (Store.view (core.store.purgeExpired (core.clock 0))) keys
  rw [Store.view_purgeExpired]
  exact h.drop_left.mono isExpired_lasting (hmono (Nat.zero_le i))

theorem run_sim (ov : Overflow) {e : StoreEvent} (he : e.isPurge = false) {span : Set Nat} :
    Sim (Related span) (e.run ov) (e.reference ov) := by
  cases e with
  | command c notSave =>
    refine Sim.bind (execute_sim ov c notSave) fun v => ?_
    exact Sim.pure _
  | snapshot =>
    refine Sim.bind (timed_sim fun now s => ?_) fun entries => Sim.pure _
    have hentries : {x | x ∈ s.snapshotIter now} =
        {x | ∃ e, s.live now x.1 = some e ∧ x.2 = (e.value, e.expiresAt.getD 0)} :=
      Set.ext fun x => mem_snapshotIter
    rw [hentries]
    exact Store.Alike.same _ now s
  | purge => cases he

/-- One event, from maps that show the same keys at its first reading: the answers are the
same, and so are the keys shown at some reading of the event. -/
theorem event_agree (ov : Overflow) (e : Moment) {core : Core} {keys : Keyspace}
    (h : Agree Entry.isExpired (e.clock 0) core.store.view keys) :
    let ours := (e.event.run ov).run { core with clock := e.clock }
    let theirs := (e.event.reference ov).run ⟨keys, e.clock⟩
    ours.1 = theirs.1 ∧
      ∃ i, Agree Entry.isExpired (e.clock i) ours.2.store.view theirs.2.keys := by
  obtain ⟨event, clock, hmono⟩ := e
  cases hp : event.isPurge with
  | true =>
    cases event with
    | command c notSave => cases hp
    | snapshot => cases hp
    | purge =>
      have hmono' : Monotone ({ core with clock := clock } : Core).clock := hmono
      obtain ⟨hdone, hagree⟩ := purge_agree hmono' h
      refine ⟨?_, 0, hagree 0⟩
      show ((purge >>= fun _ => pure none).run { core with clock := clock }).1 = .ok none
      rw [run_bind]
      rcases hrun : (purge : Io Core Empty Unit).run { core with clock := clock } with ⟨r, core'⟩
      rw [hrun] at hdone
      obtain rfl : r = .ok () := hdone
      rfl
  | false =>
    have hrel : Related (Set.range clock) { core with clock := clock } ⟨keys, clock⟩ :=
      ⟨rfl, hmono, fun i => ⟨i, rfl⟩, h⟩
    obtain ⟨hres, hafter⟩ := run_sim ov hp _ _ hrel
    obtain ⟨i, hi⟩ := hafter.within 0
    refine ⟨hres, i, ?_⟩
    show Agree _ (clock i) _ _
    rw [hi]
    exact hafter.agree

/-! ## Whole histories -/

/-- Every answer of the store is the reference's. -/
theorem answers_eq_reference (ov : Overflow) {es : List Moment} (hes : Timely es) {core : Core}
    {keys : Keyspace} (h : ∀ e ∈ es, Agree Entry.isExpired (e.clock 0) core.store.view keys) :
    answers ov es core = Reference.answers ov es keys := by
  induction es generalizing core keys with
  | nil => rfl
  | cons e es ih =>
    obtain ⟨hnext, hrest⟩ := List.pairwise_cons.mp hes
    obtain ⟨hres, i, hagree⟩ := event_agree ov e (h e (by simp))
    unfold answers Reference.answers
    rcases hours : (e.event.run ov).run { core with clock := e.clock } with ⟨r, core'⟩
    rcases htheirs : (e.event.reference ov).run ⟨keys, e.clock⟩ with ⟨r', ref'⟩
    simp only [hours, htheirs] at hres hagree
    subst hres
    cases r with
    | error stop => rfl
    | ok answer =>
      have hlater : ∀ e' ∈ es, Agree Entry.isExpired (e'.clock 0) core'.store.view ref'.keys :=
        fun e' he' => hagree.mono isExpired_lasting (hnext e' he' i 0)
      exact congrArg (answer.toList ++ ·) (ih hrest hlater)

/-- The reference has nothing to purge. -/
theorem Reference.answers_withoutPurges (ov : Overflow) (es : List Moment) (keys : Keyspace) :
    Reference.answers ov es keys = Reference.answers ov (withoutPurges es) keys := by
  induction es generalizing keys with
  | nil => rfl
  | cons e es ih =>
    obtain ⟨event, clock, hmono⟩ := e
    cases event with
    | purge => exact ih keys
    | snapshot =>
      show _ = Reference.answers ov (_ :: withoutPurges es) keys
      simp only [Reference.answers, ih]
    | command c notSave =>
      show _ = Reference.answers ov (_ :: withoutPurges es) keys
      simp only [Reference.answers, ih]

/-- **Expiry is exact and purging is invisible**: the answers are those of a map in which a key
ceases to exist at its deadline, and do not depend on where the purges are. -/
theorem purging_invisible (ov : Overflow) (core : Core) {es fs : List Moment} (hes : Timely es)
    (hfs : Timely fs) (h : withoutPurges es = withoutPurges fs) :
    answers ov es core = Reference.answers ov es core.store.view ∧
      answers ov es core = answers ov fs core := by
  have hours : answers ov es core = Reference.answers ov es core.store.view :=
    answers_eq_reference ov hes fun _ _ => Agree.refl
  have htheirs : answers ov fs core = Reference.answers ov fs core.store.view :=
    answers_eq_reference ov hfs fun _ _ => Agree.refl
  refine ⟨hours, ?_⟩
  calc answers ov es core
      = Reference.answers ov es core.store.view := hours
    _ = Reference.answers ov (withoutPurges es) core.store.view :=
        Reference.answers_withoutPurges ov es _
    _ = Reference.answers ov (withoutPurges fs) core.store.view := by rw [h]
    _ = Reference.answers ov fs core.store.view := (Reference.answers_withoutPurges ov fs _).symm
    _ = answers ov fs core := htheirs.symm

/-- An event at a fixed time. -/
def StoreEvent.atTime (now : Nat) (e : StoreEvent) : Moment := ⟨e, fun _ => now, monotone_const⟩

/-- A key set to die at 5, counted up at 3 and asked for at 7. -/
def shortLived : List Moment :=
  [(StoreEvent.command (.set [107] [49] (some 5)) nofun).atTime 1,
    (StoreEvent.command (.incr [107]) nofun).atTime 3,
    (StoreEvent.command (.exists [[107]]) nofun).atTime 7]

/-- The same with a purge after the deadline. -/
def shortLivedPurged : List Moment :=
  shortLived.take 2 ++ [StoreEvent.purge.atTime 6] ++ shortLived.drop 2

theorem shortLived_purged :
    answers .checked shortLived .fresh =
        Reference.answers .checked shortLived Core.fresh.store.view ∧
      answers .checked shortLived .fresh = answers .checked shortLivedPurged .fresh := by
  refine purging_invisible .checked .fresh ?_ ?_ ?_
  · simp [Timely, shortLived, StoreEvent.atTime]
  · simp [Timely, shortLivedPurged, shortLived, StoreEvent.atTime]
  · rfl

example :
    answers .checked shortLived .fresh =
      [.reply (.simple (Str.lit "OK")), .reply (.integer 2), .reply (.integer 0)] := rfl

end RustFundamentals.Rudis
