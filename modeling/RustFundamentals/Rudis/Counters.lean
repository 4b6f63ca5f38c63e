import RustFundamentals.Rudis.Deadlines

/-!
# rudis: counters

`INCR` re-reads the text it has printed, and adds one to it unchecked. It is exact, or refused,
unless the counter stands at the greatest `i64` there is; so are all of a run of them, which then
add up (`incr_exact_iff`).
-/

namespace RustFundamentals.Rudis

open Foundation Foundation.Fs

/-! ## What a key counts -/

namespace Store

/-- At `now` the key stands at the integer that its value denotes, or at 0 if it does not exist. -/
inductive StandsAt (now : Nat) (s : Store) (key : Bytes) : Int → Prop
  | absent (h : s.live now key = none) : StandsAt now s key 0
  | value (e : Entry) (v : Int) (h : s.live now key = some e) (hv : DenotesInt e.value v) :
    StandsAt now s key v

/-- The deadline of a key that exists. -/
def deadlineOf (now : Nat) (s : Store) (key : Bytes) : Option Nat :=
  (s.live now key).bind Entry.expiresAt

/-- A key that exists has its deadline ahead. -/
theorem deadlineOf_ahead (s : Store) (now : Nat) (key : Bytes) :
    ∀ t, s.deadlineOf now key = some t → now < t := by
  intro t ht
  obtain ⟨e, he, hdeadline⟩ := Option.bind_eq_some_iff.mp ht
  obtain ⟨-, halive⟩ := live_eq_some.mp he
  exact Entry.deadline_ahead halive hdeadline

/-- What `incr` finds of a key. -/
def found (now : Nat) (s : Store) (key : Bytes) : Option Int :=
  match s.live now key with
  | some e => counter e.value
  | none => some 0

theorem counter_eq_some {value : Bytes} {v : Int} :
    counter value = some v ↔ DenotesInt value v ∧ IsI64 v := by
  unfold counter
  rw [Option.bind_eq_some_iff]
  refine ⟨?_, ?_⟩
  · rintro ⟨text, htext, hv⟩
    have hbytes : text.bytes = value := by
      unfold Str.fromUtf8 at htext
      split at htext
      · exact congrArg Str.bytes (Option.some.inj htext).symm
      · cases htext
    rw [hbytes] at hv
    exact parseSigned_eq_some.mp hv
  · rintro ⟨hden, hrange⟩
    have hvalid : validUtf8 value = true := validUtf8_ascii hden.ascii
    exact ⟨⟨value, hvalid⟩, dif_pos hvalid, parseSigned_eq_some.mpr ⟨hden, hrange⟩⟩

theorem counter_decimalInt {v : Int} (h : IsI64 v) : counter (decimalInt v) = some v := by
  have hparse : parseSigned 64 (decimalInt v) = some v := parseSigned_decimalInt h.1 h.2
  exact counter_eq_some.mpr (parseSigned_eq_some.mp hparse)

theorem found_eq_some {now : Nat} {s : Store} {key : Bytes} {v : Int} :
    s.found now key = some v ↔ s.StandsAt now key v ∧ IsI64 v := by
  unfold found
  cases hlive : s.live now key with
  | none =>
    refine ⟨?_, ?_⟩
    · intro hv
      obtain rfl := Option.some.inj hv
      exact ⟨.absent hlive, by decide⟩
    · intro hstands
      cases hstands.1 with
      | absent => rfl
      | value e v he hden =>
        rw [hlive] at he
        cases he
  | some e =>
    show counter e.value = some v ↔ _
    rw [counter_eq_some]
    refine and_congr_left fun _ => ⟨.value e v hlive, fun hv => ?_⟩
    cases hv with
    | absent hnone =>
      rw [hlive] at hnone
      cases hnone
    | value e' v he hden =>
      rw [hlive] at he
      exact Option.some.inj he ▸ hden

/-- A key stands at one number. -/
theorem StandsAt.unique {now : Nat} {s : Store} {key : Bytes} {v w : Int}
    (hv : s.StandsAt now key v) (hw : s.StandsAt now key w) : v = w := by
  cases hv with
  | absent hnone =>
    cases hw with
    | absent => rfl
    | value e _ he =>
      rw [hnone] at he
      cases he
  | value e _ he hden =>
    cases hw with
    | absent hnone =>
      rw [hnone] at he
      cases he
    | value e' _ he' hden' =>
      rw [he] at he'
      obtain rfl := Option.some.inj he'
      exact hden.unique hden'

theorem incr_eq (ov : Overflow) (key : Bytes) (now : Nat) (s : Store) :
    s.incr ov key now =
      match s.found now key with
      | none => some (.error (), s)
      | some v => (ov.fitInt 64 (v + 1)).map fun next =>
          (.ok next, s.set key (decimalInt next) (s.deadlineOf now key)) := by
  unfold incr found deadlineOf
  rw [← live_eq]
  cases s.live now key with
  | none => cases ov.fitInt 64 (0 + 1) <;> rfl
  | some e =>
    simp only [Option.bind_some]
    cases counter e.value with
    | none => rfl
    | some v =>
      simp only
      cases ov.fitInt 64 (v + 1) <;> rfl

end Store

/-! ## One `INCR` -/

section Execute

variable {ov : Overflow} {key : Bytes} {core : Core}

/-- The state after an `INCR` that has stored a value. -/
def Core.counted (core : Core) (key : Bytes) (next : Int) : Core :=
  { core.tick with
    store := core.store.set key (decimalInt next) (core.store.deadlineOf (core.clock 0) key) }

theorem execute_incr_refused (h : core.store.found (core.clock 0) key = none) :
    ((Command.incr key).execute ov).run core = (.ok Command.notAnInteger, core.tick) := by
  rw [Command.execute, run_bind, timed_run, Store.incr_eq, h]
  rfl

theorem execute_incr_some {v next : Int} (h : core.store.found (core.clock 0) key = some v)
    (hnext : ov.fitInt 64 (v + 1) = some next) :
    ((Command.incr key).execute ov).run core = (.ok (.integer next), core.counted key next) := by
  rw [Command.execute, run_bind, timed_run, Store.incr_eq, h]
  simp only [hnext]
  rfl

theorem execute_incr_none {v : Int} (h : core.store.found (core.clock 0) key = some v)
    (hnext : ov.fitInt 64 (v + 1) = none) :
    ((Command.incr key).execute ov).run core = (.error .panicked, core.tick) := by
  rw [Command.execute, run_bind, timed_run, Store.incr_eq, h]
  simp only [hnext]
  rfl

end Execute

/-- What an `INCR` should come to: one more, or a refusal. -/
structure IncrExact (ov : Overflow) (key : Bytes) (core : Core) : Prop where
  exact : ∀ v, core.store.StandsAt (core.clock 0) key v → IsI64 v → IsI64 (v + 1) →
    ∃ core', ((Command.incr key).execute ov).run core = (.ok (.integer (v + 1)), core') ∧
      core'.store.view = Function.update core.store.view key
        (some ⟨decimalInt (v + 1), core.store.deadlineOf (core.clock 0) key⟩)
  refused : (¬ ∃ v, core.store.StandsAt (core.clock 0) key v ∧ IsI64 v ∧ IsI64 (v + 1)) →
    ∃ core', ((Command.incr key).execute ov).run core = (.ok Command.notAnInteger, core') ∧
      core'.store = core.store

/-- The key stands at the greatest `i64`. -/
def AtTop (key : Bytes) (core : Core) : Prop :=
  core.store.StandsAt (core.clock 0) key (2 ^ 63 - 1)

theorem fitInt_succ (ov : Overflow) {v : Int} (h : IsI64 (v + 1)) :
    ov.fitInt 64 (v + 1) = some (v + 1) := if_pos h

/-- Where the successor of an `i64` is none. -/
theorem eq_top {v : Int} (h : IsI64 v) (hnext : ¬ IsI64 (v + 1)) : v = 2 ^ 63 - 1 := by
  unfold IsI64 at h hnext
  omega

/-- **One `INCR` is exact or refused** exactly where the counter is not at the top. -/
theorem incrExact_iff (ov : Overflow) (key : Bytes) (core : Core) :
    IncrExact ov key core ↔ ¬ AtTop key core := by
  refine ⟨?_, ?_⟩
  · intro hexact htop
    have hfound := Store.found_eq_some.mpr ⟨htop, by decide⟩
    -- no other number is found there, so it would have to be refused
    have hnone : ¬ ∃ v, core.store.StandsAt (core.clock 0) key v ∧ IsI64 v ∧ IsI64 (v + 1) := by
      rintro ⟨v, hv, hi64, hnext⟩
      have hv := Store.found_eq_some.mpr ⟨hv, hi64⟩
      rw [hfound] at hv
      obtain rfl := Option.some.inj hv
      exact absurd hnext (by decide)
    obtain ⟨core', hrun, -⟩ := hexact.refused hnone
    cases hnext : ov.fitInt 64 (2 ^ 63 - 1 + 1) with
    | none =>
      rw [execute_incr_none hfound hnext] at hrun
      cases hrun
    | some next =>
      rw [execute_incr_some hfound hnext] at hrun
      cases hrun
  · intro htop
    refine ⟨?_, ?_⟩
    · intro v hv hi64 hnext
      have hfound := Store.found_eq_some.mpr ⟨hv, hi64⟩
      exact ⟨_, execute_incr_some hfound (fitInt_succ ov hnext), Store.view_set _ _ _ _⟩
    · intro hnone
      refine ⟨core.tick, execute_incr_refused ?_, rfl⟩
      cases hfound : core.store.found (core.clock 0) key with
      | none => rfl
      | some v =>
        obtain ⟨hv, hi64⟩ := Store.found_eq_some.mp hfound
        by_cases hnext : IsI64 (v + 1)
        · exact absurd ⟨v, hv, hi64, hnext⟩ hnone
        · obtain rfl := eq_top hi64 hnext
          exact absurd hv htop

/-! ## Many -/

/-- So many `INCR`s of a key, one after the other: their replies. -/
def incrs (ov : Overflow) (key : Bytes) : Nat → Io Core Empty (List Resp)
  | 0 => pure []
  | n + 1 => do
    let reply ← (Command.incr key).execute ov
    let replies ← incrs ov key n
    return reply :: replies

/-- `P` holds of every state that one of the `INCR`s is run in. -/
def EachIncr (ov : Overflow) (key : Bytes) (P : Core → Prop) : Nat → Core → Prop
  | 0, _ => True
  | n + 1, core => P core ∧
    match ((Command.incr key).execute ov).run core with
    | (.ok _, core') => EachIncr ov key P n core'
    | (.error _, _) => True

/-- The replies that count up from `v`. -/
def countUp (v : Int) (n : Nat) : List Resp :=
  (List.range n).map fun (i : Nat) => .integer (v + i + 1)

/-- The deadline is ahead of the reading. -/
def Ahead (deadline : Option Nat) (now : Nat) : Prop := ∀ t, deadline = some t → now < t

/-- `n` successive `INCR`s, all successful, add `n`: to the number the key stands at or, if its
deadline passes on the way, to the zero it stands at from then on. -/
structure AddsUp (ov : Overflow) (key : Bytes) (n : Nat) (core : Core) : Prop where
  kept : ∀ v replies core', core.store.StandsAt (core.clock 0) key v →
    (incrs ov key n).run core = (.ok replies, core') → (∀ r ∈ replies, ∃ i, r = .integer i) →
    (∀ i < n, Ahead (core.store.deadlineOf (core.clock 0) key) (core.clock i)) →
    replies = countUp v n ∧ (0 < n → core'.store.view = Function.update core.store.view key
      (some ⟨decimalInt (v + n), core.store.deadlineOf (core.clock 0) key⟩))
  expired : ∀ v replies core', core.store.StandsAt (core.clock 0) key v →
    (incrs ov key n).run core = (.ok replies, core') → (∀ r ∈ replies, ∃ i, r = .integer i) →
    ∀ m < n, (∀ i < m, Ahead (core.store.deadlineOf (core.clock 0) key) (core.clock i)) →
      ¬ Ahead (core.store.deadlineOf (core.clock 0) key) (core.clock m) →
      replies = countUp v m ++ countUp 0 (n - m) ∧
        core'.store.view =
          Function.update core.store.view key (some ⟨decimalInt (n - m : Nat), none⟩)

theorem countUp_succ (v : Int) (n : Nat) :
    countUp v (n + 1) = .integer (v + 1) :: countUp (v + 1) n := by
  unfold countUp
  rw [List.range_succ_eq_map, List.map_cons, List.map_map]
  congr 1
  · simp
  · refine List.map_congr_left fun i _ => ?_
    show Resp.integer _ = Resp.integer _
    congr 1
    push_cast
    ring

theorem incrs_succ {ov : Overflow} {key : Bytes} {n : Nat} {core core' : Core}
    {replies : List Resp} (h : (incrs ov key (n + 1)).run core = (.ok replies, core')) :
    ∃ reply rest core₁, ((Command.incr key).execute ov).run core = (.ok reply, core₁) ∧
      (incrs ov key n).run core₁ = (.ok rest, core') ∧ replies = reply :: rest := by
  rw [incrs, run_bind] at h
  rcases hfirst : ((Command.incr key).execute ov).run core with ⟨r | reply, core₁⟩
  · rw [hfirst] at h
    cases h
  rw [hfirst] at h
  simp only [run_bind] at h
  rcases hrest : (incrs ov key n).run core₁ with ⟨r | rest, core₂⟩
  · rw [hrest] at h
    cases h
  rw [hrest] at h
  obtain ⟨hreplies, rfl⟩ := Prod.mk.inj h
  exact ⟨reply, rest, core₁, rfl, hrest, (Except.ok.inj hreplies).symm⟩

section Run

variable {ov : Overflow} {key : Bytes} {core core' : Core} {v : Int} {n : Nat}

/-- A successful `INCR` of a counter that is not at the top. -/
theorem execute_incr_success (htop : ¬ AtTop key core)
    (hv : core.store.StandsAt (core.clock 0) key v) {i : Int}
    (h : ((Command.incr key).execute ov).run core = (.ok (.integer i), core')) :
    i = v + 1 ∧ IsI64 (v + 1) ∧ core' = core.counted key (v + 1) := by
  cases hfound : core.store.found (core.clock 0) key with
  | none =>
    rw [execute_incr_refused hfound] at h
    cases h
  | some w =>
    obtain ⟨hw, hi64⟩ := Store.found_eq_some.mp hfound
    have hnext : IsI64 (w + 1) := by
      by_contra hnext
      obtain rfl := eq_top hi64 hnext
      exact htop hw
    obtain rfl := hw.unique hv
    rw [execute_incr_some hfound (fitInt_succ ov hnext)] at h
    obtain ⟨hreply, rfl⟩ := Prod.mk.inj h
    exact ⟨(Resp.integer.inj (Except.ok.inj hreply)).symm, hnext, rfl⟩

/-- While the deadline is ahead, the key stands at what was stored. -/
theorem counted_ahead (hv : IsI64 v)
    (hahead : Ahead (core.store.deadlineOf (core.clock 0) key) (core.clock 1)) :
    (core.counted key v).store.StandsAt ((core.counted key v).clock 0) key v ∧
      (core.counted key v).store.deadlineOf ((core.counted key v).clock 0) key =
        core.store.deadlineOf (core.clock 0) key := by
  have hlive : (core.counted key v).store.live ((core.counted key v).clock 0) key =
      some ⟨decimalInt v, core.store.deadlineOf (core.clock 0) key⟩ := by
    rw [Store.live_eq_some]
    refine ⟨AList.lookup_insert _, ?_⟩
    show Entry.isExpired (core.clock 1) ⟨_, core.store.deadlineOf (core.clock 0) key⟩ = false
    unfold Entry.isExpired
    cases hdeadline : core.store.deadlineOf (core.clock 0) key with
    | none => rfl
    | some t => exact decide_eq_false (not_le.mpr (hahead t hdeadline))
  refine ⟨?_, ?_⟩
  · exact .value _ _ hlive (Store.counter_eq_some.mp (Store.counter_decimalInt hv)).1
  · rw [Store.deadlineOf, hlive]
    rfl

/-- Once it has passed, the key does not exist. -/
theorem counted_past
    (hpast : ¬ Ahead (core.store.deadlineOf (core.clock 0) key) (core.clock 1)) :
    (core.counted key v).store.StandsAt ((core.counted key v).clock 0) key 0 ∧
      (core.counted key v).store.deadlineOf ((core.counted key v).clock 0) key = none := by
  have hlive : (core.counted key v).store.live ((core.counted key v).clock 0) key = none := by
    rw [Store.live_eq_none]
    intro e he
    have hlookup : (core.counted key v).store.map.lookup key =
        some ⟨decimalInt v, core.store.deadlineOf (core.clock 0) key⟩ := AList.lookup_insert _
    rw [hlookup] at he
    obtain rfl := Option.some.inj he
    unfold Ahead at hpast
    push Not at hpast
    obtain ⟨t, ht, hle⟩ := hpast
    show Entry.isExpired (core.clock 1) ⟨_, core.store.deadlineOf (core.clock 0) key⟩ = true
    rw [ht]
    exact decide_eq_true hle
  refine ⟨?_, ?_⟩
  · exact .absent hlive
  · rw [Store.deadlineOf, hlive]
    rfl

end Run

/-- **Successive `INCR`s add up**, when none of them finds the counter at the top. -/
theorem addsUp (ov : Overflow) (key : Bytes) (n : Nat) (core : Core)
    (h : EachIncr ov key (fun core => ¬ AtTop key core) n core) : AddsUp ov key n core := by
  induction n generalizing core with
  | zero =>
    refine ⟨?_, ?_⟩
    · intro v replies core' _ hrun _ _
      obtain ⟨hreplies, -⟩ := Prod.mk.inj hrun
      exact ⟨(Except.ok.inj hreplies).symm, fun hpos => absurd hpos (Nat.lt_irrefl 0)⟩
    · exact fun _ _ _ _ _ _ m hm => absurd hm (Nat.not_lt_zero m)
  | succ n ih =>
    obtain ⟨htop, hrest⟩ := h
    -- what the first does, and that the others go on from there
    have hfirst : ∀ v replies core', core.store.StandsAt (core.clock 0) key v →
        (incrs ov key (n + 1)).run core = (.ok replies, core') →
        (∀ r ∈ replies, ∃ i, r = .integer i) →
        ∃ rest, replies = .integer (v + 1) :: rest ∧ IsI64 (v + 1) ∧
          (incrs ov key n).run (core.counted key (v + 1)) = (.ok rest, core') ∧
          (∀ r ∈ rest, ∃ i, r = .integer i) ∧ AddsUp ov key n (core.counted key (v + 1)) := by
      intro v replies core' hv hrun hall
      obtain ⟨reply, rest, core₁, hreply, hrun', rfl⟩ := incrs_succ hrun
      obtain ⟨i, rfl⟩ := hall reply List.mem_cons_self
      obtain ⟨rfl, hi64, rfl⟩ := execute_incr_success htop hv hreply
      rw [hreply] at hrest
      exact ⟨rest, rfl, hi64, hrun', fun r hr => hall r (List.mem_cons_of_mem _ hr), ih _ hrest⟩
    have hview : ∀ v e, Function.update (core.counted key v).store.view key e =
        Function.update core.store.view key e := by
      intro v e
      show Function.update (Store.view (core.store.set _ _ _)) key e = _
      rw [Store.view_set, Function.update_idem]
    refine ⟨?_, ?_⟩
    · intro v replies core' hv hrun hall hahead
      obtain ⟨rest, rfl, hi64, hrun', hall', hadds⟩ := hfirst v replies core' hv hrun hall
      cases n with
      | zero =>
        obtain ⟨hreplies, rfl⟩ := Prod.mk.inj hrun'
        obtain rfl := Except.ok.inj hreplies
        exact ⟨by simp [countUp], fun _ => Store.view_set _ _ _ _⟩
      | succ n =>
        obtain ⟨hstands, hdeadline⟩ := counted_ahead hi64 (hahead 1 (by omega))
        obtain ⟨hreplies, hlast⟩ := hadds.kept (v + 1) rest core' hstands hrun' hall' (by
          intro i hi
          rw [hdeadline]
          exact hahead (i + 1) (by omega))
        rw [hdeadline, hview] at hlast
        refine ⟨by rw [hreplies, countUp_succ v], fun _ => ?_⟩
        rw [hlast (Nat.succ_pos n)]
        congr 3
        push_cast
        ring_nf
    · intro v replies core' hv hrun hall m hm hahead hpast
      obtain ⟨rest, rfl, hi64, hrun', hall', hadds⟩ := hfirst v replies core' hv hrun hall
      cases m with
      | zero => exact absurd (Store.deadlineOf_ahead core.store (core.clock 0) key) hpast
      | succ m =>
        cases m with
        | zero =>
          -- the deadline has passed: the others start from 0, with no deadline
          obtain ⟨hstands, hdeadline⟩ := @counted_past key core (v + 1) hpast
          obtain ⟨hreplies, hlast⟩ := hadds.kept 0 rest core' hstands hrun' hall' (by
            intro i hi t ht
            rw [hdeadline] at ht
            cases ht)
          rw [hdeadline, hview, zero_add] at hlast
          refine ⟨?_, hlast (by omega)⟩
          rw [hreplies, countUp_succ v]
          rfl
        | succ m =>
          obtain ⟨hstands, hdeadline⟩ := counted_ahead hi64 (hahead 1 (by omega))
          obtain ⟨hreplies, hlast⟩ := hadds.expired (v + 1) rest core' hstands hrun' hall' (m + 1)
            (by omega) (by
              intro i hi
              rw [hdeadline]
              exact hahead (i + 1) (by omega)) (by
              rw [hdeadline]
              exact hpast)
          rw [hview] at hlast
          have hleft : n - (m + 1) = n + 1 - (m + 1 + 1) := by omega
          rw [hleft] at hlast hreplies
          exact ⟨by rw [hreplies, countUp_succ v, List.cons_append], hlast⟩

theorem EachIncr.congr {ov : Overflow} {key : Bytes} {P Q : Core → Prop}
    (h : ∀ core, P core ↔ Q core) (n : Nat) (core : Core) :
    EachIncr ov key P n core ↔ EachIncr ov key Q n core := by
  induction n generalizing core with
  | zero => exact Iff.rfl
  | succ n ih =>
    unfold EachIncr
    rw [h core]
    apply and_congr_right
    intro _
    rcases ((Command.incr key).execute ov).run core with ⟨_ | reply, core₁⟩
    · exact Iff.rfl
    · exact ih core₁

/-- **`INCR` is exact or refused**, and a run of them adds up, exactly where none finds the counter
at the greatest `i64`. -/
theorem incr_exact_iff (ov : Overflow) (key : Bytes) (n : Nat) (core : Core) :
    (EachIncr ov key (IncrExact ov key) n core ∧ AddsUp ov key n core) ↔
      EachIncr ov key (fun core => ¬ AtTop key core) n core := by
  rw [EachIncr.congr (incrExact_iff ov key) n core]
  refine ⟨?_, ?_⟩
  · exact fun h => h.1
  · exact fun h => ⟨h, addsUp ov key n core h⟩

/-- A counter at the top. -/
def topCore : Core :=
  { Core.fresh with store := (Store.new none).set [99] (ascii "9223372036854775807") none }

/-- Its `INCR` is not refused: a checked build panics, a release build counts on from the other
end. -/
theorem topCore_not_refused :
    (((Command.incr [99]).execute .checked).run topCore).1 = .error .panicked ∧
      ((Command.incr [99]).execute .wrapping).run topCore =
        (.ok (.integer (-9223372036854775808)), topCore.counted [99] (-9223372036854775808)) ∧
      (¬ IncrExact .checked [99] topCore) ∧ ¬ IncrExact .wrapping [99] topCore := by
  have hfound : topCore.store.found (topCore.clock 0) [99] = some 9223372036854775807 := by decide
  have htop : AtTop [99] topCore := (Store.found_eq_some.mp hfound).1
  refine ⟨?_, ?_, ?_, ?_⟩
  · rw [execute_incr_none hfound (by decide)]
  · exact execute_incr_some hfound (by decide)
  · exact fun h => (incrExact_iff .checked [99] topCore).mp h htop
  · exact fun h => (incrExact_iff .wrapping [99] topCore).mp h htop

end RustFundamentals.Rudis
