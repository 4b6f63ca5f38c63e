import RustFundamentals.Foundation.Expiry
import RustFundamentals.Foundation.Runs

/-!
# aprobe: the shutdown handle

`Shutdown` on a `watch` channel, with any number of handles and of `cancelled` futures, which are
polled operation by operation while other threads clone, drop and trigger. A future resolves once
the flag is up and not before, none is left asleep, and the channel never closes under one
(`shutdown_reliable`).
-/

namespace RustFundamentals.Aprobe.Shutdown

open Foundation

/-! ## The channel -/

/-- `watch::Receiver`: the version it has seen. -/
structure Receiver where
  seen : Nat
  deriving DecidableEq

/-- Where the body of `cancelled` is. -/
inductive Phase
  | fresh
  | checking (rx : Receiver)
  | changing (rx : Receiver)
  | rechecking (rx : Receiver)
  | resolved
  deriving DecidableEq

/-- A future of `cancelled`: the handle it borrows, and where it is. -/
structure Cancelled where
  handle : Nat
  phase : Phase
  deriving DecidableEq

/-- The channel, the handles, each with its receiver and its share of the sender, the futures, and
those of them that wait to be notified. -/
structure System where
  value : Bool
  version : Nat
  handles : HashMap Nat Receiver
  futures : HashMap Nat Cancelled
  waiting : List Nat

/-- `Shutdown::new`, as handle 0. -/
def new : System := ⟨false, 0, AList.insert 0 ⟨0⟩ ∅, ∅, []⟩

/-- The receiver that a future has cloned. -/
def Phase.receiver : Phase → Option Receiver
  | .fresh | .resolved => none
  | .checking rx | .changing rx | .rechecking rx => some rx

namespace System

/-- No receiver is left. -/
def closed (s : System) : Bool :=
  s.handles.entries.isEmpty && s.futures.entries.all fun e => e.2.phase.receiver.isNone

/-- `tx.send(true)`: refused by a closed channel, else all who wait are notified. -/
def send (s : System) : System :=
  if s.closed then s else { s with value := true, version := s.version + 1, waiting := [] }

/-- `rx.changed()`: at once if there is something unseen, an error if the sender is dropped, else
later. -/
def changed (s : System) (rx : Receiver) : Option (Except Unit Receiver) :=
  if rx.seen ≠ s.version then some (.ok ⟨s.version⟩)
  else if s.handles.entries.isEmpty then some (.error ())
  else none

/-- A future moves to another place. -/
def move (s : System) (f : Nat) (c : Cancelled) (phase : Phase) : System :=
  { s with futures := AList.insert f { c with phase } s.futures }

/-- The next operation of a poll of `cancelled`. -/
def pollStep (s : System) (f : Nat) (c : Cancelled) : System :=
  match c.phase with
  | .fresh =>
    match s.handles.lookup c.handle with
    | some rx => s.move f c (.checking rx)
    | none => s
  | .checking rx => s.move f c (if s.value then .resolved else .changing rx)
  | .changing rx =>
    match s.changed rx with
    | some (.ok rx) => s.move f c (.rechecking rx)
    | some (.error ()) => s.move f c .resolved
    | none => { s with waiting := f :: s.waiting }
  | .rechecking rx => s.move f c (if s.value then .resolved else .changing rx)
  | .resolved => s

end System

/-! ## Runs -/

/-- What the owners of handles and futures do. -/
inductive Act
  | clone (handle copy : Nat)
  | drop (handle : Nat)
  | trigger (handle : Nat)
  | isTriggered (handle : Nat)
  | cancelled (handle future : Nat)
  | poll (future : Nat)
  | forget (future : Nat)
  deriving DecidableEq

/-- An act, and what `is_triggered` says. -/
def exec (s : System) : Act → Option Bool × System
  | .clone handle copy =>
    (none, match s.handles.lookup handle with
      | some rx => { s with handles := AList.insert copy rx s.handles }
      | none => s)
  | .drop handle => (none, { s with handles := AList.erase handle s.handles })
  | .trigger _ => (none, s.send)
  | .isTriggered _ => (some s.value, s)
  | .cancelled handle future =>
    (none, { s with futures := AList.insert future ⟨handle, .fresh⟩ s.futures })
  | .poll future =>
    (none, match s.futures.lookup future with
      | some c => s.pollStep future c
      | none => s)
  | .forget future =>
    (none, { s with
      futures := AList.erase future s.futures
      waiting := s.waiting.filter fun f => f ≠ future })

/-- A handle is there. -/
def System.Owned (s : System) (handle : Nat) : Prop := (s.handles.lookup handle).isSome

/-- What ownership allows: a handle is used while it is there, and is not dropped under a future
that borrows it; a name is given once; a future is not polled after it has resolved. -/
def Allowed (s : System) : Act → Prop
  | .clone handle copy => s.Owned handle ∧ s.handles.lookup copy = none
  | .drop handle =>
    s.Owned handle ∧ ∀ f c, s.futures.lookup f = some c → c.handle ≠ handle
  | .trigger handle | .isTriggered handle => s.Owned handle
  | .cancelled handle future => s.Owned handle ∧ s.futures.lookup future = none
  | .poll future => ∃ c, s.futures.lookup future = some c ∧ c.phase ≠ .resolved
  | .forget _ => True

/-! ## What holds in between -/

/-- A future borrows a handle that is there, has seen no version to come, has one unseen while it
waits with the flag up, and has resolved only because the flag is up. -/
structure Fine (s : System) (c : Cancelled) : Prop where
  owned : s.Owned c.handle
  seen : ∀ rx, c.phase.receiver = some rx → rx.seen ≤ s.version
  unseen : s.value = true → ∀ rx, c.phase = .changing rx → rx.seen < s.version
  resolved : c.phase = .resolved → s.value = true

/-- The invariant. Who sleeps has seen everything. -/
structure Inv (s : System) : Prop where
  handles : ∀ h rx, s.handles.lookup h = some rx → rx.seen ≤ s.version
  futures : ∀ f c, s.futures.lookup f = some c → Fine s c
  waiting : ∀ f ∈ s.waiting, ∃ c rx, s.futures.lookup f = some c ∧ c.phase = .changing rx ∧
    rx.seen = s.version

theorem Inv.new : Inv new where
  handles := by
    intro h rx hlookup
    by_cases hzero : h = 0
    · subst hzero
      rw [Shutdown.new, AList.lookup_insert] at hlookup
      rw [← Option.some.inj hlookup]
      exact Nat.le_refl 0
    · rw [Shutdown.new, AList.lookup_insert_ne hzero, AList.lookup_empty] at hlookup
      cases hlookup
  futures := by
    intro f c hlookup
    rw [Shutdown.new, AList.lookup_empty] at hlookup
    cases hlookup
  waiting := by
    intro f hf
    cases hf

/-- **No wakeup is lost**: with the flag up, nobody sleeps. -/
theorem Inv.awake {s : System} (h : Inv s) (hvalue : s.value = true) : s.waiting = [] := by
  rw [List.eq_nil_iff_forall_not_mem]
  intro f hf
  obtain ⟨c, rx, hlookup, hphase, hseen⟩ := h.waiting f hf
  exact absurd hseen (((h.futures f c hlookup).unseen hvalue rx hphase).ne)

theorem owned_ne_empty {s : System} {handle : Nat} (h : s.Owned handle) :
    s.handles.entries.isEmpty = false := by
  obtain ⟨rx, hrx⟩ := Option.isSome_iff_exists.mp h
  have hmem := HashMap.mem_entries.mpr hrx
  rw [List.isEmpty_eq_false_iff]
  exact List.ne_nil_of_mem hmem

/-- What is as fine in another state. -/
theorem Fine.congr {s s' : System} {c : Cancelled} (h : Fine s c)
    (howned : s.Owned c.handle → s'.Owned c.handle) (hvalue : s'.value = s.value)
    (hversion : s'.version = s.version) : Fine s' c where
  owned := howned h.owned
  seen := by rw [hversion]; exact h.seen
  unseen := by rw [hvalue, hversion]; exact h.unseen
  resolved := by rw [hvalue]; exact h.resolved

theorem Inv.move {s : System} (h : Inv s) {f : Nat} {c : Cancelled} {phase : Phase}
    (hfine : Fine s { c with phase }) (hawake : f ∉ s.waiting) : Inv (s.move f c phase) where
  handles := h.handles
  futures := by
    intro f' c' hlookup
    by_cases hf : f' = f
    · subst hf
      rw [System.move, AList.lookup_insert] at hlookup
      obtain rfl := Option.some.inj hlookup
      exact hfine.congr id rfl rfl
    · rw [System.move, AList.lookup_insert_ne hf] at hlookup
      exact (h.futures f' c' hlookup).congr id rfl rfl
  waiting := by
    intro f' hf'
    obtain ⟨c', rx, hlookup, hrest⟩ := h.waiting f' hf'
    have hne : f' ≠ f := by
      rintro rfl
      exact hawake hf'
    exact ⟨c', rx, by rw [System.move, AList.lookup_insert_ne hne]; exact hlookup, hrest⟩

/-- The operations of its polls that a future needs once the flag is up. -/
def Phase.pollsLeft : Phase → Nat
  | .fresh | .changing _ => 2
  | .checking _ | .rechecking _ => 1
  | .resolved => 0

/-- **What an operation of a poll does**: the future moves on, or sleeps, the flag being down. The
sender is not dropped under it. -/
theorem pollStep_cases {s : System} (h : Inv s) {f : Nat} {c : Cancelled}
    (hlookup : s.futures.lookup f = some c) (hlive : c.phase ≠ .resolved) :
    (∃ phase, s.pollStep f c = s.move f c phase ∧ Fine s { c with phase } ∧ f ∉ s.waiting ∧
      (s.value = true → phase.pollsLeft + 1 = c.phase.pollsLeft)) ∨
    ∃ rx, c.phase = .changing rx ∧ rx.seen = s.version ∧ s.value = false ∧
      s.pollStep f c = { s with waiting := f :: s.waiting } := by
  have hfine := h.futures f c hlookup
  -- who sleeps is at `changed`, with nothing unseen
  have hawake : (∀ rx, c.phase = .changing rx → rx.seen ≠ s.version) → f ∉ s.waiting := by
    intro hphase hf
    obtain ⟨c', rx, hlookup', hphase', hseen⟩ := h.waiting f hf
    rw [hlookup] at hlookup'
    obtain rfl := Option.some.inj hlookup'
    exact hphase rx hphase' hseen
  -- after the flag has been looked at
  have hlooked : ∀ rx : Receiver, rx.seen ≤ s.version →
      Fine s { c with phase := if s.value then .resolved else .changing rx } := by
    intro rx hseen
    cases hvalue : s.value with
    | true =>
      exact ⟨hfine.owned, by simp [Phase.receiver], by simp, fun _ => hvalue⟩
    | false =>
      exact ⟨hfine.owned, by simpa [Phase.receiver] using hseen, by simp [hvalue], by simp⟩
  unfold System.pollStep
  cases hphase : c.phase with
  | fresh =>
    obtain ⟨rx, hrx⟩ := Option.isSome_iff_exists.mp hfine.owned
    refine .inl ⟨.checking rx, by rw [hrx], ?_, ?_, fun _ => rfl⟩
    · exact ⟨hfine.owned, by simpa [Phase.receiver] using h.handles _ _ hrx, by simp, by simp⟩
    · exact hawake fun rx' hphase' => by rw [hphase] at hphase'; cases hphase'
  | checking rx =>
    refine .inl ⟨_, rfl, hlooked rx (hfine.seen rx (by rw [hphase]; rfl)), ?_, ?_⟩
    · exact hawake fun rx' hphase' => by rw [hphase] at hphase'; cases hphase'
    · intro hvalue
      rw [hvalue]
      rfl
  | changing rx =>
    by_cases hseen : rx.seen = s.version
    · refine .inr ⟨rx, rfl, hseen, ?_, ?_⟩
      · rw [← Bool.not_eq_true]
        intro hvalue
        exact absurd hseen (hfine.unseen hvalue rx hphase).ne
      · have hchanged : s.changed rx = none := by
          rw [System.changed, if_neg (not_not.mpr hseen), owned_ne_empty hfine.owned]
          rfl
        dsimp only
        rw [hchanged]
    · have hchanged : s.changed rx = some (.ok ⟨s.version⟩) := if_pos hseen
      refine .inl ⟨.rechecking ⟨s.version⟩, by dsimp only; rw [hchanged], ?_, ?_, fun _ => rfl⟩
      · exact ⟨hfine.owned, by simp [Phase.receiver], by simp, by simp⟩
      · refine hawake fun rx' hphase' => ?_
        rw [hphase] at hphase'
        rw [← Phase.changing.inj hphase']
        exact hseen
  | rechecking rx =>
    refine .inl ⟨_, rfl, hlooked rx (hfine.seen rx (by rw [hphase]; rfl)), ?_, ?_⟩
    · exact hawake fun rx' hphase' => by rw [hphase] at hphase'; cases hphase'
    · intro hvalue
      rw [hvalue]
      rfl
  | resolved => exact absurd hphase hlive

theorem Inv.pollStep {s : System} (h : Inv s) {f : Nat} {c : Cancelled}
    (hlookup : s.futures.lookup f = some c) (hlive : c.phase ≠ .resolved) :
    Inv (s.pollStep f c) := by
  rcases pollStep_cases h hlookup hlive with ⟨phase, hmove, hfine, hawake, -⟩ |
    ⟨rx, hphase, hseen, -, hsleep⟩
  · rw [hmove]
    exact h.move hfine hawake
  · rw [hsleep]
    refine ⟨h.handles, fun f' c' hlookup' => (h.futures f' c' hlookup').congr id rfl rfl, ?_⟩
    intro f' hf'
    rcases List.mem_cons.mp hf' with rfl | hf'
    · exact ⟨c, rx, hlookup, hphase, hseen⟩
    · exact h.waiting f' hf'

/-- A channel with a handle is not closed. -/
theorem send_eq {s : System} {handle : Nat} (h : s.Owned handle) :
    s.send = { s with value := true, version := s.version + 1, waiting := [] } := by
  rw [System.send, System.closed, owned_ne_empty h]
  rfl

theorem Inv.send {s : System} (h : Inv s) {handle : Nat} (howned : s.Owned handle) :
    Inv s.send := by
  rw [send_eq howned]
  refine ⟨fun h' rx hlookup => (h.handles h' rx hlookup).trans (Nat.le_succ _), ?_, ?_⟩
  · intro f c hlookup
    have hfine := h.futures f c hlookup
    refine ⟨hfine.owned, fun rx hrx => (hfine.seen rx hrx).trans (Nat.le_succ _), ?_, fun _ => rfl⟩
    intro _ rx hphase
    exact Nat.lt_succ_of_le (hfine.seen rx (by rw [hphase]; rfl))
  · intro f hf
    cases hf

theorem exec_poll {s : System} {f : Nat} {c : Cancelled} (h : s.futures.lookup f = some c) :
    (exec s (.poll f)).2 = s.pollStep f c := by
  simp only [exec, h]

/-- **The invariant is kept** by whatever ownership allows. -/
theorem Inv.exec {s : System} {act : Act} (h : Inv s) (hallowed : Allowed s act) :
    Inv (exec s act).2 := by
  cases act with
  | clone handle copy =>
    obtain ⟨rx, hrx⟩ := Option.isSome_iff_exists.mp hallowed.1
    have hexec : (Shutdown.exec s (.clone handle copy)).2 =
        { s with handles := AList.insert copy rx s.handles } := by
      simp only [Shutdown.exec, hrx]
    rw [hexec]
    refine ⟨?_, ?_, h.waiting⟩
    · intro h' rx' hlookup
      by_cases hcopy : h' = copy
      · subst hcopy
        rw [AList.lookup_insert] at hlookup
        rw [← Option.some.inj hlookup]
        exact h.handles handle rx hrx
      · rw [AList.lookup_insert_ne hcopy] at hlookup
        exact h.handles h' rx' hlookup
    · intro f c hlookup
      refine (h.futures f c hlookup).congr ?_ rfl rfl
      intro howned
      by_cases hcopy : c.handle = copy
      · rw [System.Owned, hcopy, AList.lookup_insert]
        rfl
      · rw [System.Owned, AList.lookup_insert_ne hcopy]
        exact howned
  | drop handle =>
    refine ⟨?_, ?_, h.waiting⟩
    · intro h' rx hlookup
      by_cases hthis : h' = handle
      · subst hthis
        rw [Shutdown.exec, AList.lookup_erase] at hlookup
        cases hlookup
      · rw [Shutdown.exec, AList.lookup_erase_ne hthis] at hlookup
        exact h.handles h' rx hlookup
    · intro f c hlookup
      refine (h.futures f c hlookup).congr ?_ rfl rfl
      intro howned
      rw [System.Owned, Shutdown.exec, AList.lookup_erase_ne (hallowed.2 f c hlookup)]
      exact howned
  | trigger handle => exact h.send hallowed
  | isTriggered handle => exact h
  | cancelled handle future =>
    refine ⟨h.handles, ?_, ?_⟩
    · intro f c hlookup
      by_cases hthis : f = future
      · subst hthis
        rw [Shutdown.exec, AList.lookup_insert] at hlookup
        obtain rfl := Option.some.inj hlookup
        exact ⟨hallowed.1, by simp [Phase.receiver], by simp, by simp⟩
      · rw [Shutdown.exec, AList.lookup_insert_ne hthis] at hlookup
        exact (h.futures f c hlookup).congr id rfl rfl
    · intro f hf
      obtain ⟨c, rx, hlookup, hrest⟩ := h.waiting f hf
      have hthis : f ≠ future := by
        rintro rfl
        rw [hallowed.2] at hlookup
        cases hlookup
      exact ⟨c, rx, by rw [Shutdown.exec, AList.lookup_insert_ne hthis]; exact hlookup, hrest⟩
  | poll future =>
    obtain ⟨c, hlookup, hlive⟩ := hallowed
    rw [exec_poll hlookup]
    exact h.pollStep hlookup hlive
  | forget future =>
    refine ⟨h.handles, ?_, ?_⟩
    · intro f c hlookup
      by_cases hthis : f = future
      · subst hthis
        rw [Shutdown.exec, AList.lookup_erase] at hlookup
        cases hlookup
      · rw [Shutdown.exec, AList.lookup_erase_ne hthis] at hlookup
        exact (h.futures f c hlookup).congr id rfl rfl
    · intro f hf
      obtain ⟨hmem, hthis⟩ := List.mem_filter.mp hf
      obtain ⟨c, rx, hlookup, hrest⟩ := h.waiting f hmem
      refine ⟨c, rx, ?_, hrest⟩
      rw [Shutdown.exec, AList.lookup_erase_ne (of_decide_eq_true hthis)]
      exact hlookup

/-! ## Once the flag is up -/

/-- The flag goes up with the first trigger, and stays up. -/
theorem exec_value {s : System} {act : Act} (h : Inv s) (hallowed : Allowed s act) :
    (exec s act).2.value = true ↔ s.value = true ∨ ∃ handle, act = .trigger handle := by
  have hsame : (∀ handle, act ≠ .trigger handle) → (exec s act).2.value = s.value →
      ((exec s act).2.value = true ↔ s.value = true ∨ ∃ handle, act = .trigger handle) := by
    intro hother hvalue
    rw [hvalue]
    exact ⟨.inl, fun hor => hor.resolve_right fun hex => hother hex.choose hex.choose_spec⟩
  cases act with
  | clone handle copy =>
    refine hsame (fun _ heq => by cases heq) ?_
    obtain ⟨rx, hrx⟩ := Option.isSome_iff_exists.mp hallowed.1
    simp only [exec, hrx]
  | trigger handle =>
    refine ⟨fun _ => .inr ⟨handle, rfl⟩, fun _ => ?_⟩
    rw [exec, send_eq hallowed]
  | poll future =>
    refine hsame (fun _ heq => by cases heq) ?_
    obtain ⟨c, hlookup, hlive⟩ := hallowed
    rw [exec_poll hlookup]
    rcases pollStep_cases h hlookup hlive with ⟨phase, hmove, -⟩ | ⟨rx, -, -, -, hsleep⟩
    · rw [hmove]
      rfl
    · rw [hsleep]
  | drop | isTriggered | cancelled | forget => exact hsame (fun _ heq => by cases heq) rfl

/-- Once the flag is up, an operation of its poll brings a future one nearer to its end, and
nothing else touches it. -/
theorem exec_pollsLeft {s : System} {act : Act} (h : Inv s) (hallowed : Allowed s act)
    (hvalue : s.value = true) {f : Nat} {c : Cancelled} (hlookup : s.futures.lookup f = some c)
    (hkept : act ≠ .forget f) :
    ∃ c', (exec s act).2.futures.lookup f = some c' ∧
      c'.phase.pollsLeft + (if act = .poll f then 1 else 0) = c.phase.pollsLeft := by
  have hsame : act ≠ .poll f → (exec s act).2.futures.lookup f = s.futures.lookup f →
      ∃ c', (exec s act).2.futures.lookup f = some c' ∧
        c'.phase.pollsLeft + (if act = .poll f then 1 else 0) = c.phase.pollsLeft := by
    intro hother heq
    exact ⟨c, heq.trans hlookup, by rw [if_neg hother, Nat.add_zero]⟩
  cases act with
  | clone handle copy =>
    refine hsame (fun heq => by cases heq) ?_
    obtain ⟨rx, hrx⟩ := Option.isSome_iff_exists.mp hallowed.1
    simp only [exec, hrx]
  | trigger handle =>
    refine hsame (fun heq => by cases heq) ?_
    rw [exec, send_eq hallowed]
  | cancelled handle future =>
    refine hsame (fun heq => by cases heq) (AList.lookup_insert_ne ?_)
    rintro rfl
    rw [hallowed.2] at hlookup
    cases hlookup
  | poll future =>
    obtain ⟨c', hlookup', hlive⟩ := hallowed
    rw [exec_poll hlookup'] at hsame ⊢
    rcases pollStep_cases h hlookup' hlive with ⟨phase, hmove, -, -, hleft⟩ | ⟨rx, -, -, hdown, -⟩
    · rw [hmove] at hsame ⊢
      by_cases hthis : f = future
      · subst hthis
        rw [hlookup] at hlookup'
        obtain rfl := Option.some.inj hlookup'
        exact ⟨_, AList.lookup_insert _, by rw [if_pos rfl]; exact hleft hvalue⟩
      · refine hsame (fun heq => hthis (Act.poll.inj heq).symm) (AList.lookup_insert_ne hthis)
    · rw [hvalue] at hdown
      cases hdown
  | forget future =>
    refine hsame (fun heq => by cases heq) (AList.lookup_erase_ne ?_)
    rintro rfl
    exact hkept rfl
  | drop | isTriggered => exact hsame (fun heq => by cases heq) rfl

/-- In any run from there, what a future still needs is what is left of it. -/
theorem run_pollsLeft {s : System} (h : Inv s) (hvalue : s.value = true) {f : Nat} {c : Cancelled}
    (hlookup : s.futures.lookup f = some c) {more : List Act}
    (hmore : Along exec Allowed s more) (hkept : Act.forget f ∉ more) :
    ∃ c', (runFrom exec s more).futures.lookup f = some c' ∧
      c'.phase.pollsLeft + more.count (.poll f) = c.phase.pollsLeft := by
  induction more generalizing s c with
  | nil => exact ⟨c, hlookup, rfl⟩
  | cons act more ih =>
    rw [List.mem_cons, not_or] at hkept
    obtain ⟨c', hlookup', hleft⟩ :=
      exec_pollsLeft h hmore.1 hvalue hlookup (Ne.symm hkept.1)
    obtain ⟨c'', hend, hrest⟩ := ih (h.exec hmore.1) ((exec_value h hmore.1).mpr (.inl hvalue))
      hlookup' hmore.2 hkept.2
    refine ⟨c'', hend, ?_⟩
    rw [List.count_cons]
    simp only [beq_iff_eq]
    omega

/-! ## The handle -/

/-- There has been a trigger. -/
def Triggered (acts : List Act) : Prop := ∃ handle, Act.trigger handle ∈ acts

/-- After these acts the flag says whether there has been a trigger, and no future has resolved
unless there has; once there has, no future sleeps, and one that is not dropped resolves with the
second operation of its polls, whatever else is done meanwhile. -/
structure Reliable (acts : List Act) (s : System) : Prop where
  flag : (exec s (.isTriggered 0)).1 = some true ↔ Triggered acts
  resolved : ∀ f c, s.futures.lookup f = some c → c.phase = .resolved → Triggered acts
  awake : Triggered acts → s.waiting = []
  ends : Triggered acts → ∀ f c, s.futures.lookup f = some c → ∀ more,
    Along exec Allowed s more → Act.forget f ∉ more → 2 ≤ more.count (.poll f) →
    ∃ c', (runFrom exec s more).futures.lookup f = some c' ∧ c'.phase = .resolved

theorem run_inv {acts : List Act} (h : Along exec Allowed new acts) :
    Inv (runFrom exec new acts) ∧
      ((runFrom exec new acts).value = true ↔ Triggered acts) := by
  induction acts using List.reverseRecOn with
  | nil => exact ⟨Inv.new, by simp [Triggered, new]⟩
  | append_singleton acts act ih =>
    obtain ⟨hacts, hact⟩ := Along.append.mp h
    obtain ⟨hinv, hflag⟩ := ih hacts
    rw [runFrom_append]
    refine ⟨hinv.exec hact.1, ?_⟩
    show (exec _ act).2.value = true ↔ _
    rw [exec_value hinv hact.1, hflag]
    simp only [Triggered, List.mem_append, List.mem_singleton, exists_or, eq_comm]

theorem pollsLeft_le (phase : Phase) : phase.pollsLeft ≤ 2 := by
  cases phase <;> simp [Phase.pollsLeft]

theorem pollsLeft_eq_zero {phase : Phase} (h : phase.pollsLeft = 0) : phase = .resolved := by
  cases phase with
  | resolved => rfl
  | fresh | checking | changing | rechecking => cases h

/-- **The shutdown handle is reliable**, in every run that ownership allows. -/
theorem shutdown_reliable {acts : List Act} (h : Along exec Allowed new acts) :
    Reliable acts (runFrom exec new acts) := by
  obtain ⟨hinv, hflag⟩ := run_inv h
  refine ⟨?_, ?_, ?_, ?_⟩
  · rw [← hflag]
    exact Option.some_inj
  · intro f c hlookup hphase
    exact hflag.mp ((hinv.futures f c hlookup).resolved hphase)
  · intro htriggered
    exact hinv.awake (hflag.mpr htriggered)
  · intro htriggered f c hlookup more hmore hkept hpolls
    obtain ⟨c', hend, hleft⟩ := run_pollsLeft hinv (hflag.mpr htriggered) hlookup hmore hkept
    have hle := pollsLeft_le c.phase
    exact ⟨c', hend, pollsLeft_eq_zero (by omega)⟩

/-- A future falls asleep, and another handle triggers. -/
def wokenUp : List Act :=
  [.cancelled 0 7, .poll 7, .poll 7, .poll 7, .clone 0 1, .trigger 1]

theorem wokenUp_reliable : Reliable wokenUp (runFrom exec new wokenUp) :=
  shutdown_reliable ⟨⟨rfl, rfl⟩, ⟨_, rfl, by decide⟩, ⟨_, rfl, by decide⟩, ⟨_, rfl, by decide⟩,
    ⟨rfl, rfl⟩, rfl, trivial⟩

end RustFundamentals.Aprobe.Shutdown
