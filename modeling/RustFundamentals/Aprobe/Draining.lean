import RustFundamentals.Aprobe.Proxy
import RustFundamentals.Foundation.Modify

/-!
# aprobe: what ends a handler

A handler that is running goes on, comes to its own end, or is aborted when shutdown has been
requested for `DRAIN_TIMEOUT`. The one step that does otherwise is an `accept` that fails while
handlers are running: it returns from `run_proxy`, and their tasks go with the `JoinSet`
(`handlers_kept_iff`).
-/

namespace RustFundamentals.Aprobe

open Foundation

/-! ## Handlers -/

/-- A step of a handler itself: it goes on, or comes to an end and stays there. -/
structure OwnStep (f : Handler → Handler) : Prop where
  ended : ∀ h, h.live = false → f h = h
  live : ∀ h, h.live = true → (f h).live = true ∨ ∃ r, f h = .ended r

theorem connected_own (r : Except IoError Unit) : OwnStep (Handler.connected r) where
  ended := by
    intro h hended
    cases h <;> first | rfl | cases hended
  live := by
    intro h hlive
    cases h with
    | connecting =>
      cases r with
      | ok _ => exact .inl rfl
      | error e => exact .inr ⟨.error e, rfl⟩
    | copying => exact .inl rfl
    | ended r => cases hlive
    | aborted => cases hlive

theorem copied_own (r : Except IoError (Nat × Nat)) : OwnStep (Handler.copied r) where
  ended := by
    intro h hended
    cases h <;> first | rfl | cases hended
  live := by
    intro h hlive
    cases h with
    | connecting => exact .inl rfl
    | copying =>
      cases r with
      | ok n => exact .inr ⟨.ok ⟨n.1, n.2⟩, rfl⟩
      | error e => exact .inr ⟨.error e, rfl⟩
    | ended r => cases hlive
    | aborted => cases hlive

theorem Handler.abort_live (h : Handler) : h.abort.live = false := by
  cases h <;> rfl

theorem Handler.abort_of_live {h : Handler} (hlive : h.live = true) : h.abort = .aborted := by
  rw [Handler.abort, if_pos hlive]

/-! ## What an event does -/

namespace Proxy

/-- The effect of an event: none, or the one its guard lets it have. -/
inductive Move (p : Proxy) : Event → Proxy → Prop
  | idle {e : Event} : Move p e p
  | bound : p.phase = .binding → Move p (.bound (.ok ())) { p with phase := .accepting }
  | unbound {err : IoError} : p.phase = .binding →
      Move p (.bound (.error err)) { p with phase := .returned (.error err) }
  | spawned : p.phase = .accepting → Move p (.accepted (.ok ())) p.spawn
  | failed {err : IoError} : p.phase = .accepting →
      Move p (.accepted (.error err)) { p.abortAll with phase := .returned (.error err) }
  | connected {task : Nat} {r : Except IoError Unit} :
      Move p (.connected task r) (p.handle task (Handler.connected r))
  | copied {task : Nat} {r : Except IoError (Nat × Nat)} :
      Move p (.copied task r) (p.handle task (Handler.copied r))
  | triggered : Move p .trigger { p with triggered := some (p.triggered.getD p.now) }
  | cancelled {t : Time} : p.phase = .accepting → p.triggered = some t →
      Move p .cancelled { p with phase := .draining (p.now + drainTimeout) }
  | elapsed {d : Time} : Move p (.elapse d) { p with now := p.now + d }
  | joined {task : Nat} : Move p (.joined task) (p.join task)
  | emptied : p.allJoined = true → Move p .emptied { p with phase := .returned (.ok ()) }
  | timedOut {d : Time} : p.phase = .draining d → d ≤ p.now →
      Move p .timedOut { p.abortAll with phase := .aborting }

theorem step_move (p : Proxy) (e : Event) : Move p e (p.step e) := by
  cases e with
  | bound r =>
    cases hphase : p.phase <;> simp only [step, hphase]
    case binding =>
      cases r with
      | ok _ => exact .bound hphase
      | error err => exact .unbound hphase
    all_goals exact .idle
  | accepted r =>
    cases hphase : p.phase <;> simp only [step, hphase]
    case accepting =>
      cases r with
      | ok _ => exact .spawned hphase
      | error err => exact .failed hphase
    all_goals exact .idle
  | connected task r => exact .connected
  | copied task r => exact .copied
  | trigger => exact .triggered
  | cancelled =>
    cases ht : p.triggered with
    | none =>
      cases hphase : p.phase <;> simp only [step, hphase, ht] <;> exact .idle
    | some t =>
      cases hphase : p.phase <;> simp only [step, hphase, ht]
      case accepting => exact ht ▸ .cancelled hphase ht
      all_goals exact .idle
  | elapse d => exact .elapsed
  | joined task =>
    cases hphase : p.phase <;> simp only [step, hphase]
    case draining => exact .joined
    case aborting => exact .joined
    all_goals exact .idle
  | emptied =>
    cases hphase : p.phase <;> simp only [step, hphase]
    case draining | aborting =>
      split
      · next hall => exact .emptied hall
      · exact .idle
    all_goals exact .idle
  | timedOut =>
    cases hphase : p.phase <;> simp only [step, hphase]
    case draining d =>
      split
      · next hdue => exact .timedOut hphase hdue.1
      · exact .idle
    all_goals exact .idle

/-! ## The invariant -/

/-- Shutdown was requested `DRAIN_TIMEOUT` ago, or longer. -/
def PastDeadline (p : Proxy) : Prop := ∃ t, p.triggered = some t ∧ t + drainTimeout ≤ p.now

/-- `run_proxy` has stopped waiting for its tasks. -/
def Settled (p : Proxy) : Prop := p.phase = .aborting ∨ ∃ r, p.phase = .returned r

/-- What holds at all times. -/
structure Consistent (p : Proxy) : Prop where
  fresh : p.phase = .binding → p.slots = []
  clock : ∀ t, p.triggered = some t → t ≤ p.now
  deadline : ∀ d, p.phase = .draining d → ∃ t, p.triggered = some t ∧ t + drainTimeout ≤ d
  joined : ∀ slot ∈ p.slots, slot.joined = true → slot.handler.live = false
  settled : p.Settled → ∀ slot ∈ p.slots, slot.handler.live = false

theorem start_consistent : start.Consistent where
  fresh := fun _ => rfl
  clock := nofun
  deadline := nofun
  joined := nofun
  settled := nofun

/-- A task may change when what has ended stays so, and only what has ended comes to be joined. -/
theorem Consistent.modify {p : Proxy} (h : p.Consistent) (task : Nat) {f : Slot → Slot}
    (hended : ∀ slot, slot.handler.live = false → (f slot).handler.live = false)
    (hjoined : ∀ slot, (f slot).joined = true →
      slot.joined = true ∨ (f slot).handler.live = false) :
    ({ p with slots := p.slots.modify task f } : Proxy).Consistent where
  fresh := by
    intro hphase
    show p.slots.modify task f = []
    rw [h.fresh hphase, List.modify_nil]
  clock := h.clock
  deadline := h.deadline
  joined := by
    intro slot hslot hnow
    rcases mem_modify hslot with hold | ⟨slot₀, hold, rfl⟩
    · exact h.joined slot hold hnow
    · rcases hjoined slot₀ hnow with hbefore | hlive
      · exact hended slot₀ (h.joined slot₀ hold hbefore)
      · exact hlive
  settled := by
    intro hsettled slot hslot
    rcases mem_modify hslot with hold | ⟨slot₀, hold, rfl⟩
    · exact h.settled hsettled slot hold
    · exact hended slot₀ (h.settled hsettled slot₀ hold)

theorem Consistent.handle {p : Proxy} (h : p.Consistent) (task : Nat) {f : Handler → Handler}
    (hf : OwnStep f) : (p.handle task f).Consistent := by
  refine h.modify task (fun slot hended => ?_) fun slot hjoined => .inl hjoined
  show (f slot.handler).live = false
  rw [hf.ended _ hended, hended]

theorem abortAll_live {p : Proxy} {slot : Slot} (h : slot ∈ p.abortAll.slots) :
    slot.handler.live = false := by
  obtain ⟨slot₀, -, rfl⟩ := List.mem_map.mp h
  exact slot₀.handler.abort_live

/-- Once the tasks are aborted, the proxy may be anywhere but before or in its drain. -/
theorem Consistent.abortAll {p : Proxy} (h : p.Consistent) {phase : Phase}
    (hbinding : phase ≠ .binding) (hphase : ∀ d, phase ≠ .draining d) :
    ({ p.abortAll with phase := phase } : Proxy).Consistent where
  fresh := fun hb => absurd hb hbinding
  clock := h.clock
  deadline := fun d hd => absurd hd (hphase d)
  joined := fun _ hslot _ => abortAll_live hslot
  settled := fun _ _ hslot => abortAll_live hslot

theorem Consistent.join {p : Proxy} (h : p.Consistent) (task : Nat) :
    (p.join task).Consistent := by
  refine h.modify task (fun slot hended => hended) fun slot hjoined => ?_
  exact ((Bool.or_eq_true _ _).mp hjoined).imp_right fun hended => by simpa using hended

/-- When everything is joined, nothing is running. -/
theorem Consistent.allJoined {p : Proxy} (h : p.Consistent) (hall : p.allJoined = true) :
    ∀ slot ∈ p.slots, slot.handler.live = false := by
  intro slot hslot
  exact h.joined slot hslot (List.all_eq_true.mp hall slot hslot)

/-- Only the phase changes, to one that is neither before nor in the drain. -/
theorem Consistent.setPhase {p : Proxy} (h : p.Consistent) {phase : Phase}
    (hbinding : phase ≠ .binding) (hphase : ∀ d, phase ≠ .draining d)
    (hsettled : phase = .accepting ∨ ∀ slot ∈ p.slots, slot.handler.live = false) :
    ({ p with phase := phase } : Proxy).Consistent where
  fresh := fun hb => absurd hb hbinding
  clock := h.clock
  deadline := fun d hd => absurd hd (hphase d)
  joined := h.joined
  settled := by
    intro hs
    rcases hsettled with rfl | hdead
    · rcases hs with hs | ⟨r, hs⟩ <;> cases hs
    · exact hdead

/-- **Every event keeps the invariant**, a failed `accept` too. -/
theorem Consistent.step {p : Proxy} (h : p.Consistent) (e : Event) : (p.step e).Consistent := by
  suffices hall : ∀ p', Move p e p' → p'.Consistent from hall _ (step_move p e)
  intro p' hmove
  cases hmove with
  | idle => exact h
  | bound hphase => exact h.setPhase nofun nofun (.inl rfl)
  | unbound hphase =>
    refine h.setPhase nofun nofun (.inr ?_)
    intro slot hslot
    rw [h.fresh hphase] at hslot
    cases hslot
  | spawned hphase =>
    refine ⟨?_, h.clock, h.deadline, ?_, ?_⟩
    · intro hb
      cases hphase.symm.trans hb
    · intro slot hslot hjoined
      rcases List.mem_append.mp hslot with hslot | hslot
      · exact h.joined slot hslot hjoined
      · rw [List.mem_singleton.mp hslot] at hjoined
        cases hjoined
    · intro hs
      rcases hs with hs | ⟨r, hs⟩ <;> cases hphase.symm.trans hs
  | failed hphase => exact h.abortAll nofun nofun
  | connected => exact h.handle _ (connected_own _)
  | copied => exact h.handle _ (copied_own _)
  | triggered =>
    refine ⟨h.fresh, ?_, ?_, h.joined, h.settled⟩
    · intro t ht
      cases hprev : p.triggered with
      | none =>
        obtain rfl : p.now = t := by simpa [hprev] using ht
        exact Nat.le_refl _
      | some t₀ =>
        obtain rfl : t₀ = t := by simpa [hprev] using ht
        exact h.clock t₀ hprev
    · intro d hd
      obtain ⟨t, ht, hle⟩ := h.deadline d hd
      exact ⟨t, by simp [ht], hle⟩
  | @cancelled t hphase ht =>
    refine ⟨nofun, h.clock, ?_, h.joined, ?_⟩
    · intro d hd
      cases hd
      exact ⟨t, ht, Nat.add_le_add_right (h.clock t ht) _⟩
    · intro hs
      rcases hs with hs | ⟨r, hs⟩ <;> cases hs
  | elapsed =>
    exact ⟨h.fresh, fun t ht => Nat.le_add_right_of_le (h.clock t ht), h.deadline, h.joined,
      h.settled⟩
  | joined => exact h.join _
  | emptied hall => exact h.setPhase nofun nofun (.inr (h.allJoined hall))
  | timedOut hphase hdue => exact h.abortAll nofun nofun

/-! ## The handlers over a run -/

/-- What may become of a handler that is running: it goes on, and `run_proxy` has not returned;
it comes to its own end; or it is aborted past the deadline. -/
def HandlersKept (p : Proxy) (e : Event) : Prop :=
  ∀ (task : Nat) (slot : Slot), p.slots[task]? = some slot → slot.handler.live = true →
    ∃ slot' : Slot, (p.step e).slots[task]? = some slot' ∧
      ((slot'.handler.live = true ∧ ∀ r, (p.step e).phase ≠ .returned r) ∨
        (∃ r, slot'.handler = .ended r) ∨
        (slot'.handler = .aborted ∧ p.PastDeadline))

/-- An `accept` fails while a handler is running and has not reached the deadline. -/
def AcceptFails (p : Proxy) (e : Event) : Prop :=
  (∃ err, e = .accepted (.error err)) ∧ p.phase = .accepting ∧
    (∃ slot ∈ p.slots, slot.handler.live = true) ∧ ¬ p.PastDeadline

theorem getElem?_abortAll {p : Proxy} {task : Nat} {slot : Slot}
    (hslot : p.slots[task]? = some slot) (hlive : slot.handler.live = true) :
    p.abortAll.slots[task]? = some ⟨.aborted, slot.joined⟩ := by
  show (p.slots.map _)[task]? = _
  rw [List.getElem?_map, hslot, Option.map_some, Handler.abort_of_live hlive]

theorem getElem?_handle {p : Proxy} {task : Nat} {slot : Slot}
    (hslot : p.slots[task]? = some slot) (hlive : slot.handler.live = true) {i : Nat}
    {f : Handler → Handler} (hf : OwnStep f) :
    ∃ slot', (p.handle i f).slots[task]? = some slot' ∧
      (slot'.handler.live = true ∨ ∃ r, slot'.handler = .ended r) := by
  show ∃ slot', (p.slots.modify i _)[task]? = some slot' ∧ _
  rw [List.getElem?_modify, hslot]
  by_cases hi : i = task
  · refine ⟨_, rfl, ?_⟩
    simp only [if_pos hi]
    exact hf.live _ hlive
  · refine ⟨_, rfl, ?_⟩
    simp only [if_neg hi]
    exact .inl hlive

theorem handler_kept {p : Proxy} (h : p.Consistent) {e : Event} (hok : ¬ p.AcceptFails e) :
    p.HandlersKept e := by
  intro task slot hslot hlive
  have hmem : slot ∈ p.slots := List.mem_iff_getElem?.mpr ⟨task, hslot⟩
  have hrunning : ∀ r, p.phase ≠ .returned r := by
    intro r hr
    rw [h.settled (.inr ⟨r, hr⟩) slot hmem] at hlive
    cases hlive
  have hmove := step_move p e
  generalize p.step e = p' at hmove
  cases hmove with
  | idle => exact ⟨slot, hslot, .inl ⟨hlive, hrunning⟩⟩
  | bound => exact ⟨slot, hslot, .inl ⟨hlive, nofun⟩⟩
  | unbound hphase =>
    rw [h.fresh hphase] at hmem
    cases hmem
  | spawned hphase =>
    have hlt : task < p.slots.length := (List.getElem?_eq_some_iff.mp hslot).1
    exact ⟨slot, (List.getElem?_append_left hlt).trans hslot, .inl ⟨hlive, hrunning⟩⟩
  | @failed err hphase =>
    have hpast : p.PastDeadline := by
      by_contra hpast
      exact hok ⟨⟨err, rfl⟩, hphase, ⟨slot, hmem, hlive⟩, hpast⟩
    exact ⟨_, getElem?_abortAll hslot hlive, .inr (.inr ⟨rfl, hpast⟩)⟩
  | connected =>
    obtain ⟨slot', hslot', hgoes | hends⟩ := getElem?_handle hslot hlive (connected_own _)
    · exact ⟨slot', hslot', .inl ⟨hgoes, hrunning⟩⟩
    · exact ⟨slot', hslot', .inr (.inl hends)⟩
  | copied =>
    obtain ⟨slot', hslot', hgoes | hends⟩ := getElem?_handle hslot hlive (copied_own _)
    · exact ⟨slot', hslot', .inl ⟨hgoes, hrunning⟩⟩
    · exact ⟨slot', hslot', .inr (.inl hends)⟩
  | triggered => exact ⟨slot, hslot, .inl ⟨hlive, hrunning⟩⟩
  | cancelled => exact ⟨slot, hslot, .inl ⟨hlive, nofun⟩⟩
  | elapsed => exact ⟨slot, hslot, .inl ⟨hlive, hrunning⟩⟩
  | @joined i =>
    show ∃ slot' : Slot, (p.slots.modify i _)[task]? = some slot' ∧ _
    rw [List.getElem?_modify, hslot]
    refine ⟨_, rfl, .inl ⟨?_, hrunning⟩⟩
    split <;> exact hlive
  -- `run_proxy` returns when every task is joined, and this one is running
  | emptied hall =>
    rw [h.allJoined hall slot hmem] at hlive
    cases hlive
  | @timedOut d hphase hdue =>
    obtain ⟨t, ht, hle⟩ := h.deadline d hphase
    exact ⟨_, getElem?_abortAll hslot hlive, .inr (.inr ⟨rfl, t, ht, hle.trans hdue⟩)⟩

/-- A failed `accept` takes the handlers down with it. -/
theorem acceptFails_cuts {p : Proxy} {e : Event} (h : p.AcceptFails e) : ¬ p.HandlersKept e := by
  obtain ⟨⟨err, rfl⟩, hphase, ⟨slot, hmem, hlive⟩, hpast⟩ := h
  obtain ⟨task, hslot⟩ := List.mem_iff_getElem?.mp hmem
  intro hkept
  obtain ⟨slot', hslot', hfate⟩ := hkept task slot hslot hlive
  have hstep : p.step (.accepted (.error err)) =
      { p.abortAll with phase := .returned (.error err) } := by
    simp only [step, hphase]
  rw [hstep] at hslot' hfate
  have haborted := (getElem?_abortAll hslot hlive).symm.trans hslot'
  cases haborted
  rcases hfate with ⟨hgoes, -⟩ | ⟨r, hends⟩ | ⟨-, hdue⟩
  · cases hgoes
  · cases hends
  · exact hpast hdue

/-- **Handlers are cut only by the drain deadline exactly in the runs in which no `accept` fails
while one is running.** -/
theorem handlers_kept_iff (es : List Event) :
    Along exec HandlersKept start es ↔ Along exec (fun p e => ¬ p.AcceptFails e) start es :=
  Along.iff_of_invariant Consistent
    (fun _ _ h => ⟨fun hkept hfails => acceptFails_cuts hfails hkept, handler_kept h⟩)
    (fun _ e h _ => h.step e) start_consistent es

/-- A handler is copying when the next `accept` finds the connection already reset. -/
def resetInBacklog : List Event :=
  [.bound (.ok ()), .accepted (.ok ()), .connected 0 (.ok ()),
    .accepted (.error "connection aborted".toList)]

theorem resetInBacklog_cuts :
    runFrom exec start resetInBacklog =
        ⟨.returned (.error "connection aborted".toList), [⟨.aborted, false⟩], none, 0⟩ ∧
      ¬ Along exec HandlersKept start resetInBacklog := by
  refine ⟨by decide, ?_⟩
  intro hkept
  obtain ⟨slot, hslot, hfate⟩ := hkept.2.2.2.1 0 ⟨.copying, false⟩ rfl rfl
  obtain rfl : ⟨.aborted, false⟩ = slot := Option.some.inj hslot
  rcases hfate with ⟨hgoes, -⟩ | ⟨r, hends⟩ | ⟨-, t, ht, -⟩
  · cases hgoes
  · cases hends
  · cases ht

end Proxy

end RustFundamentals.Aprobe
