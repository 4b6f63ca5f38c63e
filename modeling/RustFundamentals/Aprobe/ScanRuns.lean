import RustFundamentals.Aprobe.Scanner
import RustFundamentals.Aprobe.TargetGrammar
import RustFundamentals.Foundation.Modify

/-!
# aprobe: a scan under every schedule

Permits are given out or left, the tasks have the ports in their order, and every outcome is
collected once; so a scan that has joined its tasks has, sorted by port, what the sequential scan
has. Every event that happens takes the scan closer to its end, and as long as it has not returned
one can happen. Only a semaphore that is too large keeps it from starting (`scan_agrees_iff`).
-/

namespace RustFundamentals.Aprobe

open Foundation

namespace Scan

/-! ## What an event does -/

/-- The effect of an event: none, or the one its guard lets it have. -/
inductive Move (s : Scan) : ScanEvent → Scan → Prop
  | idle {e : ScanEvent} : Move s e s
  | left : s.phase = .acquiring [] → Move s .turn { s with phase := .joining [] }
  | acquired {port : Nat} {ports : List Nat} : s.phase = .acquiring (port :: ports) →
      s.permits ≠ 0 →
      Move s .turn { s with phase := .spawning port ports, permits := s.permits - 1 }
  | spawned {port : Nat} {ports : List Nat} : s.phase = .spawning port ports →
      Move s .turn { s with phase := .acquiring ports, tasks := s.tasks ++ [⟨port, .probing⟩] }
  | returned {outcomes : List ScanOutcome} : s.phase = .joining outcomes →
      (∀ t ∈ s.tasks, t.isJoined = true) →
      Move s .turn { s with phase := .returned (sortByPort outcomes) }
  | connected {i port : Nat} {c : Connect} : s.tasks[i]? = some ⟨port, .probing⟩ →
      Move s (.connected i c) (s.become i (.probed (probePort port c)))
  | released {i port : Nat} {o : ScanOutcome} : s.tasks[i]? = some ⟨port, .probed o⟩ →
      Move s (.released i) { s.become i (.ended o) with permits := s.permits + 1 }
  | joined {i port : Nat} {o : ScanOutcome} {outcomes : List ScanOutcome} :
      s.phase = .joining outcomes → s.tasks[i]? = some ⟨port, .ended o⟩ →
      Move s (.joined i) { s.become i .joined with phase := .joining (outcomes ++ [o]) }

theorem turn_move (s : Scan) : Move s .turn s.turn := by
  unfold turn
  split
  · next hphase => exact .left hphase
  · next hphase =>
    split
    · exact .idle
    · next hpermits => exact .acquired hphase hpermits
  · next hphase => exact .spawned hphase
  · next hphase =>
    split
    · next hall => exact .returned hphase (List.all_eq_true.mp hall)
    · exact .idle
  · exact .idle
  · exact .idle

theorem step_move (s : Scan) (e : ScanEvent) : Move s e (s.step e) := by
  cases e with
  | turn => exact s.turn_move
  | connected i c =>
    rw [step]
    split
    · next htask => exact .connected htask
    · exact .idle
  | released i =>
    rw [step]
    split
    · next htask => exact .released htask
    · exact .idle
  | joined i =>
    rw [step]
    split
    · next hphase htask => exact .joined hphase htask
    · exact .idle

/-! ## The invariant -/

/-- The ports that have no task yet. -/
def pending (s : Scan) : List Nat :=
  match s.phase with
  | .acquiring ports => ports
  | .spawning port ports => port :: ports
  | .joining _ | .returned _ | .panicked => []

/-- The permit that `scan` itself has. -/
def ownPermit (s : Scan) : Nat :=
  match s.phase with
  | .spawning _ _ => 1
  | _ => 0

/-- The outcomes that have been joined. -/
def collected (s : Scan) : List ScanOutcome :=
  match s.phase with
  | .joining outcomes | .returned outcomes => outcomes
  | _ => []

/-- The port and the state of an outcome. -/
def found (o : ScanOutcome) : Nat × PortState := (o.port, o.state)

/-- What is to be found at a port of the network. -/
def answer (network : Nat → PortState) (port : Nat) : Nat × PortState := (port, network port)

/-- Every `connect` comes to what the state of its port is. -/
def Answers (network : Nat → PortState) (s : Scan) (e : ScanEvent) : Prop :=
  ∀ i c, e = .connected i c → ∀ t, s.tasks[i]? = some t → c.state = network t.port

/-- What holds at all times. -/
structure Consistent (target : Target) (concurrency : Nat) (network : Nat → PortState)
    (s : Scan) : Prop where
  ports : s.tasks.map Spawned.port ++ s.pending = target.ports
  permits : s.permits + s.tasks.countP Spawned.holds + s.ownPermit = max concurrency 1
  outcomes : ∀ t ∈ s.tasks, ∀ o, t.task = .probed o ∨ t.task = .ended o →
    found o = answer network t.port
  collected : (s.collected.map found).Perm
    ((s.tasks.filter Spawned.isJoined).map fun t => answer network t.port)
  returned : ∀ os, s.phase = .returned os →
    os.Pairwise (fun a b => a.port ≤ b.port) ∧ ∀ t ∈ s.tasks, t.isJoined = true
  running : s.phase ≠ .panicked

variable {target : Target} {concurrency : Nat} {network : Nat → PortState} {s : Scan}

theorem start_consistent (h : max concurrency 1 ≤ maxPermits) :
    (start target concurrency).Consistent target concurrency network := by
  rw [start, if_neg (not_lt.mpr h)]
  exact ⟨rfl, rfl, nofun, .refl _, nofun, nofun⟩

theorem become_ports (s : Scan) (i : Nat) (task : ProbeTask) :
    (s.become i task).tasks.map Spawned.port = s.tasks.map Spawned.port :=
  map_modify_of_eq (f := fun t : Spawned => { t with task := task }) (fun _ => rfl) s.tasks i

/-- What becomes of a task that holds no outcome of its own, or the one it had. -/
theorem Consistent.become_outcomes (h : s.Consistent target concurrency network) {i port : Nat}
    {old task : ProbeTask} (hslot : s.tasks[i]? = some ⟨port, old⟩)
    (htask : ∀ o, task = .probed o ∨ task = .ended o → found o = answer network port) :
    ∀ t ∈ (s.become i task).tasks, ∀ o, t.task = .probed o ∨ t.task = .ended o →
      found o = answer network t.port := by
  intro t ht
  obtain ⟨j, hj⟩ := List.mem_iff_getElem?.mp ht
  rw [become, List.getElem?_modify] at hj
  obtain ⟨t₀, ht₀, rfl⟩ := Option.map_eq_some_iff.mp hj
  by_cases hij : i = j
  · subst hij
    obtain rfl := Option.some.inj (hslot.symm.trans ht₀)
    simpa using htask
  · simpa [if_neg hij] using h.outcomes t₀ (List.mem_of_getElem? ht₀)

/-- The joined tasks, when another task has changed. -/
theorem become_joined {i port : Nat} {old : ProbeTask} (task : ProbeTask)
    (hslot : s.tasks[i]? = some ⟨port, old⟩) (hold : old ≠ .joined) :
    ((s.become i task).tasks.filter Spawned.isJoined).Perm
      ((if Spawned.isJoined ⟨port, task⟩ then [⟨port, task⟩] else []) ++
        s.tasks.filter Spawned.isJoined) :=
  filter_modify_perm hslot _ (decide_eq_false hold)

theorem become_holds {i port : Nat} {old : ProbeTask} (task : ProbeTask)
    (hslot : s.tasks[i]? = some ⟨port, old⟩) :
    (s.become i task).tasks.countP Spawned.holds + (Spawned.holds ⟨port, old⟩).toNat =
      s.tasks.countP Spawned.holds + (Spawned.holds ⟨port, task⟩).toNat :=
  countP_modify hslot _ _

/-- A task that has not been joined goes on, and its permit with it. -/
theorem Consistent.become (h : s.Consistent target concurrency network) {i port permits : Nat}
    {old task : ProbeTask} (hslot : s.tasks[i]? = some ⟨port, old⟩) (hold : old ≠ .joined)
    (htask : task ≠ .joined)
    (hpermit : permits + (Spawned.holds ⟨port, task⟩).toNat =
      s.permits + (Spawned.holds ⟨port, old⟩).toNat)
    (houtcome : ∀ o, task = .probed o ∨ task = .ended o → found o = answer network port) :
    ({ s.become i task with permits := permits } : Scan).Consistent target concurrency network := by
  have hjoined := become_joined task hslot hold
  have hholds := become_holds task hslot
  have hpermits := h.permits
  rw [if_neg (by simpa [Spawned.isJoined] using htask), List.nil_append] at hjoined
  refine ⟨?_, ?_, h.become_outcomes hslot houtcome, ?_, ?_, h.running⟩
  · show (s.become i task).tasks.map Spawned.port ++ s.pending = _
    rw [become_ports]
    exact h.ports
  · show permits + (s.become i task).tasks.countP Spawned.holds + s.ownPermit = _
    omega
  · exact h.collected.trans (hjoined.map _).symm
  · intro os hos
    exact absurd (of_decide_eq_true ((h.returned os hos).2 _ (List.mem_of_getElem? hslot))) hold

theorem sortByPort_sorted (outcomes : List ScanOutcome) :
    (sortByPort outcomes).Pairwise fun a b => a.port ≤ b.port := by
  have hsorted := @List.pairwise_mergeSort ScanOutcome (fun a b => decide (a.port ≤ b.port))
    (by simpa using fun a b c => le_trans)
    (by simpa using fun a b : ScanOutcome => le_total a.port b.port) outcomes
  exact hsorted.imp (by simp)

/-- **Every event keeps the invariant.** -/
theorem Consistent.step (h : s.Consistent target concurrency network) {e : ScanEvent}
    (ha : Answers network s e) : (s.step e).Consistent target concurrency network := by
  suffices hall : ∀ s', Move s e s' → s'.Consistent target concurrency network from
    hall _ (step_move s e)
  intro s' hmove
  have hports := h.ports
  have hpermits := h.permits
  have hcollected := h.collected
  cases hmove with
  | idle => exact h
  | left hphase =>
    simp only [pending, ownPermit, Scan.collected, hphase] at hports hpermits hcollected
    exact ⟨hports, hpermits, h.outcomes, hcollected, nofun, nofun⟩
  | @acquired port ports hphase hne =>
    simp only [pending, ownPermit, Scan.collected, hphase] at hports hpermits hcollected
    refine ⟨hports, ?_, h.outcomes, hcollected, nofun, nofun⟩
    show s.permits - 1 + s.tasks.countP Spawned.holds + 1 = max concurrency 1
    omega
  | @spawned port ports hphase =>
    simp only [pending, ownPermit, Scan.collected, hphase] at hports hpermits hcollected
    refine ⟨?_, ?_, ?_, ?_, nofun, nofun⟩
    · show (s.tasks ++ [Spawned.mk port .probing]).map Spawned.port ++ ports = target.ports
      rw [List.map_append, List.append_assoc]
      exact hports
    · show s.permits + (s.tasks ++ [Spawned.mk port .probing]).countP Spawned.holds + 0 = _
      rw [List.countP_append]
      exact hpermits
    · intro t ht
      rcases List.mem_append.mp ht with ht | ht
      · exact h.outcomes t ht
      · obtain rfl := List.mem_singleton.mp ht
        rintro o (ho | ho) <;> cases ho
    · show (([] : List ScanOutcome).map found).Perm
        (((s.tasks ++ [Spawned.mk port .probing]).filter Spawned.isJoined).map _)
      rw [List.filter_append]
      simpa [Spawned.isJoined] using hcollected
  | @returned outcomes hphase hall =>
    simp only [pending, ownPermit, Scan.collected, hphase] at hports hpermits hcollected
    have hperm : (sortByPort outcomes).Perm outcomes := List.mergeSort_perm _ _
    refine ⟨hports, hpermits, h.outcomes, (hperm.map found).trans hcollected, ?_, nofun⟩
    intro os hos
    obtain rfl := ScanPhase.returned.inj hos
    exact ⟨sortByPort_sorted outcomes, hall⟩
  | @connected i port c hslot =>
    have hanswer : found (probePort port c) = answer network port :=
      Prod.ext rfl (ha i c rfl _ hslot)
    refine @Consistent.become _ _ _ _ h _ _ s.permits _ _ hslot nofun nofun rfl ?_
    intro o ho
    rcases ho with ho | ho <;> cases ho
    exact hanswer
  | @released i port o hslot =>
    refine h.become hslot nofun nofun rfl ?_
    intro o' ho
    rcases ho with ho | ho <;> cases ho
    exact h.outcomes _ (List.mem_of_getElem? hslot) o (.inl rfl)
  | @joined i port o outcomes hphase hslot =>
    simp only [pending, ownPermit, Scan.collected, hphase] at hports hpermits hcollected
    have hanswer := h.outcomes _ (List.mem_of_getElem? hslot) o (.inr rfl)
    have hjoined := become_joined .joined hslot nofun
    have hholds := become_holds .joined hslot
    refine ⟨?_, ?_, ?_, ?_, nofun, nofun⟩
    · show (s.become i _).tasks.map Spawned.port ++ [] = _
      rw [become_ports]
      exact hports
    · show s.permits + (s.become i _).tasks.countP Spawned.holds + 0 = _
      simp only [Spawned.holds, Bool.toNat_false] at hholds
      omega
    · refine h.become_outcomes hslot ?_
      rintro o' (ho | ho) <;> cases ho
    · show ((outcomes ++ [o]).map found).Perm _
      refine List.Perm.trans ?_ (hjoined.map _).symm
      rw [List.map_append, List.map_singleton, hanswer]
      exact (List.perm_append_singleton _ _).trans (hcollected.cons _)

/-- **Along a run.** -/
theorem run_consistent (h : max concurrency 1 ≤ maxPermits) {events : List ScanEvent}
    (ha : Along exec (Answers network) (start target concurrency) events) :
    (runFrom exec (start target concurrency) events).Consistent target concurrency network :=
  runFrom_invariant (fun _ _ hs ha => hs.step ha) (start_consistent h) ha

/-! ## The end of a scan -/

/-- What a task has left to do. -/
def taskRank (t : Spawned) : Nat :=
  match t.task with
  | .probing => 3
  | .probed _ => 2
  | .ended _ => 1
  | .joined => 0

/-- What `scan` has left to do, its tasks apart; a port that has none yet brings one. -/
def phaseRank (phase : ScanPhase) : Nat :=
  match phase with
  | .acquiring ports => 5 * ports.length + 2
  | .spawning _ ports => 5 * ports.length + 6
  | .joining _ => 1
  | .returned _ | .panicked => 0

/-- The events that may still happen. -/
def rank (s : Scan) : Nat := phaseRank s.phase + (s.tasks.map taskRank).sum

theorem become_rank {i port : Nat} {old : ProbeTask} (task : ProbeTask)
    (hslot : s.tasks[i]? = some ⟨port, old⟩) :
    ((s.become i task).tasks.map taskRank).sum + taskRank ⟨port, old⟩ =
      (s.tasks.map taskRank).sum + taskRank ⟨port, task⟩ :=
  sum_map_modify hslot _ _

/-- **What happens brings the scan closer to its end.** -/
theorem step_rank (s : Scan) (e : ScanEvent) : s.step e = s ∨ (s.step e).rank < s.rank := by
  suffices hall : ∀ s', Move s e s' → s' = s ∨ s'.rank < s.rank from hall _ (step_move s e)
  intro s' hmove
  cases hmove with
  | idle => exact .inl rfl
  | left hphase =>
    refine .inr ?_
    simp only [rank, hphase, phaseRank]
    omega
  | acquired hphase _ =>
    refine .inr ?_
    simp only [rank, hphase, phaseRank, List.length_cons]
    omega
  | spawned hphase =>
    refine .inr ?_
    simp only [rank, hphase, phaseRank, List.map_append, List.map_singleton, List.sum_append,
      List.sum_singleton, taskRank]
    omega
  | returned hphase _ =>
    refine .inr ?_
    simp only [rank, hphase, phaseRank]
    omega
  | @connected i port c hslot =>
    have hrank := become_rank (.probed (probePort port c)) hslot
    refine .inr ?_
    show phaseRank s.phase + ((s.become i _).tasks.map taskRank).sum < s.rank
    simp only [taskRank] at hrank
    unfold rank
    omega
  | @released i port o hslot =>
    have hrank := become_rank (.ended o) hslot
    refine .inr ?_
    show phaseRank s.phase + ((s.become i _).tasks.map taskRank).sum < s.rank
    simp only [taskRank] at hrank
    unfold rank
    omega
  | @joined i port o outcomes hphase hslot =>
    have hrank := become_rank .joined hslot
    refine .inr ?_
    show 1 + ((s.become i _).tasks.map taskRank).sum < s.rank
    simp only [taskRank] at hrank
    simp only [rank, hphase, phaseRank]
    omega

/-- Nothing can happen any more. -/
def Stuck (network : Nat → PortState) (s : Scan) : Prop :=
  ∀ e, Answers network s e → s.step e = s

/-- The `connect` of a port. -/
def connectTo : PortState → Connect
  | .open => ⟨some (.ok ()), 0⟩
  | .closed => ⟨some (.error []), 0⟩
  | .filtered => ⟨none, 0⟩

theorem connectTo_state (state : PortState) : (connectTo state).state = state := by
  cases state <;> rfl

theorem become_ne {i port : Nat} {old : ProbeTask} (task : ProbeTask)
    (hslot : s.tasks[i]? = some ⟨port, old⟩) (hne : task ≠ old) :
    (s.become i task).tasks ≠ s.tasks := by
  intro heq
  have hslot' : (s.become i task).tasks[i]? = some ⟨port, task⟩ := by
    rw [become, List.getElem?_modify, hslot]
    simp
  rw [heq, hslot] at hslot'
  exact hne (Spawned.mk.inj (Option.some.inj hslot')).2.symm

/-- A task that is not joined can go on, once `scan` joins the tasks, or if it has its permit. -/
theorem not_stuck {t : Spawned} (ht : t ∈ s.tasks)
    (h : t.holds = true ∨ t.isJoined = false ∧ ∃ os, s.phase = .joining os) :
    ¬ Stuck network s := by
  intro hstuck
  obtain ⟨i, hi⟩ := List.mem_iff_getElem?.mp ht
  obtain ⟨port, task⟩ := t
  cases task with
  | probing =>
    have hstep := hstuck (.connected i (connectTo (network port))) (by
      rintro _ _ ⟨⟩ t ht
      obtain rfl := Option.some.inj (hi.symm.trans ht)
      exact connectTo_state _)
    simp only [step, hi] at hstep
    have htasks := congrArg Scan.tasks hstep
    exact become_ne (.probed _) hi (by nofun) htasks
  | probed o =>
    have hstep := hstuck (.released i) nofun
    simp only [step, hi] at hstep
    have htasks := congrArg Scan.tasks hstep
    exact become_ne (.ended o) hi (by nofun) htasks
  | ended o =>
    rcases h with h | ⟨-, os, hphase⟩
    · cases h
    · have hstep := hstuck (.joined i) nofun
      simp only [step, hi, hphase] at hstep
      have htasks := congrArg Scan.tasks hstep
      exact become_ne .joined hi (by nofun) htasks
  | joined =>
    rcases h with h | ⟨h, -⟩ <;> cases h

/-- **As long as a scan has not returned, something can happen.** -/
theorem Consistent.returns (h : s.Consistent target concurrency network)
    (hstuck : Stuck network s) : ∃ outcomes, s.phase = .returned outcomes := by
  have hturn : s.turn = s := hstuck .turn nofun
  cases hphase : s.phase with
  | acquiring ports =>
    cases ports with
    | nil =>
      simp only [turn, hphase] at hturn
      cases (congrArg Scan.phase hturn).trans hphase
    | cons port ports =>
      by_cases hpermits : s.permits = 0
      · -- somebody has the permit that `scan` waits for
        have htotal := h.permits
        simp only [ownPermit, hphase] at htotal
        have hpos : 0 < s.tasks.countP Spawned.holds := by omega
        obtain ⟨t, ht, hholds⟩ := List.countP_pos_iff.mp hpos
        exact absurd hstuck (not_stuck ht (.inl hholds))
      · simp only [turn, hphase, if_neg hpermits] at hturn
        cases (congrArg Scan.phase hturn).trans hphase
  | spawning port ports =>
    simp only [turn, hphase] at hturn
    cases (congrArg Scan.phase hturn).trans hphase
  | joining outcomes =>
    by_cases hall : ∀ t ∈ s.tasks, t.isJoined = true
    · simp only [turn, hphase, if_pos (List.all_eq_true.mpr hall)] at hturn
      cases (congrArg Scan.phase hturn).trans hphase
    · push Not at hall
      obtain ⟨t, ht, hjoined⟩ := hall
      exact absurd hstuck (not_stuck ht (.inr ⟨by simpa using hjoined, outcomes, hphase⟩))
  | returned outcomes => exact ⟨outcomes, rfl⟩
  | panicked => exact absurd hphase h.running

/-! ## The oracle -/

/-- The sequential scan finds at every port what is there. -/
theorem scanSequential_found {connects : Nat → Connect}
    (h : ∀ i port, target.ports[i]? = some port → (connects i).state = network port) :
    (scanSequential target connects).map found = target.ports.map (answer network) := by
  apply List.ext_getElem?
  intro i
  rw [scanSequential, List.getElem?_map, List.getElem?_mapIdx, List.getElem?_map]
  cases hport : target.ports[i]? with
  | none => rfl
  | some port => exact congrArg some (Prod.ext rfl (h i port hport))

/-- **A scan that has returned** has found at every port what is there, in the order of the
ports. -/
theorem Consistent.returned_found (h : s.Consistent target concurrency network)
    (hports : target.ports.Pairwise (· < ·)) {outcomes : List ScanOutcome}
    (hphase : s.phase = .returned outcomes) :
    s.tasks.map Spawned.port = target.ports ∧
      outcomes.map found = target.ports.map (answer network) := by
  obtain ⟨hsorted, hall⟩ := h.returned outcomes hphase
  have htasks : s.tasks.map Spawned.port = target.ports := by
    have := h.ports
    simpa only [pending, hphase, List.append_nil] using this
  have hperm := h.collected
  simp only [Scan.collected, hphase] at hperm
  rw [List.filter_eq_self.mpr hall] at hperm
  have hmap : s.tasks.map (fun t => answer network t.port) = target.ports.map (answer network) := by
    rw [← htasks, List.map_map]
    rfl
  rw [hmap] at hperm
  have hfound : (outcomes.map found).Pairwise fun a b => a.1 ≤ b.1 := List.pairwise_map.mpr hsorted
  have hanswers : (target.ports.map (answer network)).Pairwise fun a b => a.1 ≤ b.1 :=
    List.pairwise_map.mpr (hports.imp le_of_lt)
  refine ⟨htasks, hperm.eq_of_pairwise ?_ hfound hanswers⟩
  intro a b ha hb hab hba
  obtain ⟨p, -, rfl⟩ := List.mem_map.mp (hperm.mem_iff.mp ha)
  obtain ⟨q, -, rfl⟩ := List.mem_map.mp hb
  rw [le_antisymm (show p ≤ q from hab) hba]

/-! ## Agreement -/

/-- **The scan agrees with the sequential one** under every schedule: the bound on the probes in
flight and the ports probed at every moment of every run, the result wherever nothing can happen
any more, and that this point is reached. -/
structure Agrees (target : Target) (concurrency : Nat) (network : Nat → PortState) : Prop where
  bounded : ∀ events, Along exec (Answers network) (start target concurrency) events →
    (runFrom exec (start target concurrency) events).inFlight ≤ max 1 concurrency
  once : ∀ events, Along exec (Answers network) (start target concurrency) events →
    ((runFrom exec (start target concurrency) events).tasks.map Spawned.port).Nodup ∧
      (runFrom exec (start target concurrency) events).tasks.map Spawned.port <+: target.ports
  ends : ∃ n, ∀ events, Along exec (fun s e => Answers network s e ∧ s.step e ≠ s)
    (start target concurrency) events → events.length ≤ n
  result : ∀ events, Along exec (Answers network) (start target concurrency) events →
    Stuck network (runFrom exec (start target concurrency) events) →
    ∃ outcomes, (runFrom exec (start target concurrency) events).phase = .returned outcomes ∧
      (runFrom exec (start target concurrency) events).tasks.map Spawned.port = target.ports ∧
      ∀ connects : Nat → Connect,
        (∀ i port, target.ports[i]? = some port → (connects i).state = network port) →
        outcomes.map found = (scanSequential target connects).map found

theorem inFlight_le_holds (s : Scan) : s.inFlight ≤ s.tasks.countP Spawned.holds := by
  apply List.countP_mono_left
  intro t _ ht
  obtain ⟨port, task⟩ := t
  obtain rfl : task = .probing := by simpa using ht
  rfl

/-- A run in which every event happens is no longer than the scan has steps. -/
theorem length_le_rank (s : Scan) {events : List ScanEvent}
    (h : Along exec (fun s e => Answers network s e ∧ s.step e ≠ s) s events) :
    events.length ≤ s.rank := by
  induction events generalizing s with
  | nil => exact Nat.zero_le _
  | cons e events ih =>
    obtain ⟨⟨-, hne⟩, hrest⟩ := h
    have hless := (step_rank s e).resolve_left hne
    have hlen := ih (s.step e) hrest
    rw [List.length_cons]
    omega

theorem agrees_of_permits (hports : target.ports.Pairwise (· < ·))
    (h : max concurrency 1 ≤ maxPermits) : Agrees target concurrency network where
  bounded := by
    intro events ha
    have hpermits := (run_consistent h ha).permits
    have hholds := inFlight_le_holds (runFrom exec (start target concurrency) events)
    omega
  once := by
    intro events ha
    have hprefix : (runFrom exec (start target concurrency) events).tasks.map Spawned.port <+:
        target.ports := ⟨_, (run_consistent h ha).ports⟩
    exact ⟨(hports.imp ne_of_lt).sublist hprefix.sublist, hprefix⟩
  ends := ⟨_, fun _ => length_le_rank (start target concurrency)⟩
  result := by
    intro events ha hstuck
    have hconsistent := run_consistent h ha
    obtain ⟨outcomes, hphase⟩ := hconsistent.returns hstuck
    obtain ⟨htasks, hfound⟩ := hconsistent.returned_found hports hphase
    refine ⟨outcomes, hphase, htasks, fun connects hconnects => ?_⟩
    rw [hfound, scanSequential_found hconnects]

/-- A semaphore that is too large panics, and nothing follows. -/
theorem start_panics (h : maxPermits < max concurrency 1) :
    (start target concurrency).phase = .panicked ∧ Stuck network (start target concurrency) := by
  rw [start, if_pos h]
  refine ⟨rfl, ?_⟩
  intro e _
  cases e <;> rfl

theorem not_agrees (h : maxPermits < max concurrency 1) : ¬ Agrees target concurrency network := by
  intro hagrees
  obtain ⟨hphase, hstuck⟩ := @start_panics target concurrency network h
  obtain ⟨outcomes, hreturned, -⟩ := hagrees.result [] trivial hstuck
  cases hphase.symm.trans hreturned

end Scan

/-- **A scan agrees with its oracle** under every schedule exactly when its semaphore can be
created. -/
theorem scan_agrees_iff {spec : Text} {target : Target} (hparse : parseTarget spec = .ok target)
    (concurrency : Nat) (network : Nat → PortState) :
    Scan.Agrees target concurrency network ↔ concurrency ≤ maxPermits := by
  obtain ⟨-, -, -, hports, -⟩ := parseTarget_ok_iff.mp hparse
  have hmax : max concurrency 1 ≤ maxPermits ↔ concurrency ≤ maxPermits := by
    rw [max_le_iff, and_iff_left (by decide)]
  rw [← hmax]
  refine ⟨?_, Scan.agrees_of_permits hports⟩
  intro h
  by_contra hlarge
  exact Scan.not_agrees (not_le.mp hlarge) h

/-- `h:443,80` -/
theorem twoPorts_parsed :
    parseTarget ['h', ':', '4', '4', '3', ',', '8', '0'] = .ok ⟨['h'], [80, 443]⟩ := by
  have hsorted : [80, 443] = sortDedup [443, 80] :=
    eq_sortDedup_iff.mpr ⟨by decide, by simp [or_comm]⟩
  rw [hsorted]
  rfl

theorem twoPorts_agree :
    Scan.Agrees ⟨['h'], [80, 443]⟩ 0 (fun port => if port = 80 then .open else .filtered) :=
  (scan_agrees_iff twoPorts_parsed 0 _).mpr (by decide)

/-- One permit more than a semaphore can have. -/
theorem tooManyPermits_panic :
    parseTarget ['h', ':', '8', '0'] = .ok ⟨['h'], [80]⟩ ∧
      (Scan.start ⟨['h'], [80]⟩ (2 ^ 61)).phase = .panicked ∧
      ∀ network, ¬ Scan.Agrees ⟨['h'], [80]⟩ (2 ^ 61) network :=
  ⟨by decide +kernel, by decide, fun _ => Scan.not_agrees (by decide)⟩

end RustFundamentals.Aprobe
