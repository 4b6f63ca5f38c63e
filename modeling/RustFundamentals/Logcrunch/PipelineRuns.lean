import RustFundamentals.Foundation.Modify
import RustFundamentals.Logcrunch.Records

/-!
# logcrunch: runs of the pipeline

The lines that the workers have recorded, those in the channel and those still to be sent are the
lines of the log, whatever has happened (`Holds`). So the locals of a pipeline that is done record
the log, each in its own order, and as many lines as there are; and a pipeline that is not done
can go on until it is (`Pipeline.finishes`).
-/

namespace RustFundamentals.Logcrunch

open Foundation

/-! ## Lines -/

/-- The lines of a log that are not empty. -/
def linesOf (data : Bytes) : List Text := (Text.linesLossy data).filter fun l => !l.isEmpty

/-- The producer sends all of them. -/
theorem batchLoop_flatten (lines batch : List Text) :
    (batchLoop lines batch).flatten = batch ++ lines.filter fun l => !l.isEmpty := by
  induction lines generalizing batch with
  | nil =>
    cases batch with
    | nil => rfl
    | cons l batch => simp [batchLoop]
  | cons line lines ih =>
    rw [batchLoop]
    cases hline : line.isEmpty with
    | true => rw [if_pos rfl, ih, List.filter_cons_of_neg (by simp [hline])]
    | false =>
      rw [if_neg (by simp), List.filter_cons_of_pos (by simp [hline])]
      split
      · rw [List.flatten_cons, ih, List.nil_append, List.append_assoc, List.singleton_append]
      · rw [ih, List.append_assoc, List.singleton_append]

theorem bytesOf_le_flatten {lines : List Text} {parts : List (List Text)} (h : lines ∈ parts) :
    bytesOf lines ≤ bytesOf parts.flatten := by
  induction parts with
  | nil => cases h
  | cons part parts ih =>
    rw [List.flatten_cons, bytesOf_append]
    rcases List.mem_cons.mp h with rfl | h
    · exact Nat.le_add_right _ _
    · exact (ih h).trans (Nat.le_add_left _ _)

theorem mergeAll_records {ov : Overflow} {locals : List Stats} {parts : List (List Text)}
    (h : List.Forall₂ Records locals parts) (hfits : bytesOf parts.flatten < 2 ^ 64) :
    ∃ s, mergeAll ov locals = some s ∧ Records s parts.flatten := by
  suffices hall : ∀ s before, Records s before → bytesOf (before ++ parts.flatten) < 2 ^ 64 →
      ∃ t, locals.foldlM (Stats.merge ov) s = some t ∧ Records t (before ++ parts.flatten) from
    hall Stats.default [] Records.default hfits
  clear hfits
  induction h with
  | nil => exact fun s before hs _ => ⟨s, rfl, by simpa using hs⟩
  | @cons localStats part locals parts hlocal _ ih =>
    intro s before hs hfits
    rw [List.flatten_cons, ← List.append_assoc] at hfits ⊢
    have hpart : bytesOf (before ++ part) < 2 ^ 64 := by
      rw [bytesOf_append] at hfits
      omega
    obtain ⟨t, ht, hrecords⟩ := @Records.merge ov _ _ _ _ hs hlocal hpart
    obtain ⟨u, hu, hrecords'⟩ := ih t (before ++ part) hrecords hfits
    refine ⟨u, ?_, hrecords'⟩
    rw [List.foldlM_cons, ht]
    exact hu

/-- Locals that record their parts are joined to statistics that record them all. -/
theorem mergeLocals_records {ov : Overflow} {α : Type} {work : α → Option Stats} {as : List α}
    {parts : List (List Text)}
    (h : List.Forall₂ (fun a part => ∃ s, work a = some s ∧ Records s part) as parts)
    (hfits : bytesOf parts.flatten < 2 ^ 64) :
    ∃ s, (as.mapM work >>= mergeAll ov) = some s ∧ Records s parts.flatten := by
  obtain ⟨locals, hlocals, hrecords⟩ : ∃ locals,
      as.mapM work = some locals ∧ List.Forall₂ Records locals parts := by
    clear hfits
    induction h with
    | nil => exact ⟨[], rfl, .nil⟩
    | cons ha _ ih =>
      obtain ⟨s, hs, hrecords⟩ := ha
      obtain ⟨locals, hlocals, hrest⟩ := ih
      exact ⟨s :: locals, by rw [List.mapM_cons, hs, hlocals]; rfl, .cons hrecords hrest⟩
  rw [hlocals]
  exact mergeAll_records hrecords hfits

/-! ## The invariant -/

/-- A worker has recorded some lines. -/
def Worker.Recorded (w : Worker) (lines : List Text) : Prop :=
  ∃ s, w.localStats = some s ∧ Records s lines

namespace Pipeline

/-- The lines of the log are recorded, in the channel, or still to be sent; `parts` are those of
each worker. -/
structure Holds (log : List Text) (p : Pipeline) (parts : List (List Text)) : Prop where
  recorded : List.Forall₂ Worker.Recorded p.workers parts
  lines : (parts.flatten ++ (p.channel.flatten ++ p.toSend.flatten)).Perm log
  closed : p.closed = true → p.toSend = []
  returned : ∀ w ∈ p.workers, w.returned = true → p.channel = [] ∧ p.closed = true

/-- **A pipeline starts** exactly when the handles of its workers can be reserved. -/
theorem start_isSome_iff {data : Bytes} {nWorkers : Nat} :
    (∃ p, start data nWorkers = some p) ↔ joinHandleSize * nWorkers ≤ isizeMax := by
  rw [← not_lt]
  constructor
  · intro hstart hover
    obtain ⟨p, hp⟩ := hstart
    rw [start, if_pos hover] at hp
    cases hp
  · intro hfits
    exact ⟨_, if_neg hfits⟩

/-- What a pipeline starts with. -/
theorem start_eq_some {data : Bytes} {nWorkers : Nat} {p : Pipeline}
    (h : start data nWorkers = some p) :
    p = ⟨batchLoop (Text.linesLossy data) [], [], false,
      List.replicate nWorkers ⟨some Stats.default, false⟩⟩ := by
  unfold start at h
  split at h
  · cases h
  · exact (Option.some.inj h).symm

theorem start_workers {data : Bytes} {nWorkers : Nat} {p : Pipeline}
    (h : start data nWorkers = some p) (hworkers : 1 ≤ nWorkers) : p.workers ≠ [] := by
  rw [start_eq_some h, ← List.length_pos_iff, List.length_replicate]
  exact hworkers

theorem start_holds {data : Bytes} {nWorkers : Nat} {p : Pipeline}
    (h : start data nWorkers = some p) :
    Holds (linesOf data) p (List.replicate nWorkers []) := by
  rw [start_eq_some h]
  refine ⟨?_, ?_, nofun, ?_⟩
  · show List.Forall₂ _ (List.replicate nWorkers _) _
    clear h
    induction nWorkers with
    | zero => exact .nil
    | succ n ih => exact .cons ⟨Stats.default, rfl, Records.default⟩ ih
  · have hflat : (List.replicate nWorkers ([] : List Text)).flatten = [] := by simp
    show (_ ++ ([] ++ (batchLoop (Text.linesLossy data) []).flatten)).Perm _
    rw [hflat, batchLoop_flatten]
    exact .refl _
  · intro w hw hreturned
    obtain rfl := List.eq_of_mem_replicate hw
    cases hreturned

variable {ov : Overflow} {log : List Text} {p : Pipeline} {parts : List (List Text)}

/-- A worker in its loop records a batch. -/
theorem record_recorded {w : Worker} {lines batch : List Text} (h : w.Recorded lines)
    (hfits : bytesOf (lines ++ batch) < 2 ^ 64) :
    (record ov batch w).Recorded (lines ++ batch) ∧ (record ov batch w).returned = false := by
  obtain ⟨s, hs, hrecords⟩ := h
  obtain ⟨s', hs', hrecords'⟩ := @Records.addLines ov _ _ batch hrecords hfits
  have hrecord : record ov batch w = ⟨some s', false⟩ := by
    unfold record
    rw [hs, Option.bind_some, hs']
  rw [hrecord]
  exact ⟨⟨s', rfl, hrecords'⟩, rfl⟩

theorem running_iff {worker : Nat} :
    p.running worker = true ↔ ∃ w, p.workers[worker]? = some w ∧ w.returned = false := by
  unfold running
  cases p.workers[worker]? with
  | none => simp
  | some w => simp

/-- The effect of an event: none, or the one its guard lets it have. -/
inductive Move (ov : Overflow) (p : Pipeline) : PipelineEvent → Pipeline → Prop
  | idle {e : PipelineEvent} : Move ov p e p
  | sent {batch : List Text} {toSend : List (List Text)} : p.toSend = batch :: toSend →
      Move ov p .send { p with toSend := toSend, channel := p.channel ++ [batch] }
  | closed : p.toSend = [] → Move ov p .close { p with closed := true }
  | received {worker : Nat} {w : Worker} {batch : List Text} {channel : List (List Text)} :
      p.channel = batch :: channel → p.workers[worker]? = some w → w.returned = false →
      Move ov p (.receive worker)
        { p with channel := channel, workers := p.workers.modify worker (record ov batch) }
  | left {worker : Nat} {w : Worker} : p.channel = [] → p.closed = true →
      p.workers[worker]? = some w → w.returned = false →
      Move ov p (.leave worker)
        { p with workers := p.workers.modify worker fun w => { w with returned := true } }

theorem step_move (ov : Overflow) (p : Pipeline) (e : PipelineEvent) :
    Move ov p e (p.step ov e) := by
  cases e with
  | send =>
    cases hsend : p.toSend <;> simp only [step, hsend]
    case nil => exact .idle
    case cons batch toSend =>
      split
      · exact .sent hsend
      · exact .idle
  | close =>
    simp only [step]
    split
    · next hempty => exact .closed (List.isEmpty_iff.mp hempty)
    · exact .idle
  | receive worker =>
    cases hchannel : p.channel <;> simp only [step, hchannel]
    case nil => exact .idle
    case cons batch channel =>
      split
      · next hrunning =>
        obtain ⟨w, hw, hloop⟩ := running_iff.mp hrunning
        exact .received hchannel hw hloop
      · exact .idle
  | leave worker =>
    simp only [step]
    split
    · next hguard =>
      obtain ⟨w, hw, hloop⟩ := running_iff.mp hguard.2.2
      exact .left (List.isEmpty_iff.mp hguard.1) hguard.2.1 hw hloop
    · exact .idle

/-- The lines of a worker and a batch in the channel are of the log. -/
theorem Holds.batch_fits (h : Holds log p parts) (hfits : bytesOf log < 2 ^ 64)
    {part batch : List Text} (hpart : part ∈ parts) (hbatch : batch ∈ p.channel) :
    bytesOf (part ++ batch) < 2 ^ 64 := by
  have htotal := bytesOf_perm h.lines
  rw [bytesOf_append, bytesOf_append] at htotal
  have hpart := bytesOf_le_flatten hpart
  have hbatch := bytesOf_le_flatten hbatch
  rw [bytesOf_append]
  omega

/-- **Every event keeps the lines.** -/
theorem step_holds (h : Holds log p parts) (hfits : bytesOf log < 2 ^ 64) (e : PipelineEvent) :
    ∃ parts', Holds log (p.step ov e) parts' := by
  suffices hall : ∀ p', Move ov p e p' → ∃ parts', Holds log p' parts' from
    hall _ (step_move ov p e)
  intro p' hmove
  cases hmove with
  | idle => exact ⟨parts, h⟩
  | @sent batch toSend hsend =>
    -- the sender is dropped when there is nothing left to send
    have hopen : p.closed ≠ true := by
      intro hclosed
      rw [h.closed hclosed] at hsend
      cases hsend
    refine ⟨parts, h.recorded, ?_, fun hclosed => absurd hclosed hopen, ?_⟩
    · have hlines := h.lines
      rw [hsend, List.flatten_cons] at hlines
      rw [List.flatten_append, List.flatten_singleton, List.append_assoc]
      exact hlines
    · intro w hw hreturned
      exact absurd (h.returned w hw hreturned).2 hopen
  | closed hsend =>
    refine ⟨parts, h.recorded, h.lines, fun _ => hsend, ?_⟩
    intro w hw hreturned
    exact ⟨(h.returned w hw hreturned).1, rfl⟩
  | @received worker w batch channel hchannel hw hloop =>
    have hbatch : batch ∈ p.channel := hchannel ▸ List.mem_cons_self
    have hlen : worker < parts.length := by
      rw [← h.recorded.length_eq]
      exact (List.getElem?_eq_some_iff.mp hw).1
    -- a worker returns from an empty channel only, and this one is not
    have hopen : ∀ w ∈ p.workers, w.returned ≠ true := by
      intro w hw hreturned
      rw [(h.returned w hw hreturned).1] at hchannel
      cases hchannel
    refine ⟨parts.modify worker fun part => part ++ batch, ?_, ?_, h.closed, ?_⟩
    · refine forall₂_modify h.recorded ?_
      intro w _ part hpart hrecorded
      exact (record_recorded hrecorded (h.batch_fits hfits hpart hbatch)).1
    · have hlines := h.lines
      rw [hchannel, List.flatten_cons] at hlines
      refine ((flatten_modify_perm hlen batch).append_right _).trans ?_
      rw [List.append_assoc, ← List.append_assoc batch]
      exact hlines
    · intro w' hw' hreturned
      rcases mem_modify hw' with hold | ⟨w₀, hold, rfl⟩
      · exact absurd hreturned (hopen w' hold)
      · obtain ⟨part, hpart, hrecorded⟩ := forall₂_mem h.recorded hold
        have hlooping := (@record_recorded ov _ _ _ hrecorded (h.batch_fits hfits hpart hbatch)).2
        rw [hlooping] at hreturned
        cases hreturned
  | @left worker w hchannel hclosed hw hloop =>
    refine ⟨parts, ?_, h.lines, h.closed, fun _ _ _ => ⟨hchannel, hclosed⟩⟩
    have hrecorded : List.Forall₂ Worker.Recorded
        (p.workers.modify worker fun w => { w with returned := true }) (parts.modify worker id) :=
      forall₂_modify h.recorded fun _ _ _ _ hrecorded => hrecorded
    rw [List.modify_id] at hrecorded
    exact hrecorded

theorem run_holds (h : Holds log p parts) (hfits : bytesOf log < 2 ^ 64) (es : List PipelineEvent) :
    ∃ parts', Holds log (runFrom (exec ov) p es) parts' := by
  induction es generalizing p parts with
  | nil => exact ⟨parts, h⟩
  | cons e es ih =>
    obtain ⟨parts', h'⟩ := @step_holds ov _ _ _ h hfits e
    exact ih h'

/-- **The result of a pipeline that is done** records the log. -/
theorem result_records (h : Holds log p parts) (hfits : bytesOf log < 2 ^ 64)
    (hworkers : p.workers ≠ []) (hdone : p.Done) :
    ∃ s, p.result ov = some s ∧ Records s log := by
  obtain ⟨w, hw⟩ := List.exists_mem_of_ne_nil _ hworkers
  have hchannel := (h.returned w hw (hdone.2 w hw)).1
  have hlines := h.lines
  rw [hchannel, h.closed hdone.1, List.flatten_nil, List.append_nil, List.append_nil] at hlines
  have hparts : bytesOf parts.flatten < 2 ^ 64 := by rwa [bytesOf_perm hlines]
  obtain ⟨s, hs, hrecords⟩ := @mergeLocals_records ov _ _ _ _ h.recorded hparts
  exact ⟨s, hs, hrecords.perm hlines⟩

/-! ## Progress -/

/-- How much there is left to happen. -/
def left (p : Pipeline) : Nat :=
  2 * p.toSend.length + p.channel.length + (!p.closed).toNat +
    p.workers.countP fun w => !w.returned

/-- **A pipeline that is not done can go on.** -/
theorem goes_on (ov : Overflow) (h : Holds log p parts) (hworkers : p.workers ≠ [])
    (hdone : ¬ p.Done) : ∃ e, (p.step ov e).left < p.left := by
  -- the event that comes next: receive what is in the channel, else send, else close, else leave
  cases hchannel : p.channel with
  | cons batch channel =>
    obtain ⟨w, hw⟩ := List.exists_mem_of_ne_nil _ hworkers
    obtain ⟨worker, hworker⟩ := List.mem_iff_getElem?.mp hw
    have hloop : w.returned = false := by
      cases hreturned : w.returned with
      | false => rfl
      | true =>
        rw [(h.returned w hw hreturned).1] at hchannel
        cases hchannel
    refine ⟨.receive worker, ?_⟩
    have hcount := countP_modify hworker (record ov batch) fun w => !w.returned
    have hone := Bool.toNat_le (!(record ov batch w).returned)
    have hrunning : p.running worker = true := running_iff.mpr ⟨w, hworker, hloop⟩
    simp only [hloop, Bool.not_false, Bool.toNat_true] at hcount
    simp only [step, left, hchannel, hrunning, if_true, List.length_cons]
    omega
  | nil =>
    cases hsend : p.toSend with
    | cons batch toSend =>
      refine ⟨.send, ?_⟩
      simp [step, left, hsend, hchannel, channelCapacity]
      omega
    | nil =>
      cases hclosed : p.closed with
      | false =>
        refine ⟨.close, ?_⟩
        simp [step, left, hsend, hclosed]
      | true =>
        obtain ⟨w, hw, hloop⟩ : ∃ w ∈ p.workers, w.returned = false := by
          by_contra hall
          refine hdone ⟨hclosed, fun w hw => ?_⟩
          by_contra hreturned
          exact hall ⟨w, hw, Bool.eq_false_of_not_eq_true hreturned⟩
        obtain ⟨worker, hworker⟩ := List.mem_iff_getElem?.mp hw
        refine ⟨.leave worker, ?_⟩
        have hcount := countP_modify hworker (fun w => { w with returned := true })
          fun w => !w.returned
        have hrunning : p.running worker = true := running_iff.mpr ⟨w, hworker, hloop⟩
        simp only [hloop, Bool.not_false, Bool.toNat_true, Bool.not_true, Bool.toNat_false]
          at hcount
        simp only [step, left, hchannel, hclosed, hrunning, List.isEmpty_nil, and_self, if_true]
        omega

theorem step_workers (ov : Overflow) (p : Pipeline) (e : PipelineEvent) :
    (p.step ov e).workers.length = p.workers.length := by
  have hmove := step_move ov p e
  generalize p.step ov e = p' at hmove
  cases hmove with
  | idle | sent | closed => rfl
  | received => exact List.length_modify _ _ _
  | left => exact List.length_modify _ _ _

theorem run_workers (ov : Overflow) (p : Pipeline) (es : List PipelineEvent) :
    (runFrom (exec ov) p es).workers.length = p.workers.length := by
  induction es generalizing p with
  | nil => rfl
  | cons e es ih => exact (ih _).trans (step_workers ov p e)

/-- **It finishes**: from where it is, it can run until it is done. -/
theorem finishes (ov : Overflow) (h : Holds log p parts) (hfits : bytesOf log < 2 ^ 64)
    (hworkers : p.workers ≠ []) : ∃ es, (runFrom (exec ov) p es).Done := by
  induction hn : p.left using Nat.strongRecOn generalizing p parts with
  | ind n ih =>
    by_cases hdone : p.Done
    · exact ⟨[], hdone⟩
    · obtain ⟨e, hless⟩ := goes_on ov h hworkers hdone
      obtain ⟨parts', h'⟩ := @step_holds ov _ _ _ h hfits e
      have hworkers' : (p.step ov e).workers ≠ [] := by
        rw [← List.length_pos_iff, step_workers]
        exact List.length_pos_iff.mpr hworkers
      obtain ⟨es, hes⟩ := ih _ (hn ▸ hless) h' hworkers' rfl
      exact ⟨e :: es, hes⟩

end Pipeline

end RustFundamentals.Logcrunch
