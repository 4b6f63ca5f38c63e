import RustFundamentals.Foundation.Runs
import RustFundamentals.Lsmkv.OpenSpec

/-!
# lsmkv: the store over its whole life

A directory and the process that may have it open. A step opens the directory, calls a
method of the running `Db`, or stops the process, under a plan of what the environment does
to the filesystem calls it makes. `exec_models` is the step lemma: whatever the plan, the
state the step ends in stands for an abstract store again, reached by one of the listed ends
(`StepEnd`).
-/

namespace RustFundamentals.Lsmkv

open Foundation Foundation.Fs Foundation.Lsm

/-- A method call on a running store. -/
inductive Call
  | put (key value : Bytes)
  | delete (key : Bytes)
  | flush
  | compact
  deriving DecidableEq, Repr

/-- What a step does. Opening a directory that a process has open first drops that process. -/
inductive Op
  | openWith (opts : Options)
  | call (c : Call)
  | stop
  deriving DecidableEq, Repr

structure Step where
  op : Op
  plan : Plan Site

/-- The directory, and the store of the process that has it open. -/
structure Sys where
  dir : Dir
  proc : Option Db

/-- The method a call runs. -/
def Call.run (ov : Overflow) : Call → DbM Unit
  | .put key value => Db.put ov key value
  | .delete key => Db.delete ov key
  | .flush => Db.flush ov
  | .compact => Db.compact ov

/-- The record a call writes under sequence number `seq`. -/
def Call.record (c : Call) (seq : Seq) : Option Record :=
  match c with
  | .put key value => some (Record.put seq key value)
  | .delete key => some (Record.tombstone seq key)
  | .flush => none
  | .compact => none

/-- A step, with what the caller gets back. A call without a process gets nothing. -/
def exec (ov : Overflow) (s : Sys) (st : Step) : Except (Stop Error) Unit × Sys :=
  match st.op with
  | .openWith opts =>
    match (Db.openWith ov opts).run ⟨s.dir, st.plan⟩ with
    | (.ok db, w) => (.ok (), ⟨w.dir, some db⟩)
    | (.error e, w) => (.error e, ⟨w.dir, none⟩)
  | .stop => (.ok (), ⟨s.dir, none⟩)
  | .call c =>
    match s.proc with
    | none => (.error .died, s)
    | some db =>
      let (out, s') := (c.run ov).run ⟨db, ⟨s.dir, st.plan⟩⟩
      (out, ⟨s'.world.dir, if alive out then some s'.db else none⟩)

/-- The plan under which every call completes. -/
def quiet : Plan Site := fun _ => []

/-- The plan with verdicts for the calls at one site. -/
def faultsAt (site : Site) (faults : List Fault) : Plan Site :=
  fun site' => if site' = site then faults else []

theorem quiet_quiet : Quiet quiet := fun _ => rfl

@[simp] theorem faultsAt_self (site : Site) (faults : List Fault) :
    faultsAt site faults site = faults := if_pos rfl

/-- The state after a run. -/
abbrev runSys (ov : Overflow) (s : Sys) (steps : List Step) : Sys := runFrom (exec ov) s steps

/-- A directory in which no store has been opened yet. -/
def Fresh (dir : Dir) : Prop :=
  dir.lookup walName = none ∧ ∀ name, (dir.lookup name).isSome → parseSstId name = none

theorem Fresh.empty : Fresh ∅ := ⟨rfl, fun _ h => by simp at h⟩

/-! ## What a state stands for -/

variable {ov : Overflow} {mayTear loose : Prop}

/-- The state stands for the abstract disk `d` and, if there is a process, the abstract
process `op`. Unless the bounds are `loose`, table ids leave room for one more. -/
structure Models (loose mayTear : Prop) (s : Sys) (d : Disk Record)
    (op : Option (Proc Record Bytes)) : Prop where
  stores : Stores mayTear s.dir d
  wf : Disk.Wf d
  ids : loose ∨ ∀ i, (d.files i).isSome → i + 1 < 2 ^ 64
  seqs : ∀ x ∈ d.stored, x.seq + 1 < 2 ^ 64
  down : op = none → s.proc = none
  up : ∀ p, op = some p → ∃ db, s.proc = some db ∧ Wf d p ∧ Running db s.dir d p

theorem Models.mono {loose mayTear mayTear' : Prop} {s : Sys} {d : Disk Record}
    {op : Option (Proc Record Bytes)} (h : Models loose mayTear s d op)
    (himp : mayTear → mayTear') : Models loose mayTear' s d op :=
  { h with stores := h.stores.mono himp }

/-- A process that is there stands for an abstract one. -/
theorem Models.of_proc {loose mayTear : Prop} {s : Sys} {d : Disk Record}
    {op : Option (Proc Record Bytes)} (h : Models loose mayTear s d op) {db : Db}
    (hdb : s.proc = some db) : ∃ p, op = some p ∧ Wf d p ∧ Running db s.dir d p := by
  cases op with
  | none =>
    rw [h.down rfl] at hdb
    cases hdb
  | some p =>
    obtain ⟨db', hdb', hwf, hrun⟩ := h.up p rfl
    obtain rfl : db = db' := Option.some.inj (hdb.symm.trans hdb')
    exact ⟨p, rfl, hwf, hrun⟩

theorem Models.running {loose mayTear : Prop} {s : Sys} {d : Disk Record}
    {p : Proc Record Bytes} (h : Models loose mayTear s d (some p)) {db : Db}
    (hdb : s.proc = some db) : Wf d p ∧ Running db s.dir d p := by
  obtain ⟨q, hq, hwf, hrun⟩ := h.of_proc hdb
  obtain rfl := Option.some.inj hq
  exact ⟨hwf, hrun⟩

theorem Models.fresh {dir : Dir} (h : Fresh dir) :
    Models loose False ⟨dir, none⟩ ⟨[], fun _ => none⟩ none := by
  have hnone : ∀ i x, ¬ Disk.Holds (⟨[], fun _ => none⟩ : Disk Record) i x := by
    intro i x hpost
    obtain ⟨rs, hrs, _⟩ := hpost
    exact absurd hrs (by simp)
  have hempty : ∀ x, x ∉ Disk.stored (⟨[], fun _ => none⟩ : Disk Record) := by
    intro x hx
    rcases hx with hx | ⟨i, hx⟩
    · simp at hx
    · exact hnone i x hx
  exact
    { stores :=
        { log := by
            rw [walWrites, h.1]
            exact LogChunks.nil
          names := fun name id hname hid => by
            rw [h.2 name hname] at hid
            exact absurd hid (by simp)
          table := fun id rs hid => by simp at hid
          noTable := fun id hlt _ => by
            by_contra hsome
            have hname := h.2 _ (Option.isSome_iff_ne_none.mpr hsome)
            rw [parseSstId_sstPath hlt] at hname
            exact absurd hname (by simp)
          storable := fun id rs hid => by simp at hid
          sorted := fun id rs hid => by simp at hid
          id_lt := fun id hid => by simp at hid }
      wf :=
        { coherent := fun x hx => absurd hx (hempty x)
          log_sorted := List.Pairwise.nil
          file_unique := fun i x y hx => absurd hx (hnone i x)
          file_log := fun i x hx => absurd hx (hnone i x)
          file_order := fun i j x y _ hx => absurd hx (hnone i x) }
      ids := .inr fun i hi => by simp at hi
      seqs := fun x hx => absurd hx (hempty x)
      down := fun _ => rfl
      up := fun p hp => by simp at hp }

/-! ## Calls -/

/-- The record a write call makes has an encoding the formats can hold. -/
def Call.Fits (c : Call) : Prop := ∀ seq r, c.record seq = some r → r.encode.length < 2 ^ 32

/-- How a call ended. -/
inductive CallEnd (w : World Site) (db : Db) (d : Disk Record) (p : Proc Record Bytes) (c : Call) :
    Except (Stop Error) Unit → Disk Record → Proc Record Bytes → Prop
  | wrote {r out d' p'} (hr : c.record p.seq = some r)
      (h : WriteEnd w (db.mem.insert r).records d p r out d' p') : CallEnd w db d p c out d' p'
  | flushed {out d' p'} (hc : c = .flush) (h : FlushEnd w db.mem.records d p out d' p') :
      CallEnd w db d p c out d' p'
  | compacted {out d' p'} (hc : c = .compact) (j : Nat)
      (h : CompactEnd w (survivorsOf (collected d p.ids)) d p out j d' p') :
      CallEnd w db d p c out d' p'

/-- The number is all that varies in the record of a call. -/
theorem Call.record_zero {c : Call} {seq : Seq} {r : Record} (h : c.record seq = some r) :
    c.record 0 = some { r with seq := 0 } := by
  cases c <;> simp only [Call.record, Option.some.injEq, reduceCtorEq] at h ⊢ <;>
    exact h ▸ rfl

theorem Call.fits_iff {c : Call} : c.Fits ↔ ∀ r ∈ c.record 0, r.encode.length < 2 ^ 32 := by
  constructor
  · intro h r hr
    exact h 0 r hr
  · intro h seq r hr
    have hzero := h _ (Call.record_zero hr)
    have hlen : ({ r with seq := 0 } : Record).encode.length = r.encode.length :=
      Record.encode_length_congr rfl rfl
    rwa [hlen] at hzero

instance (c : Call) : Decidable c.Fits := decidable_of_iff _ Call.fits_iff.symm

variable {d : Disk Record} {p : Proc Record Bytes}

theorem Call.record_seq {c : Call} {seq : Seq} {r : Record} (h : c.record seq = some r) :
    r.seq = seq := by
  cases c <;> simp only [Call.record, Option.some.injEq, reduceCtorEq] at h <;> subst h <;> rfl

theorem CallEnd.wf {w : World Site} {db : Db} {c : Call} {out : Except (Stop Error) Unit}
    {d' : Disk Record} {p' : Proc Record Bytes} (h : CallEnd w db d p c out d' p')
    (hwf : Wf d p) : Wf d' p' := by
  cases h with
  | wrote hr h => exact h.exit.wf hwf (Call.record_seq hr)
  | flushed _ h => exact h.exit.wf hwf
  | compacted _ _ h => exact h.exit.wf hwf

/-- A call leaves no table beyond the next id. -/
theorem CallEnd.file_le {w : World Site} {db : Db} {c : Call} {out : Except (Stop Error) Unit}
    {d' : Disk Record} {p' : Proc Record Bytes} (h : CallEnd w db d p c out d' p')
    (hwf : Wf d p) {i : Nat} (hi : (d'.files i).isSome) : i ≤ p.next := by
  cases h with
  | wrote hr h =>
    cases h with
    | refused _ => exact hwf.file_le i hi
    | unlogged _ _ => exact hwf.file_le i hi
    | logged _ _ => exact hwf.file_le i hi
    | applied _ h => exact h.exit.file_le (hwf.applied (Call.record_seq hr)) hi
  | flushed _ h => exact h.exit.file_le hwf hi
  | compacted _ _ h => exact h.exit.file_le hwf hi

/-- The sequence numbers a call leaves on disk stay in range. -/
theorem CallEnd.seqs {w : World Site} {db : Db} {c : Call} {out : Except (Stop Error) Unit}
    {d' : Disk Record} {p' : Proc Record Bytes} (h : CallEnd w db d p c out d' p')
    (hwf : Wf d p) (hs : ∀ x ∈ d.stored, x.seq + 1 < 2 ^ 64) :
    ∀ x ∈ d'.stored, x.seq + 1 < 2 ^ 64 := by
  have happend : ∀ r, c.record p.seq = some r → p.seq + 1 < 2 ^ 64 →
      ∀ x ∈ (d.append r).stored, x.seq + 1 < 2 ^ 64 := by
    intro r hr hlt x hx
    rcases Disk.mem_stored_append.mp hx with rfl | hx
    · rwa [Call.record_seq hr]
    · exact hs x hx
  cases h with
  | wrote hr h =>
    cases h with
    | refused _ => exact hs
    | unlogged _ _ => exact hs
    | logged hlt _ => exact happend _ hr hlt
    | applied hlt h =>
      intro x hx
      exact happend _ hr hlt x (h.exit.stored_subset (hwf.applied (Call.record_seq hr)) hx)
  | flushed _ h => exact fun x hx => hs x (h.exit.stored_subset hwf hx)
  | compacted _ _ h => exact fun x hx => hs x (h.exit.stored_subset hwf hx)

/-- **Every way a call can end.** -/
theorem call_spec {db : Db} {w : World Site} {c : Call} (hs : Stores mayTear w.dir d)
    (hwf : Wf d p) (hr : Running db w.dir d p) (hfits : c.Fits)
    (hroom : ov = .checked ∨ (p.seq + 1 < 2 ^ 64 ∧ p.next + 1 < 2 ^ 64)) :
    Post (c.run ov) ⟨db, w⟩ fun out s' => ∃ d' p',
      CallEnd w db d p c out d' p' ∧ Leaves (mayTear ∨ Tearing w.plan) out s' d' p' ∧
        Plan.Rest s'.world.plan w.plan := by
  have hidroom : ov = .checked ∨ p.next + 1 < 2 ^ 64 := hroom.imp_right And.right
  cases c with
  | put key value =>
    have hrec : (Record.put p.seq key value).Fits := ⟨hr.seq_lt, hfits p.seq _ rfl⟩
    refine (writeRecord_spec (fun seq => Record.put seq key value) hs hwf hr rfl hrec
      hroom).mono ?_
    intro out s' hpost
    obtain ⟨d', p', hend, hleaves, hp⟩ := hpost
    exact ⟨d', p', .wrote rfl hend, hleaves, hp⟩
  | delete key =>
    have hrec : (Record.tombstone p.seq key).Fits := ⟨hr.seq_lt, hfits p.seq _ rfl⟩
    refine (writeRecord_spec (fun seq => Record.tombstone seq key) hs hwf hr rfl hrec
      hroom).mono ?_
    intro out s' hpost
    obtain ⟨d', p', hend, hleaves, hp⟩ := hpost
    exact ⟨d', p', .wrote rfl hend, hleaves, hp⟩
  | flush =>
    have hs' : Stores (mayTear ∨ Tearing w.plan) w.dir d := hs.mono .inl
    refine (flush_spec ov hs' hwf hr hidroom).mono ?_
    intro out s' hpost
    obtain ⟨d', p', hend, hleaves, hp, _⟩ := hpost
    exact ⟨d', p', .flushed rfl hend, hleaves, hp⟩
  | compact =>
    have hs' : Stores (mayTear ∨ Tearing w.plan) w.dir d := hs.mono .inl
    refine (compact_spec ov hs' hwf hr hidroom).mono ?_
    intro out s' hpost
    obtain ⟨j, d', p', hend, hleaves, hp, _⟩ := hpost
    exact ⟨d', p', .compacted rfl j hend, hleaves, hp⟩

/-! ## Steps -/

/-- The counters of the process have room for one more write and one more table. -/
def Room (s : Sys) : Prop :=
  ∀ db, s.proc = some db → db.seq + 1 < 2 ^ 64 ∧ db.nextSstId + 1 < 2 ^ 64

/-- What the step lemma asks of a step: records that fit the formats, counters with room
unless the bounds are `loose`, and, at an open, a log in which nothing follows an incomplete
frame. -/
structure Sound (loose : Prop) (s : Sys) (st : Step) : Prop where
  room : loose ∨ Room s
  fits : ∀ c, st.op = .call c → c.Fits
  clean : ∀ opts, st.op = .openWith opts → CleanLog s.dir

instance (s : Sys) : Decidable (Room s) :=
  decidable_of_iff (∀ db ∈ s.proc, db.seq + 1 < 2 ^ 64 ∧ db.nextSstId + 1 < 2 ^ 64) Iff.rfl

theorem sound_iff {loose : Prop} {s : Sys} {st : Step} : Sound loose s st ↔
    (loose ∨ Room s) ∧ match st.op with
      | .openWith _ => CleanLog s.dir
      | .call c => c.Fits
      | .stop => True := by
  constructor
  · intro hboth
    obtain ⟨hroom, hfits, hclean⟩ := hboth
    refine ⟨hroom, ?_⟩
    split
    · exact hclean _ ‹_›
    · exact hfits _ ‹_›
    · trivial
  · intro hboth
    obtain ⟨hroom, hop⟩ := hboth
    refine ⟨hroom, fun c hc => ?_, fun opts ho => ?_⟩
    · rwa [hc] at hop
    · rwa [ho] at hop

instance (loose : Prop) [Decidable loose] (s : Sys) (st : Step) : Decidable (Sound loose s st) :=
  have : Decidable (match st.op with
      | .openWith _ => CleanLog s.dir
      | .call c => c.Fits
      | .stop => True) :=
    match st.op with
    | .openWith _ => inferInstanceAs (Decidable (CleanLog s.dir))
    | .call c => inferInstanceAs (Decidable c.Fits)
    | .stop => inferInstanceAs (Decidable True)
  decidable_of_iff _ sound_iff.symm

/-- What a call left behind stands for the disk and process it ended with. -/
theorem CallEnd.models {mayTear' : Prop} {s : Sys} {db : Db} {plan : Plan Site} {c : Call}
    {out : Except (Stop Error) Unit} {s' : Session} {d' : Disk Record} {p' : Proc Record Bytes}
    (h : Models loose mayTear s d (some p)) (hend : CallEnd ⟨s.dir, plan⟩ db d p c out d' p')
    (hleaves : Leaves mayTear' out s' d' p') (hroom : loose ∨ p.next + 1 < 2 ^ 64) :
    Models loose mayTear' ⟨s'.world.dir, if alive out then some s'.db else none⟩ d'
      (if alive out then some p' else none) := by
  obtain ⟨_, _, hwf, _⟩ := h.up p rfl
  have hwf' : Wf d' p' := hend.wf hwf
  exact
    { stores := hleaves.stores
      wf := hwf'.toWf
      ids := hroom.imp_right fun hlt i hi => by
        have := hend.file_le hwf hi
        omega
      seqs := hend.seqs hwf h.seqs
      down := fun hq => by
        cases ha : alive out with
        | false => rw [if_neg (by simp)]
        | true => simp [ha] at hq
      up := fun q hq => by
        cases ha : alive out with
        | false => simp [ha] at hq
        | true =>
          simp only [ha, if_true, Option.some.injEq] at hq
          exact hq ▸ ⟨s'.db, by simp, hwf', hleaves.running ha⟩ }

/-- A process that is there after a call is one the call left alive. -/
theorem Models.of_alive {s : Sys} {out : Except (Stop Error) Unit}
    (h : Models loose mayTear s d (if alive out then some p else none))
    (hsome : s.proc.isSome) : Models loose mayTear s d (some p) := by
  cases ha : alive out with
  | true => rwa [ha] at h
  | false =>
    rw [ha] at h
    rw [h.down rfl] at hsome
    exact absurd hsome (by simp)

/-- How a step ended, from disk `d` and process `op`. -/
inductive StepEnd (s : Sys) (st : Step) (d : Disk Record) (op : Option (Proc Record Bytes)) :
    Except (Stop Error) Unit → Disk Record → Option (Proc Record Bytes) → Prop
  | opened {opts p} (hop : st.op = .openWith opts) (hr : Reopened d p)
      (hseq : p.seq = 1 ∨ ∃ x ∈ d.stored, x.seq + 1 = p.seq) : StepEnd s st d op (.ok ()) d (some p)
  | failed {opts e} (hop : st.op = .openWith opts) (h : Blames st.plan e ∨
      (e = .panicked ∧ ∃ i, (d.files i).isSome ∧ 2 ^ 64 ≤ i + 1)) :
      StepEnd s st d op (.error e) d none
  | stopped (hop : st.op = .stop) : StepEnd s st d op (.ok ()) d none
  | absent {c} (hop : st.op = .call c) (hp : op = none) : StepEnd s st d op (.error .died) d none
  | called {c p db out d' p'} (hop : st.op = .call c) (hp : op = some p) (hdb : s.proc = some db)
      (h : CallEnd ⟨s.dir, st.plan⟩ db d p c out d' p') :
      StepEnd s st d op out d' (if alive out then some p' else none)

/-- **The step lemma.** Bounds may be loose where the build checks its arithmetic. -/
theorem exec_models (ov : Overflow) (hloose : loose → ov = .checked) {s : Sys} {st : Step}
    {op : Option (Proc Record Bytes)} (h : Models loose mayTear s d op)
    (hsound : Sound loose s st) :
    ∃ d' op', Models loose (mayTear ∨ Tearing st.plan) (exec ov s st).2 d' op' ∧
      StepEnd s st d op (exec ov s st).1 d' op' := by
  have hs : Stores (mayTear ∨ Tearing st.plan) s.dir d := h.stores.mono .inl
  cases hop : st.op with
  | openWith opts =>
    have hspec := openWith_spec (w := ⟨s.dir, st.plan⟩) opts hs h.wf (hsound.clean opts hop)
      (h.ids.imp_left hloose) h.seqs
    simp only [exec, hop]
    unfold Post at hspec
    generalize (Db.openWith ov opts).run ⟨s.dir, st.plan⟩ = res at hspec
    obtain ⟨r, w⟩ := res
    obtain ⟨_, hs', _, hend⟩ := hspec
    cases hend with
    | stopped hstop =>
      exact ⟨d, none,
        { stores := hs', wf := h.wf, ids := h.ids, seqs := h.seqs, down := fun _ => rfl,
          up := fun p hp => by simp at hp }, .failed hop hstop⟩
    | @opened db _ q hr hrun _ hseq =>
      refine ⟨d, some q,
        { stores := hs', wf := h.wf, ids := h.ids, seqs := h.seqs, down := fun hq => by simp at hq,
          up := ?_ }, .opened hop hr hseq⟩
      intro q' hq'
      cases hq'
      exact ⟨db, rfl, h.wf.reopen hr, hrun⟩
  | stop =>
    simp only [exec, hop]
    exact ⟨d, none,
      { stores := hs, wf := h.wf, ids := h.ids, seqs := h.seqs, down := fun _ => rfl,
        up := fun p hp => by simp at hp }, .stopped hop⟩
  | call c =>
    cases op with
    | none =>
      have hproc := h.down rfl
      simp only [exec, hop, hproc]
      exact ⟨d, none,
        { stores := hs, wf := h.wf, ids := h.ids, seqs := h.seqs, down := fun _ => hproc,
          up := fun p hp => by simp at hp }, .absent hop rfl⟩
    | some p =>
      obtain ⟨db, hproc, hwf, hrun⟩ := h.up p rfl
      have hroom : loose ∨ (p.seq + 1 < 2 ^ 64 ∧ p.next + 1 < 2 ^ 64) :=
        hsound.room.imp_right fun hr => by
          have := hr db hproc
          rwa [hrun.seq, hrun.next] at this
      have hspec := call_spec (w := ⟨s.dir, st.plan⟩) h.stores hwf hrun (hsound.fits c hop)
        (hroom.imp_left hloose)
      simp only [exec, hop, hproc]
      unfold Post at hspec
      generalize (c.run ov).run ⟨db, ⟨s.dir, st.plan⟩⟩ = res at hspec
      obtain ⟨out, s'⟩ := res
      obtain ⟨d', p', hend, hleaves, _⟩ := hspec
      dsimp only at hend hleaves ⊢
      exact ⟨d', if alive out then some p' else none,
        hend.models h hleaves (hroom.imp_right And.right), .called hop rfl hproc hend⟩

/-- Opening drops the process that has the directory open. -/
theorem Models.dropped {s : Sys} {op : Option (Proc Record Bytes)}
    (h : Models loose mayTear s d op) : Models loose mayTear ⟨s.dir, none⟩ d none :=
  { h with
    down := fun _ => rfl
    up := fun p hp => by simp at hp }

/-- Nothing makes an open fail when there are no faults and the ids have room. -/
theorem not_open_fails {e : Stop Error} (hids : ∀ i, (d.files i).isSome → i + 1 < 2 ^ 64) :
    ¬ (Blames quiet e ∨ (e = .panicked ∧ ∃ i, (d.files i).isSome ∧ 2 ^ 64 ≤ i + 1)) := by
  intro hcause
  rcases hcause with hb | ⟨_, i, hi, hge⟩
  · exact absurd quiet_quiet hb.not_quiet
  · have hlt := hids i hi
    omega

/-- **Recovery without faults succeeds**, from any state the store can be in with a clean
log. -/
theorem exec_open_quiet (ov : Overflow) {s : Sys} {d : Disk Record}
    {op : Option (Proc Record Bytes)}
    (h : Models False mayTear s d op) (hclean : CleanLog s.dir) (opts : Options) :
    (exec ov s ⟨.openWith opts, quiet⟩).1 = .ok () ∧
      ∃ p, Models False (mayTear ∨ Tearing quiet) (exec ov s ⟨.openWith opts, quiet⟩).2 d (some p) ∧
        Reopened d p := by
  have hsound : Sound False ⟨s.dir, none⟩ ⟨.openWith opts, quiet⟩ :=
    { room := .inr fun db hdb => by simp at hdb
      fits := fun c hc => by simp at hc
      clean := fun _ _ => hclean }
  obtain ⟨d', op', hm, hend⟩ := exec_models ov (fun hf => hf.elim) h.dropped hsound
  have hsame : exec ov s ⟨.openWith opts, quiet⟩ =
      exec ov ⟨s.dir, none⟩ ⟨.openWith opts, quiet⟩ := rfl
  rw [hsame]
  generalize (exec ov ⟨s.dir, none⟩ ⟨.openWith opts, quiet⟩).1 = out at hend ⊢
  cases hend with
  | @opened _ p _ hr _ => exact ⟨rfl, p, hm, hr⟩
  | failed _ hcause => exact absurd hcause (not_open_fails (h.ids.resolve_left id))
  | stopped hop => simp at hop
  | absent hop _ => simp at hop
  | called hop _ _ _ => simp at hop

/-- Some abstract store stands behind every state a run reaches, whatever its faults. -/
theorem models_run {loose : Prop} (hloose : loose → ov = .checked) {dir : Dir}
    (hfresh : Fresh dir) {steps : List Step}
    (ha : Along (exec ov) (Sound loose) ⟨dir, none⟩ steps) :
    ∃ d op, Models loose True (runSys ov ⟨dir, none⟩ steps) d op := by
  have hstep : ∀ s st, (∃ d op, Models loose True s d op) → Sound loose s st →
      ∃ d op, Models loose True (exec ov s st).2 d op := by
    intro s st h hst
    obtain ⟨d, op, hm⟩ := h
    obtain ⟨d', op', hm', _⟩ := exec_models ov hloose hm hst
    exact ⟨d', op', hm'.mono fun _ => trivial⟩
  exact runFrom_invariant hstep ⟨_, none, (Models.fresh hfresh).mono fun hf => hf.elim⟩ ha

end RustFundamentals.Lsmkv
