import RustFundamentals.Lsmkv.System

/-!
# lsmkv: the store refines a map

Where nothing fails, the store is the map that its puts and deletes make: `get` is its
lookup, `scan` its bindings in key order, and flush, compaction and reopening are the
identity. The simulation relation is `Refines`: the running view is the map, the log is
shown, and nothing is left over, so that a reopened store would show the same.
-/

namespace RustFundamentals.Lsmkv

open Foundation Foundation.Fs Foundation.Lsm

variable {ov : Overflow} {loose mayTear : Prop}

/-- What an operation does to the map. -/
def Op.bind (m : Bytes → Option Bytes) : Op → Bytes → Option Bytes
  | .call (.put key value) => Function.update m key (some value)
  | .call (.delete key) => Function.update m key none
  | .call .flush => m
  | .call .compact => m
  | .openWith _ => m
  | .stop => m

/-- A write has an encoding the formats can hold. -/
def Op.Fits : Op → Prop
  | .call c => c.Fits
  | .openWith _ => True
  | .stop => True

instance (op : Op) : Decidable op.Fits := by
  cases op <;> unfold Op.Fits <;> infer_instance

/-- The operation with no fault in it. -/
def quietly (op : Op) : Step := ⟨op, quiet⟩

/-- The table a call may have to build in memory. -/
def Call.table (db : Db) (c : Call) : List Record :=
  match c with
  | .put key value => (db.mem.insert (Record.put db.seq key value)).records
  | .delete key => (db.mem.insert (Record.tombstone db.seq key)).records
  | .flush => db.mem.records
  | .compact =>
    match Db.tableRecords db.sstables with
    | .ok records => survivorsOf records
    | .error _ => []

/-- The store answers like the map `m`. -/
def Serves (s : Sys) (m : Bytes → Option Bytes) : Prop :=
  ∃ db, s.proc = some db ∧ (∀ k, db.get k = .ok (m k)) ∧
    ∃ pairs, db.scan = .ok pairs ∧ Lists pairs m

/-- What the store answers is a map, and only one. -/
theorem Serves.unique {s : Sys} {m m' : Bytes → Option Bytes} (h : Serves s m)
    (h' : Serves s m') : m = m' := by
  obtain ⟨db, hdb, hget, _⟩ := h
  obtain ⟨db', hdb', hget', _⟩ := h'
  rw [hdb] at hdb'
  obtain rfl : db = db' := Option.some.inj hdb'
  funext k
  exact Except.ok.inj ((hget k).symm.trans (hget' k))

/-- A running store that stands for an abstract one serves its view. -/
theorem Models.serves {s : Sys} {d : Disk Record} {p : Proc Record Bytes}
    (hm : Models loose mayTear s d (some p)) : Serves s (view (live d p)) := by
  obtain ⟨db, hdb, hwf, hrun⟩ := hm.up p rfl
  exact ⟨db, hdb, get_eq hm.stores hwf hrun, scan_spec hm.stores hwf hrun⟩

/-- Recovery serves what is stored. -/
theorem Models.reopen_serves (ov : Overflow) {s : Sys} {d : Disk Record}
    {op : Option (Proc Record Bytes)}
    (hm : Models False mayTear s d op) (hclean : CleanLog s.dir) (opts : Options) :
    (exec ov s (quietly (.openWith opts))).1 = .ok () ∧
      Serves (exec ov s (quietly (.openWith opts))).2 (view d.stored) := by
  obtain ⟨hok, p, hm', hr⟩ := exec_open_quiet ov hm hclean opts
  refine ⟨hok, ?_⟩
  rw [← hr.view_live (hm.wf.reopen hr)]
  exact hm'.serves

/-- The operation panics because its table is larger than one allocation may be. -/
def Exhausts (ov : Overflow) (s : Sys) (op : Op) : Prop :=
  (exec ov s (quietly op)).1 = .error .panicked ∧
    ∃ db c, s.proc = some db ∧ op = .call c ∧ Oversize (c.table db)

/-- The simulation relation. -/
def Refines (s : Sys) (m : Bytes → Option Bytes) : Prop :=
  ∃ d p, Models False False s d (some p) ∧ NoLeftover d p ∧ LogShown d p ∧ view (live d p) = m

theorem Refines.serves {s : Sys} {m : Bytes → Option Bytes} (h : Refines s m) : Serves s m := by
  obtain ⟨d, p, hm, _, _, rfl⟩ := h
  exact hm.serves

/-- A quiet plan tears nothing. -/
theorem not_tearing_quiet : ¬ Tearing quiet := by
  rintro ⟨e, ⟨n, hn, _⟩ | ⟨n, hn, _⟩⟩ <;> simp [quiet] at hn

theorem not_blamedOn_quiet {site : Site} {e : Stop Error} : ¬ BlamedOn quiet site e :=
  fun h => Blames.not_quiet ⟨site, h⟩ quiet_quiet

theorem not_blamed_logged_quiet {len : Nat} {e : Stop Error} :
    ¬ ((∃ n, len ≤ n ∧ BlamedAt quiet .walAppend n e) ∨ BlamedOn quiet .walSync e) := by
  rintro (⟨n, _, hb⟩ | hb)
  · exact not_blamedOn_quiet hb.blamedOn
  · exact not_blamedOn_quiet hb

theorem Call.record_bind {c : Call} {seq : Seq} {r : Record} (h : c.record seq = some r)
    (m : Bytes → Option Bytes) :
    (Op.call c).bind m = Function.update m r.key r.value.toOption := by
  cases c <;> simp only [Call.record, Option.some.injEq, reduceCtorEq] at h <;> subst h <;> rfl

theorem Call.table_record {c : Call} {db : Db} {r : Record} (h : c.record db.seq = some r) :
    c.table db = (db.mem.insert r).records := by
  cases c <;> simp only [Call.record, Option.some.injEq, reduceCtorEq] at h <;> subst h <;> rfl

/-- **One operation without faults**, of a store whose log is whole. -/
theorem exec_quietly (ov : Overflow) {s : Sys} {d : Disk Record}
    {proc : Option (Proc Record Bytes)} (hm : Models False False s d proc) {op : Op}
    (hroom : Room s) (hfits : op.Fits) :
    ∃ d' proc', Models False False (exec ov s (quietly op)).2 d' proc' ∧
      StepEnd s (quietly op) d proc (exec ov s (quietly op)).1 d' proc' := by
  have hsound : Sound False s (quietly op) :=
    { room := .inr hroom
      fits := fun c hc => by rwa [show op = .call c from hc] at hfits
      clean := fun _ _ => (hm.stores.wholeLog id).clean }
  obtain ⟨d', proc', hm', hend⟩ := exec_models ov (fun hf => hf.elim) hm hsound
  exact ⟨d', proc', hm'.mono (Or.rec id not_tearing_quiet), hend⟩

/-- **One operation**: it returns `Ok` and the map follows, or its table is too large. -/
theorem Refines.step (ov : Overflow) {s : Sys} {m : Bytes → Option Bytes} (h : Refines s m)
    {op : Op}
    (hroom : Room s) (hfits : op.Fits) (hstop : op ≠ .stop) :
    ((exec ov s (quietly op)).1 = .ok () ∧ Refines (exec ov s (quietly op)).2 (op.bind m)) ∨
      Exhausts ov s op := by
  obtain ⟨d, p, hm, hn, hshown, hview⟩ := h
  obtain ⟨d', op', hm', hend⟩ := exec_quietly ov hm hroom hfits
  unfold Exhausts
  generalize hout : (exec ov s (quietly op)).1 = out at hend
  cases hend with
  | @opened opts q hop hr _ =>
    have hop : op = .openWith opts := hop
    subst hop
    have hwf : Wf d q := hm.wf.reopen hr
    refine .inl ⟨rfl, d, q, hm', hr.noLeftover, hr.logShown hwf, ?_⟩
    obtain ⟨_, _, hwf₀, _⟩ := hm.up p rfl
    rw [hr.view_live hwf, hwf₀.reopened_view hn hshown, hview]
    rfl
  | failed _ hcause => exact absurd hcause (not_open_fails (hm.ids.resolve_left id))
  | stopped hop => exact absurd hop hstop
  | absent _ hp => simp at hp
  | @called c q db out d' p' hop hq hdb hend =>
    have hop : op = .call c := hop
    subst hop
    cases hq
    obtain ⟨hwf, hrun⟩ := hm.running hdb
    have hroom' := hroom db hdb
    rw [hrun.seq, hrun.next] at hroom'
    -- the only way to stop is a table that does not fit
    have hstopped : ∀ {recs : List Record} {next : Nat} {e : Stop Error}, next = p.next →
        (Blames (quietly (.call c)).plan e ∨
          (e = .panicked ∧ (Oversize recs ∨ 2 ^ 64 ≤ next + 1))) →
        e = .panicked ∧ Oversize recs := by
      intro recs next e hnext hcause
      rcases hcause with hb | ⟨he, hover | hge⟩
      · exact absurd quiet_quiet hb.not_quiet
      · exact ⟨he, hover⟩
      · omega
    cases hend with
    | @wrote r _ _ _ hrec hwrite =>
      have hseq : r.seq = p.seq := Call.record_seq hrec
      have htable : c.table db = (db.mem.insert r).records :=
        Call.table_record (by rw [hrun.seq]; exact hrec)
      cases hwrite with
      | refused hge => exact absurd hge (not_le.mpr hroom'.1)
      | unlogged _ hb => exact absurd hb not_blamedOn_quiet
      | logged _ hb => exact absurd hb not_blamed_logged_quiet
      | applied _ hflush =>
        have hwf₁ : Wf (d.append r) (p.bump.insert r) := hwf.applied hseq
        cases out with
        | error e =>
          obtain ⟨rfl, hover⟩ := hstopped rfl (hflush.stop e rfl)
          exact .inr ⟨rfl, db, c, hdb, rfl, htable ▸ hover⟩
        | ok =>
          refine .inl ⟨rfl, d', p', hm', ?_, ?_, ?_⟩
          · exact hflush.exit.noLeftover (d := d.append r) (p := p.bump.insert r) hn
          · exact hflush.exit.logShown hwf₁ (hshown.applied hwf hseq)
          · rw [hflush.exit.live_eq hwf₁, hwf.view_insert hseq, hview, Call.record_bind hrec]
            rfl
    | flushed hc hflush =>
      subst hc
      cases out with
      | error e =>
        obtain ⟨rfl, hover⟩ := hstopped rfl (hflush.stop e rfl)
        exact .inr ⟨rfl, db, .flush, hdb, rfl, hover⟩
      | ok =>
        refine .inl ⟨rfl, d', p', hm', hflush.exit.noLeftover hn, hflush.exit.logShown hwf hshown,
          ?_⟩
        rw [hflush.exit.live_eq hwf, hview]
        rfl
    | compacted hc j hcomp =>
      subst hc
      cases out with
      | error e =>
        obtain ⟨rfl, hover⟩ := hstopped rfl (hcomp.stop e rfl)
        have htable : Call.compact.table db = survivorsOf (collected d p.ids) := by
          simp only [Call.table, hrun.tables, tableRecords_handles hm.stores hwf.ids_file]
          rfl
        exact .inr ⟨rfl, db, .compact, hdb, rfl, htable ▸ hover⟩
      | ok =>
        have hleft : p'.ids = p.ids ∨ p.ids.length ≤ j := by
          rcases hcomp.left with hids | hj | ⟨e, he, _⟩
          · exact .inl hids
          · exact .inr hj
          · exact absurd he (by simp)
        refine .inl ⟨rfl, d', p', hm', hcomp.exit.noLeftover hn hleft,
          (hcomp.exit.logShown_iff hwf).mpr hshown, ?_⟩
        rw [hcomp.exit.live_view hwf, hview]
        rfl

/-- Every step of the run returns `Ok`. -/
abbrev AllOk (ov : Overflow) (s : Sys) (ops : List Op) : Prop :=
  Along (exec ov) (fun s st => (exec ov s st).1 = .ok ()) s (ops.map quietly)

/-- A run of operations keeps the simulation, unless one of them needs too large a table. -/
theorem Refines.run {s : Sys} {m : Bytes → Option Bytes} (h : Refines s m) {ops : List Op}
    (hroom : Along (exec ov) (fun s _ => Room s) s (ops.map quietly))
    (hfits : ∀ op ∈ ops, op.Fits) (hstop : .stop ∉ ops) :
    (AllOk ov s ops ∧ Refines (runSys ov s (ops.map quietly)) (ops.foldl Op.bind m)) ∨
      ∃ pre op post, ops = pre ++ op :: post ∧ AllOk ov s pre ∧
        Exhausts ov (runSys ov s (pre.map quietly)) op := by
  induction ops generalizing s m with
  | nil => exact .inl ⟨trivial, h⟩
  | cons op ops ih =>
    have hop : op ≠ .stop := fun heq => hstop (by simp [heq])
    rcases h.step ov hroom.1 (hfits op (by simp)) hop with
      ⟨hok, h'⟩ | hex
    · rcases ih h' hroom.2 (fun o ho => hfits o (by simp [ho])) (fun hmem => hstop (by simp [hmem]))
        with ⟨hall, hrun⟩ | ⟨pre, op', post, rfl, hall, hex⟩
      · exact .inl ⟨⟨hok, hall⟩, hrun⟩
      · exact .inr ⟨op :: pre, op', post, rfl, ⟨hok, hall⟩, hex⟩
    · exact .inr ⟨[], op, ops, rfl, trivial, hex⟩

/-- Opening a fresh directory gives the empty map. -/
theorem Refines.init (ov : Overflow) {dir : Dir} (hfresh : Fresh dir) (opts : Options) :
    (exec ov ⟨dir, none⟩ (quietly (.openWith opts))).1 = .ok () ∧
      Refines (exec ov ⟨dir, none⟩ (quietly (.openWith opts))).2 (fun _ => none) := by
  have hm : Models False False ⟨dir, none⟩ _ none := Models.fresh hfresh
  have hclean : CleanLog dir := (hm.stores.wholeLog id).clean
  obtain ⟨hok, p, hm', hr⟩ := exec_open_quiet ov hm hclean opts
  have hwf := hm.wf.reopen hr
  refine ⟨hok, _, p, hm'.mono (Or.rec id not_tearing_quiet), hr.noLeftover, hr.logShown hwf, ?_⟩
  rw [hr.view_live hwf]
  funext k
  refine view_of_absent ?_
  intro x hx
  rcases hx with hx | ⟨i, rs, hrs, _⟩
  · simp at hx
  · simp at hrs

/-- **The store refines a map.** Any sequence of puts, deletes, flushes, compactions and
reopens on a fresh directory returns `Ok` throughout and leaves a store that answers like the
map the puts and deletes make, unless some table outgrows one allocation. -/
theorem refines_map {dir : Dir} (hfresh : Fresh dir) (opts : Options) (ops : List Op)
    (hstop : .stop ∉ ops) (hfits : ∀ op ∈ ops, op.Fits)
    (hroom : Along (exec ov) (fun s _ => Room s) ⟨dir, none⟩
      ((.openWith opts :: ops).map quietly)) :
    (AllOk ov ⟨dir, none⟩ (.openWith opts :: ops) ∧
        Serves (runSys ov ⟨dir, none⟩ ((.openWith opts :: ops).map quietly))
          (ops.foldl Op.bind fun _ => none)) ∨
      ∃ pre op post, .openWith opts :: ops = pre ++ op :: post ∧ AllOk ov ⟨dir, none⟩ pre ∧
        Exhausts ov (runSys ov ⟨dir, none⟩ (pre.map quietly)) op := by
  obtain ⟨hok, hinit⟩ := Refines.init ov hfresh opts
  rcases hinit.run hroom.2 hfits hstop with ⟨hall, hrun⟩ | ⟨pre, op, post, rfl, hall, hex⟩
  · exact .inl ⟨⟨hok, hall⟩, hrun.serves⟩
  · exact .inr ⟨.openWith opts :: pre, op, post, rfl, ⟨hok, hall⟩, hex⟩

/-- Puts, a delete, automatic flushes, a compaction and two reopens. -/
def sampleOps : List Op :=
  [.call (.put [97] [1]), .call (.put [98] [2]), .call (.delete [97]), .openWith ⟨0⟩,
    .call (.put [98] [3]), .call .flush, .call .compact, .openWith .default]

theorem sampleOps_refines :
    (AllOk .checked ⟨∅, none⟩ (.openWith ⟨60⟩ :: sampleOps) ∧
        Serves (runSys .checked ⟨∅, none⟩ ((.openWith ⟨60⟩ :: sampleOps).map quietly))
          (sampleOps.foldl Op.bind fun _ => none)) ∨
      ∃ pre op post, .openWith ⟨60⟩ :: sampleOps = pre ++ op :: post ∧
        AllOk .checked ⟨∅, none⟩ pre ∧
        Exhausts .checked (runSys .checked ⟨∅, none⟩ (pre.map quietly)) op :=
  refines_map Fresh.empty ⟨60⟩ sampleOps (by decide) (by decide +kernel) (by decide +kernel)

end RustFundamentals.Lsmkv
