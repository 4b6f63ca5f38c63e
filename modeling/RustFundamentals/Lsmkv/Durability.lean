import RustFundamentals.Foundation.History
import RustFundamentals.Lsmkv.System

/-!
# lsmkv: acknowledged writes and torn appends

A run is observed together with the history of its writes. As long as no open finds a frame
behind an incomplete one, everything acknowledged stays readable through any number of
crashes and failing calls (`Durable.step`): what a reopened store shows is explained by the
history, and so is what the running one shows.

The proviso is needed. `Wal::open` appends behind whatever a torn append left, and replay
stops there: the two runs at the end of each section lose an acknowledged write that way.
-/

namespace RustFundamentals.Lsmkv

open Foundation Foundation.Fs Foundation.Lsm

/-- The writes of a run, in order. -/
abbrev History := List (Entry Bytes Bytes)

/-- The call returned `Ok`. -/
def isOk (out : Except (Stop Error) Unit) : Bool :=
  match out with
  | .ok _ => true
  | .error _ => false

/-- What a step adds to the history: a write call on a running store. -/
def written (s : Sys) (st : Step) (out : Except (Stop Error) Unit) : History :=
  match st.op, s.proc with
  | .call c, some _ =>
    ((c.record 0).map fun r => ⟨r.key, r.value.toOption, isOk out⟩).toList
  | _, _ => []

/-- A step of the system, with the history. -/
def traced (ov : Overflow) (t : Sys × History) (st : Step) :
    Except (Stop Error) Unit × (Sys × History) :=
  let (out, s') := exec ov t.1 st
  (out, (s', t.2 ++ written t.1 st out))

variable {ov : Overflow}

/-- The history explains what a reopened store will show and what the running one shows. -/
def Durable (t : Sys × History) : Prop :=
  ∃ d op, Models False True t.1 d op ∧ Explains t.2 (view d.stored) ∧
    ∀ p, op = some p → NoLeftover d p ∧ Explains t.2 (view (live d p))

theorem view_fresh : view (Disk.stored (⟨[], fun _ => none⟩ : Disk Record)) = fun _ => none := by
  funext k
  refine view_of_absent ?_
  intro x hx
  rcases hx with hx | ⟨i, rs, hrs, _⟩
  · simp at hx
  · simp at hrs

theorem Durable.fresh {dir : Dir} (h : Fresh dir) : Durable (⟨dir, none⟩, []) := by
  refine ⟨_, none, (Models.fresh h).mono fun hf => hf.elim, ?_, by simp⟩
  rw [view_fresh]
  exact .nil

/-- What a write leaves of the two views. -/
theorem Explains.write {d d' : Disk Record} {p p' : Proc Record Bytes} {w : World Site}
    {recs : List Record} {r : Record} {out : Except (Stop Error) Unit} {h : History}
    (hwf : Wf d p) (hn : NoLeftover d p) (hr : r.seq = p.seq)
    (hend : WriteEnd w recs d p r out d' p') (hd : Explains h (view d.stored))
    (hl : Explains h (view (live d p))) :
    Explains (h ++ [⟨r.key, r.value.toOption, isOk out⟩]) (view d'.stored) ∧
      Explains (h ++ [⟨r.key, r.value.toOption, isOk out⟩]) (view (live d' p')) := by
  cases hend with
  | refused _ => exact ⟨hd.lost rfl, hl.lost rfl⟩
  | unlogged _ _ => exact ⟨hd.lost rfl, hl.lost rfl⟩
  | logged _ _ =>
    -- in the log but not in memory: only a reopened store shows it
    refine ⟨?_, hl.lost rfl⟩
    rw [hwf.view_append hr]
    exact hd.done ⟨r.key, r.value.toOption, _⟩
  | applied _ hend =>
    have hd₁ : Explains (h ++ [⟨r.key, r.value.toOption, isOk out⟩])
        (view (d.append r).stored) := by
      rw [hwf.view_append hr]
      exact hd.done ⟨r.key, r.value.toOption, _⟩
    have hl₁ : Explains (h ++ [⟨r.key, r.value.toOption, isOk out⟩])
        (view (live (d.append r) (p.bump.insert r))) := by
      rw [hwf.view_insert hr]
      exact hl.done ⟨r.key, r.value.toOption, _⟩
    have hwf₁ : Wf (d.append r) (p.bump.insert r) := hwf.applied hr
    refine ⟨?_, by rw [hend.exit.live_eq hwf₁]; exact hl₁⟩
    rcases hend.exit.stored_view hwf₁ hn with hview | hview
    · rw [hview]
      exact hd₁
    · rw [hview]
      exact hl₁

/-- **One step keeps every acknowledged write**, whatever fails, as long as a compaction's
removals do not. -/
theorem Durable.step {t : Sys × History} {st : Step} (h : Durable t)
    (hsound : Sound False t.1 st)
    (hremove : st.op = .call .compact → st.plan .removeOld = []) :
    Durable (traced ov t st).2 := by
  obtain ⟨s, hist⟩ := t
  obtain ⟨d, op, hm, hd, hl⟩ := h
  dsimp only at hm hsound hd hl
  obtain ⟨d', op', hm', hend⟩ := exec_models ov (fun hf => hf.elim) hm hsound
  replace hm' := hm'.mono fun _ => trivial
  show Durable ((exec ov s st).2, hist ++ written s st (exec ov s st).1)
  generalize hout : (exec ov s st).1 = out at hend
  refine ⟨d', op', hm', ?_⟩
  cases hend with
  | @opened _ p hop hr _ =>
    have hwf : Wf d p := hm.wf.reopen hr
    have hw : written s st (.ok ()) = [] := by simp [written, hop]
    rw [hw, List.append_nil]
    refine ⟨hd, ?_⟩
    intro q hq
    cases hq
    exact ⟨hr.noLeftover, by rw [hr.view_live hwf]; exact hd⟩
  | failed hop _ =>
    have hw : ∀ out, written s st out = [] := fun out => by simp [written, hop]
    rw [hw, List.append_nil]
    exact ⟨hd, fun p hp => by simp at hp⟩
  | stopped hop =>
    have hw : written s st (.ok ()) = [] := by simp [written, hop]
    rw [hw, List.append_nil]
    exact ⟨hd, fun p hp => by simp at hp⟩
  | absent hop hp =>
    have hw : written s st (.error .died) = [] := by simp [written, hop, hm.down hp]
    rw [hw, List.append_nil]
    exact ⟨hd, fun p hp => by simp at hp⟩
  | @called c p db out d' p' hop hp hdb hend =>
    obtain ⟨_, _, hwf, _⟩ := hm.up p hp
    obtain ⟨hn, hl⟩ := hl p hp
    -- the views, whether or not the process is still there
    suffices hviews : Explains (hist ++ written s st out) (view d'.stored) ∧
        Explains (hist ++ written s st out) (view (live d' p')) ∧
        (alive out = true → NoLeftover d' p') by
      refine ⟨hviews.1, ?_⟩
      intro q hq
      cases ha : alive out with
      | false => simp [ha] at hq
      | true =>
        simp only [ha, if_true, Option.some.injEq] at hq
        subst hq
        exact ⟨hviews.2.2 ha, hviews.2.1⟩
    cases hend with
    | @wrote r _ _ _ hrec hwrite =>
      have hseq := Call.record_seq hrec
      have hw : written s st out = [⟨r.key, r.value.toOption, isOk out⟩] := by
        simp only [written, hop, hdb, Call.record_zero hrec, Option.map_some, Option.toList_some]
      obtain ⟨hd', hl'⟩ := Explains.write hwf hn hseq hwrite hd hl
      rw [hw]
      exact ⟨hd', hl', fun _ => hn.write hwrite.exit⟩
    | flushed hc hflush =>
      have hw : written s st out = [] := by simp [written, hop, hdb, hc, Call.record]
      rw [hw, List.append_nil, hflush.exit.live_eq hwf]
      refine ⟨?_, hl, fun _ => hflush.exit.noLeftover hn⟩
      rcases hflush.exit.stored_view hwf hn with hview | hview
      · rw [hview]
        exact hd
      · rw [hview]
        exact hl
    | compacted hc j hcomp =>
      have hw : written s st out = [] := by simp [written, hop, hdb, hc, Call.record]
      have hn' : NoLeftover d' p' := by
        refine hcomp.exit.noLeftover hn ?_
        rcases hcomp.left with hids | hj | ⟨e, _, hb⟩
        · exact .inl hids
        · exact .inr hj
        · have hempty := hremove (hc ▸ hop)
          obtain ⟨n, hmem, _⟩ | ⟨n, hmem, _⟩ := hb <;> simp [hempty] at hmem
      rw [hw, List.append_nil, hcomp.exit.live_view hwf,
        stored_view_congr hwf (hcomp.exit.wf hwf) hn hn' hcomp.exit.log_eq
          (hcomp.exit.live_view hwf)]
      exact ⟨hd, hl, fun _ => hn'⟩

/-- What a client of a durable store reads is allowed by the history. -/
theorem Durable.get {t : Sys × History} (h : Durable t) {db : Db} (hdb : t.1.proc = some db)
    (k : Bytes) : ∃ v, db.get k = .ok v ∧ Allowed t.2 k v := by
  obtain ⟨d, op, hm, _, hl⟩ := h
  obtain ⟨p, rfl, hwf, hrun⟩ := hm.of_proc hdb
  exact ⟨_, get_eq hm.stores hwf hrun k, (hl p rfl).2.allowed k⟩

/-- A durable store reopens, and what the client then reads is allowed by the history. -/
theorem Durable.reopen {t : Sys × History} (h : Durable t) (hclean : CleanLog t.1.dir)
    (opts : Options) :
    ∃ dir db, exec ov t.1 ⟨.openWith opts, quiet⟩ = (.ok (), ⟨dir, some db⟩) ∧
      ∀ k, ∃ v, db.get k = .ok v ∧ Allowed t.2 k v := by
  obtain ⟨d, op, hm, hd, _⟩ := h
  obtain ⟨hout, p, hm', hr⟩ := exec_open_quiet ov hm hclean opts
  obtain ⟨db, hdb, hwf, hrun⟩ := hm'.up p rfl
  refine ⟨(exec ov t.1 ⟨.openWith opts, quiet⟩).2.dir, db, ?_, ?_⟩
  · rw [← hdb, ← hout]
  · intro k
    refine ⟨_, get_eq hm'.stores hwf hrun k, ?_⟩
    rw [hr.view_live hwf]
    exact hd.allowed k

/-- **Everything acknowledged stays readable** in a run that any calls but a compaction's
removals may cut short, as long as no open finds a frame behind an incomplete one. -/
theorem durable_run {dir : Dir} (hfresh : Fresh dir) {P : Sys × History → Step → Prop}
    (hsound : ∀ t st, P t st → Sound False t.1 st)
    (hremove : ∀ t st, P t st → st.op = .call .compact → st.plan .removeOld = [])
    {steps : List Step} (ha : Along (traced ov) P (⟨dir, none⟩, []) steps) :
    Durable (runFrom (traced ov) (⟨dir, none⟩, []) steps) :=
  runFrom_invariant (fun t st h hst => h.step (hsound t st hst) (hremove t st hst))
    (Durable.fresh hfresh) ha

/-! ## Crashes -/

/-- A step in which the process may die: an open, a write or a flush. -/
def Crashing (st : Step) : Prop := CrashOnly st.plan ∧ st.op ≠ .call .compact

instance (st : Step) : Decidable (Crashing st) := inferInstanceAs (Decidable (_ ∧ _))

/-- **Acknowledged writes survive crashes**, torn log tails included, as long as no open finds
a frame behind an incomplete one. -/
theorem acked_survive_crashes {dir : Dir} (hfresh : Fresh dir) {steps : List Step}
    (ha : Along (traced ov) (fun t st => Sound False t.1 st ∧ Crashing st) (⟨dir, none⟩, [])
      steps) :
    let t := runFrom (traced ov) (⟨dir, none⟩, []) steps
    (∀ db, t.1.proc = some db → ∀ k, ∃ v, db.get k = .ok v ∧ Allowed t.2 k v) ∧
      (CleanLog t.1.dir → ∀ opts, ∃ dir' db,
        exec ov t.1 ⟨.openWith opts, quiet⟩ = (.ok (), ⟨dir', some db⟩) ∧
          ∀ k, ∃ v, db.get k = .ok v ∧ Allowed t.2 k v) := by
  intro t
  have hdurable : Durable t := durable_run hfresh (fun _ _ hst => hst.1)
    (fun _ _ hst hc => absurd hc hst.2.2) ha
  refine ⟨?_, ?_⟩
  · intro db hdb k
    exact hdurable.get hdb k
  · intro hclean opts
    exact hdurable.reopen hclean opts

/-- A put, a put torn by a crash, and the session that recovers. -/
def tornOnce : List Step :=
  [⟨.openWith .default, quiet⟩,
    ⟨.call (.put [97] [1]), quiet⟩,
    ⟨.call (.put [97] [2]), faultsAt .walAppend [.die 3]⟩,
    ⟨.openWith .default, quiet⟩]

theorem tornOnce_survives :
    let t := runFrom (traced .checked) (⟨∅, none⟩, []) tornOnce
    (∀ db, t.1.proc = some db → ∀ k, ∃ v, db.get k = .ok v ∧ Allowed t.2 k v) ∧
      (CleanLog t.1.dir → ∀ opts, ∃ dir' db,
        exec .checked t.1 ⟨.openWith opts, quiet⟩ = (.ok (), ⟨dir', some db⟩) ∧
          ∀ k, ∃ v, db.get k = .ok v ∧ Allowed t.2 k v) :=
  acked_survive_crashes Fresh.empty (by decide +kernel)

/-- A put torn by a crash, and a put the next session acknowledges behind it. -/
def tornTail : List Step :=
  [⟨.openWith .default, quiet⟩,
    ⟨.call (.put [97] [1]), faultsAt .walAppend [.die 3]⟩,
    ⟨.openWith .default, quiet⟩,
    ⟨.call (.put [98] [2]), quiet⟩,
    ⟨.openWith .default, quiet⟩]

/-- **An acknowledged put behind a torn tail is lost** at the next reopen. -/
theorem tornTail_loses_put :
    let t := runFrom (traced .checked) (⟨∅, none⟩, []) tornTail
    (∀ st ∈ tornTail, Crashing st) ∧ t.1.proc.map (·.get [98]) = some (.ok none) ∧
      t.2 = [⟨[97], some [1], false⟩, ⟨[98], some [2], true⟩] ∧ ¬ Allowed t.2 [98] none := by
  intro t
  have hhist : t.2 = [⟨[97], some [1], false⟩, ⟨[98], some [2], true⟩] := by decide +kernel
  refine ⟨by decide +kernel, by decide +kernel, hhist, ?_⟩
  rw [hhist]
  exact not_allowed_none (h := [⟨[97], some [1], false⟩]) (e := ⟨[98], some [2], true⟩) rfl nofun

/-! ## Failing appends -/

/-- A step in which nothing fails but appends to the log, which return `Err`. -/
def AppendsFail (st : Step) : Prop :=
  (∀ site, site ≠ .walAppend → st.plan site = []) ∧ ∀ f ∈ st.plan .walAppend, f.isDie = false

instance (st : Step) : Decidable (AppendsFail st) := inferInstanceAs (Decidable (_ ∧ _))

/-- **A failed append endangers no acknowledged write**, as long as no open finds a frame
behind an incomplete one: once the process has stopped, the directory reopens, and what a
client then reads is allowed by the history. -/
theorem acked_survive_failed_appends {dir : Dir} (hfresh : Fresh dir) {steps : List Step}
    (ha : Along (traced ov) (fun t st => Sound False t.1 st ∧ AppendsFail st) (⟨dir, none⟩, [])
      steps) :
    let t := runFrom (traced ov) (⟨dir, none⟩, []) steps
    CleanLog t.1.dir → ∀ opts, ∃ dir' db,
      exec ov t.1 ⟨.openWith opts, quiet⟩ = (.ok (), ⟨dir', some db⟩) ∧
        ∀ k, ∃ v, db.get k = .ok v ∧ Allowed t.2 k v := by
  intro t hclean opts
  have hdurable : Durable t := durable_run hfresh (fun _ _ hst => hst.1)
    (fun _ _ hst _ => hst.2.1 .removeOld (by decide)) ha
  exact hdurable.reopen hclean opts

/-- A put that fails after three bytes, and a flush that truncates the log before the next
put. -/
def failedThenFlushed : List Step :=
  [⟨.openWith .default, quiet⟩,
    ⟨.call (.put [97] [1]), quiet⟩,
    ⟨.call (.put [97] [2]), faultsAt .walAppend [.err 3]⟩,
    ⟨.call .flush, quiet⟩,
    ⟨.call (.put [98] [3]), quiet⟩,
    ⟨.stop, quiet⟩]

theorem failedThenFlushed_survives :
    let t := runFrom (traced .checked) (⟨∅, none⟩, []) failedThenFlushed
    ∀ opts, ∃ dir' db, exec .checked t.1 ⟨.openWith opts, quiet⟩ = (.ok (), ⟨dir', some db⟩) ∧
      ∀ k, ∃ v, db.get k = .ok v ∧ Allowed t.2 k v :=
  acked_survive_failed_appends Fresh.empty (by decide +kernel) (by decide +kernel)

/-- A put that fails after three bytes, and a put acknowledged behind it. -/
def failedThenPut : List Step :=
  [⟨.openWith .default, quiet⟩,
    ⟨.call (.put [97] [1]), faultsAt .walAppend [.err 3]⟩,
    ⟨.call (.put [98] [2]), quiet⟩,
    ⟨.stop, quiet⟩,
    ⟨.openWith .default, quiet⟩]

/-- **An acknowledged put behind a failed append is lost** at the next reopen. -/
theorem failedThenPut_loses_put :
    let t := runFrom (traced .checked) (⟨∅, none⟩, []) failedThenPut
    (∀ st ∈ failedThenPut, AppendsFail st) ∧ t.1.proc.map (·.get [98]) = some (.ok none) ∧
      t.2 = [⟨[97], some [1], false⟩, ⟨[98], some [2], true⟩] ∧ ¬ Allowed t.2 [98] none := by
  intro t
  have hhist : t.2 = [⟨[97], some [1], false⟩, ⟨[98], some [2], true⟩] := by decide +kernel
  refine ⟨by decide +kernel, by decide +kernel, hhist, ?_⟩
  rw [hhist]
  exact not_allowed_none (h := [⟨[97], some [1], false⟩]) (e := ⟨[98], some [2], true⟩) rfl nofun

end RustFundamentals.Lsmkv
