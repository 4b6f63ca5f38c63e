import RustFundamentals.Lsmkv.Kv
import RustFundamentals.Lsmkv.Refinement

/-!
# lsmkv: the shell sees a map

Any sequence of `kv` processes, on any directories: each answers as if its directory were the
map that the `put` and `del` processes on it have made (`kv_answers`), whatever flushes and
compactions ran in between. What passes from one process to the next is the directory alone,
so the invariant is about directories (`Holds`): what is stored there is the map, and its
numbers are bounded by the number of processes.
-/

namespace RustFundamentals.Lsmkv

open Foundation Foundation.Fs Foundation.Lsm

variable {ov : Overflow}

/-! ## One call on a store that was just opened -/

/-- What a call leaves, whether it returns or its table is too large: a settled store again,
with the map the call makes. -/
structure Settles (d : Disk Record) (p : Proc Record Bytes) (c : Call) (recs : List Record)
    (out : Except (Stop Error) Unit) (d' : Disk Record) (p' : Proc Record Bytes) : Prop where
  wf : Wf d' p'
  noLeftover : NoLeftover d' p'
  logShown : LogShown d' p'
  view : view (live d' p') = (Op.call c).bind (view (live d p))
  out : out = .ok () ∨ (out = .error .panicked ∧ Oversize recs)

/-- Without faults and with room in the counters, only a table that is too large stops. -/
theorem quiet_stop {dir : Dir} {recs : List Record} {next : Nat} {out : Except (Stop Error) Unit}
    (hnext : next + 1 < 2 ^ 64) (hstop : ∀ e, out = .error e →
      Blames (⟨dir, quiet⟩ : World Site).plan e ∨
        (e = .panicked ∧ (Oversize recs ∨ 2 ^ 64 ≤ next + 1))) :
    out = .ok () ∨ (out = .error .panicked ∧ Oversize recs) := by
  cases out with
  | ok => exact .inl rfl
  | error e =>
    rcases hstop e rfl with hb | ⟨rfl, hover | hge⟩
    · exact absurd quiet_quiet hb.not_quiet
    · exact .inr ⟨rfl, hover⟩
    · omega

theorem CallEnd.settles {dir : Dir} {db : Db} {d d' : Disk Record} {p p' : Proc Record Bytes}
    {c : Call} {out : Except (Stop Error) Unit} (h : CallEnd ⟨dir, quiet⟩ db d p c out d' p')
    (hm : Models False False ⟨dir, some db⟩ d (some p)) (hn : NoLeftover d p)
    (hshown : LogShown d p) (hroom : p.seq + 1 < 2 ^ 64 ∧ p.next + 1 < 2 ^ 64) :
    Settles d p c (c.table db) out d' p' := by
  have hdb : (⟨dir, some db⟩ : Sys).proc = some db := rfl
  obtain ⟨hwf, hrun⟩ := hm.running hdb
  have hwf' := h.wf hwf
  cases h with
  | @wrote r _ _ _ hrec hwrite =>
    have hseq : r.seq = p.seq := Call.record_seq hrec
    have htable : c.table db = (db.mem.insert r).records :=
      Call.table_record (by rw [hrun.seq]; exact hrec)
    cases hwrite with
    | refused hge => exact absurd hge (not_le.mpr hroom.1)
    | unlogged _ hb => exact absurd hb not_blamedOn_quiet
    | logged _ hb => exact absurd hb not_blamed_logged_quiet
    | applied _ hflush =>
      have hwf₁ : Wf (d.append r) (p.bump.insert r) := hwf.applied hseq
      rw [htable]
      have hn₁ : NoLeftover (d.append r) (p.bump.insert r) := hn
      refine ⟨hwf', hflush.exit.noLeftover hn₁, hflush.exit.logShown hwf₁ (hshown.applied hwf hseq),
        ?_, quiet_stop hroom.2 hflush.stop⟩
      rw [hflush.exit.live_eq hwf₁, hwf.view_insert hseq, Call.record_bind hrec]
      rfl
  | flushed hc hflush =>
    subst hc
    exact ⟨hwf', hflush.exit.noLeftover hn, hflush.exit.logShown hwf hshown,
      by rw [hflush.exit.live_eq hwf]; rfl, quiet_stop hroom.2 hflush.stop⟩
  | compacted hc j hcomp =>
    subst hc
    have htable : Call.compact.table db = survivorsOf (collected d p.ids) := by
      simp only [Call.table, hrun.tables, tableRecords_handles hm.stores hwf.ids_file]
      rfl
    have hleft : p'.ids = p.ids ∨ p.ids.length ≤ j := by
      rcases hcomp.left with hids | hj | ⟨e, _, hb⟩
      · exact .inl hids
      · exact .inr hj
      · exact absurd hb not_blamedOn_quiet
    rw [htable]
    exact ⟨hwf', hcomp.exit.noLeftover hn hleft, (hcomp.exit.logShown_iff hwf).mpr hshown,
      by rw [hcomp.exit.live_view hwf]; rfl, quiet_stop hroom.2 hcomp.stop⟩

/-- A call stores no record but its own. -/
theorem CallEnd.stored {w : World Site} {db : Db} {d d' : Disk Record} {p p' : Proc Record Bytes}
    {c : Call} {out : Except (Stop Error) Unit} (h : CallEnd w db d p c out d' p')
    (hwf : Wf d p) {x : Record} (hx : x ∈ d'.stored) : x ∈ d.stored ∨ x.seq = p.seq := by
  cases h with
  | @wrote r _ _ _ hr h =>
    have hseq := Call.record_seq hr
    have hnew : ∀ y, y ∈ (d.append r).stored → y ∈ d.stored ∨ y.seq = p.seq := by
      intro y hy
      rcases Disk.mem_stored_append.mp hy with rfl | hy
      · exact .inr hseq
      · exact .inl hy
    cases h with
    | refused _ => exact .inl hx
    | unlogged _ _ => exact .inl hx
    | logged _ _ => exact hnew x hx
    | applied _ h => exact hnew x (h.exit.stored_subset (hwf.applied hseq) hx)
  | flushed _ h => exact .inl (h.exit.stored_subset hwf hx)
  | compacted _ _ h => exact .inl (h.exit.stored_subset hwf hx)

/-! ## The open -/

theorem nextIdAfter_past (ov : Overflow) (ids : List Nat) (w : World Site) :
    Post (nextIdAfter ov ids) w fun out _ => ∀ next, out = .ok next →
      next = 0 ∨ ∃ i ∈ ids, ov.fit 64 (i + 1) = some next := by
  rw [nextIdAfter]
  cases hlast : ids.getLast? with
  | none =>
    intro next hnext
    exact .inl (Except.ok.inj hnext).symm
  | some m =>
    show Post (orPanic (ov.fit 64 (m + 1))) w _
    cases hfit : ov.fit 64 (m + 1) with
    | none => simp
    | some v =>
      intro next hnext
      obtain rfl : v = next := Except.ok.inj hnext
      exact .inr ⟨m, List.mem_of_getLast? hlast, hfit⟩

/-- The next table id is one past a table file. -/
theorem openWith_next (ov : Overflow) (opts : Options) (w : World Site) :
    Post (Db.openWith ov opts) w fun out _ => ∀ db, out = .ok db →
      db.nextSstId = 0 ∨ ∃ i ∈ foundIds w.dir, ov.fit 64 (i + 1) = some db.nextSstId := by
  rw [Db.openWith, Post_bind]
  refine Post_tick ?_ fun _ _ _ => by simp
  simp only [Post_bind, listSstableIds]
  refine Post_readDir ?_ fun _ _ _ => by simp
  simp only [Post_pure]
  refine Post_of_forall fun out w₁ => ?_
  cases out with
  | error e => simp
  | ok tables =>
  refine (nextIdAfter_past ov _ w₁).mono ?_
  intro out w₂ hnext
  cases out with
  | error e => simp
  | ok next =>
  -- the log and the numbers are read past it
  refine Post_of_forall fun out w₃ => ?_
  cases out with
  | error e => simp
  | ok replayed =>
  refine Post_of_forall fun out w₄ => ?_
  cases out with
  | error e => simp
  | ok seq =>
  refine Post_of_forall fun out w₅ => ?_
  cases out with
  | error e => simp
  | ok =>
  intro db hdb
  cases hdb
  exact hnext next rfl

/-- A plan with nothing left of no faults has none. -/
theorem eq_quiet_of_rest {plan : Plan Site} (h : Plan.Rest plan quiet) : plan = quiet := by
  funext site
  exact List.suffix_nil.mp (h site)

/-- **An open without faults**, with what its counters are made from. -/
theorem openWith_quiet (ov : Overflow) {dir : Dir} {d : Disk Record}
    (hm : Models False False ⟨dir, none⟩ d none) (opts : Options) :
    ∃ db dir' p, (Db.openWith ov opts).run ⟨dir, quiet⟩ = (.ok db, ⟨dir', quiet⟩) ∧
      Models False False ⟨dir', some db⟩ d (some p) ∧ Reopened d p ∧
      (p.seq = 1 ∨ ∃ x ∈ d.stored, x.seq + 1 = p.seq) ∧
      (p.next = 0 ∨ ∃ i, (d.files i).isSome ∧ p.next = i + 1) := by
  have hids := hm.ids.resolve_left id
  have hclean : CleanLog dir := (hm.stores.wholeLog id).clean
  have hspec : Post (Db.openWith ov opts) ⟨dir, quiet⟩ _ :=
    openWith_spec opts hm.stores hm.wf hclean (.inr hids) hm.seqs
  have hnext := openWith_next ov opts ⟨dir, quiet⟩
  unfold Post at hspec hnext
  generalize (Db.openWith ov opts).run ⟨dir, quiet⟩ = res at hspec hnext
  obtain ⟨out, w⟩ := res
  obtain ⟨hplan, hs, _, hend⟩ := hspec
  obtain ⟨dir', plan⟩ := w
  obtain rfl : plan = quiet := eq_quiet_of_rest hplan
  cases hend with
  | stopped hcause => exact absurd hcause (not_open_fails hids)
  | @opened db _ p hr hrun _ hseq =>
    refine ⟨db, dir', p, rfl, ?_, hr, hseq, ?_⟩
    · exact
        { stores := hs, wf := hm.wf, ids := hm.ids, seqs := hm.seqs, down := fun h => by cases h
          up := fun q hq => by
            cases hq
            exact ⟨db, rfl, hm.wf.reopen hr, hrun⟩ }
    · have hrunnext : db.nextSstId = p.next := hrun.next
      rw [← hrunnext]
      rcases hnext db rfl with h0 | ⟨i, hi, hfit⟩
      · exact .inl h0
      · have hfile := (mem_foundIds hm.stores).mp hi
        exact .inr ⟨i, hfile, (Overflow.fit_eq_some hfit (.inr (hids i hfile))).1⟩

namespace Kv

/-! ## The shell's side -/

/-- What a command line asks for. -/
inductive Request
  | put (key value : Bytes)
  | get (key : Bytes)
  | del (key : Bytes)
  | scan
  | flush
  | compact
  | stats
  | bad (msg : Bytes)
  deriving DecidableEq, Repr

/-- The request behind the directory name. -/
def Request.ofCommand (cmd : Bytes) (args : List Bytes) : Request :=
  if cmd = ascii "put" then
    match args with
    | key :: value :: _ => .put key value
    | [] => .bad (ascii "put needs <key> <value>")
    | [_] => .bad (ascii "put needs <key> <value>")
  else if cmd = ascii "get" then
    match args with
    | key :: _ => .get key
    | [] => .bad (ascii "get needs <key>")
  else if cmd = ascii "del" ∨ cmd = ascii "delete" then
    match args with
    | key :: _ => .del key
    | [] => .bad (ascii "del needs <key>")
  else if cmd = ascii "scan" then .scan
  else if cmd = ascii "flush" then .flush
  else if cmd = ascii "compact" then .compact
  else if cmd = ascii "stats" then .stats
  else .bad (ascii "unknown command '" ++ cmd ++ ascii "'")

/-- The request of a command line. -/
def Request.ofArgs : List Bytes → Request
  | [] => .bad (ascii "missing <dir>")
  | [_] => .bad (ascii "missing <command>")
  | _ :: cmd :: args => .ofCommand cmd args

/-- The call a request makes on the store. -/
def Request.call : Request → Option Call
  | .put key value => some (.put key value)
  | .del key => some (.delete key)
  | .flush => some .flush
  | .compact => some .compact
  | .get _ => none
  | .scan => none
  | .stats => none
  | .bad _ => none

/-- What a request does to the map. -/
def Request.bind (m : Bytes → Option Bytes) (r : Request) : Bytes → Option Bytes :=
  match r.call with
  | some c => (Op.call c).bind m
  | none => m

/-- A process that succeeds, printing `text`. -/
def said (text : Bytes) : Output := ⟨text, [], .success⟩

/-- The answers the map `m` allows. -/
def Request.Answers (m : Bytes → Option Bytes) : Request → Output → Prop
  | .put _ _, out => out = said (ascii "ok\n")
  | .del _, out => out = said (ascii "ok\n")
  | .flush, out => out = said (ascii "ok\n")
  | .compact, out => out = said (ascii "ok\n")
  | .get key, out => out = said (println ((m key).getD (ascii "(not found)")))
  | .scan, out => ∃ pairs, Lists pairs m ∧
      out = said (pairs.flatMap fun b => println (b.1 ++ ascii "=" ++ b.2))
  | .stats, out => ∃ text, out = said text
  | .bad msg, out => out = ⟨[], println (ascii "error: " ++ msg) ++ println [] ++ usage, .failure⟩

/-- The maps the processes have made, by path. -/
def mapsAfter (runs : List (List Bytes)) : Bytes → Bytes → Option Bytes :=
  runs.foldl (fun maps args => Function.update maps (args.headD [])
    ((Request.ofArgs args).bind (maps (args.headD [])))) fun _ _ => none

/-- The directories the processes leave. -/
def dirsAfter (ov : Overflow) (osText : IoError → Bytes) (dirs : Dirs)
    (runs : List (List Bytes)) : Dirs :=
  runs.foldl (fun dirs args => (kv ov osText quiet dirs args).2) dirs

/-- Command lines as the process gets them: Unicode, and no record longer than its formats
can hold. -/
structure Proper (args : List Bytes) : Prop where
  unicode : ∀ arg ∈ args, validUtf8 arg = true
  fits : ∀ c, (Request.ofArgs args).call = some c → c.Fits

theorem proper_iff {args : List Bytes} : Proper args ↔
    (∀ arg ∈ args, validUtf8 arg = true) ∧ ∀ c ∈ (Request.ofArgs args).call, c.Fits :=
  ⟨fun h => ⟨h.unicode, h.fits⟩, fun h => ⟨h.1, h.2⟩⟩

instance (args : List Bytes) : Decidable (Proper args) := decidable_of_iff _ proper_iff.symm

/-! ## From one process to the next -/

/-- After `n` processes the directory holds the map `m`. -/
def Holds (n : Nat) (dir : Dir) (m : Bytes → Option Bytes) : Prop :=
  ∃ d, Models False False ⟨dir, none⟩ d none ∧ view d.stored = m ∧
    (∀ x ∈ d.stored, x.seq ≤ n) ∧ ∀ i, (d.files i).isSome → i < n

/-- The store the next process opens on it. -/
structure Ready (n : Nat) (db : Db) (dir : Dir) (m : Bytes → Option Bytes) (d : Disk Record)
    (p : Proc Record Bytes) : Prop where
  models : Models False False ⟨dir, some db⟩ d (some p)
  noLeftover : NoLeftover d p
  logShown : LogShown d p
  view : view (live d p) = m
  seqs : ∀ x ∈ d.stored, x.seq ≤ n
  ids : ∀ i, (d.files i).isSome → i < n
  seq : p.seq ≤ n + 1
  next : p.next ≤ n

theorem Holds.fresh {dir : Dir} (h : Fresh dir) : Holds 0 dir fun _ => none := by
  have hm : Models False False ⟨dir, none⟩ ⟨[], fun _ => none⟩ none := Models.fresh h
  have hempty : ∀ x, x ∉ Disk.stored (⟨[], fun _ => none⟩ : Disk Record) := by
    intro x hx
    rcases hx with hx | ⟨i, rs, hrs, _⟩
    · simp at hx
    · cases hrs
  refine ⟨_, hm, ?_, fun x hx => absurd hx (hempty x), fun i hi => by cases hi⟩
  funext k
  exact view_of_absent fun x hx => absurd hx (hempty x)

theorem Holds.mono {n n' : Nat} {dir : Dir} {m : Bytes → Option Bytes} (h : Holds n dir m)
    (hle : n ≤ n') : Holds n' dir m := by
  obtain ⟨d, hm, hview, hseqs, hids⟩ := h
  exact ⟨d, hm, hview, fun x hx => (hseqs x hx).trans hle, fun i hi => (hids i hi).trans_le hle⟩

theorem Holds.opens (ov : Overflow) {n : Nat} {dir : Dir} {m : Bytes → Option Bytes}
    (h : Holds n dir m) (opts : Options) :
    ∃ db dir' d p, (Db.openWith ov opts).run ⟨dir, quiet⟩ = (.ok db, ⟨dir', quiet⟩) ∧
      Ready n db dir' m d p := by
  obtain ⟨d, hm, hview, hseqs, hids⟩ := h
  obtain ⟨db, dir', p, hrun, hm', hr, hseq, hnext⟩ := openWith_quiet ov hm opts
  have hwf := hm.wf.reopen hr
  refine ⟨db, dir', d, p, hrun,
    { models := hm', noLeftover := hr.noLeftover, logShown := hr.logShown hwf
      view := (hr.view_live hwf).trans hview, seqs := hseqs, ids := hids, seq := ?_, next := ?_ }⟩
  · rcases hseq with h1 | ⟨x, hx, hx1⟩
    · omega
    · rw [← hx1]
      exact Nat.succ_le_succ (hseqs x hx)
  · rcases hnext with h0 | ⟨i, hi, hi1⟩
    · omega
    · have := hids i hi
      omega

theorem Post_orTell {σ α : Type} (tell : Error → Bytes) (x : Io σ Error α) (s : σ)
    (Q : Except (Stop Bytes) α → σ → Prop) :
    Post (orTell tell x) s Q ↔ Post x s fun r s' => Q (mapErr tell r) s' := Iff.rfl

theorem Post_withDb {α : Type} (db : Db) (x : Io Session Bytes α) (w : World Site)
    (Q : Except (Stop Bytes) α → World Site → Prop) :
    Post (withDb db x) w Q ↔ Post x ⟨db, w⟩ fun r s => Q r s.world := Iff.rfl

section Opened

variable {n : Nat} {db : Db} {dir : Dir} {m : Bytes → Option Bytes} {d : Disk Record}
  {p : Proc Record Bytes}

/-- A process that ends leaves what it read. -/
theorem Ready.holds (h : Ready n db dir m d p) : Holds n dir m := by
  obtain ⟨hwf, _⟩ := h.models.running rfl
  exact ⟨d, h.models.dropped, (hwf.reopened_view h.noLeftover h.logShown).trans h.view, h.seqs,
    h.ids⟩

theorem Ready.looks_up (h : Ready n db dir m d p) (key : Bytes) : db.get key = .ok (m key) := by
  obtain ⟨hwf, hrun⟩ := h.models.running rfl
  rw [get_eq h.models.stores hwf hrun, h.view]

theorem Ready.scan_lists (h : Ready n db dir m d p) :
    ∃ pairs, db.scan = .ok pairs ∧ Lists pairs m := by
  obtain ⟨hwf, hrun⟩ := h.models.running rfl
  rw [← h.view]
  exact scan_spec h.models.stores hwf hrun

/-- **A call on the open store**: the directory holds the new map, even where the table was too
large. -/
theorem Ready.call (ov : Overflow) (h : Ready n db dir m d p) (hn : n + 2 < 2 ^ 64) {c : Call}
    (hfits : c.Fits) :
    Post (c.run ov) ⟨db, ⟨dir, quiet⟩⟩ fun out s' =>
      Holds (n + 1) s'.world.dir ((Op.call c).bind m) ∧
        (out = .ok () ∨ (out = .error .panicked ∧ Oversize (c.table db))) := by
  obtain ⟨hwf, hrun⟩ := h.models.running rfl
  have hroom : p.seq + 1 < 2 ^ 64 ∧ p.next + 1 < 2 ^ 64 := by
    have := h.seq
    have := h.next
    omega
  refine (call_spec (w := ⟨dir, quiet⟩) h.models.stores hwf hrun hfits (.inr hroom)).mono ?_
  intro out s' hpost
  obtain ⟨d', p', hend, hleaves, _⟩ := hpost
  have hset := hend.settles h.models h.noLeftover h.logShown hroom
  have hleaves' : Leaves False out s' d' p' :=
    ⟨hleaves.stores.mono (Or.rec id not_tearing_quiet), hleaves.running⟩
  refine ⟨⟨d', (hend.models h.models hleaves' (.inr hroom.2)).dropped, ?_, ?_, ?_⟩, hset.out⟩
  · rw [hset.wf.reopened_view hset.noLeftover hset.logShown, hset.view, h.view]
  · intro x hx
    rcases hend.stored hwf hx with hold | hnew
    · exact (h.seqs x hold).trans (Nat.le_succ n)
    · exact hnew.trans_le h.seq
  · intro i hi
    have := h.next
    have := hend.file_le hwf hi
    omega

/-- What a request may come to, the map being `m` and the process the `n + 1`st. -/
def Ends (n : Nat) (m : Bytes → Option Bytes) (db : Db) (r : Request)
    (out : Except (Stop Bytes) Bytes) (s' : Session) : Prop :=
  Holds (n + 1) s'.world.dir (r.bind m) ∧ (r.Answers m (report out) ∨
    ((report out).exit = .panicked ∧ ∃ c, r.call = some c ∧ Oversize (c.table db)))

/-- A command that makes one call and prints "ok". -/
theorem Ready.reports (ov : Overflow) (io : Error → Bytes) (h : Ready n db dir m d p)
    (hn : n + 2 < 2 ^ 64) {r : Request} {c : Call} (hcall : r.call = some c) (hfits : c.Fits) :
    Post (do
        orTell io (c.run ov)
        return println (ascii "ok")) ⟨db, ⟨dir, quiet⟩⟩ (Ends n m db r) := by
  have hanswers : r.Answers m (said (ascii "ok\n")) := by
    cases r <;> first | exact rfl | cases hcall
  have hbind : r.bind m = (Op.call c).bind m := by
    rw [Request.bind, hcall]
  rw [Post_bind, Post_orTell]
  refine (h.call ov hn hfits).mono ?_
  intro out s' hpost
  obtain ⟨hholds, hout⟩ := hpost
  rw [← hbind] at hholds
  rcases hout with rfl | ⟨rfl, hover⟩
  · exact ⟨hholds, .inl hanswers⟩
  · exact ⟨hholds, .inr ⟨rfl, c, hcall, hover⟩⟩

/-- A command that fails before it reaches the store. -/
theorem Ready.fails (h : Ready n db dir m d p) (msg : Bytes) :
    Post (throw (.err msg) : Io Session Bytes Bytes) ⟨db, ⟨dir, quiet⟩⟩
      (Ends n m db (.bad msg)) :=
  ⟨h.holds.mono (Nat.le_succ n), .inl rfl⟩

theorem Ready.prints_value (io : Error → Bytes) (h : Ready n db dir m d p)
    (hshown : ∀ k v, m k = some v → validUtf8 k = true ∧ validUtf8 v = true) (key : Bytes) :
    Post (do
        match ← orTell io (ofExcept ((← get).db.get key)) with
        | some v => return println (fromUtf8Lossy v)
        | none => return println (ascii "(not found)")) ⟨db, ⟨dir, quiet⟩⟩
      (Ends n m db (.get key)) := by
  have hkept : Holds (n + 1) dir m := h.holds.mono (Nat.le_succ n)
  simp only [Post_bind, Post_get, Post_orTell, Post_ofExcept, h.looks_up key]
  cases hkey : m key with
  | none => exact ⟨hkept, .inl (by simp only [Request.Answers, hkey]; rfl)⟩
  | some v =>
    refine ⟨hkept, .inl ?_⟩
    simp only [Request.Answers, hkey, fromUtf8Lossy_of_valid (hshown key v hkey).2]
    rfl

theorem Ready.prints_pairs (io : Error → Bytes) (h : Ready n db dir m d p)
    (hshown : ∀ k v, m k = some v → validUtf8 k = true ∧ validUtf8 v = true) :
    Post (do
        let pairs ← orTell io (ofExcept (← get).db.scan)
        return pairs.flatMap fun (k, v) =>
          println (fromUtf8Lossy k ++ ascii "=" ++ fromUtf8Lossy v)) ⟨db, ⟨dir, quiet⟩⟩
      (Ends n m db .scan) := by
  have hkept : Holds (n + 1) dir m := h.holds.mono (Nat.le_succ n)
  obtain ⟨pairs, hscan, hlists⟩ := h.scan_lists
  simp only [Post_bind, Post_get, Post_orTell, Post_ofExcept, hscan]
  refine ⟨hkept, .inl ⟨pairs, hlists, congrArg said (List.flatMap_congr ?_)⟩⟩
  rintro ⟨k, v⟩ hmem
  obtain ⟨hk, hv⟩ := hshown k v ((hlists.mem k v).mp hmem)
  rw [fromUtf8Lossy_of_valid hk, fromUtf8Lossy_of_valid hv]

/-- **A command on the open store.** -/
theorem Ready.command (ov : Overflow) (io : Error → Bytes) (h : Ready n db dir m d p)
    (hn : n + 2 < 2 ^ 64) (hshown : ∀ k v, m k = some v → validUtf8 k = true ∧ validUtf8 v = true)
    (path cmd : Bytes) (args : List Bytes)
    (hfits : ∀ c, (Request.ofCommand cmd args).call = some c → c.Fits) :
    Post (command ov io cmd (path :: cmd :: args)) ⟨db, ⟨dir, quiet⟩⟩
      (Ends n m db (Request.ofCommand cmd args)) := by
  unfold Kv.command
  unfold Request.ofCommand at hfits ⊢
  refine Post_ite (fun hput => ?_) fun hput => ?_
  · rw [if_pos hput] at hfits ⊢
    rcases args with _ | ⟨key, _ | ⟨value, args⟩⟩
    · exact h.fails (ascii "put needs <key> <value>")
    · exact h.fails (ascii "put needs <key> <value>")
    · exact h.reports (c := .put key value) ov io hn rfl (hfits _ rfl)
  rw [if_neg hput] at hfits ⊢
  refine Post_ite (fun hget => ?_) fun hget => ?_
  · rw [if_pos hget] at hfits ⊢
    rcases args with _ | ⟨key, args⟩
    · exact h.fails (ascii "get needs <key>")
    · exact h.prints_value io hshown key
  rw [if_neg hget] at hfits ⊢
  refine Post_ite (fun hdel => ?_) fun hdel => ?_
  · rw [if_pos hdel] at hfits ⊢
    rcases args with _ | ⟨key, args⟩
    · exact h.fails (ascii "del needs <key>")
    · exact h.reports (c := .delete key) ov io hn rfl (hfits _ rfl)
  rw [if_neg hdel] at hfits ⊢
  refine Post_ite (fun hscan => ?_) fun hscan => ?_
  · rw [if_pos hscan]
    exact h.prints_pairs io hshown
  rw [if_neg hscan] at hfits ⊢
  refine Post_ite (fun hflush => ?_) fun hflush => ?_
  · rw [if_pos hflush] at hfits ⊢
    exact h.reports (c := .flush) ov io hn rfl (hfits _ rfl)
  rw [if_neg hflush] at hfits ⊢
  refine Post_ite (fun hcompact => ?_) fun hcompact => ?_
  · rw [if_pos hcompact] at hfits ⊢
    exact h.reports (c := .compact) ov io hn rfl (hfits _ rfl)
  rw [if_neg hcompact]
  refine Post_ite (fun hstats => ?_) fun hstats => ?_
  · rw [if_pos hstats]
    exact ⟨h.holds.mono (Nat.le_succ n), .inl ⟨_, rfl⟩⟩
  rw [if_neg hstats]
  exact h.fails (ascii "unknown command '" ++ cmd ++ ascii "'")

end Opened

/-! ## Processes -/

/-- The store a process finds in its directory needs a table that is too large. -/
def Exhausted (ov : Overflow) (dir : Dir) (r : Request) : Prop :=
  ∃ db w c, (Db.openWith ov .default).run ⟨dir, quiet⟩ = (.ok db, w) ∧ r.call = some c ∧
    Oversize (c.table db)

/-- **One process**: it answers from the map its directory holds, and leaves the map it makes. -/
theorem Holds.process (ov : Overflow) (osText : IoError → Bytes) {n : Nat} {dir : Dir}
    {m : Bytes → Option Bytes} (h : Holds n dir m) (hn : n + 2 < 2 ^ 64)
    (hshown : ∀ k v, m k = some v → validUtf8 k = true ∧ validUtf8 v = true) {args : List Bytes}
    (hargs : Proper args) :
    Post (run ov osText args) ⟨dir, quiet⟩ fun out w =>
      Holds (n + 1) w.dir ((Request.ofArgs args).bind m) ∧
        ((Request.ofArgs args).Answers m (report out) ∨
          ((report out).exit = .panicked ∧ Exhausted ov dir (Request.ofArgs args))) := by
  have hkept : Holds (n + 1) dir m := h.mono (Nat.le_succ n)
  rcases args with _ | ⟨path, _ | ⟨cmd, args⟩⟩
  · exact ⟨hkept, .inl rfl⟩
  · exact ⟨hkept, .inl rfl⟩
  obtain ⟨db, dir', d, p, hopen, hready⟩ := h.opens ov .default
  show Post (orTell _ (Db.openWith ov .default) >>= fun db => withDb db _) ⟨dir, quiet⟩ _
  rw [Post_bind, Post_orTell]
  refine Post_of_run hopen ?_
  have hcmd := hready.command ov (fun e => e.display osText path) hn hshown path cmd args hargs.fits
  refine (Post_withDb db _ ⟨dir', quiet⟩ _).mpr (hcmd.mono ?_)
  intro out s' hend
  obtain ⟨hholds, hanswers | ⟨hpanic, c, hcall, hover⟩⟩ := hend
  · exact ⟨hholds, .inl hanswers⟩
  · exact ⟨hholds, .inr ⟨hpanic, db, _, c, hopen, hcall, hover⟩⟩

/-- Every directory holds its map, and the maps hold text. -/
structure Shell (n : Nat) (dirs : Dirs) (maps : Bytes → Bytes → Option Bytes) : Prop where
  holds : ∀ path, Holds n (dirs path) (maps path)
  text : ∀ path k v, maps path k = some v → validUtf8 k = true ∧ validUtf8 v = true

theorem Shell.init {dirs : Dirs} (hfresh : ∀ path, Fresh (dirs path)) :
    Shell 0 dirs fun _ _ => none :=
  ⟨fun path => .fresh (hfresh path), fun _ _ _ h => by cases h⟩

theorem Request.ofCommand_put {cmd key value : Bytes} {args : List Bytes}
    (h : Request.ofCommand cmd args = .put key value) : key ∈ args ∧ value ∈ args := by
  unfold Request.ofCommand at h
  by_cases hput : cmd = ascii "put"
  · rw [if_pos hput] at h
    rcases args with _ | ⟨k, _ | ⟨v, args⟩⟩
    · cases h
    · cases h
    · obtain ⟨rfl, rfl⟩ : k = key ∧ v = value := by simpa using h
      simp
  · rw [if_neg hput] at h
    repeat' split at h
    all_goals cases h

theorem Request.ofArgs_put {key value : Bytes} {args : List Bytes}
    (h : Request.ofArgs args = .put key value) : key ∈ args ∧ value ∈ args := by
  rcases args with _ | ⟨path, _ | ⟨cmd, args⟩⟩
  · cases h
  · cases h
  · obtain ⟨hkey, hvalue⟩ := Request.ofCommand_put h
    exact ⟨by simp [hkey], by simp [hvalue]⟩

/-- A request binds text to text. -/
theorem bind_text {m : Bytes → Option Bytes}
    (hm : ∀ k v, m k = some v → validUtf8 k = true ∧ validUtf8 v = true) {args : List Bytes}
    (hargs : ∀ arg ∈ args, validUtf8 arg = true) {k v : Bytes}
    (h : (Request.ofArgs args).bind m k = some v) : validUtf8 k = true ∧ validUtf8 v = true := by
  cases hr : Request.ofArgs args with
  | put key value =>
    obtain ⟨hkey, hvalue⟩ := Request.ofArgs_put hr
    have hbind : Function.update m key (some value) k = some v := by rwa [hr] at h
    rw [Function.update_apply] at hbind
    split at hbind
    · rename_i hk
      rw [hk, ← Option.some.inj hbind]
      exact ⟨hargs _ hkey, hargs _ hvalue⟩
    · exact hm k v hbind
  | del key =>
    have hbind : Function.update m key none k = some v := by rwa [hr] at h
    rw [Function.update_apply] at hbind
    split at hbind
    · cases hbind
    · exact hm k v hbind
  | get _ => exact hm k v (by rwa [hr] at h)
  | scan => exact hm k v (by rwa [hr] at h)
  | flush => exact hm k v (by rwa [hr] at h)
  | compact => exact hm k v (by rwa [hr] at h)
  | stats => exact hm k v (by rwa [hr] at h)
  | bad _ => exact hm k v (by rwa [hr] at h)

/-- One more process. -/
theorem Shell.step (ov : Overflow) (osText : IoError → Bytes) {n : Nat} {dirs : Dirs}
    {maps : Bytes → Bytes → Option Bytes} (h : Shell n dirs maps) (hn : n + 2 < 2 ^ 64)
    {args : List Bytes} (hargs : Proper args) :
    Shell (n + 1) (kv ov osText quiet dirs args).2 (Function.update maps (args.headD [])
      ((Request.ofArgs args).bind (maps (args.headD [])))) := by
  have hprocess := (h.holds (args.headD [])).process ov osText hn (h.text _) hargs
  refine ⟨fun path => ?_, fun path k v hv => ?_⟩
  · by_cases hpath : path = args.headD []
    · subst hpath
      show Holds (n + 1) (Function.update dirs (args.headD []) _ (args.headD [])) _
      rw [Function.update_self, Function.update_self]
      exact hprocess.1
    · show Holds (n + 1) (Function.update dirs (args.headD []) _ path) _
      rw [Function.update_of_ne hpath, Function.update_of_ne hpath]
      exact (h.holds path).mono (Nat.le_succ n)
  · by_cases hpath : path = args.headD []
    · subst hpath
      rw [Function.update_self] at hv
      exact bind_text (h.text _) hargs.unicode hv
    · rw [Function.update_of_ne hpath] at hv
      exact h.text path k v hv

theorem Shell.run (ov : Overflow) (osText : IoError → Bytes) {dirs : Dirs}
    (hfresh : ∀ path, Fresh (dirs path)) {runs : List (List Bytes)}
    (hruns : ∀ args ∈ runs, Proper args) (hn : runs.length + 1 < 2 ^ 64) :
    Shell runs.length (dirsAfter ov osText dirs runs) (mapsAfter runs) := by
  induction runs using List.reverseRecOn with
  | nil => exact .init hfresh
  | append_singleton runs args ih =>
    rw [List.length_append, List.length_singleton] at hn ⊢
    have hrest := ih (fun a ha => hruns a (by simp [ha])) (by omega)
    rw [dirsAfter, mapsAfter, List.foldl_append, List.foldl_append]
    exact hrest.step ov osText (by omega) (hruns args (by simp))

/-- **The shell sees a map.** Whatever `kv` processes have run before, on whatever directories,
the next one answers as its directory's map says, unless it panics because a table is larger
than one allocation may be. -/
theorem kv_answers (ov : Overflow) (osText : IoError → Bytes) {dirs : Dirs}
    (hfresh : ∀ path, Fresh (dirs path)) (runs : List (List Bytes)) (args : List Bytes)
    (hruns : ∀ args ∈ runs, Proper args) (hargs : Proper args) (hn : runs.length + 2 < 2 ^ 64) :
    (Request.ofArgs args).Answers (mapsAfter runs (args.headD []))
        (kv ov osText quiet (dirsAfter ov osText dirs runs) args).1 ∨
      ((kv ov osText quiet (dirsAfter ov osText dirs runs) args).1.exit = .panicked ∧
        Exhausted ov (dirsAfter ov osText dirs runs (args.headD [])) (Request.ofArgs args)) := by
  have hshell := Shell.run ov osText hfresh hruns (by omega)
  exact ((hshell.holds _).process ov osText hn (hshell.text _) hargs).2

/-- Two directories, a flush and a deletion behind it. -/
def session : List (List Bytes) :=
  [[ascii "a", ascii "put", ascii "user:1", ascii "alice"],
    [ascii "b", ascii "put", ascii "user:1", ascii "bob"],
    [ascii "a", ascii "flush"], [ascii "b", ascii "del", ascii "user:1"],
    [ascii "a", ascii "nothing"]]

theorem session_answers :
    (Request.ofArgs [ascii "a", ascii "scan"]).Answers (mapsAfter session (ascii "a"))
        (kv .checked (fun _ => []) quiet (dirsAfter .checked (fun _ => []) (fun _ => ∅) session)
          [ascii "a", ascii "scan"]).1 ∨
      ((kv .checked (fun _ => []) quiet (dirsAfter .checked (fun _ => []) (fun _ => ∅) session)
          [ascii "a", ascii "scan"]).1.exit = .panicked ∧
        Exhausted .checked (dirsAfter .checked (fun _ => []) (fun _ => ∅) session (ascii "a"))
          (Request.ofArgs [ascii "a", ascii "scan"])) :=
  kv_answers .checked (fun _ => []) (fun _ => Fresh.empty) session [ascii "a", ascii "scan"]
    (by decide +kernel) (by decide +kernel) (by decide +kernel)

end Kv

end RustFundamentals.Lsmkv
