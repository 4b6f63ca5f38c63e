import Mathlib.Data.List.Induction
import RustFundamentals.Lsmkv.CompactSpec

/-!
# lsmkv: recovery

`open_with` on a well-formed directory whose log is clean rebuilds a store over everything
on disk: the tables whose names it recognises, the records replay recovers, and counters
past both.
-/

namespace RustFundamentals.Lsmkv

open Foundation Foundation.Fs Foundation.Lsm

variable {mayTear : Prop} {ov : Overflow} {d : Disk Record}

/-! ## The tables in the directory -/

/-- The ids `open_with` finds, in ascending order. -/
def foundIds (dir : Dir) : List Nat := (dir.keys.filterMap parseSstId).insertionSort (· ≤ ·)

theorem mem_foundIds {dir : Dir} (hs : Stores mayTear dir d) {id : Nat} :
    id ∈ foundIds dir ↔ (d.files id).isSome := by
  rw [foundIds, List.mem_insertionSort, List.mem_filterMap]
  constructor
  · intro hfound
    obtain ⟨name, hname, hid⟩ := hfound
    have hlook : (dir.lookup name).isSome := AList.lookup_isSome.mpr (AList.mem_keys.mp hname)
    obtain rfl := hs.names name id hlook hid
    by_contra hnone
    rw [Bool.not_eq_true, Option.isSome_eq_false_iff, Option.isNone_iff_eq_none] at hnone
    rw [hs.noTable id (parseSstId_lt hid) hnone] at hlook
    exact absurd hlook (by simp)
  · intro hsome
    obtain ⟨rs, hrs⟩ := Option.isSome_iff_exists.mp hsome
    obtain ⟨f, hf, _⟩ := hs.table id rs hrs
    have hmem : sstPath id ∈ dir := AList.lookup_isSome.mp (by rw [hf]; rfl)
    exact ⟨sstPath id, AList.mem_keys.mpr hmem, parseSstId_sstPath (hs.id_lt id hsome)⟩

/-- No id is listed twice where it comes from one name. -/
theorem nodup_filterMap_parse {dir : Dir} (h : ∀ a ∈ dir, ∀ b ∈ dir, ∀ id,
    parseSstId a = some id → parseSstId b = some id → a = b) :
    (dir.keys.filterMap parseSstId).Nodup := by
  have hkeys : dir.keys.Pairwise fun a b =>
      ∀ i, parseSstId a = some i → ∀ j, parseSstId b = some j → i ≠ j := by
    refine dir.nodupKeys.imp_of_mem ?_
    intro a b ha hb hne i hi j hj hij
    subst hij
    exact hne (h a (AList.mem_keys.mpr ha) b (AList.mem_keys.mpr hb) i hi hj)
  exact List.pairwise_filterMap.mpr hkeys

theorem foundIds_nodup {dir : Dir} (hs : Stores mayTear dir d) : (foundIds dir).Nodup := by
  rw [foundIds]
  refine (List.perm_insertionSort _ _).nodup_iff.mpr (nodup_filterMap_parse ?_)
  intro a ha b hb id hia hib
  rw [hs.names a id (AList.lookup_isSome.mpr ha) hia,
    hs.names b id (AList.lookup_isSome.mpr hb) hib]

theorem foundIds_ascending {dir : Dir} (hs : Stores mayTear dir d) :
    (foundIds dir).Pairwise (· < ·) := by
  have hle : (foundIds dir).Pairwise (· ≤ ·) := List.pairwise_insertionSort _ _
  exact (hle.and (foundIds_nodup hs)).imp fun h => lt_of_le_of_ne h.1 h.2

/-- The last id found is the largest. -/
theorem le_getLast?_foundIds {dir : Dir} (hs : Stores mayTear dir d) {m : Nat}
    (hm : (foundIds dir).getLast? = some m) {id : Nat} (hid : id ∈ foundIds dir) : id ≤ m := by
  obtain ⟨pre, hpre⟩ := List.getLast?_eq_some_iff.mp hm
  have hasc := foundIds_ascending hs
  rw [hpre] at hasc hid
  rcases List.mem_append.mp hid with hid | hid
  · exact ((List.pairwise_append.mp hasc).2.2 id hid m (by simp)).le
  · exact (List.mem_singleton.mp hid).le

theorem openTables_readOnly {ids : List Nat} {w : World Site} (hs : Stores mayTear w.dir d)
    (hids : ∀ id ∈ ids, (d.files id).isSome) :
    Post (openTables ids) w (ReadOnly (ids.map (handle d)) w) := by
  induction ids generalizing w with
  | nil => exact Post_pure_readOnly _ _
  | cons id ids ih =>
    obtain ⟨rs, hrs⟩ := Option.isSome_iff_exists.mp (hids id (by simp))
    obtain ⟨f, hf, hb⟩ := hs.table id rs hrs
    have hopen := SsTable.openTable_readOnly id (hs.storable id rs hrs) hf hb
    have hhandle : SsTable.ofRecords id rs = handle d id := by simp [handle, hrs]
    rw [hhandle] at hopen
    rw [openTables]
    refine Post_bind_readOnly hopen fun w₁ hdir₁ => ?_
    refine Post_bind_readOnly
      (ih (w := w₁) (hdir₁ ▸ hs) fun i hi => hids i (by simp [hi])) fun w₂ _ => ?_
    exact Post_pure_readOnly _ _

/-! ## The log -/

/-- **Replaying a clean log** gives the records it stands for. -/
theorem replay_readOnly {w : World Site} (hs : Stores mayTear w.dir d) (hclean : CleanLog w.dir) :
    Post Wal.replay w (ReadOnly d.log w) := by
  rw [Wal.replay]
  refine Post_bind_readOnly (openIfPresent_readOnly _ _ _) fun w₁ _ => ?_
  have hlog := hs.log
  unfold CleanLog at hclean
  unfold walWrites at hlog hclean
  cases hf : w.dir.lookup walName with
  | none =>
    simp only [hf, Option.map_none, Option.getD_none] at hlog hclean ⊢
    have hempty : d.log = [] := (hlog.eq_frames (by simp) |> fun h => by simpa using h.symm)
    rw [hempty]
    exact Post_pure_readOnly _ _
  | some f =>
    simp only [hf, Option.map_some, Option.getD_some] at hlog hclean ⊢
    refine Post_bind_readOnly (tick_readOnly _ _) fun w₂ _ => ?_
    rw [File.bytes, hlog.replayBytes hclean]
    exact Post_pure_readOnly _ _

/-- The memory table after inserting records in log order. -/
theorem mem_foldl_insert {log : List Record} (hsorted : log.Pairwise fun x y => x.seq < y.seq) :
    Keyed (log.foldl MemTable.insert MemTable.new).map ∧
      ∀ k r, (log.foldl MemTable.insert MemTable.new).get k = some r ↔
        Newest {x | x ∈ log} k r := by
  induction log using List.reverseRecOn with
  | nil =>
    refine ⟨Keyed.empty, fun k r => ?_⟩
    simp [Newest]
  | append_singleton log r ih =>
    obtain ⟨hlog, _, hlt⟩ := List.pairwise_append.mp hsorted
    obtain ⟨hkeyed, hget⟩ := ih hlog
    rw [List.foldl_append, List.foldl_cons, List.foldl_nil]
    refine ⟨by rw [MemTable.insert_map]; exact hkeyed.insert r, fun k x => ?_⟩
    rw [MemTable.get_insert]
    have hset : {y | y ∈ log ++ [r]} = insert r {y | y ∈ log} := by
      ext y
      simp [or_comm]
    rw [hset]
    split
    · rename_i hk
      subst hk
      -- `r` is the newest of its key
      have hnew : Newest (insert r {y | y ∈ log}) r.key r := by
        refine ⟨Set.mem_insert _ _, rfl, ?_⟩
        intro y hy _
        rcases hy with rfl | hy
        · exact le_rfl
        · exact (hlt y hy r (by simp)).le
      constructor
      · intro hfound
        cases hfound
        exact hnew
      · intro hboth
        obtain ⟨rfl | hx, hxk, hmax⟩ := hboth
        · rfl
        · have hle : r.seq ≤ x.seq := hmax r (Set.mem_insert _ _) rfl
          exact absurd (hlt x hx r (by simp)) (not_lt.mpr hle)
    · rename_i hk
      rw [hget]
      constructor
      · intro hboth
        obtain ⟨hx, hxk, hmax⟩ := hboth
        refine ⟨Set.mem_insert_of_mem _ hx, hxk, ?_⟩
        intro y hy hyk
        rcases hy with rfl | hy
        · exact absurd hyk hk
        · exact hmax y hy hyk
      · intro hboth
        obtain ⟨rfl | hx, hxk, hmax⟩ := hboth
        · exact absurd hxk hk
        · exact ⟨hx, hxk, fun y hy => hmax y (Set.mem_insert_of_mem _ hy)⟩

/-! ## The counters -/

/-- The high-water mark `open_with` recovers. -/
def highWater (d : Disk Record) (ids : List Nat) : Seq :=
  max (maxOr0 (d.log.map Record.seq)) (maxOr0 ((ids.map (handle d)).map SsTable.maxSeq))

theorem maxSeq_handle {id : Nat} {rs : List Record} (h : d.files id = some rs) :
    (handle d id).maxSeq = maxOr0 (rs.map Record.seq) := by
  simp [handle, h, SsTable.ofRecords, SsTable.maxSeqOf, maxOr0]

theorem le_highWater {ids : List Nat} (hids : ∀ id, (d.files id).isSome → id ∈ ids) {x : Record}
    (hx : x ∈ d.stored) : x.seq ≤ highWater d ids := by
  unfold highWater
  rcases hx with hx | ⟨id, rs, hrs, hx⟩
  · exact le_max_of_le_left ((le_foldl_max _ 0).2 _ (List.mem_map_of_mem hx))
  · have hmem : id ∈ ids := hids id (by rw [hrs]; rfl)
    have hle : x.seq ≤ (handle d id).maxSeq := by
      rw [maxSeq_handle hrs]
      exact (le_foldl_max _ 0).2 _ (List.mem_map_of_mem hx)
    exact le_max_of_le_right
      (hle.trans ((le_foldl_max _ 0).2 _ (List.mem_map_of_mem (List.mem_map_of_mem hmem))))

/-- The mark is carried by a stored record, or nothing is stored above zero. -/
theorem highWater_attained {ids : List Nat} (hids : ∀ id ∈ ids, (d.files id).isSome) :
    highWater d ids = 0 ∨ ∃ x ∈ d.stored, x.seq = highWater d ids := by
  unfold highWater
  rcases max_choice (maxOr0 (d.log.map Record.seq))
      (maxOr0 ((ids.map (handle d)).map SsTable.maxSeq)) with hm | hm
  · rw [hm]
    rcases foldl_max_mem (d.log.map Record.seq) 0 with h | h
    · exact .inl h
    · obtain ⟨x, hx, hseq⟩ := List.mem_map.mp h
      exact .inr ⟨x, .inl hx, hseq⟩
  · rw [hm]
    rcases foldl_max_mem ((ids.map (handle d)).map SsTable.maxSeq) 0 with h | h
    · exact .inl h
    · obtain ⟨t, ht, hseq⟩ := List.mem_map.mp h
      obtain ⟨id, hid, rfl⟩ := List.mem_map.mp ht
      obtain ⟨rs, hrs⟩ := Option.isSome_iff_exists.mp (hids id hid)
      rw [maxSeq_handle hrs] at hseq
      rcases foldl_max_mem (rs.map Record.seq) 0 with h0 | hmem
      · exact .inl (by rw [maxOr0, ← hseq]; exact h0)
      · obtain ⟨x, hx, hxs⟩ := List.mem_map.mp hmem
        exact .inr ⟨x, .inr ⟨id, rs, hrs, hx⟩, hxs.trans hseq⟩

/-! ## `open_with` -/

/-- How a recovery ended. -/
inductive OpenEnd (w : World Site) (opts : Options) (d : Disk Record) :
    Except (Stop Error) Db → Dir → Prop
  | stopped {e dir} (h : Blames w.plan e ∨
      (e = .panicked ∧ ∃ i, (d.files i).isSome ∧ 2 ^ 64 ≤ i + 1)) : OpenEnd w opts d (.error e) dir
  | opened {db dir p} (hr : Reopened d p) (hrun : Running db dir d p) (hopts : db.opts = opts)
      (hseq : p.seq = 1 ∨ ∃ x ∈ d.stored, x.seq + 1 = p.seq) : OpenEnd w opts d (.ok db) dir

/-- The next table id is past every table, unless the ids are used up. -/
theorem nextIdAfter_spec {dir : Dir} (hs : Stores mayTear dir d)
    (hids : ov = .checked ∨ ∀ i, (d.files i).isSome → i + 1 < 2 ^ 64) (w : World Site) :
    Post (nextIdAfter ov (foundIds dir)) w fun out w' => w' = w ∧
      ((out = .error .panicked ∧ ∃ i, (d.files i).isSome ∧ 2 ^ 64 ≤ i + 1) ∨
        ∃ next, out = .ok next ∧ next < 2 ^ 64 ∧ ∀ id ∈ foundIds dir, id < next) := by
  rw [nextIdAfter]
  cases hlast : (foundIds dir).getLast? with
  | none =>
    refine ⟨rfl, .inr ⟨0, rfl, by omega, fun id hid => ?_⟩⟩
    rw [List.getLast?_eq_none_iff.mp hlast] at hid
    exact absurd hid (by simp)
  | some m =>
    have hm : (d.files m).isSome := (mem_foundIds hs).mp (List.mem_of_getLast? hlast)
    refine Post_fit (hids.imp_right fun h => h m hm) (fun hlt => ?_) fun hge => ?_
    · exact ⟨rfl, .inr ⟨m + 1, rfl, hlt, fun id hid =>
        Nat.lt_succ_of_le (le_getLast?_foundIds hs hlast hid)⟩⟩
    · exact ⟨rfl, .inl ⟨rfl, m, hm, hge⟩⟩

/-- What `open_with` builds from the tables under `ids`, the log and the next table id. -/
def recovered (d : Disk Record) (ids : List Nat) (next : Nat) : Proc Record Bytes where
  mem := (d.log.foldl MemTable.insert MemTable.new).get
  ids := ids.reverse
  seq := highWater d ids.reverse + 1
  next := next

theorem recovered_reopened {dir : Dir} (hs : Stores mayTear dir d) (hwf : Disk.Wf d) {next : Nat}
    (hnext : ∀ id ∈ foundIds dir, id < next) :
    Reopened d (recovered d (foundIds dir) next) where
  mem := (mem_foldl_insert hwf.log_sorted).2
  ids_desc := List.pairwise_reverse.mpr (foundIds_ascending hs)
  ids_iff := fun i => by simp only [recovered, List.mem_reverse]; exact mem_foundIds hs
  ids_lt := fun i hi => hnext i (List.mem_reverse.mp hi)
  seq_gt := fun x hx => Nat.lt_succ_of_le
    (le_highWater (fun id hid => List.mem_reverse.mpr ((mem_foundIds hs).mpr hid)) hx)

theorem recovered_seq {ids : List Nat} (hids : ∀ id ∈ ids, (d.files id).isSome) (next : Nat) :
    (recovered d ids next).seq = 1 ∨ ∃ x ∈ d.stored, x.seq + 1 = (recovered d ids next).seq := by
  rcases highWater_attained fun id hid => hids id (List.mem_reverse.mp hid) with h0 | ⟨x, hx, hxs⟩
  · exact .inl (by simp only [recovered, h0])
  · exact .inr ⟨x, hx, by simp only [recovered, hxs]⟩

theorem recovered_seq_lt {ids : List Nat} (hids : ∀ id ∈ ids, (d.files id).isSome)
    (hseqs : ∀ x ∈ d.stored, x.seq + 1 < 2 ^ 64) (next : Nat) :
    (recovered d ids next).seq < 2 ^ 64 := by
  rcases recovered_seq hids next with h1 | ⟨x, hx, hxs⟩
  · rw [h1]
    decide
  · rw [← hxs]
    exact hseqs x hx

/-- **Every way `open_with` can end** on a directory with a clean log. -/
theorem openWith_spec {w : World Site} (opts : Options) (hs : Stores mayTear w.dir d)
    (hwf : Disk.Wf d)
    (hclean : CleanLog w.dir)
    (hids : ov = .checked ∨ ∀ i, (d.files i).isSome → i + 1 < 2 ^ 64)
    (hseqs : ∀ x ∈ d.stored, x.seq + 1 < 2 ^ 64) :
    Post (Db.openWith ov opts) w fun out w' =>
      Plan.Rest w'.plan w.plan ∧ Stores mayTear w'.dir d ∧ walWrites w'.dir = walWrites w.dir ∧
        OpenEnd w opts d out w'.dir := by
  -- a stop before the log is opened leaves the directory as it was
  have hstop : ∀ (w' : World Site) e, OnlyRead w w' →
      (Blames w.plan e ∨ (e = .panicked ∧ ∃ i, (d.files i).isSome ∧ 2 ^ 64 ≤ i + 1)) →
      Plan.Rest w'.plan w.plan ∧ Stores mayTear w'.dir d ∧ walWrites w'.dir = walWrites w.dir ∧
        OpenEnd w opts d (.error e) w'.dir :=
    fun w' e h he => ⟨h.plan, h.dir ▸ hs, by rw [h.dir], .stopped he⟩
  have hblamed := fun w' e h he => hstop w' e h (.inl he)
  have hfiles : ∀ id ∈ foundIds w.dir, (d.files id).isSome := fun id hid =>
    (mem_foundIds hs).mp hid
  rw [Db.openWith, Post_bind]
  refine Post_onlyRead (.refl w) (tick_readOnly _ w) (fun w₁ h₁ => ?_) hblamed
  simp only [Post_bind, listSstableIds]
  refine Post_onlyRead h₁ (readDir_readOnly Site.readDir w₁) (fun w₂ h₂ => ?_) hblamed
  have hfound : (w₁.dir.keys.filterMap parseSstId).insertionSort (fun a b => a ≤ b) =
      foundIds w.dir := by
    rw [h₁.dir]
    rfl
  simp only [Post_pure, hfound]
  refine Post_onlyRead h₂ (openTables_readOnly (h₂.dir ▸ hs) hfiles) (fun w₃ h₃ => ?_) hblamed
  refine (nextIdAfter_spec hs hids w₃).mono ?_
  intro out w₃' hpost
  obtain ⟨rfl, ⟨rfl, hfull⟩ | ⟨next, rfl, hnext, hnextgt⟩⟩ := hpost
  · exact hstop _ _ h₃ (.inr ⟨rfl, hfull⟩)
  refine Post_onlyRead h₃ (replay_readOnly (h₃.dir ▸ hs) (h₃.dir ▸ hclean)) (fun w₄ h₄ => ?_)
    hblamed
  -- the sequence number: one past the high-water mark
  have hseq : max (maxOr0 (d.log.map Record.seq))
      (maxOr0 (((foundIds w.dir).map (handle d)).reverse.map SsTable.maxSeq)) + 1 =
        (recovered d (foundIds w.dir) next).seq := by
    simp only [recovered, highWater, List.map_reverse]
  have hlt := recovered_seq_lt hfiles hseqs next
  simp only [hseq, ov.fit_of_lt hlt, Post_orPanic_some, Wal.openLog, openAppend]
  refine Post_call ?_ fun n e h =>
    hblamed ⟨w₄.dir, w₄.advance .walOpen⟩ e ⟨h₄.dir, (w₄.advance_rest _).trans h₄.plan⟩
      (h.blames.mono h₄.plan)
  have hs₄ : Stores mayTear w₄.dir d := h₄.dir ▸ hs
  have hwrites : walWrites (Dir.touch w₄.dir walName) = walWrites w.dir := by
    rw [walWrites_touch, h₄.dir]
  refine ⟨(w₄.advance_rest _).trans h₄.plan, hs₄.touch, hwrites,
    .opened (recovered_reopened hs hwf hnextgt) ?_ rfl (recovered_seq hfiles next)⟩
  exact
    { mem := fun k => rfl
      keyed := (mem_foldl_insert hwf.log_sorted).1
      tables := by simp only [recovered, List.map_reverse]
      seq := rfl
      next := rfl
      wal := wal_touch_isSome _
      seq_lt := hlt
      next_lt := hnext }

end RustFundamentals.Lsmkv
