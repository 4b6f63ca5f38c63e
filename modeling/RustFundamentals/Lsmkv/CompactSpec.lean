import RustFundamentals.Lsmkv.Operations

/-!
# lsmkv: every way a compaction can end

The merge writes one table from all open ones, the store swaps to it, and the old files are
removed one by one, newest first: an interruption leaves the oldest ones behind.
-/

namespace RustFundamentals.Lsmkv

open Foundation Foundation.Fs Foundation.Lsm

variable {mayTear : Prop} {ov : Overflow} {d : Disk Record} {p : Proc Record Bytes}

/-- What `compact` writes: the newest record of each key of the tables, tombstones left
out. -/
def survivorsOf (records : List Record) : List Record :=
  (newestPerKey records).filter fun rec => rec.value ≠ .delete

/-- The records of the open tables, as `compact` collects them. -/
def collected (d : Disk Record) (ids : List Nat) : List Record :=
  ids.flatMap fun id => (d.files id).getD []

theorem iterFs_readOnly {dir : Dir} (hs : Stores mayTear dir d) {id : Nat} {rs : List Record}
    (h : d.files id = some rs) (w : World Site) :
    Post (handle d id).iterFs w (ReadOnly rs w) := by
  have hstore := hs.storable id rs h
  have hread := SsTable.readData_ofRecords hstore.small id
  rw [handle, h, Option.getD_some, SsTable.iterFs]
  refine Post_bind_readOnly (SsTable.pread_readOnly _ hread w) fun w' _ => ?_
  rw [Post_ofExcept, SsTable.decodeAll_dataOf hstore.bounded _ 0 le_rfl]
  exact ⟨rfl, Plan.Rest.refl _, .inl rfl⟩

theorem collectRecords_readOnly {dir : Dir} (hs : Stores mayTear dir d) {ids : List Nat}
    (hids : ∀ id ∈ ids, (d.files id).isSome) (w : World Site) :
    Post (collectRecords (ids.map (handle d))) w (ReadOnly (collected d ids) w) := by
  induction ids generalizing w with
  | nil => exact Post_pure_readOnly _ _
  | cons id ids ih =>
    obtain ⟨rs, hrs⟩ := Option.isSome_iff_exists.mp (hids id (by simp))
    rw [List.map_cons, collectRecords]
    refine Post_bind_readOnly (iterFs_readOnly hs hrs w) fun w₁ _ => ?_
    refine Post_bind_readOnly (ih (fun i hi => hids i (by simp [hi])) w₁) fun w₂ _ => ?_
    have hcol : collected d (id :: ids) = rs ++ collected d ids := by
      simp [collected, hrs]
    rw [hcol]
    exact Post_pure_readOnly _ _

theorem collected_eq (d : Disk Record) (p : Proc Record Bytes) :
    {r | r ∈ collected d p.ids} = tabled d p := by
  ext x
  exact mem_flatMap_files

/-- **`compact` writes the merge of the open tables.** -/
theorem survivorsOf_merged (hwf : Wf d p) : Merged d p (survivorsOf (collected d p.ids)) := by
  intro r
  have hc : Coherent {r | r ∈ collected d p.ids} := by
    rw [collected_eq]
    exact hwf.coherent.mono tabled_stored
  rw [survivorsOf, List.mem_filter, mem_newestPerKey hc, collected_eq]
  simp [toOption_eq_none]

theorem survivorsOf_sorted (records : List Record) : SortedByKey (survivorsOf records) :=
  (newestPerKey_sorted records).filter _

theorem survivorsOf_storable {dir : Dir} (hs : Stores mayTear dir d) (hwf : Wf d p)
    (hsize : (image (survivorsOf (collected d p.ids))).length ≤ isizeMax)
    (hfew : (survivorsOf (collected d p.ids)).length * indexEntrySize ≤ isizeMax) :
    SsTable.Storable (survivorsOf (collected d p.ids)) where
  fits := by
    intro r hr
    obtain ⟨⟨i, _, rs, hrs, hmem⟩, _, _⟩ := ((survivorsOf_merged hwf r).mp hr).1
    exact (hs.storable i rs hrs).fits r hmem
  small := hsize
  few := hfew

/-- **Every way the deletion loop can end**: the first `j` tables are gone. -/
theorem removeOld_spec {ids : List Nat} {w : World Site} (hs : Stores mayTear w.dir d)
    (hnodup : ids.Nodup) (hids : ∀ id ∈ ids, (d.files id).isSome) :
    Post (Db.removeOld ids) w fun out w' =>
      Plan.Rest w'.plan w.plan ∧ w'.dir.lookup walName = w.dir.lookup walName ∧
      ∃ j, Stores mayTear w'.dir (d.removeAll (ids.take j)) ∧
        ((out = .ok () ∧ ids.length ≤ j) ∨
          ∃ e, out = .error e ∧ BlamedOn w.plan .removeOld e) := by
  induction ids generalizing d w with
  | nil =>
    have hnone : Stores mayTear w.dir (d.removeAll []) := by rwa [Disk.removeAll_nil]
    exact ⟨Plan.Rest.refl _, rfl, 0, hnone, .inl ⟨rfl, le_rfl⟩⟩
  | cons id ids ih =>
    obtain ⟨hhead, htail⟩ := List.nodup_cons.mp hnodup
    obtain ⟨rs, hrs⟩ := Option.isSome_iff_exists.mp (hids id (by simp))
    obtain ⟨f, hf, _⟩ := hs.table id rs hrs
    rw [Db.removeOld, Post_bind]
    refine Post_removeFile hf ?_ fun n e h => ⟨w.advance_rest _, rfl, 0, by simpa using hs,
      .inr ⟨e, rfl, h.blamedOn⟩⟩
    set w₁ : World Site := ⟨w.dir.erase (sstPath id), w.advance .removeOld⟩ with hw₁
    have hwal₁ : w₁.dir.lookup walName = w.dir.lookup walName :=
      AList.lookup_erase_ne (sstPath_ne_walName id).symm
    have hids₁ : ∀ i ∈ ids, ((d.removeAll [id]).files i).isSome := by
      intro i hi
      have hne : i ≠ id := fun heq => hhead (heq ▸ hi)
      rw [Disk.removeAll_files, if_neg (by simpa using hne)]
      exact hids i (by simp [hi])
    refine (ih (w := w₁) (hs.remove id) htail hids₁).mono ?_
    intro out w' hpost
    obtain ⟨hp, hwal, j, hs', hout⟩ := hpost
    refine ⟨hp.trans (w.advance_rest _), hwal.trans hwal₁, j + 1, ?_, ?_⟩
    · rw [Disk.removeAll_append] at hs'
      exact hs'
    · rcases hout with ⟨rfl, hj⟩ | ⟨e, rfl, hb⟩
      · exact .inl ⟨rfl, by simpa using hj⟩
      · exact .inr ⟨e, rfl, hb.mono (w.advance_rest _)⟩

/-- How a compaction ended, having removed `j` old tables. -/
structure CompactEnd (w : World Site) (recs : List Record) (d : Disk Record)
    (p : Proc Record Bytes) (out : Except (Stop Error) Unit) (j : Nat) (d' : Disk Record)
    (p' : Proc Record Bytes) : Prop where
  exit : CompactExit d p j d' p'
  /-- Old tables stay only if the swap was not reached or a removal was cut short. -/
  left : p'.ids = p.ids ∨ p.ids.length ≤ j ∨ ∃ e, out = .error e ∧ BlamedOn w.plan .removeOld e
  stop : ∀ e, out = .error e →
    Blames w.plan e ∨ (e = .panicked ∧ (Oversize recs ∨ 2 ^ 64 ≤ p.next + 1))

@[simp] theorem map_id_handle (d : Disk Record) (ids : List Nat) :
    (ids.map (handle d)).map SsTable.id = ids := by
  rw [List.map_map]
  exact List.map_id'' (fun _ => rfl) ids

/-- The store reads the merged table after the swap, whatever is removed. -/
theorem Running.swap {db : Db} {dir dir' : Dir} (hwf : Wf d p) (hr : Running db dir d p)
    {rs : List Record} {j : Nat} (hlt : p.next + 1 < 2 ^ 64)
    (hwal : (dir'.lookup walName).isSome) :
    Running { db with sstables := [SsTable.ofRecords p.next rs], nextSstId := p.next + 1 } dir'
      ((d.install p.next rs).removeAll (p.ids.take j)) p.swap :=
  { hr with
    tables := by
      have hnot : p.next ∉ p.ids.take j := fun h => hwf.take_ne_next j _ h rfl
      show [SsTable.ofRecords p.next rs] = [handle _ p.next]
      rw [handle, Disk.removeAll_files, if_neg hnot, Disk.install_files_self, Option.getD_some]
    next := rfl
    wal := hwal
    next_lt := hlt }

/-- A compaction whose table was not made ends with the `Db` as it was. -/
theorem CompactEnd.unmade {db : Db} {recs : List Record} {w w' : World Site} {d' : Disk Record}
    {e : Stop Error} (hexit : CompactExit d p 0 d' p) (h : Kept mayTear db w p d' w')
    (hcause : Blames w.plan e ∨ (e = .panicked ∧ Oversize recs)) :
    ∃ j d' p', CompactEnd w recs d p (.error e) j d' p' ∧
      Leaves mayTear (.error e : Except (Stop Error) Unit) ⟨db, w'⟩ d' p' ∧
        Plan.Rest w'.plan w.plan ∧ w'.dir.lookup walName = w.dir.lookup walName := by
  refine ⟨0, d', p, ⟨hexit, .inl rfl, ?_⟩, ⟨h.stores, fun _ => h.running⟩, h.plan, h.log⟩
  intro e' he'
  cases he'
  exact hcause.imp_right fun hbig => ⟨hbig.1, .inl hbig.2⟩

/-- A compaction that stopped after the swap, or returned, with `j` old tables removed. -/
theorem CompactEnd.swapped (db : Db) {recs : List Record} {w w' : World Site} {j : Nat}
    {out : Except (Stop Error) Unit} (hwf : Wf d p) (hr : Running db w.dir d p)
    (hmerged : Merged d p recs) (hlt : p.next + 1 < 2 ^ 64)
    (hs : Stores mayTear w'.dir ((d.install p.next recs).removeAll (p.ids.take j)))
    (hp : Plan.Rest w'.plan w.plan) (hlog : w'.dir.lookup walName = w.dir.lookup walName)
    (hleft : p.ids.length ≤ j ∨ ∃ e, out = .error e ∧ BlamedOn w.plan .removeOld e)
    (hcause : ∀ e, out = .error e → Blames w.plan e) :
    ∃ j d' p', CompactEnd w recs d p out j d' p' ∧
      Leaves mayTear out ⟨{ db with
        sstables := [SsTable.ofRecords p.next recs], nextSstId := p.next + 1 }, w'⟩ d' p' ∧
        Plan.Rest w'.plan w.plan ∧ w'.dir.lookup walName = w.dir.lookup walName :=
  ⟨j, _, p.swap, ⟨.swapped hmerged j, .inr hleft, fun e he => .inl (hcause e he)⟩,
    ⟨hs, fun _ => hr.swap hwf hlt (hlog ▸ hr.wal)⟩, hp, hlog⟩

/-- **Every way `compact` can end.** -/
theorem compact_spec (ov : Overflow) {db : Db} {w : World Site} (hs : Stores mayTear w.dir d)
    (hwf : Wf d p)
    (hr : Running db w.dir d p) (hroom : ov = .checked ∨ p.next + 1 < 2 ^ 64) :
    Post (Db.compact ov) ⟨db, w⟩ fun out s' => ∃ j d' p',
      CompactEnd w (survivorsOf (collected d p.ids)) d p out j d' p' ∧ Leaves mayTear out s' d' p' ∧
        Plan.Rest s'.world.plan w.plan ∧
        s'.world.dir.lookup walName = w.dir.lookup walName := by
  simp only [Db.compact, Post_bind, Post_self]
  split
  · exact ⟨0, d, p, ⟨.before, .inl rfl, by rintro e ⟨⟩⟩, ⟨hs, fun _ => hr⟩, Plan.Rest.refl _,
      rfl⟩
  set survivors := survivorsOf (collected d p.ids)
  have hmerged : Merged d p survivors := survivorsOf_merged hwf
  simp only [Post_bind, Post_onDisk, Lsmkv.compact, hr.next, hr.tables]
  have hkept : Kept mayTear db w p d w := .refl hs hr
  refine Post_onlyRead (.refl w) (collectRecords_readOnly hs hwf.ids_file w) (fun w₁ h₁ => ?_)
    fun w₁ e h₁ hb => CompactEnd.unmade .before (hkept.onlyRead h₁) (.inl hb)
  have hstorable : ¬ Oversize survivors → SsTable.Storable survivors := fun hfit =>
    survivorsOf_storable hs hwf (not_lt.mp (not_or.mp hfit).1) (not_lt.mp (not_or.mp hfit).2)
  have hsorted : SortedByKey survivors := survivorsOf_sorted _
  change Post (SsTable.write p.next survivors) w₁ _
  -- what is merged does not matter from here
  clear_value survivors
  refine Post_of_bind ((makeTable_spec hwf (hkept.onlyRead h₁) hsorted hstorable).mono ?_)
  intro out w₃ hend
  cases hend with
  | unwritten h hfail => exact CompactEnd.unmade .before h (hfail.imp_left And.left)
  | unopened h hfail => exact CompactEnd.unmade (.installed hmerged) h (hfail.imp_left And.left)
  | opened h =>
  simp only [Post_update]
  refine Post_fit hroom (fun hlt => ?_) fun hge => ?_
  swap
  · -- the table ids are used up
    refine ⟨0, _, p, ⟨.installed hmerged, .inl rfl, ?_⟩, ⟨h.stores, by simp [alive]⟩, h.plan,
      h.log⟩
    intro e he
    cases he
    exact .inr ⟨rfl, .inr hge⟩
  -- the swap is done; the old tables go
  have hidsFile : ∀ id ∈ p.ids, ((d.install p.next survivors).files id).isSome := by
    intro id hid
    rw [d.install_files_ne (hwf.ids_lt id hid).ne]
    exact hwf.ids_file id hid
  have hnodup : p.ids.Nodup := hwf.ids_desc.imp fun h => (ne_of_gt h)
  rw [map_id_handle]
  refine (removeOld_spec h.stores hnodup hidsFile).mono ?_
  intro out w₄ hremoved
  obtain ⟨hp₄, hwal₄, j, hs₄, hout⟩ := hremoved
  have hp : Plan.Rest w₄.plan w.plan := hp₄.trans h.plan
  have hlog : w₄.dir.lookup walName = w.dir.lookup walName := hwal₄.trans h.log
  rcases hout with ⟨rfl, hj⟩ | ⟨e, rfl, hb⟩
  swap
  · have hb' : BlamedOn w.plan .removeOld e := hb.mono h.plan
    refine CompactEnd.swapped db hwf hr hmerged hlt hs₄ hp hlog (.inr ⟨e, rfl, hb'⟩) ?_
    intro e' he'
    cases he'
    exact ⟨_, hb'⟩
  refine Post_tick ?_ fun n e hcut => ?_
  · exact CompactEnd.swapped db hwf hr hmerged hlt hs₄ ((w₄.advance_rest _).trans hp) hlog
      (.inl hj) (by rintro e ⟨⟩)
  · refine CompactEnd.swapped db hwf hr hmerged hlt hs₄ ((w₄.advance_rest _).trans hp) hlog
      (.inl hj) ?_
    intro e' he'
    cases he'
    exact hcut.blames.mono hp

end RustFundamentals.Lsmkv
