import RustFundamentals.Lsmkv.Represent

/-!
# lsmkv: what the readings return

`get` stops at the first layer that has the key; `scan` merges everything by sequence
number. Over a well-formed store both read the view of its live records (`get_eq`,
`scan_spec`).
-/

namespace RustFundamentals.Lsmkv

open Foundation Foundation.Fs Foundation.Lsm

/-! ## The newest-wins merge -/

/-- `best` holds, for each key of `S`, a newest record of it. -/
structure Best (S : Set Record) (best : RecordMap) : Prop where
  newest : ∀ k r, best[k]? = some r → Newest S k r
  total : ∀ r ∈ S, (best[r.key]?).isSome

theorem Best.keyed {S : Set Record} {best : RecordMap} (h : Best S best) : Keyed best :=
  fun k r hr => (h.newest k r hr).2.1

theorem Best.empty : Best ∅ ∅ := ⟨fun k r h => by simp at h, fun r h => by simp at h⟩

/-- In a coherent set the newest records are exactly those of the map. -/
theorem Best.iff {S : Set Record} {best : RecordMap} (h : Best S best) (hc : Coherent S)
    {k : Bytes} {r : Record} : best[k]? = some r ↔ Newest S k r := by
  constructor
  · exact h.newest k r
  · intro hr
    have hsome := h.total r hr.1
    have hk : r.key = k := hr.2.1
    rw [hk] at hsome
    obtain ⟨x, hx⟩ := Option.isSome_iff_exists.mp hsome
    rw [hx, (h.newest k x hx).unique hc hr]

/-- One step of the merge. -/
theorem Best.keepNewest {S : Set Record} {best : RecordMap} (h : Best S best) (r : Record) :
    Best (insert r S) (keepNewest best r) := by
  -- the record goes in, nothing of its key being newer
  have hinsert : (∀ x ∈ S, x.key = r.key → x.seq ≤ r.seq) →
      Best (insert r S) (best.insert r.key r) := by
    intro hmax
    constructor
    · intro k x hx
      rw [Std.TreeMap.getElem?_insert] at hx
      split at hx
      · rename_i heq
        obtain rfl : r = x := Option.some.inj hx
        refine ⟨Set.mem_insert _ _, Std.LawfulEqCmp.eq_of_compare heq, ?_⟩
        intro y hy hyk
        rcases hy with rfl | hy
        · exact le_rfl
        · exact hmax y hy (hyk.trans (Std.LawfulEqCmp.eq_of_compare heq).symm)
      · rename_i hne
        obtain ⟨hmem, hk, hxmax⟩ := h.newest k x hx
        refine ⟨Set.mem_insert_of_mem _ hmem, hk, ?_⟩
        intro y hy hyk
        rcases hy with rfl | hy
        · exact absurd (show compare y.key k = .eq by simpa using hyk) hne
        · exact hxmax y hy hyk
    · intro x hx
      rcases hx with rfl | hx
      · simp
      · rw [Std.TreeMap.getElem?_insert]
        split
        · rfl
        · exact h.total x hx
  unfold Lsmkv.keepNewest
  split
  · rename_i existing hex
    have hnew := h.newest _ _ hex
    split
    -- a newer one is there and stays
    · rename_i hge
      constructor
      · intro k x hx
        obtain ⟨hmem, hk, hxmax⟩ := h.newest k x hx
        refine ⟨Set.mem_insert_of_mem _ hmem, hk, ?_⟩
        intro y hy hyk
        rcases hy with rfl | hy
        · have heq : best[y.key]? = some x := by
            rw [show y.key = k from hyk]
            exact hx
          rw [hex] at heq
          obtain rfl : existing = x := Option.some.inj heq
          exact hge
        · exact hxmax y hy hyk
      · intro x hx
        rcases hx with rfl | hx
        · rw [hex]
          rfl
        · exact h.total x hx
    · rename_i hlt
      have hle : existing.seq ≤ r.seq := (not_le.mp hlt).le
      exact hinsert fun x hx hxk => (hnew.2.2 x hx hxk).trans hle
  · rename_i hnone
    refine hinsert fun x hx hxk => ?_
    have hsome := h.total x hx
    rw [hxk, hnone] at hsome
    exact absurd hsome (by simp)

/-- **The merge of a list holds the newest record of each key.** -/
theorem Best.foldl {S : Set Record} {best : RecordMap} (h : Best S best) (rs : List Record) :
    Best (S ∪ {r | r ∈ rs}) (rs.foldl Lsmkv.keepNewest best) := by
  induction rs generalizing S best with
  | nil => simpa using h
  | cons r rs ih =>
    have heq : S ∪ {x | x ∈ r :: rs} = insert r S ∪ {x | x ∈ rs} := by
      ext x
      simp only [Set.mem_union, Set.mem_ofPred_eq, List.mem_cons, Set.mem_insert_iff]
      tauto
    rw [heq, List.foldl_cons]
    exact ih (h.keepNewest r)

theorem best_foldl (rs : List Record) : Best {r | r ∈ rs} (rs.foldl keepNewest ∅) := by
  simpa using Best.empty.foldl rs

/-- `newest_per_key` keeps the newest record of each key. -/
theorem mem_newestPerKey {rs : List Record} (hc : Coherent {r | r ∈ rs}) {r : Record} :
    r ∈ newestPerKey rs ↔ Newest {x | x ∈ rs} r.key r := by
  have h := best_foldl rs
  rw [newestPerKey, RecordMap.mem_records h.keyed, h.iff hc]

theorem newestPerKey_sorted (rs : List Record) : SortedByKey (newestPerKey rs) :=
  RecordMap.records_sorted (best_foldl rs).keyed

/-! ## Layers -/

/-- The layer of one table. -/
def tableLayer (d : Disk Record) (id : Nat) : Layer Record Bytes :=
  findKey ((d.files id).getD [])

/-- The layers of the store, newest first. -/
def layers (d : Disk Record) (p : Proc Record Bytes) : List (Layer Record Bytes) :=
  p.mem :: p.ids.map (tableLayer d)

section Reading

variable {mayTear : Prop} {dir : Dir} {d : Disk Record} {p : Proc Record Bytes} {db : Db}

theorem tableLayer_eq_some (hs : Stores mayTear dir d) {id : Nat} {k : Bytes} {r : Record} :
    tableLayer d id k = some r ↔ d.Holds id r ∧ r.key = k := by
  unfold tableLayer Disk.Holds
  cases hf : d.files id with
  | none => simp [findKey]
  | some rs =>
    rw [Option.getD_some, findKey_eq_some (hs.sorted id rs hf)]
    simp

theorem recordsOf_layers (hs : Stores mayTear dir d) (p : Proc Record Bytes) :
    recordsOf (layers d p) = live d p := by
  ext x
  constructor
  · intro hfound
    obtain ⟨l, hl, hx⟩ := hfound
    rcases List.mem_cons.mp hl with rfl | hl
    · exact .inl hx
    · obtain ⟨id, hid, rfl⟩ := List.mem_map.mp hl
      exact .inr ⟨id, hid, ((tableLayer_eq_some hs).mp hx).1⟩
  · intro heither
    rcases heither with hx | ⟨id, hid, hx⟩
    · exact ⟨p.mem, by simp [layers], hx⟩
    · have hl : tableLayer d id ∈ layers d p :=
        List.mem_cons_of_mem _ (List.mem_map_of_mem hid)
      exact ⟨tableLayer d id, hl, (tableLayer_eq_some hs).mpr ⟨hx, rfl⟩⟩

theorem layers_keyed (hs : Stores mayTear dir d) (h : Wf d p) : LayersKeyed (layers d p) := by
  intro l hl k r hr
  rcases List.mem_cons.mp hl with rfl | hl
  · exact (h.mem_log k r hr).2
  · obtain ⟨id, _, rfl⟩ := List.mem_map.mp hl
    exact ((tableLayer_eq_some hs).mp hr).2

/-- **Layer order is age order.** -/
theorem layers_aged (hs : Stores mayTear dir d) (h : Wf d p) : LayersAged (layers d p) := by
  refine List.pairwise_cons.mpr ⟨?_, ?_⟩
  · intro l hl k x y hx hy
    obtain ⟨id, _, rfl⟩ := List.mem_map.mp hl
    obtain ⟨hy, hyk⟩ := (tableLayer_eq_some hs).mp hy
    exact h.mem_ge k x id y hx hy hyk
  · rw [List.pairwise_map]
    refine h.ids_desc.imp ?_
    intro i j hij k x y hx hy
    obtain ⟨hx, hxk⟩ := (tableLayer_eq_some hs).mp hx
    obtain ⟨hy, hyk⟩ := (tableLayer_eq_some hs).mp hy
    exact h.file_order j i y x hij hy hx (hyk.trans hxk.symm)

theorem getFrom_handles (hs : Stores mayTear dir d) {ids : List Nat}
    (hids : ∀ id ∈ ids, (d.files id).isSome) (k : Bytes) :
    Db.getFrom (ids.map (handle d)) k = .ok (firstHit (ids.map (tableLayer d)) k) := by
  induction ids with
  | nil => rfl
  | cons id ids ih =>
    obtain ⟨rs, hrs⟩ := Option.isSome_iff_exists.mp (hids id (by simp))
    have htail := ih fun i hi => hids i (by simp [hi])
    have hget : (handle d id).get k = .ok (tableLayer d id k) := by
      rw [handle, tableLayer, hrs, Option.getD_some]
      exact SsTable.get_ofRecords (hs.storable id rs hrs) (hs.sorted id rs hrs) id k
    rw [List.map_cons, Db.getFrom, hget, htail, List.map_cons]
    simp only [firstHit, List.findSome?_cons, bind, Except.bind]
    cases tableLayer d id k <;> rfl

/-- **`get` reads the live view.** -/
theorem get_eq (hs : Stores mayTear dir d) (h : Wf d p) (hr : Running db dir d p) (k : Bytes) :
    db.get k = .ok (view (live d p) k) := by
  have hview := firstHit_eq_view (layers_keyed hs h) (layers_aged hs h)
    (by rw [recordsOf_layers hs]; exact h.live_coherent) k
  rw [recordsOf_layers hs] at hview
  rw [← hview, Db.get, hr.mem, layers, firstHit, List.findSome?_cons]
  cases p.mem k with
  | some r => rfl
  | none =>
    simp only [hr.tables, getFrom_handles hs h.ids_file, firstHit, bind, Except.bind]
    cases List.findSome? (fun x => x k) (p.ids.map (tableLayer d)) <;> rfl

theorem tableRecords_handles (hs : Stores mayTear dir d) {ids : List Nat}
    (hids : ∀ id ∈ ids, (d.files id).isSome) :
    Db.tableRecords (ids.map (handle d)) = .ok (ids.flatMap fun id => (d.files id).getD []) := by
  induction ids with
  | nil => rfl
  | cons id ids ih =>
    obtain ⟨rs, hrs⟩ := Option.isSome_iff_exists.mp (hids id (by simp))
    have hiter : (handle d id).iter = .ok rs := by
      rw [handle, hrs, Option.getD_some]
      exact SsTable.iter_ofRecords (hs.storable id rs hrs) id
    rw [List.map_cons, Db.tableRecords, hiter, ih fun i hi => hids i (by simp [hi]),
      List.flatMap_cons, hrs]
    rfl

theorem mem_flatMap_files {ids : List Nat} {x : Record} :
    x ∈ ids.flatMap (fun id => (d.files id).getD []) ↔ ∃ id ∈ ids, d.Holds id x := by
  rw [List.mem_flatMap]
  refine exists_congr fun id => and_congr_right fun _ => ?_
  unfold Disk.Holds
  cases d.files id <;> simp

/-- The pairs `scan` lists: strictly ascending, and exactly the bindings of the view. -/
structure Lists (pairs : List (Bytes × Bytes)) (m : Bytes → Option Bytes) : Prop where
  sorted : pairs.Pairwise fun a b => compare a.1 b.1 = .lt
  mem : ∀ k v, (k, v) ∈ pairs ↔ m k = some v

/-- **`scan` lists the live view.** -/
theorem scan_spec (hs : Stores mayTear dir d) (h : Wf d p) (hr : Running db dir d p) :
    ∃ pairs, db.scan = .ok pairs ∧ Lists pairs (view (live d p)) := by
  have htab := tableRecords_handles hs h.ids_file
  rw [← hr.tables] at htab
  set records := p.ids.flatMap (fun id => (d.files id).getD []) ++ db.mem.records with hrecords
  have hset : {r | r ∈ records} = live d p := by
    ext x
    simp only [hrecords, Set.mem_ofPred_eq, List.mem_append, mem_flatMap_files, MemTable.records,
      RecordMap.mem_records hr.keyed]
    have hm : db.mem.map[x.key]? = p.mem x.key := hr.mem x.key
    rw [hm]
    exact or_comm
  have hbest := best_foldl records
  rw [hset] at hbest
  refine ⟨_, by simp only [Db.scan, htab, bind, Except.bind]; rfl, ?_, ?_⟩
  · refine List.Pairwise.filterMap (R := fun a b : Bytes × Record => compare a.1 b.1 = .lt) _
      ?_ Std.TreeMap.ordered_keys_toList
    rintro ⟨k, r⟩ ⟨k', r'⟩ hlt ⟨a, v⟩ ha ⟨b, v'⟩ hb
    simp only [Option.map_eq_some_iff, Prod.mk.injEq] at ha hb
    obtain ⟨_, _, rfl, _⟩ := ha
    obtain ⟨_, _, rfl, _⟩ := hb
    exact hlt
  · intro k v
    rw [view_eq_some h.live_coherent, List.mem_filterMap]
    constructor
    · intro hfound
      obtain ⟨⟨k', r⟩, hmem, hv⟩ := hfound
      simp only [Option.map_eq_some_iff, Prod.mk.injEq] at hv
      obtain ⟨v', hv', rfl, rfl⟩ := hv
      exact ⟨r, hbest.newest _ _ (Std.TreeMap.mem_toList_iff_getElem?_eq_some.mp hmem), hv'⟩
    · intro hfound
      obtain ⟨r, hnew, hv⟩ := hfound
      refine ⟨(k, r), Std.TreeMap.mem_toList_iff_getElem?_eq_some.mpr
        ((hbest.iff h.live_coherent).mpr hnew), ?_⟩
      have hv' : r.value.toOption = some v := hv
      simp [hv']

end Reading

end RustFundamentals.Lsmkv
