import RustFundamentals.Rudis.Snapshots

/-!
# rudis: saving and loading

What was alive when a snapshot was saved, and still is, is alive after it has been loaded, in
whatever order the map was walked (`snapshots_exact`). A snapshot that has been cut short is refused
unless the cut is behind a whole record (`truncated_rejected_iff`).
-/

namespace RustFundamentals.Rudis

open Foundation Foundation.Fs Foundation.Expiry Persistence

namespace Persistence

/-! ## Saving -/

theorem fileCall_ok {core core' : Core} {path : Path} {f : Option Bytes → Option Bytes}
    {g : Nat → Option Bytes → Option Bytes} (h : (fileCall path f g).run core = (.ok (), core')) :
    core' = { core with
      fileCalls := fun i => core.fileCalls (i + 1)
      files := Function.update core.files path (f (core.files path)) } := by
  cases hcall : core.fileCalls 0 with
  | done =>
    rw [fileCall_done hcall] at h
    exact (Prod.mk.inj h).2.symm
  | failed stored text =>
    have hfailed : ∃ core', (fileCall path f g).run core = (.error (.err (.io text)), core') :=
      fileCall_failed hcall
    obtain ⟨core'', hrun⟩ := hfailed
    rw [hrun] at h
    cases h

/-- A program that has gone through its first call has gone through both. -/
theorem fileCall_bind_ok {α : Type} {core core' : Core} {path : Path}
    {f : Option Bytes → Option Bytes} {g : Nat → Option Bytes → Option Bytes} {a : α}
    {x : Unit → Io Core Error α} (h : (fileCall path f g >>= x).run core = (.ok a, core')) :
    ∃ core₁, (fileCall path f g).run core = (.ok (), core₁) ∧
      (x ()).run core₁ = (.ok a, core') := by
  rw [run_bind] at h
  rcases hfirst : (fileCall path f g).run core with ⟨stop | ⟨⟩, core₁⟩
  · rw [hfirst] at h
    cases h
  · rw [hfirst] at h
    exact ⟨core₁, rfl, h⟩

/-- **What `save` writes.** -/
theorem save_ok {core core' : Core} {path : Path}
    (h : (save path).run core = (.ok (), core')) :
    core'.files path = some (snapshot (core.store.snapshotIter (core.clock 0))) := by
  obtain ⟨core₁, hcreate, h⟩ := fileCall_bind_ok
    (show (fileCall path (fun _ => some []) (fun _ file => file) >>= _).run
      { core with clock := fun i => core.clock (i + 1) } = _ from h)
  obtain ⟨core₂, hwrite, hsync⟩ := fileCall_bind_ok h
  obtain rfl := fileCall_ok hcreate
  obtain rfl := fileCall_ok hwrite
  obtain rfl := fileCall_ok hsync
  simp

/-- Keys, values and deadlines fit the fields of a record. -/
def Encodable (s : Store) : Prop := ∀ key e, s.map.lookup key = some e →
  key.length < 2 ^ 32 ∧ e.value.length < 2 ^ 32 ∧ ∀ t, e.expiresAt = some t → t < 2 ^ 64

/-- The record of an entry that is alive when the snapshot is taken. -/
def savedAt (now : Nat) (e : Sigma fun _ : Bytes => Entry) : Option Store.Saved :=
  if e.2.isExpired now then none else some (e.1, e.2.value, e.2.expiresAt.getD 0)

theorem snapshotIter_eq (now : Nat) (s : Store) :
    s.snapshotIter now = s.map.entries.filterMap (savedAt now) := rfl

theorem snapshotIter_fits {now : Nat} {s : Store} (h : Encodable s) :
    ∀ r ∈ s.snapshotIter now, Fits r := by
  intro r hr
  rw [snapshotIter_eq] at hr
  obtain ⟨⟨key, e⟩, hmem, hsaved⟩ := List.mem_filterMap.mp hr
  obtain ⟨hkey, hvalue, hdeadline⟩ := h key e (HashMap.mem_entries.mp hmem)
  unfold savedAt at hsaved
  split at hsaved
  · cases hsaved
  · obtain rfl := Option.some.inj hsaved
    refine ⟨hkey, hvalue, ?_⟩
    show e.expiresAt.getD 0 < 2 ^ 64
    cases ht : e.expiresAt with
    | none => exact Nat.two_pow_pos 64
    | some t => exact hdeadline t ht

/-! ## Files that are cut short -/

/-- Records are told apart. -/
theorem record_append_inj {r e : Store.Saved} {x y : Bytes} (hr : Fits r) (he : Fits e)
    (h : record r ++ x = record e ++ y) : r = e ∧ x = y := by
  have hle : ∀ {w m n : Nat}, m < 256 ^ w → n < 256 ^ w → leBytes w m = leBytes w n → m = n := by
    intro w m n hm hn heq
    rw [← ofLe_leBytes_of_lt hm, heq, ofLe_leBytes_of_lt hn]
  obtain ⟨key, value, expiresAt⟩ := r
  obtain ⟨key', value', expiresAt'⟩ := e
  simp only [record, List.append_assoc] at h
  obtain ⟨hkeyLen, h⟩ := List.append_inj h (by simp)
  obtain ⟨hkey, h⟩ := List.append_inj h (hle hr.key he.key hkeyLen)
  obtain ⟨hvalueLen, h⟩ := List.append_inj h (by simp)
  obtain ⟨hvalue, h⟩ := List.append_inj h (hle hr.value he.value hvalueLen)
  obtain ⟨hexpires, hrest⟩ := List.append_inj h (by simp)
  obtain rfl := hle hr.expiresAt he.expiresAt hexpires
  subst hkey hvalue
  exact ⟨rfl, hrest⟩

/-- Records at the front of records are the first of them. -/
theorem records_prefix {rs es : List Store.Saved} (hrs : ∀ r ∈ rs, Fits r)
    (hes : ∀ e ∈ es, Fits e) (h : (rs.map record).flatten <+: (es.map record).flatten) :
    rs <+: es := by
  induction rs generalizing es with
  | nil => exact List.nil_prefix
  | cons r rs ih =>
    obtain ⟨rest, h⟩ := h
    rw [List.map_cons, List.flatten_cons, List.append_assoc] at h
    cases es with
    | nil =>
      have hlen := congrArg List.length h
      rw [List.length_append, record_length, List.map_nil, List.flatten_nil,
        List.length_nil] at hlen
      omega
    | cons e es =>
      obtain ⟨hr, hrs'⟩ := List.forall_mem_cons.mp hrs
      obtain ⟨he, hes'⟩ := List.forall_mem_cons.mp hes
      obtain ⟨rfl, htail⟩ := record_append_inj hr he h
      exact List.cons_prefix_cons.mpr ⟨rfl, ih hrs' hes' ⟨rest, htail⟩⟩

/-- A snapshot that has been cut short is complete when the cut is behind a record, or behind
`MAGIC`. -/
theorem complete_cut_iff {es : List Store.Saved} (hes : ∀ e ∈ es, Fits e) {p : Bytes}
    (hp : p <+: snapshot es) (hne : p ≠ snapshot es) :
    Complete p ↔ ∃ k < es.length, p = snapshot (es.take k) := by
  refine ⟨?_, ?_⟩
  · rintro ⟨rs, hrs, heq⟩
    subst heq
    have hprefix : rs <+: es := by
      obtain ⟨rest, h⟩ := hp
      rw [snapshot, snapshot, List.append_assoc] at h
      exact records_prefix hrs hes ⟨rest, List.append_cancel_left h⟩
    have htake := List.prefix_iff_eq_take.mp hprefix
    refine ⟨rs.length, ?_, by rw [← htake]⟩
    by_contra hlen
    rw [List.take_of_length_le (not_lt.mp hlen)] at htake
    exact hne (by rw [htake])
  · intro hcut
    obtain ⟨k, -, heq⟩ := hcut
    exact ⟨es.take k, fun e he => hes e (List.mem_of_mem_take he), heq⟩

/-- **A truncated snapshot is rejected** exactly when it is not complete. If keys and values are
shorter than `2 ^ 32` bytes, it is complete when the cut is behind one of the records, or behind
`MAGIC`: the part of the keyspace in front of the cut is then loaded. -/
theorem truncated_rejected_iff {saving saved loading : Core} {path path' : Path}
    {written p : Bytes} (hsave : (save path).run saving = (.ok (), saved))
    (hwritten : saved.files path = some written) (hp : p <+: written) (hne : p ≠ written)
    (hopens : Opens loading path' p) :
    ((∃ msg core', (load path').run loading = (.error (.err (.snapshot msg)), core')) ↔
        ¬ Complete p) ∧
      (Encodable saving.store → (Complete p ↔
        ∃ k < (saving.store.snapshotIter (saving.clock 0)).length,
          p = snapshot ((saving.store.snapshotIter (saving.clock 0)).take k))) := by
  refine ⟨?_, ?_⟩
  · refine ⟨?_, ?_⟩
    · rintro ⟨msg, core', hrun⟩ hcomplete
      obtain ⟨core'', hok⟩ := (load_ok_iff hopens).mpr hcomplete
      rw [hok] at hrun
      cases hrun
    · exact load_incomplete hopens
  · intro hencodable
    rw [save_ok hsave] at hwritten
    obtain rfl := Option.some.inj hwritten
    exact complete_cut_iff (snapshotIter_fits hencodable) hp hne

/-- A store with one key, saved with files that do as they are told. -/
def oneKey : Core := { Core.fresh with store := (Store.new none).set [107] [118] none }

/-- A file that can be loaded. -/
def fileOf (path : Path) (bytes : Bytes) : Core :=
  { Core.fresh with files := Function.update (fun _ => none) path (some bytes) }

theorem oneKey_cut_in_record :
    ((∃ msg core', (load [112]).run (fileOf [112] (magic ++ [1, 0])) =
        (.error (.err (.snapshot msg)), core')) ↔ ¬ Complete (magic ++ [1, 0])) ∧
      (Encodable oneKey.store → (Complete (magic ++ [1, 0]) ↔
        ∃ k < (oneKey.store.snapshotIter (oneKey.clock 0)).length,
          magic ++ [1, 0] =
            snapshot ((oneKey.store.snapshotIter (oneKey.clock 0)).take k))) := by
  exact @truncated_rejected_iff oneKey _ (fileOf [112] (magic ++ [1, 0])) [112] [112]
    (snapshot [([107], [118], 0)]) _ rfl rfl
    ⟨[0, 0, 107, 1, 0, 0, 0, 118, 0, 0, 0, 0, 0, 0, 0, 0], rfl⟩ (by decide)
    ⟨rfl, by decide, rfl, rfl⟩

/-- Cut right behind `MAGIC`, the file is loaded, and the key is gone. -/
theorem oneKey_cut_behind_magic :
    ∃ saved written, (save [112]).run oneKey = (.ok (), saved) ∧
      saved.files [112] = some written ∧ magic <+: written ∧ magic ≠ written ∧
      oneKey.store.live 0 [107] = some ⟨[118], none⟩ ∧
      ∃ core', (load [112]).run (fileOf [112] magic) = (.ok (), core') ∧
        core'.store.live 0 [107] = none := by
  have hopens : Opens (fileOf [112] magic) [112] (snapshot []) := ⟨rfl, by decide, rfl, rfl⟩
  refine ⟨_, _, rfl, rfl, ⟨_, rfl⟩, by decide, rfl, _, load_complete hopens nofun, rfl⟩

/-! ## The round trip -/

theorem filter_expired {e : Entry} {t : Nat} (h : e.isExpired t = true) :
    ((some e).filter fun e => !e.isExpired t) = none := by
  simp [h]

/-- What a saved entry adds to the keys that are alive at `t`. -/
theorem live_loaded {core : Core} {key : Bytes} {e : Entry} {t : Nat}
    (hdeadline : e.expiresAt ≠ some 0) (hclock : core.clock 0 ≤ t)
    (hnew : core.store.live t key = none) :
    (loaded core (key, e.value, e.expiresAt.getD 0)).store.live t =
      Function.update (core.store.live t) key ((some e).filter fun e => !e.isExpired t) := by
  have hset : ∀ deadline, (core.store.set key e.value deadline).live t =
      Function.update (core.store.live t) key
        ((some ⟨e.value, deadline⟩ : Option Entry).filter fun e => !e.isExpired t) := by
    intro deadline
    rw [Store.live, Store.view_set, alive_update]
    rfl
  unfold loaded
  cases hexpires : e.expiresAt with
  | none =>
    have heq : (⟨e.value, none⟩ : Entry) = e := by rw [← hexpires]
    rw [Option.getD_none, if_pos rfl, ← heq]
    exact hset none
  | some deadline =>
    have hne : deadline ≠ 0 := by
      intro hzero
      exact hdeadline (by rw [hexpires, hzero])
    have heq : (⟨e.value, some deadline⟩ : Entry) = e := by rw [← hexpires]
    rw [Option.getD_some, if_neg hne]
    by_cases hdead : deadline ≤ core.clock 0
    · -- passed over, and dead by `t` in the original store
      have hexpired : e.isExpired t = true := by
        unfold Entry.isExpired
        rw [hexpires]
        exact decide_eq_true (hdead.trans hclock)
      show Store.live t (if deadline ≤ core.clock 0 then core.store else _) = _
      rw [if_pos hdead, filter_expired hexpired, ← hnew, Function.update_eq_self]
    · show Store.live t (if deadline ≤ core.clock 0 then _ else
        core.store.set key e.value (some deadline)) = _
      rw [if_neg hdead, ← heq]
      exact hset (some deadline)

theorem loaded_clock (core : Core) (r : Store.Saved) (i : Nat) :
    (loaded core r).clock i = core.clock i ∨ (loaded core r).clock i = core.clock (i + 1) := by
  unfold loaded
  split
  · exact .inl rfl
  · exact .inr rfl

/-- **Loading what was saved** brings in what was alive then, and still is. -/
theorem live_foldl_loaded {now t : Nat} (hle : now ≤ t)
    (es : List (Sigma fun _ : Bytes => Entry)) (hnodup : es.NodupKeys) {core : Core}
    (hnew : ∀ e ∈ es, core.store.live t e.1 = none)
    (hclock : ∀ i < (es.filterMap (savedAt now)).length, core.clock i ≤ t) (key : Bytes) :
    ((es.filterMap (savedAt now)).foldl loaded core).store.live t key =
      (es.dlookup key).elim (core.store.live t key) fun e =>
        (some e).filter fun e => !e.isExpired t := by
  induction es generalizing core with
  | nil => rfl
  | cons entry es ih =>
    obtain ⟨k, e⟩ := entry
    rw [List.nodupKeys_cons] at hnodup
    obtain ⟨hnotin, hnodup⟩ := hnodup
    obtain ⟨hk, hnew⟩ := List.forall_mem_cons.mp hnew
    have hlookup : ∀ f : Entry → Option Entry, (List.dlookup key (⟨k, e⟩ :: es)).elim
        (core.store.live t key) f =
          if key = k then f e else (es.dlookup key).elim (core.store.live t key) f := by
      intro f
      by_cases h : key = k
      · subst h
        rw [List.dlookup_cons_eq, if_pos rfl, Option.elim_some]
      · rw [List.dlookup_cons_ne _ _ h, if_neg h]
    rw [hlookup]
    cases hsaved : savedAt now ⟨k, e⟩ with
    | none =>
      -- dead when the snapshot was taken, and dead since
      have hexpired : e.isExpired t = true := by
        unfold savedAt at hsaved
        split at hsaved
        · next h => exact isExpired_lasting now t e hle h
        · cases hsaved
      rw [List.filterMap_cons_none hsaved] at hclock ⊢
      rw [ih hnodup hnew hclock]
      split
      · next h =>
        subst h
        rw [List.dlookup_eq_none.mpr hnotin, Option.elim_none, hk]
        exact (filter_expired hexpired).symm
      · rfl
    | some r =>
      obtain ⟨hexpired, rfl⟩ : e.isExpired now = false ∧ (k, e.value, e.expiresAt.getD 0) = r := by
        unfold savedAt at hsaved
        split at hsaved
        · cases hsaved
        · next h => exact ⟨by simpa using h, Option.some.inj hsaved⟩
      have hdeadline : e.expiresAt ≠ some 0 := by
        intro hzero
        simp [Entry.isExpired, hzero] at hexpired
      rw [List.filterMap_cons_some hsaved] at hclock ⊢
      rw [List.length_cons] at hclock
      have hlive := live_loaded hdeadline (hclock 0 (Nat.succ_pos _)) hk
      rw [List.foldl_cons, ih hnodup, hlive]
      · split
        · next h =>
          subst h
          rw [List.dlookup_eq_none.mpr hnotin, Option.elim_none, Function.update_self]
        · next h => rw [Function.update_of_ne h]
      · intro e' he'
        have hne : e'.1 ≠ k := by
          intro heq
          subst heq
          exact hnotin (List.mem_keys.mpr ⟨e'.2, he'⟩)
        rw [hlive, Function.update_of_ne hne]
        exact hnew e' he'
      · intro i hi
        rcases loaded_clock core (k, e.value, e.expiresAt.getD 0) i with h | h
        · rw [h]
          exact hclock i (by omega)
        · rw [h]
          exact hclock (i + 1) (by omega)

/-- **The round trip**: from the last reading of the clock on, the loaded store shows what the
saved one does. -/
theorem reload_live {saving saved loading : Core} {path path' : Path} {written : Bytes} {t₁ : Nat}
    (hsave : (save path).run saving = (.ok (), saved))
    (hwritten : saved.files path = some written) (hencodable : Encodable saving.store)
    (hopens : Opens loading path' written) (hempty : loading.store.map = ∅)
    (hle : saving.clock 0 ≤ t₁)
    (hclock : ∀ i < (saving.store.snapshotIter (saving.clock 0)).length, loading.clock i ≤ t₁) :
    ∃ core', (load path').run loading = (.ok (), core') ∧
      ∀ t, t₁ ≤ t → core'.store.live t = saving.store.live t := by
  rw [save_ok hsave] at hwritten
  obtain rfl := Option.some.inj hwritten
  refine ⟨_, load_complete hopens (snapshotIter_fits hencodable), fun t ht => ?_⟩
  funext key
  have hnone : ∀ key, (opened loading).store.live t key = none := by
    intro key
    rw [Store.live_eq_none]
    intro e he
    have hlookup : loading.store.map.lookup key = some e := he
    rw [hempty, AList.lookup_empty] at hlookup
    cases hlookup
  rw [loadEntries_run, snapshotIter_eq]
  rw [live_foldl_loaded (hle.trans ht) _ saving.store.map.nodupKeys fun e _ => hnone e.1]
  · rw [hnone, Store.live_eq]
    show (saving.store.map.lookup key).elim none _ = _
    cases saving.store.map.lookup key <;> rfl
  · exact fun i hi => (hclock i hi).trans ht

/-- Loading a file comes to what the grammar of the format says. -/
structure LoadsByGrammar (core : Core) (path : Path) (bytes : Bytes) : Prop where
  succeeds : (∃ core', (load path).run core = (.ok (), core')) ↔ Complete bytes
  effect : ∀ rs, (∀ r ∈ rs, Fits r) → bytes = snapshot rs → (load path).run core =
    (.ok (), ((loadEntries rs : Io Core Error Unit).run (opened core)).2)

/-- **Snapshots are exact**: a file is loaded exactly when it is complete, its records then take
effect in order, and no file makes a load panic; and what is saved comes back, with the entries of
the map in any order. -/
theorem snapshots_exact :
    (∀ core path bytes, Opens core path bytes → LoadsByGrammar core path bytes) ∧
    (∀ core path, (∀ bytes, core.files path = some bytes → bytes.length ≤ isizeMax) →
      Answers ((load path).run core).1) ∧
    ∀ saving saved loading path path' written t₁, (save path).run saving = (.ok (), saved) →
      saved.files path = some written → Encodable saving.store → Opens loading path' written →
      loading.store.map = ∅ → saving.clock 0 ≤ t₁ →
      (∀ i < (saving.store.snapshotIter (saving.clock 0)).length, loading.clock i ≤ t₁) →
      ∃ core', (load path').run loading = (.ok (), core') ∧
        ∀ t, t₁ ≤ t → core'.store.live t = saving.store.live t := by
  refine ⟨?_, load_answers, ?_⟩
  · intro core path bytes hopens
    refine ⟨load_ok_iff hopens, fun rs hrs heq => ?_⟩
    subst heq
    exact load_complete hopens hrs
  · intro saving saved loading path path' written t₁ hsave hwritten hencodable hopens hempty hle
      hclock
    exact reload_live hsave hwritten hencodable hopens hempty hle hclock

/-- Two keys, one of them with a deadline, are saved at 0 and loaded at 3. -/
def twoKeys : Core :=
  { Core.fresh with
    store := ((Store.new none).set [107] [118] none).set [108] [119] (some 9) }

theorem twoKeys_reloaded :
    ∃ core', (load [112]).run { fileOf [112] (snapshot [([108], [119], 9), ([107], [118], 0)]) with
        clock := fun _ => 3 } = (.ok (), core') ∧
      ∀ t, 3 ≤ t → core'.store.live t = twoKeys.store.live t := by
  refine snapshots_exact.2.2 twoKeys _ _ [112] [112] _ 3 rfl rfl ?_ ⟨rfl, by decide, rfl, rfl⟩ rfl
    (by decide) fun _ _ => le_rfl
  intro key e he
  have hmem : ⟨key, e⟩ ∈ twoKeys.store.map.entries := HashMap.mem_entries.mpr he
  have hall : ∀ x ∈ twoKeys.store.map.entries, x.1.length < 2 ^ 32 ∧ x.2.value.length < 2 ^ 32 ∧
      ∀ t ∈ x.2.expiresAt, t < 2 ^ 64 := by decide
  exact hall ⟨key, e⟩ hmem

end Persistence

end RustFundamentals.Rudis
