import RustFundamentals.Lsmkv.Represent

/-!
# lsmkv: the moves of the store on disk

What each filesystem step of an operation does to the abstract disk a directory stands for:
appending a frame, emptying the log, installing a table, removing one.
-/

namespace RustFundamentals.Lsmkv

open Foundation Foundation.Fs Foundation.Lsm

/-- The process is still there after an operation that ended with `r`. -/
def alive {α : Type} : Except (Stop Error) α → Bool
  | .ok _ => true
  | .error (.err _) => true
  | .error .died => false
  | .error .panicked => false

theorem Post_onDisk {α : Type} (x : FsM α) (s : Session)
    (Q : Except (Stop Error) α → Session → Prop) :
    Post (onDisk x) s Q ↔ Post x s.world fun r w => Q r { s with world := w } := Iff.rfl

@[simp] theorem Post_self (s : Session) (Q : Except (Stop Error) Db → Session → Prop) :
    Post self s Q ↔ Q (.ok s.db) s := Iff.rfl

@[simp] theorem Post_update (f : Db → Db) (s : Session)
    (Q : Except (Stop Error) Unit → Session → Prop) :
    Post (update f) s Q ↔ Q (.ok ()) { s with db := f s.db } := Iff.rfl

/-- Arithmetic that does not wrap is exact or panics. -/
theorem Post_fit {σ ε : Type} {ov : Overflow} {w n : Nat} {s : σ}
    {Q : Except (Stop ε) Nat → σ → Prop} (hsafe : ov = .checked ∨ n < 2 ^ w)
    (hok : n < 2 ^ w → Q (.ok n) s) (hpanic : 2 ^ w ≤ n → Q (.error .panicked) s) :
    Post (orPanic (ov.fit w n)) s Q := by
  cases h : ov.fit w n with
  | some v =>
    obtain ⟨rfl, hlt⟩ := Overflow.fit_eq_some h hsafe
    exact hok hlt
  | none =>
    refine hpanic (Nat.le_of_not_lt fun hlt => ?_)
    rw [ov.fit_of_lt hlt] at h
    exact absurd h (by simp)

/-! ## Directories -/

variable {mayTear : Prop}

theorem walWrites_congr {dir dir' : Dir} (h : dir'.lookup walName = dir.lookup walName) :
    walWrites dir' = walWrites dir := by
  unfold walWrites
  rw [h]

/-- The directory stands for the same disk while only temporary files change. -/
theorem Stores.congr {dir dir' : Dir} {d : Disk Record} (hs : Stores mayTear dir d) {id : Nat}
    (h : SameButTmp id dir dir') : Stores mayTear dir' d where
  log := by
    rw [walWrites_congr (h walName (tmpPath_ne_walName id).symm)]
    exact hs.log
  names := by
    intro name i hname hi
    refine hs.names name i ?_ hi
    rwa [← h name fun heq => by rw [heq, parseSstId_tmpPath] at hi; exact absurd hi (by simp)]
  table := fun i rs hi => by
    rw [h _ (sstPath_ne_tmpPath i id)]
    exact hs.table i rs hi
  noTable := fun i hlt hi => by
    rw [h _ (sstPath_ne_tmpPath i id)]
    exact hs.noTable i hlt hi
  storable := hs.storable
  sorted := hs.sorted
  id_lt := hs.id_lt

/-- A table was installed. -/
theorem Stores.install {dir dir' : Dir} {d : Disk Record} (hs : Stores mayTear dir d) {id : Nat}
    {rs : List Record} (h : Installed id rs dir dir') (hstore : SsTable.Storable rs)
    (hsorted : SortedByKey rs) (hid : id < 2 ^ 64) : Stores mayTear dir' (d.install id rs) where
  log := by
    rw [walWrites_congr (h.other walName (tmpPath_ne_walName id).symm (sstPath_ne_walName id).symm)]
    exact hs.log
  names := by
    intro name i hname hi
    by_cases hn : name = sstPath id
    · subst hn
      rw [parseSstId_sstPath hid] at hi
      exact Option.some.inj hi ▸ rfl
    · refine hs.names name i ?_ hi
      rwa [← h.other name
        (fun heq => by rw [heq, parseSstId_tmpPath] at hi; exact absurd hi (by simp)) hn]
  table := by
    intro i xs hi
    by_cases hii : i = id
    · subst hii
      rw [Disk.install_files_self] at hi
      exact Option.some.inj hi ▸ h.table
    · rw [d.install_files_ne hii] at hi
      rw [h.other _ (sstPath_ne_tmpPath i id) fun heq => hii (sstPath_inj.mp heq)]
      exact hs.table i xs hi
  noTable := by
    intro i hlt hi
    have hii : i ≠ id := by
      intro heq
      subst heq
      rw [Disk.install_files_self] at hi
      exact absurd hi (by simp)
    rw [d.install_files_ne hii] at hi
    rw [h.other _ (sstPath_ne_tmpPath i id) fun heq => hii (sstPath_inj.mp heq)]
    exact hs.noTable i hlt hi
  storable := by
    intro i xs hi
    by_cases hii : i = id
    · subst hii
      rw [Disk.install_files_self] at hi
      exact Option.some.inj hi ▸ hstore
    · rw [d.install_files_ne hii] at hi
      exact hs.storable i xs hi
  sorted := by
    intro i xs hi
    by_cases hii : i = id
    · subst hii
      rw [Disk.install_files_self] at hi
      exact Option.some.inj hi ▸ hsorted
    · rw [d.install_files_ne hii] at hi
      exact hs.sorted i xs hi
  id_lt := by
    intro i hi
    by_cases hii : i = id
    · exact hii ▸ hid
    · rw [d.install_files_ne hii] at hi
      exact hs.id_lt i hi

/-- Only the log changed. -/
theorem Stores.withLog {dir dir' : Dir} {d : Disk Record} (hs : Stores mayTear dir d)
    (h : ∀ name ≠ walName, dir'.lookup name = dir.lookup name) {log : List Record}
    (hlog : LogChunks mayTear (walWrites dir') log) :
    Stores mayTear dir' { d with log := log } where
  log := hlog
  names := by
    intro name i hname hi
    refine hs.names name i ?_ hi
    rwa [← h name fun heq => by rw [heq, parseSstId_walName] at hi; exact absurd hi (by simp)]
  table := fun i rs hi => by
    rw [h _ (sstPath_ne_walName i)]
    exact hs.table i rs hi
  noTable := fun i hlt hi => by
    rw [h _ (sstPath_ne_walName i)]
    exact hs.noTable i hlt hi
  storable := hs.storable
  sorted := hs.sorted
  id_lt := hs.id_lt

/-- A table was removed. -/
theorem Stores.remove {dir : Dir} {d : Disk Record} (hs : Stores mayTear dir d) (id : Nat) :
    Stores mayTear (dir.erase (sstPath id)) (d.removeAll [id]) := by
  have hother : ∀ name ≠ sstPath id, (dir.erase (sstPath id)).lookup name = dir.lookup name :=
    fun name hname => AList.lookup_erase_ne hname
  have hfiles : ∀ i rs, (d.removeAll [id]).files i = some rs → i ≠ id ∧ d.files i = some rs := by
    intro i rs hi
    rw [Disk.removeAll_files] at hi
    split at hi
    · exact absurd hi (by simp)
    · rename_i hne
      exact ⟨by simpa using hne, hi⟩
  refine
    { log := ?_
      names := ?_
      table := ?_
      noTable := ?_
      storable := fun i rs hi => hs.storable i rs (hfiles i rs hi).2
      sorted := fun i rs hi => hs.sorted i rs (hfiles i rs hi).2
      id_lt := ?_ }
  · rw [walWrites_congr (hother walName (sstPath_ne_walName id).symm)]
    exact hs.log
  · intro name i hname hi
    by_cases hn : name = sstPath id
    · subst hn
      rw [AList.lookup_erase] at hname
      exact absurd hname (by simp)
    · exact hs.names name i (by rwa [hother name hn] at hname) hi
  · intro i rs hi
    obtain ⟨hne, hi⟩ := hfiles i rs hi
    rw [hother _ fun heq => hne (sstPath_inj.mp heq)]
    exact hs.table i rs hi
  · intro i hlt hi
    by_cases hii : i = id
    · rw [hii, AList.lookup_erase]
    · rw [Disk.removeAll_files, if_neg (by simpa using hii)] at hi
      rw [hother _ fun heq => hii (sstPath_inj.mp heq)]
      exact hs.noTable i hlt hi
  · intro i hi
    obtain ⟨rs, hrs⟩ := Option.isSome_iff_exists.mp hi
    exact hs.id_lt i (by rw [(hfiles i rs hrs).2]; rfl)

/-! ## Log calls -/

/-- The log after a write to it. -/
theorem walWrites_append {dir : Dir} (hwal : (dir.lookup walName).isSome) {data : Bytes}
    (hdata : data ≠ []) : walWrites (Dir.append dir walName data) = walWrites dir ++ [data] := by
  obtain ⟨f, hf⟩ := Option.isSome_iff_exists.mp hwal
  simp [walWrites, Dir.lookup_append_self hf hdata, hf]

theorem wal_append_isSome {dir : Dir} (hwal : (dir.lookup walName).isSome) (data : Bytes) :
    ((Dir.append dir walName data).lookup walName).isSome := by
  obtain ⟨f, hf⟩ := Option.isSome_iff_exists.mp hwal
  by_cases hdata : data = []
  · simpa [Dir.append, hdata] using hwal
  · rw [Dir.lookup_append_self hf hdata]
    rfl

theorem frame_ne_nil (r : Record) : frame r ≠ [] := by
  intro h
  have hlen := Wal.frame_length r
  rw [h, List.length_nil] at hlen
  omega

/-- An append may be cut short under this plan. -/
def Tearing (plan : Plan Site) : Prop := ∃ e : Stop Error, BlamedOn plan .walAppend e

/-- A whole frame was appended. -/
theorem Stores.append {dir : Dir} {d : Disk Record} (hs : Stores mayTear dir d)
    (hwal : (dir.lookup walName).isSome) {r : Record} (hr : r.Fits) :
    Stores mayTear (Dir.append dir walName (frame r)) (d.append r) :=
  hs.withLog (fun _ hname => Dir.lookup_append_ne dir hname _) (by
    rw [walWrites_append hwal (frame_ne_nil r)]
    exact hs.log.whole hr)

/-- An append was cut short: its record is in the log, the whole frame having been written, or
it is not. -/
theorem Stores.appendPart {dir : Dir} {d : Disk Record} (hs : Stores mayTear dir d)
    (ht : mayTear) (hwal : (dir.lookup walName).isSome) {r : Record} (hr : r.Fits) (n : Nat) :
    Stores mayTear (Dir.append dir walName ((frame r).take n)) d ∨
      (frame r).length ≤ n ∧
        Stores mayTear (Dir.append dir walName ((frame r).take n)) (d.append r) := by
  by_cases hn : (frame r).length ≤ n
  · rw [List.take_of_length_le hn]
    exact .inr ⟨hn, hs.append hwal hr⟩
  · refine .inl ?_
    by_cases h0 : (frame r).take n = []
    · rw [h0]
      simpa [Dir.append] using hs
    · refine hs.withLog (fun _ hname => Dir.lookup_append_ne dir hname _) ?_
      rw [walWrites_append hwal h0]
      exact hs.log.torn hr (by omega) ht

theorem walWrites_truncate (dir : Dir) : walWrites (Dir.truncate dir walName) = [] := by
  unfold walWrites
  cases h : dir.lookup walName with
  | none => simp [Dir.truncate, h]
  | some f => rw [Dir.lookup_truncate_self h, Option.map_some, Option.getD_some]

theorem walWrites_touch (dir : Dir) : walWrites (Dir.touch dir walName) = walWrites dir := by
  rw [walWrites, Dir.lookup_touch_self, walWrites]
  cases dir.lookup walName <;> rfl

/-- The log was emptied. -/
theorem Stores.truncate {dir : Dir} {d : Disk Record} (hs : Stores mayTear dir d) :
    Stores mayTear (Dir.truncate dir walName) d.truncate :=
  hs.withLog (fun _ hname => Dir.lookup_truncate_ne dir hname) (by
    rw [walWrites_truncate]
    exact LogChunks.nil)

/-- Opening the log for appending changes nothing it stands for. -/
theorem Stores.touch {dir : Dir} {d : Disk Record} (hs : Stores mayTear dir d) :
    Stores mayTear (Dir.touch dir walName) d :=
  hs.withLog (fun _ hname => Dir.lookup_touch_ne dir hname) (by
    rw [walWrites_touch]
    exact hs.log)

theorem wal_touch_isSome (dir : Dir) : ((Dir.touch dir walName).lookup walName).isSome := by
  rw [Dir.lookup_touch_self]
  rfl

end RustFundamentals.Lsmkv
