import RustFundamentals.Foundation.LsmViews
import RustFundamentals.Lsmkv.Db

/-!
# lsmkv: the store as a log-structured store

The directory stands for an abstract disk (`Stores`), a `Db` for an abstract process
(`Running`). The log is a list of writes, each a whole frame or, where an append was cut
short, a proper prefix of one (`LogChunks`); what it stands for is the records of its whole
frames. Replay returns exactly those as long as nothing follows an incomplete frame
(`replayBytes_of_clean`).
-/

namespace RustFundamentals.Lsmkv

open Foundation Foundation.Fs Foundation.Lsm

instance : Versioned Record Bytes Bytes := ⟨Record.key, Record.seq, fun r => r.value.toOption⟩

@[simp] theorem versioned_key (r : Record) : Versioned.key r = r.key := rfl
@[simp] theorem versioned_seq (r : Record) : Versioned.seq r = r.seq := rfl
@[simp] theorem versioned_value (r : Record) : Versioned.value r = r.value.toOption := rfl

theorem toOption_eq_none {v : ValueKind} : v.toOption = none ↔ v = .delete := by
  cases v <;> simp [ValueKind.toOption]

/-! ## The log -/

/-- The writes made to `wal.log` since it was last empty. -/
def walWrites (dir : Dir) : List Bytes := ((dir.lookup walName).map File.writes).getD []

/-- A complete frame of a record that fits its format. -/
def IsFrame (write : Bytes) : Prop := ∃ r : Record, r.Fits ∧ write = frame r

/-- `wal.log` holds only whole frames. -/
def WholeLog (dir : Dir) : Prop := ∀ write ∈ walWrites dir, IsFrame write

/-- Nothing in `wal.log` follows an incomplete frame. -/
def CleanLog (dir : Dir) : Prop := ∀ write ∈ (walWrites dir).dropLast, IsFrame write

/-- Whether a write is a frame shows when its payload is decoded. -/
theorem isFrame_iff {write : Bytes} :
    IsFrame write ↔ ∃ r ∈ (Record.decode (write.drop 8)).map Prod.fst,
      r.Fits ∧ write = frame r := by
  constructor
  · intro hfound
    obtain ⟨r, hr, rfl⟩ := hfound
    have hdrop : (frame r).drop 8 = r.encode := by
      rw [frame]
      exact List.drop_left' (by simp)
    exact ⟨r, by simp [hdrop, Record.decode_encode hr], hr, rfl⟩
  · intro hfound
    obtain ⟨r, _, hr, rfl⟩ := hfound
    exact ⟨r, hr, rfl⟩

instance (r : Record) : Decidable r.Fits :=
  decidable_of_iff (r.seq < 2 ^ 64 ∧ r.encode.length < 2 ^ 32)
    ⟨fun h => ⟨h.1, h.2⟩, fun h => ⟨h.seq_lt, h.length_lt⟩⟩

instance (write : Bytes) : Decidable (IsFrame write) := decidable_of_iff _ isFrame_iff.symm

instance (dir : Dir) : Decidable (WholeLog dir) :=
  inferInstanceAs (Decidable (∀ write ∈ walWrites dir, IsFrame write))

instance (dir : Dir) : Decidable (CleanLog dir) :=
  inferInstanceAs (Decidable (∀ write ∈ (walWrites dir).dropLast, IsFrame write))

/-- A log is a sequence of frames, some cut short if that `mayTear`; it stands for the
records of the whole ones. -/
inductive LogChunks (mayTear : Prop) : List Bytes → List Record → Prop
  | nil : LogChunks mayTear [] []
  | whole {ws rs r} (h : LogChunks mayTear ws rs) (hr : r.Fits) :
      LogChunks mayTear (ws ++ [frame r]) (rs ++ [r])
  | torn {ws rs r n} (h : LogChunks mayTear ws rs) (hr : r.Fits) (hn : n < (frame r).length)
      (ht : mayTear) : LogChunks mayTear (ws ++ [(frame r).take n]) rs

theorem WholeLog.clean {dir : Dir} (h : WholeLog dir) : CleanLog dir :=
  fun write hw => h write (List.dropLast_subset _ hw)

/-- A proper prefix of a frame is not a frame: replay tells them apart. -/
theorem not_isFrame_torn {r : Record} (hr : r.Fits) {n : Nat} (hn : n < (frame r).length) :
    ¬ IsFrame ((frame r).take n) := by
  intro hfound
  obtain ⟨r', hr', heq⟩ := hfound
  have htorn := Wal.replayBytes_torn hr hn
  have hwhole := Wal.replayBytes_frame_append hr' []
  rw [List.append_nil, Wal.replayBytes_nil] at hwhole
  rw [heq, hwhole] at htorn
  exact absurd htorn (by simp)

section LogChunks

variable {mayTear : Prop} {ws : List Bytes} {rs : List Record}

theorem LogChunks.fits (h : LogChunks mayTear ws rs) :
    ∀ r ∈ rs, r.Fits := by
  induction h with
  | nil => simp
  | whole _ hr ih =>
    intro x hx
    rcases List.mem_append.mp hx with hx | hx
    · exact ih x hx
    · exact List.mem_singleton.mp hx ▸ hr
  | torn _ _ _ _ ih => exact ih

/-- Where every write is a whole frame, the log is its records' frames. -/
theorem LogChunks.eq_frames (h : LogChunks mayTear ws rs)
    (hw : ∀ w ∈ ws, IsFrame w) : ws = rs.map frame := by
  induction h with
  | nil => rfl
  | whole _ _ ih =>
    rw [List.map_append, ← ih fun w hw' => hw w (List.mem_append_left _ hw')]
    rfl
  | torn _ hr hn _ _ =>
    exact absurd (hw _ (List.mem_append_right _ (List.mem_singleton_self _)))
      (not_isFrame_torn hr hn)

/-- **Replay recovers every whole frame** of a log in which nothing follows an incomplete
one. -/
theorem LogChunks.replayBytes (h : LogChunks mayTear ws rs)
    (hw : ∀ w ∈ ws.dropLast, IsFrame w) : Wal.replayBytes ws.flatten = rs := by
  have hfits := h.fits
  cases h with
  | nil => rfl
  | @whole ws rs r h hr =>
    rw [List.dropLast_concat] at hw
    have hall := LogChunks.eq_frames (LogChunks.whole h hr) fun w hw' => by
      rcases List.mem_append.mp hw' with hw' | hw'
      · exact hw w hw'
      · exact ⟨r, hr, List.mem_singleton.mp hw'⟩
    have hrep := Wal.replayBytes_frames_append hfits []
    rw [List.append_nil, Wal.replayBytes_nil, List.append_nil] at hrep
    rw [hall, hrep]
  | torn h hr hn _ =>
    rw [List.dropLast_concat] at hw
    rw [h.eq_frames hw, List.flatten_append, Wal.replayBytes_frames_append hfits]
    simp only [List.flatten_cons, List.flatten_nil, List.append_nil]
    rw [Wal.replayBytes_torn hr hn, List.append_nil]

/-- Where no frame may be cut short, none is. -/
theorem LogChunks.isFrame (h : LogChunks mayTear ws rs) (ht : ¬ mayTear) :
    ∀ w ∈ ws, IsFrame w := by
  induction h with
  | nil => simp
  | whole _ hr ih =>
    intro w hw
    rcases List.mem_append.mp hw with hw | hw
    · exact ih w hw
    · exact ⟨_, hr, List.mem_singleton.mp hw⟩
  | torn _ _ _ hmay _ => exact absurd hmay ht

/-- Where every write is a whole frame, none is cut short. -/
theorem LogChunks.whole_only (h : LogChunks mayTear ws rs) (hw : ∀ w ∈ ws, IsFrame w) :
    LogChunks False ws rs := by
  induction h with
  | nil => exact .nil
  | whole _ hr ih => exact (ih fun w hw' => hw w (List.mem_append_left _ hw')).whole hr
  | torn _ hr hn _ _ =>
    exact absurd (hw _ (List.mem_append_right _ (List.mem_singleton_self _)))
      (not_isFrame_torn hr hn)

theorem LogChunks.mono {mayTear' : Prop} (h : LogChunks mayTear ws rs)
    (himp : mayTear → mayTear') : LogChunks mayTear' ws rs := by
  induction h with
  | nil => exact .nil
  | whole _ hr ih => exact ih.whole hr
  | torn _ hr hn ht ih => exact ih.torn hr hn (himp ht)

end LogChunks

/-! ## The directory and the process -/

/-- The directory stands for the abstract disk `d`; its log holds incomplete frames only if
it `mayTear`. -/
structure Stores (mayTear : Prop) (dir : Dir) (d : Disk Record) : Prop where
  log : LogChunks mayTear (walWrites dir) d.log
  names : ∀ name id, (dir.lookup name).isSome → parseSstId name = some id → name = sstPath id
  table : ∀ id rs, d.files id = some rs → ∃ f, dir.lookup (sstPath id) = some f ∧
    f.bytes = image rs
  noTable : ∀ id < 2 ^ 64, d.files id = none → dir.lookup (sstPath id) = none
  storable : ∀ id rs, d.files id = some rs → SsTable.Storable rs
  sorted : ∀ id rs, d.files id = some rs → SortedByKey rs
  id_lt : ∀ id, (d.files id).isSome → id < 2 ^ 64

theorem Stores.mono {mayTear mayTear' : Prop} {dir : Dir} {d : Disk Record}
    (hs : Stores mayTear dir d) (himp : mayTear → mayTear') : Stores mayTear' dir d :=
  { hs with log := hs.log.mono himp }

/-- A log that was never torn is whole. -/
theorem Stores.wholeLog {mayTear : Prop} {dir : Dir} {d : Disk Record}
    (hs : Stores mayTear dir d) (ht : ¬ mayTear) : WholeLog dir := hs.log.isFrame ht

theorem Stores.whole {mayTear : Prop} {dir : Dir} {d : Disk Record} (hs : Stores mayTear dir d)
    (hw : WholeLog dir) : Stores False dir d :=
  { hs with log := hs.log.whole_only hw }

/-- The handle on table `id` of the disk. -/
def handle (d : Disk Record) (id : Nat) : SsTable :=
  SsTable.ofRecords id ((d.files id).getD [])

/-- The `Db` stands for the abstract process `p` on `d`. -/
structure Running (db : Db) (dir : Dir) (d : Disk Record) (p : Proc Record Bytes) : Prop where
  mem : ∀ k, db.mem.get k = p.mem k
  keyed : Keyed db.mem.map
  tables : db.sstables = p.ids.map (handle d)
  seq : db.seq = p.seq
  next : db.nextSstId = p.next
  wal : (dir.lookup walName).isSome
  seq_lt : p.seq < 2 ^ 64
  next_lt : p.next < 2 ^ 64

end RustFundamentals.Lsmkv
