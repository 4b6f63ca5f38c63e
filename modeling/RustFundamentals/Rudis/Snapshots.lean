import RustFundamentals.Rudis.Keyspace

/-!
# rudis: snapshot files

A file is loaded exactly when it is complete: `MAGIC`, and whole records behind it
(`load_complete`, `load_incomplete`). Its records are then loaded in order.
-/

namespace RustFundamentals.Rudis

open Foundation Foundation.Fs

namespace Persistence

/-! ## Records -/

/-- The fields of a record fit their width. -/
structure Fits (r : Store.Saved) : Prop where
  key : r.1.length < 2 ^ 32
  value : r.2.1.length < 2 ^ 32
  expiresAt : r.2.2 < 2 ^ 64

/-- A file of whole records. -/
def Complete (file : Bytes) : Prop := ∃ rs, (∀ r ∈ rs, Fits r) ∧ file = snapshot rs

/-- The reads of one record, at `off`. -/
def readRecord (bytes : Bytes) (off : Nat) : Option (Store.Saved × Nat) := do
  let (keyLen, off) ← getU32 bytes off
  let (key, off) ← getBytes bytes off keyLen
  let (valLen, off) ← getU32 bytes off
  let (value, off) ← getBytes bytes off valLen
  let (expiresAt, off) ← getU64 bytes off
  return ((key, value, expiresAt), off)

section Fields

variable {bytes rest : Bytes} {off stop n width len : Nat}

/-- A bounds-checked read returns what is at its offset. -/
theorem drop_of_getBytes {out : Bytes} (h : getBytes bytes off len = some (out, stop)) :
    out.length = len ∧ bytes.drop off = out ++ bytes.drop stop := by
  obtain ⟨end', hadd, h⟩ := Option.bind_eq_some_iff.mp h
  obtain ⟨slice, hslice, h⟩ := Option.bind_eq_some_iff.mp h
  obtain ⟨rfl, rfl⟩ := Prod.mk.inj (Option.some.inj h)
  obtain ⟨rfl, -⟩ := checkedAdd_eq_some.mp hadd
  obtain ⟨hlen, hdrop⟩ := drop_of_slice? hslice
  exact ⟨by omega, hdrop⟩

/-- An integer is read from the bytes it takes. -/
theorem getUint_eq_map (width : Nat) (bytes : Bytes) (off : Nat) :
    getUint width bytes off = (getBytes bytes off width).map (Prod.map ofLe id) := by
  unfold getUint getBytes
  cases checkedAdd off width with
  | none => rfl
  | some stop =>
    simp only [Option.bind_eq_bind, Option.bind_some]
    cases slice? bytes off stop <;> rfl

theorem drop_of_getUint (h : getUint width bytes off = some (n, stop)) :
    n < 256 ^ width ∧ bytes.drop off = leBytes width n ++ bytes.drop stop := by
  rw [getUint_eq_map] at h
  obtain ⟨⟨slice, stop'⟩, hslice, heq⟩ := Option.map_eq_some_iff.mp h
  obtain ⟨rfl, rfl⟩ := Prod.mk.inj heq
  obtain ⟨rfl, hdrop⟩ := drop_of_getBytes hslice
  exact ⟨ofLe_lt slice, by rw [leBytes_ofLe]; exact hdrop⟩

variable (hin : bytes.length < 2 ^ 64)

include hin

/-- The slice of a piece that is there. -/
theorem slice?_of_drop {piece : Bytes} (h : bytes.drop off = piece ++ rest)
    (hoff : off ≤ bytes.length) :
    checkedAdd off piece.length = some (off + piece.length) ∧
      slice? bytes off (off + piece.length) = some piece ∧
      bytes.drop (off + piece.length) = rest ∧ off + piece.length ≤ bytes.length := by
  have hlen := congrArg List.length h
  rw [List.length_drop, List.length_append] at hlen
  refine ⟨checkedAdd_eq_some.mpr ⟨rfl, by omega⟩, ?_, drop_behind h, by omega⟩
  have hbytes : bytes = bytes.take off ++ piece ++ rest := by
    rw [List.append_assoc, ← h, List.take_append_drop]
  have htake : off = (bytes.take off).length := by rw [List.length_take]; omega
  exact slice?_append_of_eq (bytes.take off) rest hbytes htake (by rw [← htake])

theorem getBytes_of_drop {out : Bytes} (h : bytes.drop off = out ++ rest)
    (hoff : off ≤ bytes.length) :
    getBytes bytes off out.length = some (out, off + out.length) ∧
      bytes.drop (off + out.length) = rest ∧ off + out.length ≤ bytes.length := by
  obtain ⟨hadd, hslice, hdrop, hle⟩ := slice?_of_drop hin h hoff
  refine ⟨?_, hdrop, hle⟩
  simp only [getBytes, hadd, hslice, Option.bind_eq_bind, Option.bind_some]
  rfl

theorem getUint_of_drop (hn : n < 256 ^ width) (h : bytes.drop off = leBytes width n ++ rest)
    (hoff : off ≤ bytes.length) :
    getUint width bytes off = some (n, off + width) ∧ bytes.drop (off + width) = rest ∧
      off + width ≤ bytes.length := by
  obtain ⟨hslice, hdrop, hle⟩ := getBytes_of_drop hin h hoff
  rw [leBytes_length] at hslice hdrop hle
  refine ⟨?_, hdrop, hle⟩
  rw [getUint_eq_map, hslice, Option.map_some, Prod.map_apply, ofLe_leBytes_of_lt hn, id]

end Fields

theorem record_length (r : Store.Saved) : (record r).length = r.1.length + r.2.1.length + 16 := by
  obtain ⟨key, value, expiresAt⟩ := r
  simp only [record, List.length_append, leBytes_length]
  omega

/-- The five reads of a record that is read. -/
theorem readRecord_reads {bytes : Bytes} {off stop : Nat} {r : Store.Saved}
    (h : readRecord bytes off = some (r, stop)) :
    ∃ keyLen off₁ off₂ valLen off₃ off₄,
      getU32 bytes off = some (keyLen, off₁) ∧ getBytes bytes off₁ keyLen = some (r.1, off₂) ∧
      getU32 bytes off₂ = some (valLen, off₃) ∧ getBytes bytes off₃ valLen = some (r.2.1, off₄) ∧
      getU64 bytes off₄ = some (r.2.2, stop) := by
  obtain ⟨⟨keyLen, off₁⟩, hkeyLen, h⟩ := Option.bind_eq_some_iff.mp h
  obtain ⟨⟨key, off₂⟩, hkey, h⟩ := Option.bind_eq_some_iff.mp h
  obtain ⟨⟨valLen, off₃⟩, hvalLen, h⟩ := Option.bind_eq_some_iff.mp h
  obtain ⟨⟨value, off₄⟩, hvalue, h⟩ := Option.bind_eq_some_iff.mp h
  obtain ⟨⟨expiresAt, off₅⟩, hexpiresAt, h⟩ := Option.bind_eq_some_iff.mp h
  obtain ⟨rfl, rfl⟩ := Prod.mk.inj (Option.some.inj h)
  exact ⟨keyLen, off₁, off₂, valLen, off₃, off₄, hkeyLen, hkey, hvalLen, hvalue, hexpiresAt⟩

/-- **A record that is read** is there. -/
theorem readRecord_sound {bytes : Bytes} {off stop : Nat} {r : Store.Saved}
    (h : readRecord bytes off = some (r, stop)) :
    Fits r ∧ bytes.drop off = record r ++ bytes.drop stop := by
  obtain ⟨key, value, expiresAt⟩ := r
  obtain ⟨_, _, _, _, _, _, hkeyLen, hkey, hvalLen, hvalue, hexpiresAt⟩ := readRecord_reads h
  obtain ⟨hkeyFits, hdrop₁⟩ := drop_of_getUint hkeyLen
  obtain ⟨rfl, hdrop₂⟩ := drop_of_getBytes hkey
  obtain ⟨hvalueFits, hdrop₃⟩ := drop_of_getUint hvalLen
  obtain ⟨rfl, hdrop₄⟩ := drop_of_getBytes hvalue
  obtain ⟨hexpiresFits, hdrop₅⟩ := drop_of_getUint hexpiresAt
  refine ⟨⟨hkeyFits, hvalueFits, hexpiresFits⟩, ?_⟩
  simp only [record, hdrop₁, hdrop₂, hdrop₃, hdrop₄, hdrop₅, List.append_assoc]

/-- **A record that is there** is read. -/
theorem readRecord_record {bytes rest : Bytes} {off : Nat} {r : Store.Saved}
    (hin : bytes.length < 2 ^ 64) (hr : Fits r) (h : bytes.drop off = record r ++ rest)
    (hoff : off ≤ bytes.length) :
    readRecord bytes off = some (r, off + (record r).length) ∧
      bytes.drop (off + (record r).length) = rest ∧ off + (record r).length ≤ bytes.length := by
  obtain ⟨key, value, expiresAt⟩ := r
  simp only [record, List.append_assoc] at h
  obtain ⟨hkeyLen, hdrop₁, hle₁⟩ := getUint_of_drop hin hr.key h hoff
  obtain ⟨hkey, hdrop₂, hle₂⟩ := getBytes_of_drop hin hdrop₁ hle₁
  obtain ⟨hvalLen, hdrop₃, hle₃⟩ := getUint_of_drop hin hr.value hdrop₂ hle₂
  obtain ⟨hvalue, hdrop₄, hle₄⟩ := getBytes_of_drop hin hdrop₃ hle₃
  obtain ⟨hexpiresAt, hdrop₅, hle₅⟩ := getUint_of_drop hin hr.expiresAt hdrop₄ hle₄
  have hlen : (record (key, value, expiresAt)).length = key.length + value.length + 16 :=
    record_length _
  have hstop : off + 4 + key.length + 4 + value.length + 8 =
      off + (record (key, value, expiresAt)).length := by omega
  rw [hstop] at hexpiresAt hdrop₅ hle₅
  refine ⟨?_, hdrop₅, hle₅⟩
  simp only [readRecord, getU32, getU64, hkeyLen, hkey, hvalLen, hvalue, hexpiresAt,
    Option.bind_eq_bind, Option.bind_some]
  rfl

/-! ## Loading records -/

/-- An entry read from a file has been loaded, or passed over. -/
def loaded (core : Core) (r : Store.Saved) : Core :=
  if r.2.2 = 0 then { core with store := core.store.set r.1 r.2.1 none }
  else
    { core with
      clock := fun i => core.clock (i + 1)
      store :=
        if r.2.2 ≤ core.clock 0 then core.store else core.store.set r.1 r.2.1 (some r.2.2) }

/-- The entries of a file, one after the other. -/
def loadEntries {ε : Type} : List Store.Saved → Io Core ε Unit
  | [] => pure ()
  | r :: rs => do
    loadEntry r.1 r.2.1 r.2.2
    loadEntries rs

theorem loadEntry_run {ε : Type} (r : Store.Saved) (core : Core) :
    (loadEntry r.1 r.2.1 r.2.2 : Io Core ε Unit).run core = (.ok (), loaded core r) := by
  unfold loadEntry loaded
  split
  · rfl
  · rw [run_bind]
    show (if r.2.2 ≤ core.clock 0 then _ else _ : Io Core ε Unit).run
      { core with clock := fun i => core.clock (i + 1) } = _
    split <;> rfl

theorem loadEntries_run {ε : Type} (rs : List Store.Saved) (core : Core) :
    (loadEntries rs : Io Core ε Unit).run core = (.ok (), rs.foldl loaded core) := by
  induction rs generalizing core with
  | nil => rfl
  | cons r rs ih =>
    rw [loadEntries, run_bind, loadEntry_run]
    exact ih (loaded core r)

/-- How a file ends that has `tail` behind its last whole record. -/
def ending (tail : Bytes) : Except (Stop Error) Unit :=
  if tail = [] then .ok () else .error (.err truncated)

section Loop

variable {bytes : Bytes} {fuel off stop : Nat} {core : Core}

theorem loadLoop_some {r : Store.Saved} (hlt : off < bytes.length)
    (h : readRecord bytes off = some (r, stop)) :
    (loadLoop bytes (fuel + 1) off).run core = (loadLoop bytes fuel stop).run (loaded core r) := by
  obtain ⟨_, _, _, _, _, _, hkeyLen, hkey, hvalLen, hvalue, hexpiresAt⟩ := readRecord_reads h
  have hentry := loadEntry_run (ε := Error) r core
  simp only [loadLoop, if_pos hlt, hkeyLen, hkey, hvalLen, hvalue, hexpiresAt, orTruncated,
    pure_bind, run_bind, hentry]

theorem loadLoop_none (hlt : off < bytes.length) (h : readRecord bytes off = none) :
    (loadLoop bytes (fuel + 1) off).run core =
      (.error (.err truncated), core) := by
  unfold readRecord at h
  simp only [loadLoop, if_pos hlt]
  cases hkeyLen : getU32 bytes off with
  | none => rfl
  | some x₁ =>
    simp only [hkeyLen, Option.bind_eq_bind, Option.bind_some, orTruncated, pure_bind] at h ⊢
    cases hkey : getBytes bytes x₁.2 x₁.1 with
    | none => rfl
    | some x₂ =>
      simp only [hkey, Option.bind_some, pure_bind] at h ⊢
      cases hvalLen : getU32 bytes x₂.2 with
      | none => rfl
      | some x₃ =>
        simp only [hvalLen, Option.bind_some, pure_bind] at h ⊢
        cases hvalue : getBytes bytes x₃.2 x₃.1 with
        | none => rfl
        | some x₄ =>
          simp only [hvalue, Option.bind_some, pure_bind] at h ⊢
          cases hexpiresAt : getU64 bytes x₄.2 with
          | none => rfl
          | some x₅ =>
            simp only [hexpiresAt, Option.bind_some] at h
            cases h

/-- **The loop** loads the records in front of something that is none. -/
theorem loadLoop_records (hin : bytes.length < 2 ^ 64) {rs : List Store.Saved} {tail : Bytes}
    (hrs : ∀ r ∈ rs, Fits r) (htail : ∀ r rest, Fits r → tail ≠ record r ++ rest)
    (h : bytes.drop off = (rs.map record).flatten ++ tail) (hoff : off ≤ bytes.length)
    (hfuel : bytes.length - off < fuel) :
    (loadLoop bytes fuel off).run core = (ending tail, rs.foldl loaded core) := by
  induction rs generalizing off fuel core with
  | nil =>
    have hlen := congrArg List.length h
    rw [List.length_drop] at hlen
    obtain ⟨fuel, rfl⟩ : ∃ n, fuel = n + 1 := ⟨fuel - 1, by omega⟩
    unfold ending
    by_cases hnil : tail = []
    · subst hnil
      have hend : ¬ off < bytes.length := by
        rw [List.map_nil, List.flatten_nil, List.append_nil, List.length_nil] at hlen
        omega
      rw [if_pos rfl, loadLoop, if_neg hend]
      rfl
    · have hlt : off < bytes.length := by
        have := List.length_pos_iff.mpr hnil
        rw [List.map_nil, List.flatten_nil, List.nil_append] at hlen
        omega
      rw [if_neg hnil, loadLoop_none hlt]
      · rfl
      · cases hread : readRecord bytes off with
        | none => rfl
        | some x =>
          obtain ⟨r, stop⟩ := x
          obtain ⟨hr, hdrop⟩ := readRecord_sound hread
          exact absurd (h.symm.trans hdrop) (htail r _ hr)
  | cons r rs ih =>
    rw [List.map_cons, List.flatten_cons, List.append_assoc] at h
    obtain ⟨hread, hdrop, hle⟩ := readRecord_record hin (hrs r List.mem_cons_self) h hoff
    have hlen := record_length r
    obtain ⟨fuel, rfl⟩ : ∃ n, fuel = n + 1 := ⟨fuel - 1, by omega⟩
    rw [loadLoop_some (by omega) hread]
    exact ih (fun x hx => hrs x (List.mem_cons_of_mem _ hx)) hdrop hle (by omega)

end Loop

/-- Any bytes are records, and something that is none. -/
theorem exists_records (b : Bytes) :
    ∃ (rs : List Store.Saved) (tail : Bytes), (∀ r ∈ rs, Fits r) ∧
    (∀ r rest, Fits r → tail ≠ record r ++ rest) ∧ b = (rs.map record).flatten ++ tail := by
  induction hn : b.length using Nat.strong_induction_on generalizing b with
  | _ n ih =>
    by_cases h : ∃ r rest, Fits r ∧ b = record r ++ rest
    · obtain ⟨r, rest, hr, rfl⟩ := h
      have hlen := record_length r
      obtain ⟨rs, tail, hrs, htail, hrest⟩ := ih rest.length (by
        rw [← hn, List.length_append]
        omega) rest rfl
      refine ⟨r :: rs, tail, List.forall_mem_cons.mpr ⟨hr, hrs⟩, htail, ?_⟩
      rw [List.map_cons, List.flatten_cons, List.append_assoc, ← hrest]
    · refine ⟨[], b, (fun _ hr => by cases hr), fun r rest hr heq => h ⟨r, rest, hr, heq⟩, rfl⟩

/-! ## Loading a file -/

/-- The file has been opened and mapped. -/
def opened (core : Core) : Core := { core with fileCalls := fun i => core.fileCalls (i + 2) }

/-- The file `path` holds these bytes, and can be opened and mapped. -/
structure Opens (core : Core) (path : Path) (bytes : Bytes) : Prop where
  file : core.files path = some bytes
  length : bytes.length ≤ isizeMax
  opens : core.fileCalls 0 = .done
  maps : core.fileCalls 1 = .done

theorem fileCall_done {core : Core} {path : Path} {f : Option Bytes → Option Bytes}
    {g : Nat → Option Bytes → Option Bytes} (h : core.fileCalls 0 = .done) :
    (fileCall path f g).run core = (.ok (), { core with
      fileCalls := fun i => core.fileCalls (i + 1)
      files := Function.update core.files path (f (core.files path)) }) := by
  unfold fileCall
  simp only [run_get_bind, h]
  rfl

theorem fileCall_failed {core : Core} {path : Path} {f : Option Bytes → Option Bytes}
    {g : Nat → Option Bytes → Option Bytes} {stored : Nat} {text : Str}
    (h : core.fileCalls 0 = .failed stored text) :
    ∃ core', (fileCall path f g).run core = (.error (.err (.io text)), core') := by
  unfold fileCall
  simp only [run_get_bind, h]
  exact ⟨_, rfl⟩

theorem mapFile_opens {core : Core} {path : Path} {bytes : Bytes} (h : Opens core path bytes) :
    (mapFile path).run core = (.ok bytes, opened core) := by
  have hcall : ∀ core : Core, core.fileCalls 0 = .done →
      (fileCall path id fun _ file => file).run core =
        (.ok (), { core with fileCalls := fun i => core.fileCalls (i + 1) }) := by
    intro core hdone
    rw [fileCall_done hdone, id, Function.update_eq_self]
  simp only [mapFile, run_get_bind, h.file]
  rw [run_bind, hcall core h.opens]
  show (fileCall path id (fun _ file => file) >>= _).run _ = _
  rw [run_bind, hcall _ h.maps]
  rfl

theorem magic_length : magic.length = 8 := rfl

theorem load_badmagic {core : Core} {path : Path} {bytes : Bytes} (h : Opens core path bytes)
    (hmagic : bytes.length < 8 ∨ bytes.take 8 ≠ magic) :
    (load path).run core = (.error (.err (.snapshot (Str.lit "badmagic"))), opened core) := by
  unfold load
  rw [run_bind, mapFile_opens h]
  simp only [if_pos hmagic]
  rfl

/-- Behind `MAGIC`, the loop decides. -/
theorem load_magic {core : Core} {path : Path} {rest : Bytes}
    (h : Opens core path (magic ++ rest)) :
    (load path).run core =
      (loadLoop (magic ++ rest) ((magic ++ rest).length + 1) 8).run (opened core) := by
  have hmagic : ¬ ((magic ++ rest).length < 8 ∨ (magic ++ rest).take 8 ≠ magic) := by
    have htake : (magic ++ rest).take 8 = magic := @List.take_left _ magic rest
    rw [not_or, not_not, List.length_append, magic_length]
    exact ⟨by omega, htake⟩
  unfold load
  rw [run_bind, mapFile_opens h]
  simp only [if_neg hmagic]

theorem load_records {core : Core} {path : Path} {rs : List Store.Saved} {tail : Bytes}
    (h : Opens core path (snapshot rs ++ tail)) (hrs : ∀ r ∈ rs, Fits r)
    (htail : ∀ r rest, Fits r → tail ≠ record r ++ rest) :
    (load path).run core = (ending tail, rs.foldl loaded (opened core)) := by
  rw [snapshot, List.append_assoc] at h
  have hin : (magic ++ ((rs.map record).flatten ++ tail)).length < 2 ^ 64 := by
    have := h.length
    unfold isizeMax at this
    omega
  have hlen : 8 ≤ (magic ++ ((rs.map record).flatten ++ tail)).length := by
    rw [List.length_append, magic_length]
    omega
  rw [load_magic h]
  exact loadLoop_records hin hrs htail (@List.drop_left _ magic _) hlen (by omega)

/-- **A complete file** is loaded, record after record. -/
theorem load_complete {core : Core} {path : Path} {rs : List Store.Saved}
    (h : Opens core path (snapshot rs)) (hrs : ∀ r ∈ rs, Fits r) :
    (load path).run core = (.ok (), ((loadEntries rs : Io Core Error Unit).run (opened core)).2) := by
  rw [← List.append_nil (snapshot rs)] at h
  rw [load_records h hrs, loadEntries_run, ending, if_pos rfl]
  intro r rest _ hnil
  have hlen := congrArg List.length hnil
  rw [List.length_append, record_length, List.length_nil] at hlen
  omega

/-- **Any other file** is refused. -/
theorem load_incomplete {core : Core} {path : Path} {bytes : Bytes} (h : Opens core path bytes)
    (hbytes : ¬ Complete bytes) :
    ∃ msg core', (load path).run core = (.error (.err (.snapshot msg)), core') := by
  by_cases hmagic : bytes.length < 8 ∨ bytes.take 8 ≠ magic
  · exact ⟨_, _, load_badmagic h hmagic⟩
  rw [not_or, not_not] at hmagic
  obtain ⟨rs, tail, hrs, htail, hdrop⟩ := exists_records (bytes.drop 8)
  have heq : bytes = snapshot rs ++ tail := by
    rw [snapshot, List.append_assoc, ← hdrop, ← hmagic.2, List.take_append_drop]
  subst heq
  have hne : tail ≠ [] := by
    intro hnil
    exact hbytes ⟨rs, hrs, by rw [hnil, List.append_nil]⟩
  exact ⟨_, _, by rw [load_records h hrs htail, ending, if_neg hne, truncated]⟩

/-- **A file is loaded exactly when it is complete.** -/
theorem load_ok_iff {core : Core} {path : Path} {bytes : Bytes} (h : Opens core path bytes) :
    (∃ core', (load path).run core = (.ok (), core')) ↔ Complete bytes := by
  refine ⟨?_, ?_⟩
  · rintro ⟨core', hrun⟩
    by_contra hbytes
    obtain ⟨msg, core'', hfail⟩ := load_incomplete h hbytes
    rw [hfail] at hrun
    cases hrun
  · rintro ⟨rs, hrs, heq⟩
    subst heq
    exact ⟨_, load_complete h hrs⟩

/-- A file that cannot be opened and mapped is an I/O error. -/
theorem mapFile_cases (core : Core) (path : Path) :
    (∃ text core', (mapFile path).run core = (.error (.err (.io text)), core')) ∨
      ∃ bytes, core.files path = some bytes ∧ core.fileCalls 0 = .done ∧
        core.fileCalls 1 = .done := by
  cases hfile : core.files path with
  | none =>
    refine .inl ⟨Str.lit "No such file or directory (os error 2)", core, ?_⟩
    simp only [mapFile, run_get_bind, hfile]
    rfl
  | some bytes =>
    cases h0 : core.fileCalls 0 with
    | failed stored text =>
      have hfailed : ∃ core', (fileCall path id fun _ file => file).run core =
          (.error (.err (.io text)), core') := fileCall_failed h0
      obtain ⟨core', hrun⟩ := hfailed
      refine .inl ⟨text, core', ?_⟩
      simp only [mapFile, run_get_bind, hfile]
      rw [run_bind, hrun]
    | done =>
      cases h1 : core.fileCalls 1 with
      | failed stored text =>
        have hopened : (fileCall path id fun _ file => file).run core = (.ok (), { core with
            fileCalls := fun i => core.fileCalls (i + 1)
            files := Function.update core.files path (id (core.files path)) }) :=
          fileCall_done h0
        have hfailed : ∃ core', (fileCall path id fun _ file => file).run { core with
            fileCalls := fun i => core.fileCalls (i + 1)
            files := Function.update core.files path (id (core.files path)) } =
              (.error (.err (.io text)), core') := fileCall_failed h1
        obtain ⟨core', hrun⟩ := hfailed
        refine .inl ⟨text, core', ?_⟩
        simp only [mapFile, run_get_bind, hfile]
        rw [run_bind, hopened]
        show (fileCall path id (fun _ file => file) >>= _).run _ = _
        rw [run_bind, hrun]
      | done => exact .inr ⟨bytes, rfl, rfl, rfl⟩

/-- **A load never panics**: it returns, whatever the file holds and the file calls do. -/
theorem load_answers (core : Core) (path : Path)
    (hlen : ∀ bytes, core.files path = some bytes → bytes.length ≤ isizeMax) :
    Answers ((load path).run core).1 := by
  rcases mapFile_cases core path with ⟨text, core', hrun⟩ | ⟨bytes, hfile, h0, h1⟩
  · exact .inr ⟨.io text, by rw [load, run_bind, hrun]⟩
  have hopens : Opens core path bytes := ⟨hfile, hlen bytes hfile, h0, h1⟩
  by_cases hbytes : Complete bytes
  · obtain ⟨core', hrun⟩ := (load_ok_iff hopens).mpr hbytes
    exact .inl ⟨(), by rw [hrun]⟩
  · obtain ⟨msg, core', hrun⟩ := load_incomplete hopens hbytes
    exact .inr ⟨_, by rw [hrun]⟩

end Persistence

end RustFundamentals.Rudis
