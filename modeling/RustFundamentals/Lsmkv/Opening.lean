import RustFundamentals.Lsmkv.Codec

/-!
# lsmkv: opening a table file

`open` as a function of the content of the file, with the memory it asks for (`openBytes`), and
the round trip: what `write` installs opens as a table that answers for exactly the records
written (`sstable_round_trip`).
-/

namespace RustFundamentals.Lsmkv

open Foundation Foundation.Fs

namespace SsTable

/-! ## `open`, on the bytes of a file -/

/-- The fields of a footer. -/
structure Footer where
  indexOffset : Nat
  indexLen : Nat
  count : Nat
  maxSeq : Nat
  magic : Nat

/-- The fields, as `open` reads them. -/
def Footer.ofBytes (footer : Bytes) : Footer where
  indexOffset := ofLe (footer.take 8)
  indexLen := ofLe ((footer.drop 8).take 8)
  count := ofLe ((footer.drop 16).take 8)
  maxSeq := ofLe ((footer.drop 24).take 8)
  magic := ofLe (footer.drop 32)

/-- The footer of a file that is long enough to have one. -/
def Footer.ofFile (file : Bytes) : Footer :=
  .ofBytes (file.drop (file.length - footerSize))

/-- `open` where every call goes through. The state lists the allocations whose size a field of
the footer decides, in bytes. -/
def openBytes (name : Name) (id : Nat) (file : Bytes) : Io (List Nat) Error SsTable := do
  let fileLen := file.length
  if fileLen < footerSize then throw (.err (.corrupt (.shortFile name fileLen)))
  let footer ← ofExcept (readExactAt file (fileLen - footerSize) footerSize)
  let f := Footer.ofBytes footer
  if f.magic ≠ sstMagic then throw (.err (.corrupt (.badMagic f.magic name)))
  modify (· ++ [f.indexLen])
  let indexBytes ← ofExcept (readExactAt file f.indexOffset f.indexLen)
  modify (· ++ [f.count * indexEntrySize])
  if isizeMax < f.count * indexEntrySize then throw .panicked
  let index ← orPanic (parseIndex indexBytes.length indexBytes)
  return { id, file, index, dataLen := f.indexOffset, maxSeq := f.maxSeq }

/-- The outcome of `openBytes`. -/
def opened (name : Name) (id : Nat) (file : Bytes) : Except (Stop Error) SsTable :=
  ((openBytes name id file).run []).1

/-- The allocations of `openBytes`. -/
def requests (name : Name) (id : Nat) (file : Bytes) : List Nat :=
  ((openBytes name id file).run []).2

theorem readFooter {file : Bytes} (h : footerSize ≤ file.length) :
    readExactAt file (file.length - footerSize) footerSize =
      .ok (file.drop (file.length - footerSize)) := by
  have hsmall : ¬ isizeMax < footerSize := by decide
  have hpos : footerSize ≠ 0 := by decide
  rw [readExactAt, if_neg hsmall, if_neg hpos, if_pos (by omega),
    List.take_of_length_le (by rw [List.length_drop]; omega)]

/-! How `openBytes` ends, by the footer and the index region. -/

section Ends

variable {name : Name} {id : Nat} {file : Bytes}

theorem openBytes_short (h : file.length < footerSize) :
    (openBytes name id file).run [] =
      (.error (.err (.corrupt (.shortFile name file.length))), []) := by
  rw [openBytes, if_pos h]
  rfl

variable (h : footerSize ≤ file.length)

include h

theorem openBytes_magic (hm : (Footer.ofFile file).magic ≠ sstMagic) :
    (openBytes name id file).run [] =
      (.error (.err (.corrupt (.badMagic (Footer.ofFile file).magic name))), []) := by
  rw [openBytes, if_neg (by omega)]
  show (ofExcept (readExactAt file _ _) >>= _ : Io (List Nat) Error SsTable).run [] = _
  rw [readFooter h, run_ofExcept_ok_bind, ← Footer.ofFile, if_pos hm]
  rfl

variable (hm : (Footer.ofFile file).magic = sstMagic)

include hm

/-- Behind the magic number: the index region and the rest. -/
theorem openBytes_footer :
    (openBytes name id file).run [] =
      (ofExcept (readExactAt file (Footer.ofFile file).indexOffset
          (Footer.ofFile file).indexLen) >>= fun indexBytes => do
          modify (· ++ [(Footer.ofFile file).count * indexEntrySize])
          if isizeMax < (Footer.ofFile file).count * indexEntrySize then throw .panicked
          let index ← orPanic (parseIndex indexBytes.length indexBytes)
          return { id, file, index, dataLen := (Footer.ofFile file).indexOffset,
                   maxSeq := (Footer.ofFile file).maxSeq } : Io (List Nat) Error SsTable).run
        [(Footer.ofFile file).indexLen] := by
  rw [openBytes, if_neg (by omega)]
  show (ofExcept (readExactAt file _ _) >>= _ : Io (List Nat) Error SsTable).run [] = _
  rw [readFooter h, run_ofExcept_ok_bind, ← Footer.ofFile, if_neg (by simp [hm])]
  rfl

theorem openBytes_noIndex {stop : Stop Error}
    (hr : readExactAt file (Footer.ofFile file).indexOffset (Footer.ofFile file).indexLen =
      .error stop) :
    (openBytes name id file).run [] = (.error stop, [(Footer.ofFile file).indexLen]) := by
  rw [openBytes_footer h hm, hr, run_ofExcept_error_bind]

variable {region : Bytes}
  (hr : readExactAt file (Footer.ofFile file).indexOffset (Footer.ofFile file).indexLen =
    .ok region)

include hr

theorem openBytes_capacity (hc : isizeMax < (Footer.ofFile file).count * indexEntrySize) :
    (openBytes name id file).run [] = (.error .panicked,
      [(Footer.ofFile file).indexLen, (Footer.ofFile file).count * indexEntrySize]) := by
  rw [openBytes_footer h hm, hr, run_ofExcept_ok_bind, run_modify_bind, if_pos hc]
  rfl

theorem openBytes_index (hc : (Footer.ofFile file).count * indexEntrySize ≤ isizeMax) :
    (openBytes name id file).run [] =
      ((parseIndex region.length region).elim (.error .panicked) fun index =>
          .ok { id, file, index, dataLen := (Footer.ofFile file).indexOffset,
                maxSeq := (Footer.ofFile file).maxSeq },
        [(Footer.ofFile file).indexLen, (Footer.ofFile file).count * indexEntrySize]) := by
  rw [openBytes_footer h hm, hr, run_ofExcept_ok_bind, run_modify_bind, if_neg (by omega)]
  cases parseIndex region.length region <;> rfl

end Ends

section Quiet

/-- `x` comes to `v` and leaves the world as it is. -/
def Undisturbed {α : Type} (x : FsM α) (w : World Site) (v : Except (Stop Error) α) : Prop :=
  Post x w fun r w' => r = v ∧ w' = w

theorem Undisturbed.bind {α β : Type} {x : FsM α} {f : α → FsM β} {w : World Site} {a : α}
    {v : Except (Stop Error) β} (hx : Undisturbed x w (.ok a)) (hf : Undisturbed (f a) w v) :
    Undisturbed (x >>= f) w v := by
  rw [Undisturbed, Post_bind]
  apply hx.mono
  intro r w' hr
  obtain ⟨rfl, rfl⟩ := hr
  exact hf

theorem Undisturbed.bind_error {α β : Type} {x : FsM α} {f : α → FsM β} {w : World Site}
    {e : Stop Error} (hx : Undisturbed x w (.error e)) : Undisturbed (x >>= f) w (.error e) := by
  rw [Undisturbed, Post_bind]
  apply hx.mono
  intro r w' hr
  obtain ⟨rfl, rfl⟩ := hr
  exact ⟨rfl, rfl⟩

variable {w : World Site} (hq : Quiet w.plan)

include hq

theorem not_cutShort {site : Site} {n : Nat} {e : Stop Error} : ¬ CutShort w site n e := by
  intro h
  exact h.blames.not_quiet hq

theorem advance_quiet (site : Site) : (⟨w.dir, w.advance site⟩ : World Site) = w := by
  rw [hq.advance site]

theorem undisturbed_tick (site : Site) : Undisturbed (tick site) w (.ok ()) :=
  Post_tick ⟨rfl, advance_quiet hq site⟩ fun _ _ h => absurd h (not_cutShort hq)

theorem undisturbed_openRead (site : Site) {name : Name} {f : File}
    (hf : w.dir.lookup name = some f) : Undisturbed (openRead site name) w (.ok f.bytes) :=
  Post_openRead hf ⟨rfl, advance_quiet hq site⟩ fun _ _ h => absurd h (not_cutShort hq)

theorem undisturbed_pread (site : Site) (file : Bytes) (offset len : Nat) :
    Undisturbed (pread site file offset len) w (readExactAt file offset len) := by
  by_cases hbig : isizeMax < len
  · rw [pread, readExactAt, if_pos hbig, if_pos hbig]
    exact ⟨rfl, rfl⟩
  · have htick : Undisturbed (mapErr (fun _ => .corrupt (.shortRead len offset)) (tick site)) w
        (.ok ()) :=
      Post_mapErr_tick ⟨rfl, advance_quiet hq site⟩ fun _ _ h => absurd h (not_cutShort hq)
    rw [pread, if_neg hbig]
    refine htick.bind ?_
    rw [Undisturbed, Post_ofExcept]
    exact ⟨rfl, rfl⟩

/-- **`open` where every call goes through** is `openBytes` on the content of the file. -/
theorem undisturbed_openTable {name : Name} (id : Nat) {f : File}
    (hf : w.dir.lookup name = some f) :
    Undisturbed (openTable name id) w (opened name id f.bytes) := by
  rw [openTable]
  refine (undisturbed_openRead hq _ hf).bind ((undisturbed_tick hq _).bind ?_)
  by_cases hshort : f.bytes.length < footerSize
  · rw [opened, openBytes_short hshort, if_pos hshort]
    exact ⟨rfl, rfl⟩
  rw [if_neg hshort]
  have hlong : footerSize ≤ f.bytes.length := by omega
  have hfooter := undisturbed_pread hq .sstFooter f.bytes (f.bytes.length - footerSize) footerSize
  rw [readFooter hlong] at hfooter
  refine hfooter.bind ?_
  show Undisturbed (ite ((Footer.ofFile f.bytes).magic ≠ sstMagic) _ _) w _
  by_cases hmagic : (Footer.ofFile f.bytes).magic = sstMagic
  · have hindex := undisturbed_pread hq .sstIndex f.bytes (Footer.ofFile f.bytes).indexOffset
      (Footer.ofFile f.bytes).indexLen
    rw [if_neg (not_not.mpr hmagic)]
    cases hr : readExactAt f.bytes (Footer.ofFile f.bytes).indexOffset
        (Footer.ofFile f.bytes).indexLen with
    | error stop =>
      rw [hr] at hindex
      rw [opened, openBytes_noIndex hlong hmagic hr]
      exact hindex.bind_error
    | ok region =>
      rw [hr] at hindex
      refine hindex.bind ?_
      show Undisturbed (ite (isizeMax < (Footer.ofFile f.bytes).count * indexEntrySize) _ _) w _
      by_cases hcount : isizeMax < (Footer.ofFile f.bytes).count * indexEntrySize
      · rw [opened, openBytes_capacity hlong hmagic hr hcount]
        rw [if_pos hcount]
        exact ⟨rfl, rfl⟩
      · rw [opened, openBytes_index hlong hmagic hr (by omega)]
        rw [if_neg hcount]
        cases parseIndex region.length region <;> exact ⟨rfl, rfl⟩
  · rw [opened, openBytes_magic hlong hmagic]
    rw [if_pos hmagic]
    exact ⟨rfl, rfl⟩

end Quiet

/-! ## The round trip -/

/-- `SsTable::len`. -/
def len (t : SsTable) : Nat := t.index.length

/-- The number is the largest sequence number of the records, zero if there are none. -/
def IsMaxSeq (records : List Record) (seq : Seq) : Prop :=
  (records = [] → seq = 0) ∧ (∀ r ∈ records, r.seq ≤ seq) ∧
    (records ≠ [] → ∃ r ∈ records, r.seq = seq)

theorem isMaxSeq_maxSeqOf (records : List Record) : IsMaxSeq records (maxSeqOf records) := by
  have hle := (le_foldl_max (records.map Record.seq) 0).2
  have hbound : ∀ r ∈ records, r.seq ≤ maxSeqOf records := fun r hr =>
    hle _ (List.mem_map_of_mem hr)
  refine ⟨?_, hbound, fun hne => ?_⟩
  · intro hnil
    rw [hnil]
    rfl
  · rcases foldl_max_mem (records.map Record.seq) 0 with hzero | hmem
    · -- all numbers are zero
      obtain ⟨r, rs, rfl⟩ := List.exists_cons_of_ne_nil hne
      have hr := hbound r (by simp)
      rw [maxSeqOf, hzero] at hr
      exact ⟨r, by simp, by rw [maxSeqOf, hzero, Nat.le_zero.mp hr]⟩
    · obtain ⟨r, hr, hseq⟩ := List.mem_map.mp hmem
      exact ⟨r, hr, hseq⟩

/-- A `write` that succeeds has put the image of its records in place. -/
theorem installed_of_write {id : Nat} {records : List Record} {w w' : World Site} {path : Name}
    (h : (SsTable.write id records).run w = (.ok path, w')) :
    path = sstPath id ∧ (image records).length ≤ isizeMax ∧
      records.length * indexEntrySize ≤ isizeMax ∧
      ∃ f, w'.dir.lookup path = some f ∧ f.bytes = image records := by
  have hspec := SsTable.write_spec id records w
  rw [Post, h] at hspec
  obtain ⟨-, hend⟩ := hspec
  rcases hend with ⟨hpanic, -⟩ | ⟨hsmall, hfew, ⟨e, herror, -⟩ | ⟨hinst, hok | ⟨e, herror, -⟩⟩⟩
  · cases hpanic
  · cases herror
  · obtain rfl := Except.ok.inj hok
    exact ⟨rfl, hsmall, hfew, hinst.table⟩
  · cases herror

/-- On a disk where every call goes through, a `write` of what fits succeeds. -/
theorem write_quiet {records : List Record} (id : Nat) {w : World Site} (hq : Quiet w.plan)
    (hsmall : (image records).length ≤ isizeMax)
    (hfew : records.length * indexEntrySize ≤ isizeMax) :
    ∃ w', (SsTable.write id records).run w = (.ok (sstPath id), w') := by
  have hspec := SsTable.write_spec id records w
  rw [Post] at hspec
  refine ⟨((SsTable.write id records).run w).2, Prod.ext ?_ rfl⟩
  obtain ⟨-, ⟨-, -, hbig⟩ | ⟨-, -, ⟨e, -, hblame, -⟩ | ⟨-, hok | ⟨e, -, hblame⟩⟩⟩⟩ := hspec
  · omega
  · exact absurd hq hblame.not_quiet
  · exact hok
  · exact absurd hq hblame.not_quiet

end SsTable

/-- **The file round trip**: opening what `write` has written gives a table that lists the
records, counts them, knows their largest sequence number, and finds the record of a key if and
only if there is one. -/
theorem sstable_round_trip {records : List Record} (hfits : ∀ r ∈ records, r.Fits)
    (hsorted : SortedByKey records) {id : Nat} {w w' : World Site} {path : Name}
    (hwrite : (SsTable.write id records).run w = (.ok path, w')) :
    ∃ t : SsTable,
      (∀ w₁, w₁.dir.lookup path = w'.dir.lookup path →
        Post (SsTable.openTable path id) w₁ (ReadOnly t w₁)) ∧
      t.iter = .ok records ∧ t.len = records.length ∧ SsTable.IsMaxSeq records t.maxSeq ∧
      (∀ r ∈ records, t.get r.key = .ok (some r)) ∧
      (∀ key, (∀ r ∈ records, r.key ≠ key) → t.get key = .ok none) := by
  obtain ⟨-, hsmall, hfew, f, hf, hbytes⟩ := SsTable.installed_of_write hwrite
  have hstore : SsTable.Storable records := ⟨hfits, hsmall, hfew⟩
  refine ⟨SsTable.ofRecords id records, ?_, SsTable.iter_ofRecords hstore id, ?_,
    SsTable.isMaxSeq_maxSeqOf records, ?_, ?_⟩
  · intro w₁ hsame
    exact SsTable.openTable_readOnly id hstore (hsame.trans hf) hbytes
  · exact SsTable.entriesFrom_length 0 records
  · intro r hr
    rw [SsTable.get_ofRecords hstore hsorted, (findKey_eq_some hsorted).mpr ⟨hr, rfl⟩]
  · intro key hkey
    rw [SsTable.get_ofRecords hstore hsorted, findKey_eq_none.mpr hkey]

/-- A put under the empty key and a tombstone, written on an empty disk. -/
theorem twoRecords_round_trip :
    ∃ (w' : World Site) (t : SsTable),
      (SsTable.write 3 [Record.put 9 [] [1], Record.tombstone 4 [97]]).run ⟨∅, fun _ => []⟩ =
        (.ok (sstPath 3), w') ∧
      t.iter = .ok [Record.put 9 [] [1], Record.tombstone 4 [97]] ∧
      t.get [97] = .ok (some (Record.tombstone 4 [97])) ∧ t.get [98] = .ok none := by
  have hfits : ∀ r ∈ [Record.put 9 [] [1], Record.tombstone 4 [97]], r.Fits := by
    intro r hr
    simp only [List.mem_cons, List.not_mem_nil, or_false] at hr
    rcases hr with rfl | rfl
    · exact ⟨by decide, by decide⟩
    · exact ⟨by decide, by decide⟩
  have hsorted : SortedByKey [Record.put 9 [] [1], Record.tombstone 4 [97]] := by
    simp only [SortedByKey, List.pairwise_cons, List.mem_singleton, forall_eq]
    exact ⟨rfl, fun _ h => absurd h (List.not_mem_nil), List.Pairwise.nil⟩
  obtain ⟨w', hwrite⟩ := @SsTable.write_quiet [Record.put 9 [] [1], Record.tombstone 4 [97]] 3
    ⟨∅, fun _ => []⟩ (fun _ => rfl) (by decide) (by decide)
  obtain ⟨t, -, hiter, -, -, hfound, hmissing⟩ := sstable_round_trip hfits hsorted hwrite
  refine ⟨w', t, hwrite, hiter, hfound (Record.tombstone 4 [97]) (by simp), hmissing _ ?_⟩
  intro r hr
  simp only [List.mem_cons, List.not_mem_nil, or_false] at hr
  rcases hr with rfl | rfl
  · decide
  · decide

end RustFundamentals.Lsmkv
