import RustFundamentals.Lsmkv.Codec
import RustFundamentals.Lsmkv.OnDisk

/-!
# lsmkv: layer order is sequence order

`get` trusts the order of the layers and `scan` the sequence numbers. In every state a run
reaches, whatever its faults, as long as its records fit their length fields and the frames of
its log are whole, the two orders are the same, and so are the two readings
(`layer_order_agrees`).

The formats store lengths modulo `2 ^ 32`. In the table of a value of `2 ^ 32` bytes `get`
finds the empty value, and `scan` takes the bytes of the value for records
(`longValue_disordered`).
-/

namespace RustFundamentals.Lsmkv

open Foundation Foundation.Fs Foundation.Lsm

variable {ov : Overflow}

/-- The layers of the store are ordered by age. -/
structure LayerOrder (s : Sys) (db : Db) : Prop where
  ids_desc : (db.sstables.map SsTable.id).Pairwise (· > ·)
  ids_lt : ∀ t ∈ db.sstables, t.id < db.nextSstId
  /-- Down the layers, the records of a key get no newer. -/
  aged : ∀ k, ∃ found, db.sstables.map (fun t => t.get k) = found.map Except.ok ∧
    ((db.mem.get k :: found).filterMap id).Pairwise fun newer older => older.seq ≤ newer.seq
  coherent : ∀ x y, StoredIn s x → StoredIn s y → x.key = y.key → x.seq = y.seq → x = y
  seq_gt : ∀ x, StoredIn s x → x.seq < db.seq
  /-- The first hit of `get` is the binding `scan` lists. -/
  agree : ∃ pairs, db.scan = .ok pairs ∧ ∀ k, db.get k = .ok (pairs.lookup k)

/-- Looking a key up in the pairs of a scan. -/
theorem Lists.lookup {pairs : List (Bytes × Bytes)} {m : Bytes → Option Bytes}
    (h : Lists pairs m) (k : Bytes) : pairs.lookup k = m k := by
  obtain ⟨hsorted, hmem⟩ := h
  have hfind : ∀ v, pairs.lookup k = some v ↔ (k, v) ∈ pairs := by
    clear hmem
    intro v
    induction pairs with
    | nil => simp
    | cons a pairs ih =>
      obtain ⟨hhead, htail⟩ := List.pairwise_cons.mp hsorted
      obtain ⟨k', v'⟩ := a
      rw [List.lookup_cons]
      by_cases hk : k = k'
      · subst hk
        simp only [BEq.rfl, Option.some.injEq, List.mem_cons, Prod.mk.injEq, true_and]
        constructor
        · intro heq
          subst heq
          exact .inl rfl
        · intro heither
          rcases heither with rfl | hmem
          · rfl
          · have := hhead (k, v) hmem
            simp at this
      · have hbeq : (k == k') = false := by simpa using hk
        simp only [hbeq, List.mem_cons, Prod.mk.injEq, hk, false_and, false_or]
        exact ih htail
  cases hm : m k with
  | some v => exact (hfind v).mpr ((hmem k v).mpr hm)
  | none =>
    cases hl : pairs.lookup k with
    | none => rfl
    | some v =>
      have := (hmem k v).mp ((hfind v).mp hl)
      rw [hm] at this
      exact absurd this (by simp)

/-- A state that stands for an abstract store is ordered. -/
theorem Models.layerOrder {loose mayTear : Prop} {s : Sys} {d : Disk Record}
    {op : Option (Proc Record Bytes)} (hm : Models loose mayTear s d op)
    (hclean : CleanLog s.dir) {db : Db} (hdb : s.proc = some db) : LayerOrder s db := by
  obtain ⟨p, rfl, hwf, hrun⟩ := hm.of_proc hdb
  refine
    { ids_desc := ?_
      ids_lt := ?_
      aged := ?_
      coherent := fun x y hx hy => hwf.coherent x (hx.stored hm hclean) y (hy.stored hm hclean)
      seq_gt := ?_
      agree := ?_ }
  · rw [hrun.tables, map_id_handle]
    exact hwf.ids_desc
  · intro t ht
    rw [hrun.tables] at ht
    obtain ⟨i, hi, rfl⟩ := List.mem_map.mp ht
    rw [hrun.next]
    exact hwf.ids_lt i hi
  -- what the tables answer for a key, the newest table first
  · intro k
    refine ⟨p.ids.map fun i => tableLayer d i k, ?_, ?_⟩
    · rw [hrun.tables, List.map_map, List.map_map]
      refine List.map_congr_left ?_
      intro i hi
      obtain ⟨rs, hrs⟩ := Option.isSome_iff_exists.mp (hwf.ids_file i hi)
      show (handle d i).get k = .ok (tableLayer d i k)
      rw [handle, tableLayer, hrs, Option.getD_some]
      exact SsTable.get_ofRecords (hm.stores.storable i rs hrs) (hm.stores.sorted i rs hrs) i k
    · have haged := layers_aged hm.stores hwf
      have hmap : db.mem.get k :: p.ids.map (fun i => tableLayer d i k) =
          (layers d p).map fun l => l k := by
        rw [hrun.mem, layers, List.map_cons, List.map_map]
        rfl
      rw [hmap, List.pairwise_filterMap, List.pairwise_map]
      refine haged.imp ?_
      intro upper lower h x hx y hy
      exact h k x y hx hy
  · intro x hx
    rw [hrun.seq]
    exact hwf.seq_gt x (hx.stored hm hclean)
  · obtain ⟨pairs, hscan, hlists⟩ := scan_spec hm.stores hwf hrun
    refine ⟨pairs, hscan, ?_⟩
    intro k
    rw [get_eq hm.stores hwf hrun k, hlists.lookup k]

/-- **Layer order agrees with sequence order** in every state reached by opens, writes of
records that fit their length fields, flushes and compactions, with crashes and errors anywhere
in them, while log frames are whole. A build that checks its arithmetic needs no bound on the
counters. -/
theorem layer_order_agrees {dir : Dir} (hfresh : Fresh dir) {steps : List Step}
    (ha : Along (exec ov) (Sound (ov = .checked)) ⟨dir, none⟩ steps)
    (hclean : CleanLog (runSys ov ⟨dir, none⟩ steps).dir) {db : Db}
    (hdb : (runSys ov ⟨dir, none⟩ steps).proc = some db) :
    LayerOrder (runSys ov ⟨dir, none⟩ steps) db := by
  obtain ⟨d, op, hm⟩ := models_run id hfresh ha
  exact hm.layerOrder hclean hdb

/-- A compaction that dies in its deletion loop, and the session that recovers. -/
def interruptedCompaction : List Step :=
  [⟨.openWith ⟨0⟩, quiet⟩,
    ⟨.call (.put [97] [1]), quiet⟩,
    ⟨.call (.put [98] [2]), quiet⟩,
    ⟨.call (.delete [97]), quiet⟩,
    ⟨.call .compact, faultsAt .removeOld [.ok, .die 0]⟩,
    ⟨.openWith .default, quiet⟩,
    ⟨.call (.put [98] [3]), quiet⟩]

theorem interruptedCompaction_ordered :
    ∃ db, (runSys .checked ⟨∅, none⟩ interruptedCompaction).proc = some db ∧
      LayerOrder (runSys .checked ⟨∅, none⟩ interruptedCompaction) db := by
  have hsome : (runSys .checked ⟨∅, none⟩ interruptedCompaction).proc.isSome := by decide +kernel
  obtain ⟨db, hdb⟩ := Option.isSome_iff_exists.mp hsome
  exact ⟨db, hdb, layer_order_agrees Fresh.empty (by decide +kernel) (by decide +kernel) hdb⟩

/-! ## A value too long for its length field -/

section LongValue

variable {seq : Seq} {key value : Bytes}

/-- The length field of a value of `2 ^ 32` bytes is that of the empty one. -/
theorem encode_wrapped (hlen : value.length = 2 ^ 32) :
    (Record.put seq key value).encode = (Record.put seq key []).encode ++ value := by
  have hfield : leBytes 4 (2 ^ 32) = leBytes 4 0 := by decide
  show leBytes 8 seq ++ [kindPut] ++ leBytes 4 key.length ++ key ++ leBytes 4 value.length ++
    value = leBytes 8 seq ++ [kindPut] ++ leBytes 4 key.length ++ key ++ leBytes 4 0 ++ [] ++ value
  rw [hlen, hfield, List.append_nil]

theorem dataOf_wrapped (hlen : value.length = 2 ^ 32) :
    SsTable.dataOf [Record.put seq key value] = (Record.put seq key []).encode ++ value := by
  rw [← encode_wrapped hlen]
  simp [SsTable.dataOf]

theorem encode_put_nil_length : (Record.put seq key []).encode.length = 17 + key.length :=
  Record.encode_length _

theorem bounded_put_nil (hseq : seq < 2 ^ 64) (hkey : 17 + key.length < 2 ^ 32) :
    (Record.put seq key []).Bounded where
  seq_lt := hseq
  key_lt := by
    show key.length < 2 ^ 32
    omega
  value_lt := by
    show 0 < 2 ^ 32
    omega

/-- **`get` reads the front of the record**, which is a record with no value. -/
theorem get_wrapped (hlen : value.length = 2 ^ 32) (hseq : seq < 2 ^ 64)
    (hkey : 17 + key.length < 2 ^ 32) (id : Nat) :
    (SsTable.ofRecords id [Record.put seq key value]).get key =
      .ok (some (Record.put seq key [])) := by
  have hindex : SsTable.entriesFrom 0 [Record.put seq key value] =
      [{ key, offset := 0, len := (Record.put seq key []).encode.length }] := by
    have hmod : (Record.put seq key value).encode.length % 2 ^ 32 =
        (Record.put seq key []).encode.length := by
      rw [encode_wrapped hlen, List.length_append, hlen, Nat.add_mod_right]
      exact Nat.mod_eq_of_lt (by rwa [encode_put_nil_length])
    rw [SsTable.entriesFrom, SsTable.entriesFrom, hmod]
    rfl
  have hsorted : SortedByKey [Record.put seq key value] := List.pairwise_singleton _ _
  have hfound := binarySearchBy_eq_some (k := 0) (SsTable.entriesFrom_ascending hsorted 0 key)
    (by rw [hindex]; rfl) (Std.ReflCmp.compare_self (a := key))
  have hread : SsTable.readExactAt (image [Record.put seq key value]) 0
      (Record.put seq key []).encode.length = .ok (Record.put seq key []).encode := by
    have hsplit : image [Record.put seq key value] = [] ++ (Record.put seq key []).encode ++
        (value ++ SsTable.indexOf [Record.put seq key value] ++
          SsTable.footerOf [Record.put seq key value]) := by
      rw [SsTable.image_eq, dataOf_wrapped hlen]
      simp
    rw [hsplit]
    refine SsTable.readExactAt_append rfl rfl ?_
    rw [encode_put_nil_length]
    unfold isizeMax
    omega
  have hdecode := (bounded_put_nil hseq hkey).decode_encode_append []
  rw [List.append_nil] at hdecode
  rw [hindex] at hfound
  simp only [SsTable.get, SsTable.ofRecords, hindex, hfound, Option.bind_some,
    List.getElem?_cons_zero, hread, hdecode, bind, Except.bind]

/-- Zero bytes are records of no key and no value, and what is left over is none. -/
theorem decodeAll_zeros {n : Nat} (hn : n % 17 ≠ 0) (id fuel pos : Nat) :
    ∃ e, SsTable.decodeAll id fuel pos (List.replicate n 0) = .error (.err e) := by
  induction fuel generalizing n pos with
  | zero =>
    obtain ⟨m, rfl⟩ : ∃ m, n = m + 1 := ⟨n - 1, by omega⟩
    exact ⟨_, rfl⟩
  | succ fuel ih =>
    by_cases hshort : n < 17
    · have hnone : Record.decode (List.replicate n 0) = none := by
        rw [Option.eq_none_iff_forall_ne_some]
        intro r h
        have hle := decode_length_le (r := r.1) (n := r.2) h
        rw [Record.encode_length, List.length_replicate] at hle
        omega
      refine ⟨.corrupt (.badRecord pos id), ?_⟩
      rw [SsTable.decodeAll]
      · rw [hnone]
      · rw [List.replicate_eq_nil_iff]
        omega
    · have hcode : (Record.put 0 [] []).encode = List.replicate 17 0 := by decide
      have hsplit : List.replicate n (0 : UInt8) =
          (Record.put 0 [] []).encode ++ List.replicate (n - 17) 0 := by
        rw [hcode, ← List.replicate_add, Nat.add_sub_cancel' (not_lt.mp hshort)]
      obtain ⟨e, he⟩ := ih (n := n - 17) (by omega) (pos + (Record.put 0 [] []).encode.length)
      refine ⟨e, ?_⟩
      rw [hsplit, SsTable.decodeAll_encode_append (bounded_put_nil (by decide) (by decide)), he]
      rfl

theorem indexable_wrapped (hlen : value.length = 2 ^ 32) (hseq : seq < 2 ^ 64)
    (hkey : 17 + key.length < 2 ^ 32) : SsTable.Indexable [Record.put seq key value] where
  seqs_lt := by simpa using hseq
  keys_lt := by
    intro r hr
    obtain rfl := List.mem_singleton.mp hr
    show key.length < 2 ^ 32
    omega
  small := by
    rw [SsTable.image_length, dataOf_wrapped hlen, List.length_append, encode_put_nil_length, hlen]
    simp only [SsTable.indexOf, SsTable.entriesFrom, IndexEntry.encode, footerSize, isizeMax,
      List.map_cons, List.map_nil, List.flatten_cons, List.flatten_nil, List.append_nil,
      List.length_append, leBytes_length, Record.put_key]
    omega
  few := by simp [isizeMax, indexEntrySize]

/-- **`scan` reads on** behind that, in the bytes of the value. -/
theorem iter_wrapped {n : Nat} (hn : n % 17 ≠ 0) (hlen : n = 2 ^ 32) (hseq : seq < 2 ^ 64)
    (hkey : 17 + key.length < 2 ^ 32) (id : Nat) :
    ∃ e, (SsTable.ofRecords id [Record.put seq key (List.replicate n 0)]).iter =
      .error (.err e) := by
  have hzeros : (List.replicate n (0 : UInt8)).length = 2 ^ 32 := by
    rw [List.length_replicate, hlen]
  obtain ⟨e, he⟩ := decodeAll_zeros hn id (16 + key.length + n)
    (0 + (Record.put seq key []).encode.length)
  have hfuel : ((Record.put seq key []).encode ++ List.replicate n (0 : UInt8)).length =
      16 + key.length + n + 1 := by
    rw [List.length_append, encode_put_nil_length, List.length_replicate]
    omega
  refine ⟨e, ?_⟩
  rw [SsTable.iter, SsTable.readData_ofRecords (indexable_wrapped hzeros hseq hkey).small id,
    dataOf_wrapped hzeros]
  show SsTable.decodeAll id ((Record.put seq key []).encode ++ _).length 0 _ = _
  rw [hfuel, SsTable.decodeAll_encode_append (bounded_put_nil hseq hkey), he]
  rfl

/-- A put that fills an empty memory table, on a store whose calls all complete, is flushed at
once to a table of its own, and the log is emptied. -/
theorem put_flushed {db : Db} {w : World Site} (hw : Quiet w.plan) (hmem : db.mem = .new)
    (hseq : db.seq + 1 < 2 ^ 64) (hnext : db.nextSstId + 1 < 2 ^ 64)
    (hr : SsTable.Indexable [Record.put db.seq key value])
    (hfull : db.opts.memtableFlushBytes ≤ entrySize (Record.put db.seq key value)) :
    Post (Db.put ov key value) ⟨db, w⟩ fun out s' =>
      out = .ok () ∧ walWrites s'.world.dir = [] ∧ s'.db.mem = .new ∧
        s'.db.sstables =
          SsTable.ofRecords db.nextSstId [Record.put db.seq key value] :: db.sstables := by
  have hrecords : (db.mem.insert (Record.put db.seq key value)).records =
      [Record.put db.seq key value] := by
    rw [hmem]
    rfl
  have hbytes : (db.mem.insert (Record.put db.seq key value)).approxBytes =
      0 + entrySize (Record.put db.seq key value) := by
    rw [hmem]
    rfl
  have hempty : ¬ (db.mem.insert (Record.put db.seq key value)).isEmpty = true := by
    rw [hmem]
    exact Bool.false_ne_true
  -- the log
  simp only [Db.put, Db.writeRecord, Post_bind, Post_self, ov.fit_of_lt hseq, Post_orPanic_some,
    Post_update, Post_onDisk, Wal.append, writeAll, Wal.sync, tick]
  refine Post_call_quiet hw ?_
  dsimp only
  refine Post_call_quiet hw ?_
  simp only [id_eq, Db.maybeFlush, Post_bind, Post_self]
  rw [if_pos (by rw [hbytes]; omega)]
  -- the table
  simp only [Db.flush, Post_bind, Post_self]
  rw [if_neg hempty]
  simp only [Post_bind, Post_onDisk, hrecords]
  refine (SsTable.write_spec db.nextSstId _ _).mono ?_
  intro out w₁ hwrite
  obtain ⟨hp₁, ⟨rfl, rfl, hbig⟩ | ⟨_, _, ⟨e, rfl, hb, _⟩ | ⟨hinst, rfl | ⟨e, rfl, hb⟩⟩⟩⟩ := hwrite
  · have hsmall := hr.small
    have hfew := hr.few
    omega
  · exact absurd hw hb.not_quiet
  swap
  · exact absurd hw hb.not_quiet
  have hw₁ : Quiet w₁.plan := hw.rest hp₁
  obtain ⟨f, hf, hfb⟩ := hinst.table
  refine (SsTable.openTable_indexable db.nextSstId hr hf hfb).mono ?_
  intro out w₂ hopen
  obtain ⟨hdir₂, hp₂, rfl | ⟨e, rfl, hb⟩⟩ := hopen
  swap
  · exact absurd hw₁ hb.not_quiet
  have hw₂ : Quiet w₂.plan := hw₁.rest hp₂
  -- the log once more
  simp only [Post_update, ov.fit_of_lt hnext, Post_orPanic_some, Wal.reset, Post_bind, truncate,
    tick, openAppend]
  refine Post_call_quiet hw₂ ?_
  dsimp only
  refine Post_call_quiet hw₂ ?_
  dsimp only
  refine Post_call_quiet hw₂ ?_
  refine ⟨rfl, ?_, rfl, trivial⟩
  simp only [id_eq, walWrites_touch, walWrites_truncate]

end LongValue

/-- A store is opened and a value of `2 ^ 32` zero bytes put into it. -/
def longValue : List Step :=
  [⟨.openWith .default, quiet⟩, ⟨.call (.put [107] (List.replicate (2 ^ 32) 0)), quiet⟩]

/-- **A value too long for its length field** is shown as empty by `get`, while `scan` fails. -/
theorem longValue_disordered :
    let s := runSys .checked ⟨∅, none⟩ longValue
    Along (exec .checked) (fun s st => (exec .checked s st).1 = .ok ()) ⟨∅, none⟩ longValue ∧
      WholeLog s.dir ∧ ∃ db, s.proc = some db ∧ db.get [107] = .ok (some []) ∧
        (∃ e, db.scan = .error (.err e)) ∧ ¬ LayerOrder s db := by
  unfold longValue
  obtain ⟨n, hn⟩ : ∃ n, n = 2 ^ 32 := ⟨_, rfl⟩
  rw [← hn]
  have hlen : (List.replicate n (0 : UInt8)).length = 2 ^ 32 := by rw [List.length_replicate, hn]
  have hkey : 17 + ([107] : Bytes).length < 2 ^ 32 := by decide
  have hodd : n % 17 ≠ 0 := by
    rw [hn]
    decide
  -- the store once it is opened, and what the put leaves
  set start : Sys := ⟨(∅ : Dir).insert walName ⟨[]⟩, some ⟨.default, .new, [], 1, 0⟩⟩ with hstart
  have hopen : exec .checked ⟨∅, none⟩ ⟨.openWith .default, quiet⟩ = (.ok (), start) := rfl
  have hfull : 2 ^ 20 ≤ entrySize (Record.put 1 [107] (List.replicate n 0)) := by
    show 2 ^ 20 ≤ 1 + (List.replicate n (0 : UInt8)).length + 48
    omega
  obtain ⟨s', hput, hwal, hmem, htables⟩ : ∃ s' : Session,
      exec .checked start ⟨.call (.put [107] (List.replicate n 0)), quiet⟩ =
        (.ok (), ⟨s'.world.dir, some s'.db⟩) ∧
      walWrites s'.world.dir = [] ∧ s'.db.mem = .new ∧
      s'.db.sstables = [SsTable.ofRecords 0 [Record.put 1 [107] (List.replicate n 0)]] := by
    have hpost : Post (Db.put .checked [107] (List.replicate n 0))
        ⟨⟨.default, .new, [], 1, 0⟩, ⟨start.dir, quiet⟩⟩ _ :=
      put_flushed quiet_quiet rfl (by decide) (by decide)
        (indexable_wrapped hlen (by decide) hkey) hfull
    unfold Post at hpost
    simp only [exec, hstart, Call.run]
    generalize (Db.put .checked [107] (List.replicate n 0)).run _ = res at hpost ⊢
    obtain ⟨out, s'⟩ := res
    obtain ⟨rfl, hwal, hmem, htables⟩ := hpost
    exact ⟨s', rfl, hwal, hmem, htables⟩
  obtain ⟨e, hiter⟩ : ∃ e, (SsTable.ofRecords 0
      [Record.put 1 [107] (List.replicate n 0)]).iter = .error (.err e) :=
    iter_wrapped hodd hn (by decide) hkey 0
  have hscan : s'.db.scan = .error (.err e) := by
    rw [Db.scan, htables, Db.tableRecords, hiter]
    rfl
  have hget : s'.db.get [107] = .ok (some []) := by
    rw [Db.get, hmem, MemTable.get_new, htables, Db.getFrom,
      get_wrapped hlen (by decide) hkey 0]
    rfl
  simp only [runSys, runFrom_cons, hopen, hput]
  refine ⟨⟨rfl, ?_, trivial⟩, ?_, s'.db, rfl, hget, ⟨e, hscan⟩, fun horder => ?_⟩
  · rw [hopen]
    exact congrArg Prod.fst hput
  · intro write hwrite
    exact absurd (hwal ▸ hwrite) List.not_mem_nil
  · obtain ⟨pairs, hpairs, _⟩ := horder.agree
    rw [hscan] at hpairs
    cases hpairs

end RustFundamentals.Lsmkv
