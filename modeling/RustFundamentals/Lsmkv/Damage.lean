import RustFundamentals.Foundation.Crc
import RustFundamentals.Lsmkv.Codec
import RustFundamentals.Lsmkv.Replay

/-!
# lsmkv: damage that the CRC always catches

`crc32` is the CRC-32 of the bits of its data, the least significant bit of each byte first
(`crc32_eq_checksum`). So a frame whose payload has been changed within 32 consecutive bits,
or whose stored CRC has been changed, does not read. `replay` gets there, and stops, unless a
record in front is too long for its length field (`burst_damage_caught_iff`).
-/

namespace RustFundamentals.Lsmkv

open Foundation Foundation.Fs

/-! ## The table is a CRC -/

/-- The polynomial of `crc32_table`, reflected. -/
def crcPoly : BitVec 32 := 0xEDB88320#32

/-- The bits of a byte, least significant first. -/
def byteBits (b : UInt8) : List Bool := (List.range 8).map b.toBitVec.getLsbD

/-- The bits of a byte string, those of its first byte first. -/
def bitsOf (data : Bytes) : List Bool := data.flatMap byteBits

@[simp] theorem byteBits_length (b : UInt8) : (byteBits b).length = 8 := by simp [byteBits]

theorem bitsOf_append (xs ys : Bytes) : bitsOf (xs ++ ys) = bitsOf xs ++ bitsOf ys := by
  simp [bitsOf]

theorem bitsOf_cons (b : UInt8) (data : Bytes) : bitsOf (b :: data) = byteBits b ++ bitsOf data :=
  rfl

@[simp] theorem bitsOf_length (data : Bytes) : (bitsOf data).length = 8 * data.length := by
  induction data with
  | nil => rfl
  | cons b data ih =>
    rw [bitsOf_cons, List.length_append, byteBits_length, ih, List.length_cons]
    omega

theorem byteBits_getElem? {b : UInt8} {i : Nat} (h : i < 8) :
    (byteBits b)[i]? = some (b.toBitVec.getLsbD i) := by
  simp [byteBits, h]

theorem byteBits_inj {b c : UInt8} (h : byteBits b = byteBits c) : b = c := by
  apply UInt8.toBitVec_inj.mp
  apply BitVec.eq_of_getLsbD_eq
  intro i hi
  have hbit := congrArg (·[i]?) h
  simp only [byteBits_getElem? hi] at hbit
  exact Option.some.inj hbit

theorem bitsOf_inj {xs ys : Bytes} (h : bitsOf xs = bitsOf ys) : xs = ys := by
  induction xs generalizing ys with
  | nil =>
    have hlen := congrArg List.length h
    simp only [bitsOf_length, List.length_nil] at hlen
    exact (List.length_eq_zero_iff.mp (by omega)).symm
  | cons x xs ih =>
    cases ys with
    | nil =>
      have hlen := congrArg List.length h
      simp at hlen
    | cons y ys =>
      rw [bitsOf_cons, bitsOf_cons] at h
      obtain ⟨hbyte, hrest⟩ := List.append_inj h (by simp)
      rw [byteBits_inj hbyte, ih hrest]

theorem lowBit_iff (c : UInt32) : c &&& 1 = 1 ↔ c.toBitVec.getLsbD 0 = true := by
  have hand : (c &&& 1).toBitVec = BitVec.setWidth 32 (BitVec.ofBool (c.toBitVec.getLsbD 0)) := by
    rw [UInt32.toBitVec_and]
    exact BitVec.and_one_eq_setWidth_ofBool_getLsbD
  rw [← UInt32.toBitVec_inj, hand]
  cases c.toBitVec.getLsbD 0 <;> decide

theorem crcBit_toBitVec (c : UInt32) :
    (crcBit c).toBitVec = Crc.shiftOut crcPoly c.toBitVec := by
  unfold crcBit Crc.shiftOut
  by_cases h : c &&& 1 = 1
  · rw [if_pos h, if_pos ((lowBit_iff c).mp h)]
    rfl
  · rw [if_neg h, if_neg (fun hbit => h ((lowBit_iff c).mpr hbit))]
    rfl

theorem iterate_crcBit_toBitVec (n : Nat) (c : UInt32) :
    (crcBit^[n] c).toBitVec = (Crc.shiftOut crcPoly)^[n] c.toBitVec := by
  induction n generalizing c with
  | zero => rfl
  | succ n ih => rw [Function.iterate_succ_apply, Function.iterate_succ_apply, ih, crcBit_toBitVec]

/-- A byte in the low bits of a register. -/
theorem ofBits_byteBits (b : UInt8) : Crc.ofBits 32 (byteBits b) = b.toUInt32.toBitVec := by
  apply BitVec.eq_of_getLsbD_eq
  intro i hi
  rw [Crc.ofBits_getLsbD (by simp)]
  have hwide : b.toUInt32.toBitVec.getLsbD i = b.toBitVec.getLsbD i := by
    simp [UInt8.toBitVec_toUInt32, hi]
  rw [hwide]
  by_cases h8 : i < 8
  · rw [byteBits_getElem? h8]
    rfl
  · rw [List.getElem?_eq_none (by simp; omega), BitVec.getLsbD_of_ge _ _ (by omega)]
    rfl

theorem crc32Table_getD {i : Nat} (h : i < 256) : crc32Table.getD i 0 = crcEntry i := by
  simp [crc32Table, h]

/-- **The table's step is that of eight message bits.** -/
theorem crcByte_toBitVec (crc : UInt32) (b : UInt8) :
    (crcByte crc b).toBitVec = Crc.feeds crcPoly crc.toBitVec (byteBits b) := by
  set x : UInt32 := crc ^^^ b.toUInt32 with hx
  have hmask : ∀ i < 32, (0xFF#32).getLsbD i = decide (i < 8) := by decide
  have hidx : (x &&& 0xFF).toNat < 256 := by
    rw [UInt32.toNat_and]
    exact lt_of_le_of_lt Nat.and_le_right (by decide)
  have hentry : (crc32Table.getD (x &&& 0xFF).toNat 0).toBitVec =
      (Crc.shiftOut crcPoly)^[8] (x.toBitVec &&& 0xFF#32) := by
    rw [crc32Table_getD hidx, crcEntry, UInt32.ofNat_toNat, iterate_crcBit_toBitVec]
    rfl
  have hshift : x.toBitVec >>> 8 = crc.toBitVec >>> 8 := by
    apply BitVec.eq_of_getLsbD_eq
    intro i _
    simp [hx, UInt8.toBitVec_toUInt32]
  have hregister : crc.toBitVec ^^^ Crc.ofBits 32 (byteBits b) = x.toBitVec := by
    rw [ofBits_byteBits, hx, UInt32.toBitVec_xor]
  have hbyte : (crcByte crc b).toBitVec =
      (crc.toBitVec >>> 8) ^^^ (crc32Table.getD (x &&& 0xFF).toNat 0).toBitVec := rfl
  rw [Crc.feeds_eq_iterate crcPoly (by simp), byteBits_length, hregister,
    Crc.iterate_shiftOut_split crcPoly hmask, hbyte, hentry, hshift]

/-- The loop over the bytes is that over their bits. -/
theorem foldl_crcByte_toBitVec (data : Bytes) (crc : UInt32) :
    (data.foldl crcByte crc).toBitVec = Crc.feeds crcPoly crc.toBitVec (bitsOf data) := by
  induction data generalizing crc with
  | nil => rfl
  | cons b data ih =>
    rw [List.foldl_cons, ih, crcByte_toBitVec, bitsOf_cons]
    simp only [Crc.feeds, List.foldl_append]

/-- **The table-driven CRC is CRC-32**: that of the bits of the data, those of each byte from its
lowest on, taken one at a time. -/
theorem crc32_eq_checksum (data : Bytes) :
    (crc32 data).toBitVec =
      Crc.checksum crcPoly 0xFFFFFFFF#32 0xFFFFFFFF#32 (bitsOf data) := by
  have hregister : (data.foldl crcByte 0xFFFFFFFF).toBitVec =
      Crc.feeds crcPoly 0xFFFFFFFF#32 (bitsOf data) := foldl_crcByte_toBitVec data 0xFFFFFFFF
  rw [crc32, UInt32.toBitVec_xor, hregister, Crc.checksum]
  rfl

/-! ## Bursts -/

/-- The byte strings have one length, and differ, but only within 32 consecutive bits. -/
structure Burst (xs ys : Bytes) : Prop where
  length_eq : xs.length = ys.length
  changed : xs ≠ ys
  confined : ∃ k, ∀ i, (bitsOf xs)[i]? ≠ (bitsOf ys)[i]? → k ≤ i ∧ i < k + 32

/-- A change of up to four bytes in a row. -/
theorem Burst.of_bytes {as bs : Bytes} (hlen : as.length = bs.length) (h4 : as.length ≤ 4)
    (hne : as ≠ bs) (pre post : Bytes) : Burst (pre ++ as ++ post) (pre ++ bs ++ post) where
  length_eq := by simp [hlen]
  changed := fun heq => hne (List.append_cancel_left (List.append_cancel_right heq))
  confined := by
    refine ⟨8 * pre.length, fun i hi => ?_⟩
    by_contra hout
    apply hi
    have hbits : (bitsOf as).length = (bitsOf bs).length := by simp [hlen]
    simp only [bitsOf_append]
    by_cases hbefore : i < 8 * pre.length
    · -- in front of the change
      rw [List.append_assoc, List.append_assoc, List.getElem?_append_left (by simpa using hbefore),
        List.getElem?_append_left (by simpa using hbefore)]
    · rw [List.getElem?_append_right (by simp; omega), List.getElem?_append_right (by simp; omega),
        List.length_append, List.length_append, hbits]

/-- **A burst changes the CRC.** -/
theorem crc32_ne_of_burst {xs ys : Bytes} (h : Burst xs ys) : crc32 xs ≠ crc32 ys := by
  intro heq
  obtain ⟨k, hconfined⟩ := h.confined
  have hbits : bitsOf xs ≠ bitsOf ys := fun hsame => h.changed (bitsOf_inj hsame)
  have hlen : (bitsOf xs).length = (bitsOf ys).length := by simp [h.length_eq]
  -- the last step, an exclusive or with all ones, takes nothing away
  have hfold : xs.foldl crcByte 0xFFFFFFFF = ys.foldl crcByte 0xFFFFFFFF :=
    (UInt32.xor_left_inj _).mp heq
  have hregister := congrArg UInt32.toBitVec hfold
  rw [foldl_crcByte_toBitVec, foldl_crcByte_toBitVec] at hregister
  have htop : crcPoly.getLsbD (32 - 1) = true := by decide
  exact Crc.feeds_ne_of_burst crcPoly htop hlen hbits hconfined _ hregister

/-! ## Damaged frames -/

/-- What burst damage makes of the frame of a record: the payload is changed within 32
consecutive bits, or the stored CRC is changed. -/
inductive Damaged (r : Record) : Bytes → Prop
  | payload {bytes : Bytes} (h : Burst r.encode bytes) :
      Damaged r (leBytes 4 (crc32 r.encode).toNat ++ leBytes 4 r.encode.length ++ bytes)
  | crc {stored : Bytes} (hlen : stored.length = 4)
      (h : stored ≠ leBytes 4 (crc32 r.encode).toNat) :
      Damaged r (stored ++ leBytes 4 r.encode.length ++ r.encode)

/-- The length field of a frame announces a part of the damaged payload that has the stored CRC
and is a record. -/
def Misread (r : Record) (bytes : Bytes) : Prop :=
  (crc32 ((bytes.drop 8).take (r.encode.length % 2 ^ 32))).toNat = ofLe (bytes.take 4) ∧
    (Record.decode ((bytes.drop 8).take (r.encode.length % 2 ^ 32))).isSome

/-- The header of a damaged frame, and what is left of its payload. -/
theorem Damaged.split {r : Record} {bytes : Bytes} (h : Damaged r bytes) :
    ∃ stored payload, bytes = leBytes 4 stored ++ leBytes 4 r.encode.length ++ payload ∧
      stored < 2 ^ 32 ∧ payload.length = r.encode.length ∧ (crc32 payload).toNat ≠ stored := by
  cases h with
  | @payload payload hburst =>
    refine ⟨(crc32 r.encode).toNat, payload, rfl, (crc32 r.encode).toNat_lt,
      hburst.length_eq.symm, fun heq => ?_⟩
    exact crc32_ne_of_burst hburst (UInt32.toNat_inj.mp heq).symm
  | @crc stored hlen hne =>
    have hstored : leBytes 4 (ofLe stored) = stored := by
      have := leBytes_ofLe stored
      rwa [hlen] at this
    have hlt : ofLe stored < 2 ^ 32 := by
      have := ofLe_lt stored
      rwa [hlen] at this
    refine ⟨ofLe stored, r.encode, by rw [hstored], hlt, rfl, fun heq => ?_⟩
    exact hne (by rw [heq, hstored])

/-- What it is to be misread, of a frame by its parts. -/
theorem misread_parts {r : Record} {stored : Nat} {payload : Bytes} (hstored : stored < 2 ^ 32) :
    Misread r (leBytes 4 stored ++ leBytes 4 r.encode.length ++ payload) ↔
      (crc32 (payload.take (r.encode.length % 2 ^ 32))).toNat = stored ∧
        (Record.decode (payload.take (r.encode.length % 2 ^ 32))).isSome := by
  have hdrop : (leBytes 4 stored ++ leBytes 4 r.encode.length ++ payload).drop 8 = payload :=
    List.drop_left' (by simp)
  have htake : (leBytes 4 stored ++ leBytes 4 r.encode.length ++ payload).take 4 =
      leBytes 4 stored := by
    rw [List.append_assoc]
    exact List.take_left' (by simp)
  have hvalue : ofLe (leBytes 4 stored) = stored := ofLe_leBytes_of_lt hstored
  rw [Misread, hdrop, htake, hvalue]

/-- A damaged frame reads exactly where it is misread. -/
theorem readFrame_damaged_iff {r : Record} {bytes : Bytes} (h : Damaged r bytes) (t : Bytes) :
    Wal.readFrame (bytes ++ t) = none ↔ ¬ Misread r bytes := by
  obtain ⟨stored, payload, rfl, hstored, hlen, -⟩ := h.split
  -- the length field holds the length modulo 2 ^ 32
  have hfield : leBytes 4 r.encode.length = leBytes 4 (r.encode.length % 2 ^ 32) := by
    have := leBytes_ofLe (leBytes 4 r.encode.length)
    rw [leBytes_length, ofLe_leBytes] at this
    exact this.symm
  have hpart : (payload.take (r.encode.length % 2 ^ 32)).length = r.encode.length % 2 ^ 32 := by
    rw [List.length_take]
    have := Nat.mod_le r.encode.length (2 ^ 32)
    omega
  have hshort : (payload.take (r.encode.length % 2 ^ 32)).length < 2 ^ 32 := by
    rw [hpart]
    exact Nat.mod_lt _ (by decide)
  have hread := Wal.readFrame_header hstored hshort (payload.drop (r.encode.length % 2 ^ 32) ++ t)
  rw [hpart, ← hfield, ← List.append_assoc, List.append_assoc _ _ (payload.drop _),
    List.take_append_drop] at hread
  rw [hread, misread_parts hstored]
  by_cases hcrc : (crc32 (payload.take (r.encode.length % 2 ^ 32))).toNat = stored
  · rw [if_neg (not_not.mpr hcrc), Option.map_eq_none_iff, and_iff_right hcrc,
      Option.not_isSome_iff_eq_none]
  · rw [if_pos hcrc]
    exact iff_of_true rfl fun hmis => hcrc hmis.1

/-- The CRC is that of the whole payload where the length fits its field. -/
theorem Damaged.not_misread {r : Record} {bytes : Bytes} (h : Damaged r bytes)
    (hr : r.encode.length < 2 ^ 32) : ¬ Misread r bytes := by
  obtain ⟨stored, payload, rfl, hstored, hlen, hne⟩ := h.split
  intro hmis
  obtain ⟨hcrc, -⟩ := (misread_parts hstored).mp hmis
  rw [Nat.mod_eq_of_lt hr, ← hlen, List.take_length] at hcrc
  exact hne hcrc

/-! ## The frames in front -/

/-- A frame that reads is that of a record that fits its length field. -/
theorem readFrame_length_lt {b : Bytes} {r : Record} {n : Nat}
    (h : Wal.readFrame b = some (r, n)) : r.encode.length < 2 ^ 32 := by
  obtain ⟨payload, consumed, hlen, -, hdecode, -⟩ := Wal.readFrame_eq_some_iff.mp h
  exact lt_of_le_of_lt (decode_length_le hdecode) hlen

/-- Replay returns only records that fit their length fields. -/
theorem fits_of_replay {xs : List Record} (hseq : ∀ x ∈ xs, x.seq < 2 ^ 64) {t : Bytes}
    {ys : List Record} (h : Wal.replayBytes (logOf xs ++ t) = xs ++ ys) : ∀ x ∈ xs, x.Fits := by
  induction xs with
  | nil => exact fun _ hx => absurd hx List.not_mem_nil
  | cons x xs ih =>
    have hlog : logOf (x :: xs) ++ t = frame x ++ (logOf xs ++ t) := by
      rw [logOf, List.map_cons, List.flatten_cons, List.append_assoc]
      rfl
    rw [hlog] at h
    have hx : x.Fits := by
      refine ⟨hseq x List.mem_cons_self, ?_⟩
      rw [Wal.replayBytes_eq_walk] at h
      cases hread : Wal.readFrame (frame x ++ (logOf xs ++ t)) with
      | none =>
        rw [walk_of_none hread] at h
        cases h
      | some r =>
        rw [walk_of_some Wal.selfDelimiting_readFrame hread] at h
        obtain ⟨rfl, -⟩ := List.cons.inj h
        exact readFrame_length_lt hread
    rw [Wal.replayBytes_frame_append hx] at h
    intro y hy
    rcases List.mem_cons.mp hy with rfl | hy
    · exact hx
    · exact ih (fun z hz => hseq z (List.mem_cons_of_mem _ hz)) (List.cons.inj h).2 y hy

/-- **Burst damage to a frame is caught**, so that replay returns the records in front of it and
nothing of it or behind it, exactly where those in front fit their length fields, and the frame's
own does or what it announces is not taken for a record. -/
theorem burst_damage_caught_iff {before : List Record} (hseq : ∀ x ∈ before, x.seq < 2 ^ 64)
    {r : Record} {bytes : Bytes} (hdamaged : Damaged r bytes) (after : List Record) :
    Wal.replayBytes (logOf before ++ bytes ++ logOf after) = before ↔
      (∀ x ∈ before, x.encode.length < 2 ^ 32) ∧
        (r.encode.length < 2 ^ 32 ∨ ¬ Misread r bytes) := by
  rw [List.append_assoc]
  constructor
  · intro h
    have hfits := fits_of_replay hseq (h.trans (List.append_nil _).symm)
    refine ⟨fun x hx => (hfits x hx).length_lt, .inr ?_⟩
    rw [logOf, Wal.replayBytes_frames_append hfits, List.append_right_eq_self,
      Wal.replayBytes_eq_walk] at h
    rw [← readFrame_damaged_iff hdamaged (logOf after)]
    cases hread : Wal.readFrame (bytes ++ logOf after) with
    | none => rfl
    | some v =>
      rw [walk_of_some Wal.selfDelimiting_readFrame hread] at h
      cases h
  · intro h
    obtain ⟨hbefore, hhere⟩ := h
    have hfits : ∀ x ∈ before, x.Fits := fun x hx => ⟨hseq x hx, hbefore x hx⟩
    have hmis : ¬ Misread r bytes := hhere.elim hdamaged.not_misread id
    have hstop := (readFrame_damaged_iff hdamaged (logOf after)).mpr hmis
    rw [logOf, Wal.replayBytes_frames_append hfits, Wal.replayBytes_eq_walk, walk_of_none hstop,
      List.append_nil]

/-- The tombstone of another key: one byte is changed. -/
theorem otherKey_damaged : Damaged (Record.tombstone 2 [97])
    (leBytes 4 (crc32 (Record.tombstone 2 [97]).encode).toNat ++
      leBytes 4 (Record.tombstone 2 [97]).encode.length ++ (Record.tombstone 2 [99]).encode) := by
  have hburst : Burst (Record.tombstone 2 [97]).encode (Record.tombstone 2 [99]).encode :=
    @Burst.of_bytes [97] [99] rfl (by decide) (by decide)
      (leBytes 8 2 ++ [kindDelete] ++ leBytes 4 1) (leBytes 4 0)
  exact .payload hburst

/-- The second of three frames has another key byte. -/
theorem changedKey_caught :
    Wal.replayBytes (logOf [Record.put 1 [97] [98]] ++
      (leBytes 4 (crc32 (Record.tombstone 2 [97]).encode).toNat ++
        leBytes 4 (Record.tombstone 2 [97]).encode.length ++ (Record.tombstone 2 [99]).encode) ++
      logOf [Record.put 3 [100] []]) = [Record.put 1 [97] [98]] := by
  have hseq : ∀ x ∈ [Record.put 1 [97] [98]], x.seq < 2 ^ 64 := by decide
  have hshort : ∀ x ∈ [Record.put 1 [97] [98]], x.encode.length < 2 ^ 32 := by decide
  exact (burst_damage_caught_iff hseq otherKey_damaged [Record.put 3 [100] []]).mpr
    ⟨hshort, .inl (by decide)⟩

/-- A value of `2 ^ 32` zero bytes. -/
def giant : Record := Record.put 1 [] (List.replicate (2 ^ 32) 0)

theorem giant_length : 2 ^ 32 ≤ giant.encode.length := by
  have hput : ∀ value : Bytes, (Record.put 1 [] value).encode.length = 17 + value.length :=
    fun value => Record.encode_length (Record.put 1 [] value)
  rw [giant, hput, List.length_replicate]
  exact Nat.le_add_left _ _

/-- Behind a record that is too long for its length field damage is not what replay stops at: it
has stopped before. -/
theorem giant_not_replayed :
    Damaged (Record.tombstone 2 [97])
      (leBytes 4 (crc32 (Record.tombstone 2 [97]).encode).toNat ++
        leBytes 4 (Record.tombstone 2 [97]).encode.length ++ (Record.tombstone 2 [99]).encode) ∧
    Wal.replayBytes (logOf [giant] ++
      (leBytes 4 (crc32 (Record.tombstone 2 [97]).encode).toNat ++
        leBytes 4 (Record.tombstone 2 [97]).encode.length ++ (Record.tombstone 2 [99]).encode) ++
      logOf []) ≠ [giant] := by
  refine ⟨otherKey_damaged, fun h => ?_⟩
  have hseq : ∀ x ∈ [giant], x.seq < 2 ^ 64 := by
    intro x hx
    have hone : x.seq = 1 := congrArg Record.seq (List.mem_singleton.mp hx)
    rw [hone]
    decide
  rw [List.append_assoc] at h
  have hfits := fits_of_replay hseq (h.trans (List.append_nil _).symm) giant List.mem_cons_self
  exact absurd hfits.length_lt (not_lt.mpr giant_length)

end RustFundamentals.Lsmkv
