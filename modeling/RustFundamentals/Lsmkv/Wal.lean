import RustFundamentals.Foundation.SelfDelimiting
import RustFundamentals.Lsmkv.Encoding

/-!
# lsmkv: the write-ahead log

`wal.rs`. A frame is `[crc][len][payload]`; `append` writes one frame, `replay` walks the
file frame by frame and stops at the first one that is short, fails its CRC or does not
decode. The live `Wal` is a handle opened for appending, so every write goes to the end of
the one file `wal.log` and the handle needs no state of its own.
-/

namespace RustFundamentals.Lsmkv

open Foundation Foundation.Fs

def walName : Name := ascii "wal.log"

/-- The frame `Wal::append` writes for a record. -/
def frame (record : Record) : Bytes :=
  let payload := record.encode
  leBytes 4 (crc32 payload).toNat ++ leBytes 4 payload.length ++ payload

namespace Wal

/-- `Wal::open`: create the log if it is missing. -/
def openLog : FsM Unit := openAppend .walOpen walName

/-- Append one record as one frame, written by one `write_all`. -/
def append (record : Record) : FsM Unit := writeAll .walAppend walName (frame record)

/-- `fsync` the log. (`flush` on a `File` does nothing.) -/
def sync : FsM Unit := tick .walSync

/-- Truncate the log to empty, sync it, and open it again. -/
def reset : FsM Unit := do
  truncate .walSetLen walName
  tick .walResetSync
  openAppend .walReopen walName

/-- The loop of `replay`; `rest` is the buffer from `pos` on. Each round takes at least the
eight header bytes, so the length of the buffer is fuel enough (`replayBytes_eq_walk`). -/
def replayLoop : Nat → Bytes → List Record
  | 0, _ => []
  | fuel + 1, rest =>
    match slice? rest 0 8 with
    | none => []
    | some header =>
      let crc := ofLe (header.take 4)
      let len := ofLe (header.drop 4)
      match slice? rest 8 (8 + len) with
      | none => []
      | some payload =>
        if (crc32 payload).toNat ≠ crc then []
        else match Record.decode payload with
          | none => []
          | some (record, _) => record :: replayLoop fuel (rest.drop (8 + len))

/-- The records `replay` returns for a log with content `buf`. -/
def replayBytes (buf : Bytes) : List Record := replayLoop buf.length buf

/-- `Wal::replay`: a missing log has nothing to recover. -/
def replay : FsM (List Record) := do
  match ← openIfPresent .walReplayOpen walName with
  | none => pure []
  | some buf =>
    tick .walReplayRead
    pure (replayBytes buf)

/-! ## Replay, frame by frame -/

/-- The frame around a payload. -/
def framed (payload : Bytes) : Bytes :=
  leBytes 4 (crc32 payload).toNat ++ leBytes 4 payload.length ++ payload

@[simp] theorem framed_length (payload : Bytes) : (framed payload).length = 8 + payload.length := by
  simp [framed]
  omega

@[simp] theorem frame_length (r : Record) : (frame r).length = 8 + r.encode.length :=
  framed_length r.encode

/-- One round of `replay`: the frame at the front, if it is whole, intact and decodes. -/
def readFrame : Decoder UInt8 Record := fun rest => do
  let header ← slice? rest 0 8
  let crc := ofLe (header.take 4)
  let len := ofLe (header.drop 4)
  let payload ← slice? rest 8 (8 + len)
  if (crc32 payload).toNat ≠ crc then none
  else (Record.decode payload).map fun r => (r.1, 8 + len)

/-- `replay` walks the frames. -/
theorem replayBytes_eq_walk (buf : Bytes) : replayBytes buf = walk readFrame buf := by
  have hloop : ∀ fuel rest, replayLoop fuel rest = walkLoop readFrame fuel rest := by
    intro fuel
    induction fuel with
    | zero => exact fun _ => rfl
    | succ fuel ih =>
      intro rest
      rw [replayLoop, walkLoop, readFrame]
      cases slice? rest 0 8 with
      | none => rfl
      | some header =>
        simp only [Option.bind_eq_bind, Option.bind_some]
        cases slice? rest 8 (8 + ofLe (header.drop 4)) with
        | none => rfl
        | some payload =>
          simp only [Option.bind_some]
          by_cases hcrc : (crc32 payload).toNat ≠ ofLe (header.take 4)
          · rw [if_pos hcrc, if_pos hcrc]
          · rw [if_neg hcrc, if_neg hcrc]
            cases Record.decode payload with
            | none => rfl
            | some r => simp only [Option.map_some, ih]
  exact hloop _ _

/-- What a round makes of a header and the payload it announces. -/
theorem readFrame_header {crc : Nat} {payload : Bytes} (hcrc : crc < 2 ^ 32)
    (hlen : payload.length < 2 ^ 32) (t : Bytes) :
    readFrame (leBytes 4 crc ++ leBytes 4 payload.length ++ payload ++ t) =
      if (crc32 payload).toNat ≠ crc then none
      else (Record.decode payload).map fun r => (r.1, 8 + payload.length) := by
  have hheader : slice? (leBytes 4 crc ++ leBytes 4 payload.length ++ payload ++ t) 0 8 =
      some (leBytes 4 crc ++ leBytes 4 payload.length) :=
    slice?_append_of_eq [] (payload ++ t) (by simp) (by simp) (by simp)
  have hpayload : slice? (leBytes 4 crc ++ leBytes 4 payload.length ++ payload ++ t) 8
      (8 + payload.length) = some payload :=
    slice?_append_of_eq _ t rfl (by simp) (by simp)
  have hcrc' : ofLe (leBytes 4 crc) = crc := ofLe_leBytes_of_lt (by omega)
  have hlen' : ofLe (leBytes 4 payload.length) = payload.length := ofLe_leBytes_of_lt (by omega)
  simp only [readFrame, hheader, Option.bind_eq_bind, Option.bind_some,
    List.take_left' (leBytes_length _ _), List.drop_left' (leBytes_length _ _), hcrc', hlen',
    hpayload]

/-- **What a round accepts**: a sealed payload that decodes, and how long that is. -/
theorem readFrame_eq_some_iff {b : Bytes} {r : Record} {n : Nat} :
    readFrame b = some (r, n) ↔
      ∃ payload consumed, payload.length < 2 ^ 32 ∧ framed payload <+: b ∧
        Record.decode payload = some (r, consumed) ∧ n = (framed payload).length := by
  constructor
  · intro h
    simp only [readFrame, Option.bind_eq_bind, Option.bind_eq_some_iff] at h
    obtain ⟨header, hheader, payload, hpayload, h⟩ := h
    split at h
    · cases h
    rename_i hcrc
    obtain ⟨⟨r', consumed⟩, hdecode, heq⟩ := Option.map_eq_some_iff.mp h
    obtain ⟨rfl, rfl⟩ := Prod.mk.inj heq
    obtain ⟨hheaderLen, hheaderAt⟩ := drop_of_slice? hheader
    obtain ⟨hpayloadLen, hpayloadAt⟩ := drop_of_slice? hpayload
    have hlen : payload.length = ofLe (header.drop 4) := by omega
    have hlen4 : (header.drop 4).length = 4 := by rw [List.length_drop, hheaderLen]
    have hcrc4 : (header.take 4).length = 4 := by rw [List.length_take, hheaderLen]; rfl
    -- the header is the one of the payload
    have hhigh : leBytes 4 payload.length = header.drop 4 := by
      have := leBytes_ofLe (header.drop 4)
      rwa [hlen4, ← hlen] at this
    have hlow : leBytes 4 (crc32 payload).toNat = header.take 4 := by
      have := leBytes_ofLe (header.take 4)
      rwa [hcrc4, ← not_not.mp hcrc] at this
    have hfront : b = framed payload ++ b.drop (8 + ofLe (header.drop 4)) := by
      calc b = header ++ b.drop 8 := hheaderAt
        _ = header ++ (payload ++ b.drop (8 + ofLe (header.drop 4))) := by rw [hpayloadAt]
        _ = _ := by rw [framed, hlow, hhigh, List.take_append_drop, List.append_assoc]
    refine ⟨payload, consumed, ?_, ⟨_, hfront.symm⟩, hdecode, ?_⟩
    · have := ofLe_lt (header.drop 4)
      rw [hlen4] at this
      omega
    · rw [framed_length, hlen]
  · intro h
    obtain ⟨payload, consumed, hlen, ⟨t, rfl⟩, hdecode, rfl⟩ := h
    have hcrc := (crc32 payload).toNat_lt
    rw [framed, readFrame_header hcrc hlen, if_neg (by simp), hdecode]
    simp
    omega

/-- **A frame says where it ends.** -/
theorem selfDelimiting_readFrame : SelfDelimiting readFrame where
  takes := by
    intro b r n h
    obtain ⟨payload, consumed, -, -, -, rfl⟩ := readFrame_eq_some_iff.mp h
    rw [framed_length]
    omega
  within := by
    intro b r n h
    obtain ⟨payload, consumed, -, hfront, -, rfl⟩ := readFrame_eq_some_iff.mp h
    exact hfront.length_le
  stable := by
    intro b r n h t
    obtain ⟨payload, consumed, hlen, hfront, hdecode, rfl⟩ := readFrame_eq_some_iff.mp h
    rw [← List.prefix_iff_eq_take.mp hfront]
    exact readFrame_eq_some_iff.mpr
      ⟨payload, consumed, hlen, List.prefix_append _ t, hdecode, rfl⟩

theorem readFrame_frame {r : Record} (h : r.Fits) (t : Bytes) :
    readFrame (frame r ++ t) = some (r, (frame r).length) :=
  readFrame_eq_some_iff.mpr
    ⟨r.encode, _, h.length_lt, List.prefix_append _ t, Record.decode_encode h, rfl⟩

theorem replayBytes_nil : replayBytes [] = [] := rfl

/-- **Replay takes a whole frame** and goes on behind it. -/
theorem replayBytes_frame_append {r : Record} (h : r.Fits) (t : Bytes) :
    replayBytes (frame r ++ t) = r :: replayBytes t := by
  rw [replayBytes_eq_walk, walk_of_some selfDelimiting_readFrame (readFrame_frame h t),
    List.drop_left, ← replayBytes_eq_walk]

/-- **Replay stops at a torn frame**: a proper prefix of a frame gives nothing. -/
theorem replayBytes_torn {r : Record} (h : r.Fits) {n : Nat} (hn : n < (frame r).length) :
    replayBytes ((frame r).take n) = [] := by
  have hwhole : readFrame (frame r) = some (r, (frame r).length) := by
    simpa using readFrame_frame h []
  rw [replayBytes_eq_walk, walk_of_none (selfDelimiting_readFrame.proper_prefix hwhole hn)]

/-- Replay of whole frames in front of anything. -/
theorem replayBytes_frames_append {rs : List Record} (h : ∀ r ∈ rs, r.Fits) (t : Bytes) :
    replayBytes ((rs.map frame).flatten ++ t) = rs ++ replayBytes t := by
  rw [replayBytes_eq_walk, replayBytes_eq_walk]
  exact walk_codes selfDelimiting_readFrame (fun r hr => readFrame_frame (h r hr)) t

end Wal

end RustFundamentals.Lsmkv
