import RustFundamentals.Foundation.Loop
import RustFundamentals.Foundation.Usize
import RustFundamentals.Lsmkv.Wal

/-!
# lsmkv: replay on every log

`replay` returns the whole frames of a log: of a cut log those in front of the cut, and of a
log with anything behind it all of them (`replay_returns_whole_frames`). The loop is also run
here as the source has it, on positions and with the additions of either build, and comes to
the same end on every buffer (`replayRounds_eq`).
-/

namespace RustFundamentals.Lsmkv

open Foundation Foundation.Fs

/-! ## The loop on positions -/

/-- `Record::decode` with the additions of the build. -/
def Record.decodeChecked (ov : Overflow) (buf : Bytes) :
    Except (Stop Error) (Option (Record × Nat)) := do
  let pos := 0
  let some seq ← getRange ov buf pos 8 | return none
  let pos ← usizeAdd ov pos 8
  let some kind := buf[pos]? | return none
  let pos ← usizeAdd ov pos 1
  let some klen ← getRange ov buf pos 4 | return none
  let pos ← usizeAdd ov pos 4
  let some key ← getRange ov buf pos (ofLe klen) | return none
  let pos ← usizeAdd ov pos (ofLe klen)
  let some vlen ← getRange ov buf pos 4 | return none
  let pos ← usizeAdd ov pos 4
  let some valueBytes ← getRange ov buf pos (ofLe vlen) | return none
  let pos ← usizeAdd ov pos (ofLe vlen)
  let some value := decodeValue kind valueBytes | return none
  return some ({ seq := ofLe seq, key, value }, pos)

namespace Wal

/-- `u32::from_le_bytes(header[from..from + 4].try_into().unwrap())`. -/
def headerField (header : Bytes) (start : Nat) : Except (Stop Error) Nat :=
  match slice? header start (start + 4) with
  | some field => .ok (ofLe field)
  | none => .error .panicked

/-- The body of the loop of `replay`: it breaks with the records so far, or goes on from another
position with one more. -/
def replayRound (ov : Overflow) (buf : Bytes) (state : Nat × List Record) :
    Except (Stop Error) (List Record ⊕ Nat × List Record) := do
  let (pos, records) := state
  let some header ← getRange ov buf pos 8 | return .inl records
  let crc ← headerField header 0
  let len ← headerField header 4
  let start ← usizeAdd ov pos 8
  let some payload ← getRange ov buf start len | return .inl records
  if (crc32 payload).toNat ≠ crc then return .inl records
  let some (record, _) ← Record.decodeChecked ov payload | return .inl records
  let step ← usizeAdd ov 8 len
  let pos ← usizeAdd ov pos step
  return .inr (pos, records ++ [record])

/-- The loop of `replay`, for a number of rounds. -/
def replayRounds (ov : Overflow) (buf : Bytes) (rounds : Nat) :
    Option (Except (Stop Error) (List Record)) := runLoop (replayRound ov buf) rounds (0, [])

end Wal

theorem ofLe_lt_of_slice? {buf : Bytes} {start : Nat} {field : Bytes}
    (h : slice? buf start (start + 4) = some field) : ofLe field < 2 ^ 32 := by
  have hlen := (drop_of_slice? h).1
  have hlt := ofLe_lt field
  rwa [hlen, Nat.add_sub_cancel_left] at hlt

/-- On a buffer in memory the additions of `decode` are exact. -/
theorem Record.decodeChecked_eq (ov : Overflow) {buf : Bytes} (h : buf.length ≤ isizeMax) :
    Record.decodeChecked ov buf = .ok (Record.decode buf) := by
  have hadd : ∀ {pos len : Nat}, pos ≤ buf.length → len < 2 ^ 32 →
      (usizeAdd ov pos len : Except (Stop Error) Nat) = .ok (pos + len) := by
    intro pos len hpos hlen
    apply usizeAdd_of_lt
    unfold isizeMax at h
    omega
  have hget : ∀ {pos len : Nat}, pos ≤ buf.length → len < 2 ^ 32 →
      (getRange ov buf pos len : Except (Stop Error) _) = .ok (slice? buf pos (pos + len)) :=
    fun hpos hlen => getRange_of_le ov h hpos hlen
  simp only [Record.decodeChecked, Record.decode, bind, Except.bind, pure, Except.pure]
  -- `seq`, the kind, and the key length
  rw [hget (Nat.zero_le _) (by decide)]
  cases hseq : slice? buf 0 (0 + 8) with
  | none => rfl
  | some seq =>
    have hseqIn := (slice?_eq_some hseq).2.1
    simp only [hadd (Nat.zero_le _) (show 8 < 2 ^ 32 by decide)]
    cases hkind : buf[0 + 8]? with
    | none => rfl
    | some kind =>
      have hkindIn : 0 + 8 + 1 ≤ buf.length := (List.getElem?_eq_some_iff.mp hkind).1
      simp only [hadd hseqIn (show 1 < 2 ^ 32 by decide),
        hget hkindIn (show 4 < 2 ^ 32 by decide)]
      cases hklen : slice? buf (0 + 8 + 1) (0 + 8 + 1 + 4) with
      | none => rfl
      | some klen =>
        have hklenIn := (slice?_eq_some hklen).2.1
        have hklenLt := ofLe_lt_of_slice? hklen
        simp only [hadd hkindIn (show 4 < 2 ^ 32 by decide), hget hklenIn hklenLt]
        -- the key, and the value length
        cases hkey : slice? buf (0 + 8 + 1 + 4) (0 + 8 + 1 + 4 + ofLe klen) with
        | none => simp [hkey]
        | some key =>
          have hkeyIn := (slice?_eq_some hkey).2.1
          simp only [hadd hklenIn hklenLt, hget hkeyIn (show 4 < 2 ^ 32 by decide)]
          cases hvlen : slice? buf (0 + 8 + 1 + 4 + ofLe klen)
              (0 + 8 + 1 + 4 + ofLe klen + 4) with
          | none => simp [hkey, hvlen]
          | some vlen =>
            have hvlenIn := (slice?_eq_some hvlen).2.1
            have hvlenLt := ofLe_lt_of_slice? hvlen
            simp only [hadd hkeyIn (show 4 < 2 ^ 32 by decide), hget hvlenIn hvlenLt]
            -- the value
            cases hvalue : slice? buf (0 + 8 + 1 + 4 + ofLe klen + 4)
                (0 + 8 + 1 + 4 + ofLe klen + 4 + ofLe vlen) with
            | none => simp [hkey, hvlen, hvalue]
            | some value =>
              simp only [hadd hvlenIn hvlenLt]
              cases hv : decodeValue kind value with
              | none => simp [hkey, hvlen, hvalue, hv]
              | some v => simp [hkey, hvlen, hvalue, hv]

namespace Wal

theorem headerField_eq {header : Bytes} (h : header.length = 8) :
    headerField header 0 = .ok (ofLe (header.take 4)) ∧
      headerField header 4 = .ok (ofLe (header.drop 4)) := by
  have hlow : slice? header 0 (0 + 4) = some (header.take 4) := by
    rw [slice?, if_pos (by omega)]
    rfl
  have hhigh : slice? header 4 (4 + 4) = some (header.drop 4) := by
    rw [slice?, if_pos (by omega), List.take_of_length_le (by rw [List.length_drop]; omega)]
  exact ⟨by rw [headerField, hlow], by rw [headerField, hhigh]⟩

/-- **A round of the loop** reads the frame at `pos`, in either build. -/
theorem replayRound_eq (ov : Overflow) {buf : Bytes} {pos : Nat} (h : buf.length ≤ isizeMax)
    (hpos : pos ≤ buf.length) (records : List Record) :
    replayRound ov buf (pos, records) =
      .ok ((readFrame (buf.drop pos)).elim (.inl records)
        fun r => .inr (pos + r.2, records ++ [r.1])) := by
  have h63 : isizeMax + 2 ^ 33 < 2 ^ 64 := by decide
  simp only [replayRound, readFrame, slice?_drop hpos, bind, Except.bind, pure, Except.pure]
  rw [getRange_of_le ov h hpos (by decide)]
  cases hheader : slice? buf pos (pos + 8) with
  | none => simp
  | some header =>
    obtain ⟨-, hin, -⟩ := slice?_eq_some hheader
    have hlen8 : header.length = 8 := by rw [(drop_of_slice? hheader).1]; omega
    have hlenLt : ofLe (header.drop 4) < 2 ^ 32 := by
      have := ofLe_lt (header.drop 4)
      rwa [List.length_drop, hlen8] at this
    obtain ⟨hlow, hhigh⟩ := headerField_eq hlen8
    simp only [hlow, hhigh, usizeAdd_of_lt ov (show pos + 8 < 2 ^ 64 by omega)]
    rw [getRange_of_le ov h hin hlenLt, Nat.add_assoc]
    cases hpayload : slice? buf (pos + 8) (pos + (8 + ofLe (header.drop 4))) with
    | none => simp [hpayload]
    | some payload =>
      have hshort : payload.length ≤ isizeMax := by
        have := (drop_of_slice? hpayload).1
        have := (slice?_eq_some hpayload).2.1
        omega
      simp only [hpayload, Option.bind_some]
      by_cases hcrc : (crc32 payload).toNat = ofLe (header.take 4)
      · -- an intact frame: the positions of the next round are exact
        simp only [hcrc, ne_eq, not_true_eq_false, if_false, Record.decodeChecked_eq ov hshort]
        cases Record.decode payload with
        | none => rfl
        | some r =>
          simp only [usizeAdd_of_lt ov (show 8 + ofLe (header.drop 4) < 2 ^ 64 by omega),
            usizeAdd_of_lt ov (show pos + (8 + ofLe (header.drop 4)) < 2 ^ 64 by omega)]
          rfl
      · simp only [hcrc, ne_eq, not_false_eq_true, if_true]
        rfl

/-- **The loop of `replay` comes to its end**, without a panic, in either build. -/
theorem replayRounds_eq (ov : Overflow) {buf : Bytes} (h : buf.length ≤ isizeMax) {rounds : Nat}
    (hrounds : buf.length < rounds) :
    replayRounds ov buf rounds = some (.ok (replayBytes buf)) := by
  -- from any position, the loop is on its way to what a walk from there reads
  have hround : ∀ state : Nat × List Record, state.1 ≤ buf.length →
      Approaches (replayRound ov buf) (fun state => state.1 ≤ buf.length)
        (fun state => buf.length - state.1)
        (fun state => .ok (state.2 ++ walk readFrame (buf.drop state.1))) state := by
    intro state hpos
    obtain ⟨pos, records⟩ := state
    rw [Approaches, replayRound_eq ov h hpos]
    cases hframe : readFrame (buf.drop pos) with
    | none =>
      refine .inr (.inl ⟨records, rfl, ?_⟩)
      simp only [walk_of_none hframe, List.append_nil]
    | some r =>
      obtain ⟨record, n⟩ := r
      have htakes := selfDelimiting_readFrame.takes hframe
      have hwithin := selfDelimiting_readFrame.within hframe
      rw [List.length_drop] at hwithin
      simp only at hpos
      refine .inr (.inr ⟨(pos + n, records ++ [record]), rfl, ?_, ?_, ?_⟩)
      · show pos + n ≤ buf.length
        omega
      · show buf.length - (pos + n) < buf.length - pos
        omega
      · simp only [walk_of_some selfDelimiting_readFrame hframe, List.drop_drop, List.append_assoc,
          List.singleton_append]
  rw [replayBytes_eq_walk]
  exact runLoop_eq hround (Nat.zero_le _) (by simpa using hrounds)

end Wal

/-! ## Whole frames -/

/-- What `append` has written for records, one after the other. -/
def logOf (rs : List Record) : Bytes := (rs.map frame).flatten

/-- **Replay returns exactly the whole frames**: of a cut log the longest list of records whose
frames are in front of the cut, of a log with anything behind it all of them; and it comes to an
end on every buffer, in either build. -/
theorem replay_returns_whole_frames {rs : List Record} (h : ∀ r ∈ rs, r.Fits) :
    (∀ n, LongestPrefix (fun p => (logOf p).length ≤ n)
      (Wal.replayBytes ((logOf rs).take n)) rs) ∧
    (∀ t, Wal.replayBytes (logOf rs ++ t) = rs ++ Wal.replayBytes t) ∧
    (∀ ov buf, buf.length ≤ isizeMax → ∀ rounds, buf.length < rounds →
      Wal.replayRounds ov buf rounds = some (.ok (Wal.replayBytes buf))) := by
  refine ⟨fun n => ?_, Wal.replayBytes_frames_append h, fun ov buf hbuf rounds hrounds =>
    Wal.replayRounds_eq ov hbuf hrounds⟩
  rw [Wal.replayBytes_eq_walk]
  exact walk_take Wal.selfDelimiting_readFrame (fun r hr => Wal.readFrame_frame (h r hr)) n

/-- Two frames, cut inside the second, and with a torn header behind them. -/
theorem twoFrames_replayed :
    LongestPrefix (fun p => (logOf p).length ≤ 40)
      (Wal.replayBytes ((logOf [Record.put 1 [97] [98], Record.tombstone 2 [97]]).take 40))
      [Record.put 1 [97] [98], Record.tombstone 2 [97]] ∧
    Wal.replayBytes (logOf [Record.put 1 [97] [98], Record.tombstone 2 [97]] ++ [1, 2, 3]) =
      [Record.put 1 [97] [98], Record.tombstone 2 [97]] ++ Wal.replayBytes [1, 2, 3] := by
  have hfits : ∀ r ∈ [Record.put 1 [97] [98], Record.tombstone 2 [97]], r.Fits := by
    intro r hr
    simp only [List.mem_cons, List.not_mem_nil, or_false] at hr
    rcases hr with rfl | rfl
    · exact ⟨by decide, by decide⟩
    · exact ⟨by decide, by decide⟩
  obtain ⟨hcut, hbehind, -⟩ := replay_returns_whole_frames hfits
  exact ⟨hcut 40, hbehind [1, 2, 3]⟩

end RustFundamentals.Lsmkv
