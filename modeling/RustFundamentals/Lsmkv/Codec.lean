import RustFundamentals.Foundation.SelfDelimiting
import RustFundamentals.Lsmkv.TableLemmas

/-!
# lsmkv: the record codec on every buffer

What `decode` accepts is a laid-out record whose kind byte it knows, with anything behind it
(`decode_eq_some_iff`). So `decode` is self-delimiting (`record_codec_self_delimiting`). It is
not canonical: a tombstone may carry value bytes, which `decode` takes and drops
(`encode_undoes_decode_iff`).
-/

namespace RustFundamentals.Lsmkv

open Foundation Foundation.Fs

theorem decodeValue_eq_some {kind : UInt8} {bytes : Bytes} {v : ValueKind} :
    decodeValue kind bytes = some v ↔
      (kind = kindPut ∧ v = .put bytes) ∨ (kind = kindDelete ∧ v = .delete) := by
  unfold decodeValue
  by_cases hput : kind = kindPut
  · subst hput
    simp [kindPut, kindDelete, eq_comm]
  · simp [hput, eq_comm]

/-- The buffer starts with a laid-out record. -/
structure Laid (b : Bytes) (seq : Nat) (kind : UInt8) (key value : Bytes) : Prop where
  seq_lt : seq < 2 ^ 64
  key_lt : key.length < 2 ^ 32
  value_lt : value.length < 2 ^ 32
  front : wire seq kind key value <+: b

theorem decode_of_laid {b : Bytes} {seq : Nat} {kind : UInt8} {key value : Bytes}
    (h : Laid b seq kind key value) :
    Record.decode b = (decodeValue kind value).map fun v =>
      ({ seq, key, value := v }, (wire seq kind key value).length) := by
  obtain ⟨t, rfl⟩ := h.front
  exact Record.decode_wire h.seq_lt h.key_lt h.value_lt kind t

/-- **What `decode` accepts**: a laid-out record of a kind it knows, and how long that is. -/
theorem decode_eq_some_iff {b : Bytes} {r : Record} {n : Nat} :
    Record.decode b = some (r, n) ↔
      ∃ kind value, Laid b r.seq kind r.key value ∧ decodeValue kind value = some r.value ∧
        n = (wire r.seq kind r.key value).length := by
  constructor
  · intro h
    simp only [Record.decode, Nat.zero_add, Option.bind_eq_bind, Option.bind_eq_some_iff,
      Option.map_eq_some_iff] at h
    -- the fields, in the order `decode` reads them
    obtain ⟨_, ⟨seq8, hseq, rfl⟩, kind, hkind, _, ⟨klen4, hklen, rfl⟩, key, hkey, _,
      ⟨vlen4, hvlen, rfl⟩, value, hvalue, v, hv, hr⟩ := h
    obtain ⟨rfl, rfl⟩ := Prod.mk.inj (Option.some.inj hr)
    obtain ⟨hseqLen, hseqAt⟩ := drop_of_slice? hseq
    obtain ⟨hklenLen, hklenAt⟩ := drop_of_slice? hklen
    obtain ⟨hkeyLen, hkeyAt⟩ := drop_of_slice? hkey
    obtain ⟨hvlenLen, hvlenAt⟩ := drop_of_slice? hvlen
    obtain ⟨hvalueLen, hvalueAt⟩ := drop_of_slice? hvalue
    have hkindAt : b.drop 8 = kind :: b.drop 9 := by
      obtain ⟨hlt, rfl⟩ := List.getElem?_eq_some_iff.mp hkind
      exact List.drop_eq_getElem_cons hlt
    -- the length fields denote the lengths, so the bytes read are the bytes laid out
    have hseq8 : leBytes 8 (ofLe seq8) = seq8 := by
      have := leBytes_ofLe seq8
      rwa [hseqLen] at this
    have hkeyLen' : key.length = ofLe klen4 := by omega
    have hklen4 : leBytes 4 key.length = klen4 := by
      have := leBytes_ofLe klen4
      rwa [hklenLen, show 8 + 1 + 4 - (8 + 1) = 4 by rfl, ← hkeyLen'] at this
    have hvalueLen' : value.length = ofLe vlen4 := by omega
    have hvlen4 : leBytes 4 value.length = vlen4 := by
      have := leBytes_ofLe vlen4
      rwa [show vlen4.length = 4 by omega, ← hvalueLen'] at this
    have hseqLt := ofLe_lt seq8
    have hkeyLt := ofLe_lt klen4
    have hvalueLt := ofLe_lt vlen4
    rw [hseqLen] at hseqLt
    rw [hklenLen] at hkeyLt
    rw [show vlen4.length = 4 by omega] at hvalueLt
    have hfront : b = wire (ofLe seq8) kind key value ++
        b.drop (8 + 1 + 4 + ofLe klen4 + 4 + ofLe vlen4) := by
      calc b = seq8 ++ b.drop 8 := hseqAt
        _ = seq8 ++ kind :: (klen4 ++ (key ++ (vlen4 ++ (value ++ _)))) := by
          rw [hkindAt, hklenAt, hkeyAt, hvlenAt, hvalueAt]
        _ = _ := by simp [wire, hseq8, hklen4, hvlen4]
    refine ⟨kind, value, ⟨by omega, ?_, by omega, ⟨_, hfront.symm⟩⟩, hv, ?_⟩
    · show key.length < 2 ^ 32
      omega
    · show _ = (wire (ofLe seq8) kind key value).length
      rw [wire_length]
      omega
  · intro h
    obtain ⟨kind, value, hlaid, hvalue, rfl⟩ := h
    rw [decode_of_laid hlaid, hvalue]
    rfl

/-- A record is no longer than what it is read from. -/
theorem decode_length_le {b : Bytes} {r : Record} {n : Nat} (h : Record.decode b = some (r, n)) :
    r.encode.length ≤ b.length := by
  obtain ⟨kind, value, hlaid, hvalue, -⟩ := decode_eq_some_iff.mp h
  have hfront := hlaid.front.length_le
  have hparts : r.value.parts.2.length ≤ value.length := by
    rcases decodeValue_eq_some.mp hvalue with ⟨-, hv⟩ | ⟨-, hv⟩
    · rw [hv]
      exact le_rfl
    · rw [hv]
      exact Nat.zero_le _
  rw [wire_length] at hfront
  rw [Record.encode_length]
  omega

/-! ## Self-delimitation -/

theorem Laid.of_prefix {b c : Bytes} {seq : Nat} {kind : UInt8} {key value : Bytes}
    (h : Laid b seq kind key value) (hc : wire seq kind key value <+: c) :
    Laid c seq kind key value :=
  ⟨h.seq_lt, h.key_lt, h.value_lt, hc⟩

/-- **`decode` finds out by itself where a record ends.** -/
theorem selfDelimiting_decode : SelfDelimiting Record.decode where
  takes := by
    intro b r n h
    obtain ⟨kind, value, -, -, rfl⟩ := decode_eq_some_iff.mp h
    rw [wire_length]
    omega
  within := by
    intro b r n h
    obtain ⟨kind, value, hlaid, -, rfl⟩ := decode_eq_some_iff.mp h
    exact hlaid.front.length_le
  stable := by
    intro b r n h t
    obtain ⟨kind, value, hlaid, hvalue, rfl⟩ := decode_eq_some_iff.mp h
    have htake : b.take (wire r.seq kind r.key value).length = wire r.seq kind r.key value :=
      (List.prefix_iff_eq_take.mp hlaid.front).symm
    rw [htake]
    exact decode_eq_some_iff.mpr
      ⟨kind, value, hlaid.of_prefix (List.prefix_append _ t), hvalue, rfl⟩

/-- A record decodes from its own encoding. -/
theorem Record.Bounded.decode_encode {r : Record} (h : r.Bounded) :
    Record.decode r.encode = some (r, r.encode.length) := by
  simpa using h.decode_encode_append []

/-- **The record codec is self-delimiting**: an encoding reads back in front of anything, no
proper prefix of it reads at all, what a read takes is there and nothing behind it matters, and
a walk over encodings gives the records back. -/
theorem record_codec_self_delimiting :
    (∀ r : Record, r.Bounded →
      (∀ t, Record.decode (r.encode ++ t) = some (r, r.encode.length)) ∧
      (∀ n < r.encode.length, Record.decode (r.encode.take n) = none)) ∧
    (∀ b r n, Record.decode b = some (r, n) →
      n ≤ b.length ∧ ∀ t, Record.decode (b.take n ++ t) = some (r, n)) ∧
    (∀ rs : List Record, (∀ r ∈ rs, r.Bounded) → ∀ id,
      SsTable.decodeAll id (SsTable.dataOf rs).length 0 (SsTable.dataOf rs) = .ok rs) := by
  refine ⟨fun r hr => ⟨hr.decode_encode_append, fun n hn => ?_⟩, fun b r n h => ?_,
    fun rs hrs id => ?_⟩
  · exact selfDelimiting_decode.proper_prefix hr.decode_encode hn
  · exact ⟨selfDelimiting_decode.within h, selfDelimiting_decode.stable h⟩
  · exact SsTable.decodeAll_dataOf hrs id 0 le_rfl

/-- A put with an empty key, whole and cut. -/
theorem record_codec_self_delimiting_put :
    Record.decode ((Record.put 7 [] [1, 2]).encode ++ [9, 9]) = some (Record.put 7 [] [1, 2], 19) ∧
    Record.decode ((Record.put 7 [] [1, 2]).encode.take 18) = none := by
  have hput : (Record.put 7 [] [1, 2]).Bounded := ⟨by decide, by decide, by decide⟩
  obtain ⟨hwhole, hcut⟩ := record_codec_self_delimiting.1 _ hput
  exact ⟨hwhole [9, 9], hcut 18 (by decide)⟩

/-! ## Canonicity -/

/-- The buffer starts with a whole tombstone that carries value bytes. -/
def FatTombstone (b : Bytes) : Prop :=
  ∃ seq key value, Laid b seq kindDelete key value ∧ value ≠ []

/-- Whatever `decode` accepts is the encoding of what it returns, in the bytes it takes. -/
def EncodeUndoesDecode (b : Bytes) : Prop :=
  ∀ r n, Record.decode b = some (r, n) → r.encode = b.take n

/-- **`encode` undoes `decode`** on the buffers that do not start with a fat tombstone. -/
theorem encode_undoes_decode_iff (b : Bytes) : EncodeUndoesDecode b ↔ ¬ FatTombstone b := by
  constructor
  · intro h hfat
    obtain ⟨seq, key, value, hlaid, hvalue⟩ := hfat
    have hdecode : Record.decode b =
        some (Record.tombstone seq key, (wire seq kindDelete key value).length) := by
      rw [decode_of_laid hlaid]
      rfl
    -- the encoding of the tombstone is shorter by the value bytes
    have hlen := congrArg List.length (h _ _ hdecode)
    rw [List.length_take, Nat.min_eq_left hlaid.front.length_le, Record.encode_length,
      wire_length] at hlen
    have hempty : value.length = 0 := by
      simp only [Record.tombstone, ValueKind.parts, List.length_nil] at hlen
      omega
    exact hvalue (List.length_eq_zero_iff.mp hempty)
  · intro hfat r n h
    obtain ⟨kind, value, hlaid, hvalue, rfl⟩ := decode_eq_some_iff.mp h
    rw [← List.prefix_iff_eq_take.mp hlaid.front, Record.encode_eq_wire]
    rcases decodeValue_eq_some.mp hvalue with ⟨rfl, hput⟩ | ⟨rfl, hdelete⟩
    · rw [hput]
      rfl
    · have hnil : value = [] := by
        by_contra hne
        exact hfat ⟨r.seq, r.key, value, hlaid, hne⟩
      rw [hdelete, hnil]
      rfl

/-- A tombstone with one value byte decodes, and encodes without it. -/
theorem fat_tombstone_not_canonical :
    Record.decode (wire 0 kindDelete [] [65]) = some (Record.tombstone 0 [], 18) ∧
    ¬ EncodeUndoesDecode (wire 0 kindDelete [] [65]) := by
  have hdecode : Record.decode (wire 0 kindDelete [] [65]) =
      some (Record.tombstone 0 [], 18) := by decide
  refine ⟨hdecode, fun h => ?_⟩
  exact absurd (h _ _ hdecode) (by decide)

end RustFundamentals.Lsmkv
