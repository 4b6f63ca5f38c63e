import RustFundamentals.Cbloom.Membership

/-!
# cbloom: the wire format

A filter is its bytes: what `to_bytes` writes reads back as the filter, and what `from_bytes`
accepts is what `to_bytes` writes of the result (`wire_format_bijective`).
-/

namespace RustFundamentals.Cbloom

open Foundation

/-! ## Words -/

/-- The bytes of the words. -/
def wordBytes (words : List UInt64) : Bytes := words.flatMap fun word => leBytes 8 word.toNat

theorem wordBytes_cons (word : UInt64) (words : List UInt64) :
    wordBytes (word :: words) = leBytes 8 word.toNat ++ wordBytes words := List.flatMap_cons

theorem wordBytes_length (words : List UInt64) : (wordBytes words).length = words.length * 8 := by
  induction words with
  | nil => rfl
  | cons word words ih =>
    rw [wordBytes_cons, List.length_append, leBytes_length, ih, List.length_cons]
    omega

theorem wordsOf_wordBytes (words : List UInt64) :
    wordsOf words.length (wordBytes words) = words := by
  induction words with
  | nil => rfl
  | cons word words ih =>
    have hword : UInt64.ofNat (ofLe (leBytes 8 word.toNat)) = word := by
      rw [ofLe_leBytes_of_lt word.toNat_lt, UInt64.ofNat_toNat]
    have hlen : (leBytes 8 word.toNat).length = 8 := leBytes_length 8 _
    rw [List.length_cons, wordBytes_cons, wordsOf, List.take_left' hlen, List.drop_left' hlen,
      hword, ih]

theorem wordBytes_wordsOf {n : Nat} {bs : Bytes} (h : bs.length = n * 8) :
    wordBytes (wordsOf n bs) = bs := by
  induction n generalizing bs with
  | zero => exact (List.eq_nil_of_length_eq_zero (by omega)).symm
  | succ n ih =>
    have htake : (bs.take 8).length = 8 := by
      rw [List.length_take]
      omega
    have hrest : (bs.drop 8).length = n * 8 := by
      rw [List.length_drop]
      omega
    have hlt : ofLe (bs.take 8) < 2 ^ 64 := by
      have := ofLe_lt (bs.take 8)
      rw [htake] at this
      exact this
    have hword : leBytes 8 (UInt64.ofNat (ofLe (bs.take 8))).toNat = bs.take 8 := by
      have hbytes := leBytes_ofLe (bs.take 8)
      rw [htake] at hbytes
      rw [UInt64.toNat_ofNat_of_lt' hlt]
      exact hbytes
    rw [wordsOf, wordBytes_cons, hword, ih hrest, List.take_append_drop]

/-! ## Fields -/

theorem field_append {pre post : Bytes} {start stop n : Nat} (hstart : start = pre.length)
    (hn : n < 256 ^ (stop - start)) :
    field (pre ++ (leBytes (stop - start) n ++ post)) start stop = n := by
  have hlen : (leBytes (stop - start) n).length = stop - start := leBytes_length _ _
  rw [field, List.drop_left' hstart.symm, List.take_left' hlen, ofLe_leBytes_of_lt hn]

/-- The bytes of a field that is there. -/
theorem leBytes_field {data : Bytes} {start stop : Nat} (hle : start ≤ stop)
    (h : stop ≤ data.length) :
    data.drop start = leBytes (stop - start) (field data start stop) ++ data.drop stop := by
  have hlen : ((data.drop start).take (stop - start)).length = stop - start := by
    rw [List.length_take, List.length_drop]
    omega
  have hbytes : leBytes (stop - start) (field data start stop) =
      (data.drop start).take (stop - start) := by
    have hle := leBytes_ofLe ((data.drop start).take (stop - start))
    rw [hlen] at hle
    exact hle
  have hdrop : data.drop stop = (data.drop start).drop (stop - start) := by
    rw [List.drop_drop, Nat.add_sub_cancel' hle]
  rw [hbytes, hdrop, List.take_append_drop]

/-! ## Both ways -/

/-- The fields of a filter are in the range of their types. -/
structure Bloom.Typed (b : Bloom) : Prop where
  numBits : b.numBits < 2 ^ 64
  numHashes : b.numHashes < 2 ^ 32
  inserted : b.inserted < 2 ^ 64

theorem toBytes_eq (b : Bloom) :
    b.toBytes = magic ++ (version :: (leBytes 4 b.numHashes ++ (leBytes 8 b.inserted ++
      (leBytes 8 b.numBits ++ wordBytes b.bits)))) := by
  simp only [Bloom.toBytes, wordBytes, List.append_assoc, List.cons_append, List.nil_append]

theorem toBytes_length (b : Bloom) : b.toBytes.length = headerLen + b.bits.length * 8 := by
  simp only [toBytes_eq, List.length_append, List.length_cons, leBytes_length, wordBytes_length]
  show 4 + _ = 25 + _
  omega

/-- **What a filter is written as reads back as the filter.** -/
theorem fromBytes_toBytes {b : Bloom} (ht : b.Typed) (hb : b.numBits = 64 * b.bits.length) :
    Bloom.fromBytes b.toBytes = some b := by
  have hlen := toBytes_length b
  have hmagic : b.toBytes.take 4 = magic := by
    rw [toBytes_eq]
    rfl
  have hversion : b.toBytes[4]? = some version := by
    rw [toBytes_eq]
    rfl
  have hnumHashes : numHashesField b.toBytes = b.numHashes := by
    have := @field_append (magic ++ [version])
      (leBytes 8 b.inserted ++ (leBytes 8 b.numBits ++ wordBytes b.bits)) 5 9 b.numHashes rfl
      ht.numHashes
    rw [toBytes_eq]
    exact this
  have hinserted : insertedField b.toBytes = b.inserted := by
    have := @field_append (magic ++ [version] ++ leBytes 4 b.numHashes)
      (leBytes 8 b.numBits ++ wordBytes b.bits) 9 17 b.inserted rfl ht.inserted
    rw [toBytes_eq]
    exact this
  have hnumBits : numBitsField b.toBytes = b.numBits := by
    have := @field_append
      (magic ++ [version] ++ leBytes 4 b.numHashes ++ leBytes 8 b.inserted)
      (wordBytes b.bits) 17 25 b.numBits rfl ht.numBits
    rw [toBytes_eq]
    exact this
  have htail : b.toBytes.drop headerLen = wordBytes b.bits := by
    rw [toBytes_eq]
    rfl
  have hwords : b.numBits / 64 = b.bits.length := by omega
  unfold Bloom.fromBytes
  rw [if_neg (by omega), if_neg (by simp [hmagic, hversion])]
  dsimp only
  rw [hnumBits, hwords, if_neg (by omega), htail, wordBytes_length,
    Nat.mul_div_cancel _ (by decide), wordsOf_wordBytes, hnumHashes, hinserted]

/-- **What is accepted is what the result is written as.** -/
theorem toBytes_fromBytes {data : Bytes} {b : Bloom} (h : Bloom.fromBytes data = some b) :
    b.toBytes = data := by
  unfold Bloom.fromBytes at h
  split at h
  · cases h
  next hheader =>
  split at h
  · cases h
  next hstart =>
  dsimp only at h
  split at h
  · cases h
  next hlen =>
  rw [not_lt] at hheader
  rw [not_or, not_not, not_not] at hstart
  rw [not_not] at hlen
  obtain rfl := Option.some.inj h
  have hlong : 25 ≤ data.length := hheader
  have hmagic : data = magic ++ data.drop 4 := by rw [← hstart.1, List.take_append_drop]
  have hversion : data.drop 4 = version :: data.drop 5 := by
    obtain ⟨hlt, hget⟩ := List.getElem?_eq_some_iff.mp hstart.2
    rw [List.drop_eq_getElem_cons hlt, hget]
  have hwords : wordBytes (wordsOf ((data.drop headerLen).length / 8) (data.drop headerLen)) =
      data.drop 25 := by
    apply wordBytes_wordsOf
    rw [List.length_drop]
    omega
  rw [toBytes_eq]
  dsimp only
  rw [hwords]
  have hnumHashes := @leBytes_field data 5 9 (by decide) (by omega)
  have hinserted := @leBytes_field data 9 17 (by decide) (by omega)
  have hnumBits := @leBytes_field data 17 25 (by decide) (by omega)
  conv_rhs => rw [hmagic, hversion, hnumHashes, hinserted, hnumBits]
  rfl

/-- **The wire format is a bijection** between the filters whose words are all there and the
buffers that are accepted: none of these has a byte that does not matter. -/
theorem wire_format_bijective :
    (∀ b : Bloom, b.Typed → b.numBits = 64 * b.bits.length →
      Bloom.fromBytes b.toBytes = some b) ∧
    (∀ data b, Bloom.fromBytes data = some b → b.toBytes = data) ∧
    ∀ data data' b, Bloom.fromBytes data = some b → Bloom.fromBytes data' = some b →
      data = data' := by
  refine ⟨fun b ht hb => fromBytes_toBytes ht hb, fun data b h => toBytes_fromBytes h, ?_⟩
  intro data data' b h h'
  rw [← toBytes_fromBytes h, toBytes_fromBytes h']

theorem wireFilter_read_back :
    Bloom.fromBytes wireFilter = some (Bloom.withParams 100 3) ∧
      (Bloom.withParams 100 3).toBytes = wireFilter := by
  have hback : Bloom.fromBytes wireFilter = some (Bloom.withParams 100 3) :=
    wire_format_bijective.1 (Bloom.withParams 100 3) ⟨by decide, by decide, by decide⟩ rfl
  exact ⟨hback, wire_format_bijective.2.1 wireFilter _ hback⟩

end RustFundamentals.Cbloom
