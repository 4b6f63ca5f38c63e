import RustFundamentals.Cbloom.Ffi
import RustFundamentals.Foundation.Runs

/-!
# cbloom: no false negatives

A packed filter has room for every probe, so `add` sets exactly the probes of its item and
`contains` reads them (`add_spec`, `contains_spec`). Whether bytes from outside make a packed
filter is up to two fields of their header (`deserialized_usable_iff`).
-/

namespace RustFundamentals.Cbloom

open Foundation

/-! ## Bits of a word -/

theorem testBit_or_shift (w : UInt64) {i : Nat} (h : i < 64) (j : Nat) :
    (w ||| (1 <<< UInt64.ofNat i)).toNat.testBit j = (w.toNat.testBit j || decide (i = j)) := by
  have hi : (UInt64.ofNat i).toNat = i := by
    rw [UInt64.toNat_ofNat', Nat.mod_eq_of_lt (by omega)]
  have hpow : 2 ^ i < 2 ^ 64 := Nat.pow_lt_pow_right (by decide) h
  have hone : UInt64.toNat 1 <<< i = 2 ^ i := by
    rw [Nat.shiftLeft_eq]
    exact Nat.one_mul _
  rw [UInt64.toNat_or, UInt64.toNat_shiftLeft, hi, Nat.mod_eq_of_lt h, hone,
    Nat.mod_eq_of_lt hpow, Nat.testBit_or, Nat.testBit_two_pow]

theorem shift_and_one (w : UInt64) {i : Nat} (h : i < 64) :
    ((w >>> UInt64.ofNat i) &&& 1 == 1) = w.toNat.testBit i := by
  have hi : (UInt64.ofNat i).toNat = i := by
    rw [UInt64.toNat_ofNat', Nat.mod_eq_of_lt (by omega)]
  have hbit : ((w >>> UInt64.ofNat i) &&& 1).toNat = w.toNat / 2 ^ i % 2 := by
    rw [UInt64.toNat_and, UInt64.toNat_shiftRight, hi, Nat.mod_eq_of_lt h,
      Nat.shiftRight_eq_div_pow]
    exact Nat.and_one_is_mod _
  rw [Nat.testBit_eq_decide_div_mod_eq, Bool.eq_iff_iff, beq_iff_eq, decide_eq_true_eq,
    ← UInt64.toNat_inj, hbit]
  rfl

/-! ## Bits of a filter -/

namespace Bloom

/-- The bit `j` of the array is set. -/
def isSet (b : Bloom) (j : Nat) : Bool :=
  match b.bits[j / 64]? with
  | some word => word.toNat.testBit (j % 64)
  | none => false

/-- The position of the `i`-th probe of an item. -/
def probe (b : Bloom) (item : Bytes) (i : Nat) : Nat :=
  (combined (hashPair item).1 (hashPair item).2 i).toNat % b.numBits

/-- What `with_params` makes and the probes rely on. -/
structure Packed (b : Bloom) : Prop where
  bits_ne : b.bits ≠ []
  numBits_eq : b.numBits = 64 * b.bits.length
  hashes_pos : 1 ≤ b.numHashes

theorem withParams_packed (numBits numHashes : Nat) : (withParams numBits numHashes).Packed where
  bits_ne := by
    apply List.ne_nil_of_length_pos
    simp only [withParams, List.length_replicate]
    omega
  numBits_eq := by
    simp only [withParams, List.length_replicate]
    omega
  hashes_pos := le_max_right _ _

theorem Packed.numBits_pos {b : Bloom} (h : b.Packed) : 0 < b.numBits := by
  have := List.length_pos_iff.mpr h.bits_ne
  rw [h.numBits_eq]
  omega

theorem Packed.probe_lt {b : Bloom} (h : b.Packed) (item : Bytes) (i : Nat) :
    b.probe item i < 64 * b.bits.length := by
  rw [← h.numBits_eq]
  exact Nat.mod_lt _ h.numBits_pos

theorem bitIndex_eq_probe {b : Bloom} (hpos : 0 < b.numBits) (item : Bytes) (i : Nat) :
    bitIndex (hashPair item).1 (hashPair item).2 i b.numBits = .ok (b.probe item i) := by
  rw [bitIndex, if_neg hpos.ne']
  rfl

theorem Packed.bitIndex {b : Bloom} (h : b.Packed) (item : Bytes) (i : Nat) :
    bitIndex (hashPair item).1 (hashPair item).2 i b.numBits = .ok (b.probe item i) :=
  bitIndex_eq_probe h.numBits_pos item i

theorem getBit_eq {b : Bloom} {index : Nat} (h : index < 64 * b.bits.length) :
    b.getBit index = .ok (b.isSet index) := by
  have hword : index / 64 < b.bits.length := by omega
  rw [getBit, isSet, List.getElem?_eq_getElem hword]
  show Except.ok _ = _
  rw [shift_and_one _ (Nat.mod_lt _ (by decide))]

/-- The filter `b` with more bits set: those in `on`. -/
structure Sets (b b' : Bloom) (on : Nat → Prop) : Prop where
  length_eq : b'.bits.length = b.bits.length
  numBits_eq : b'.numBits = b.numBits
  numHashes_eq : b'.numHashes = b.numHashes
  isSet_iff : ∀ j, b'.isSet j = true ↔ b.isSet j = true ∨ on j

theorem Sets.refl (b : Bloom) : b.Sets b fun _ => False := ⟨rfl, rfl, rfl, by simp⟩

theorem Sets.trans {b b' b'' : Bloom} {on on' : Nat → Prop} (h : b.Sets b' on)
    (h' : b'.Sets b'' on') : b.Sets b'' fun j => on j ∨ on' j where
  length_eq := by rw [h'.length_eq, h.length_eq]
  numBits_eq := by rw [h'.numBits_eq, h.numBits_eq]
  numHashes_eq := by rw [h'.numHashes_eq, h.numHashes_eq]
  isSet_iff := by
    intro j
    rw [h'.isSet_iff, h.isSet_iff, or_assoc]

theorem Sets.congr {b b' : Bloom} {on on' : Nat → Prop} (h : b.Sets b' on)
    (hon : ∀ j, on j ↔ on' j) : b.Sets b' on' :=
  ⟨h.length_eq, h.numBits_eq, h.numHashes_eq, fun j => by rw [h.isSet_iff, hon]⟩

theorem Sets.packed {b b' : Bloom} {on : Nat → Prop} (h : b.Sets b' on) (hb : b.Packed) :
    b'.Packed where
  bits_ne := by
    rw [← List.length_pos_iff, h.length_eq]
    exact List.length_pos_iff.mpr hb.bits_ne
  numBits_eq := by rw [h.numBits_eq, hb.numBits_eq, h.length_eq]
  hashes_pos := h.numHashes_eq ▸ hb.hashes_pos

theorem Sets.probe {b b' : Bloom} {on : Nat → Prop} (h : b.Sets b' on) (item : Bytes) (i : Nat) :
    b'.probe item i = b.probe item i := by
  rw [Bloom.probe, Bloom.probe, h.numBits_eq]

theorem setBit_spec {b : Bloom} {index : Nat} (h : index < 64 * b.bits.length) :
    ∃ b', b.setBit index = .ok b' ∧ b.Sets b' fun j => j = index := by
  have hword : index / 64 < b.bits.length := by omega
  refine ⟨_, by rw [setBit, List.getElem?_eq_getElem hword], ?_⟩
  refine ⟨List.length_set, rfl, rfl, fun j => ?_⟩
  unfold isSet
  by_cases hsame : index / 64 = j / 64
  · have hj : j / 64 < b.bits.length := by omega
    have hpos : index % 64 = j % 64 ↔ j = index := by omega
    rw [List.getElem?_set, if_pos hsame, if_pos hword, List.getElem?_eq_getElem hj]
    show (_ ||| _ : UInt64).toNat.testBit (j % 64) = true ↔ _
    rw [testBit_or_shift _ (Nat.mod_lt _ (by decide)), Bool.or_eq_true, decide_eq_true_eq, hpos]
    simp only [hsame]
  · have hne : j ≠ index := by
      intro hj
      exact hsame (by rw [hj])
    rw [List.getElem?_set_ne hsame, iff_self_or]
    exact fun hj => absurd hj hne

/-! ## `add` and `contains` -/

theorem addLoop_spec (item : Bytes) (is : List Nat) {b : Bloom} (hb : b.Packed) :
    ∃ b', addLoop (hashPair item).1 (hashPair item).2 is b = (.ok (), b') ∧
      b'.inserted = b.inserted ∧ b.Sets b' fun j => ∃ i ∈ is, j = b.probe item i := by
  induction is generalizing b with
  | nil =>
    refine ⟨b, rfl, rfl, (Sets.refl b).congr fun j => ?_⟩
    simp
  | cons i is ih =>
    obtain ⟨b₁, hset, hb₁⟩ := setBit_spec (hb.probe_lt item i)
    obtain ⟨b', hrest, hins, hb'⟩ := ih (hb₁.packed hb)
    refine ⟨b', ?_, ?_, (hb₁.trans hb').congr fun j => ?_⟩
    · have hbind : (Except.ok (b.probe item i) >>= b.setBit) = .ok b₁ := hset
      rw [addLoop, hb.bitIndex, hbind]
      exact hrest
    · rw [hins]
      unfold setBit at hset
      split at hset
      · cases hset
      · rw [← Except.ok.inj hset]
    · simp only [hb₁.probe, List.mem_cons, exists_eq_or_imp]

/-- **`add` sets the probes of its item** and nothing else. All it can stumble over is the
counter, after the bits are set. -/
theorem add_spec (ov : Overflow) (item : Bytes) {b : Bloom} (hb : b.Packed) :
    ((b.add ov item).1 = .ok () ∨ (b.add ov item).1 = .error .counterOverflow) ∧
      b.Sets (b.add ov item).2 fun j => ∃ i < b.numHashes, j = b.probe item i := by
  obtain ⟨b', hloop, -, hb'⟩ := addLoop_spec item (List.range b.numHashes) hb
  have hset : b.Sets b' fun j => ∃ i < b.numHashes, j = b.probe item i :=
    hb'.congr fun j => by simp only [List.mem_range]
  unfold add
  simp only [hloop]
  cases ov.fit 64 (b'.inserted + 1) with
  | none => exact ⟨.inr rfl, hset⟩
  | some n => exact ⟨.inl rfl, hset.length_eq, hset.numBits_eq, hset.numHashes_eq, hset.isSet_iff⟩

theorem allLoop_spec (item : Bytes) (is : List Nat) {b : Bloom} (hb : b.Packed) :
    b.allLoop (hashPair item).1 (hashPair item).2 is =
      .ok (is.all fun i => b.isSet (b.probe item i)) := by
  induction is with
  | nil => rfl
  | cons i is ih =>
    rw [allLoop, hb.bitIndex]
    show (do if ← b.getBit (b.probe item i) then _ else _) = _
    rw [getBit_eq (hb.probe_lt item i)]
    show (if b.isSet (b.probe item i) = true then _ else _) = _
    cases hset : b.isSet (b.probe item i) with
    | false => simp [hset]
    | true => simp [hset, ih]

/-- **`contains` asks whether all probes of the item are set.** -/
theorem contains_spec (item : Bytes) {b : Bloom} (hb : b.Packed) :
    b.contains item = .ok ((List.range b.numHashes).all fun i => b.isSet (b.probe item i)) :=
  allLoop_spec item (List.range b.numHashes) hb

end Bloom

/-! ## Runs -/

/-- A call on a filter. -/
inductive Op
  | add (item : Bytes)
  | contains (item : Bytes)
  deriving DecidableEq

/-- A call: what it returns, and the filter afterwards. -/
def exec (ov : Overflow) (b : Bloom) : Op → Except Panic (Option Bool) × Bloom
  | .add item => ((b.add ov item).1.map fun _ => none, (b.add ov item).2)
  | .contains item => ((b.contains item).map some, b)

/-- Not a division by zero, and not an index out of range. -/
def InBounds (answer : Except Panic (Option Bool)) : Prop :=
  answer ≠ .error .remainderByZero ∧ answer ≠ .error .indexOutOfRange

/-- The filter is as `with_params` makes them, its calls stay in bounds, and what has been
added is present, for a Rust caller and for one behind the C functions. -/
structure Usable (b : Bloom) : Prop where
  packed : b.Packed
  inBounds : ∀ ov ops, Along (exec ov) (fun b op => InBounds (exec ov b op).1) b ops
  present : ∀ ov ops item, .add item ∈ ops →
    (runFrom (exec ov) b ops).contains item = .ok true ∧
      cbloomContains (some (runFrom (exec ov) b ops)) (some item) = true

/-- All the bits an item asks for are set. -/
def Present (item : Bytes) (b : Bloom) : Prop :=
  ∀ i < b.numHashes, b.isSet (b.probe item i) = true

theorem Present.contains {item : Bytes} {b : Bloom} (h : Present item b) (hb : b.Packed) :
    b.contains item = .ok true := by
  rw [Bloom.contains_spec item hb]
  congr 1
  rw [List.all_eq_true]
  intro i hi
  exact h i (List.mem_range.mp hi)

/-- Bits are only ever set. -/
theorem Present.sets {item : Bytes} {b b' : Bloom} {on : Nat → Prop} (h : Present item b)
    (hb : b.Sets b' on) : Present item b' := by
  intro i hi
  rw [hb.numHashes_eq] at hi
  rw [hb.isSet_iff, hb.probe]
  exact .inl (h i hi)

theorem Present.added (ov : Overflow) (item : Bytes) {b : Bloom} (hb : b.Packed) :
    Present item (b.add ov item).2 := by
  obtain ⟨-, hset⟩ := Bloom.add_spec ov item hb
  intro i hi
  rw [hset.numHashes_eq] at hi
  rw [hset.isSet_iff, hset.probe]
  exact .inr ⟨i, hi, rfl⟩

/-- One call: it stays in bounds, and only sets bits. -/
theorem exec_spec (ov : Overflow) (op : Op) {b : Bloom} (hb : b.Packed) :
    InBounds (exec ov b op).1 ∧ ∃ on, b.Sets (exec ov b op).2 on := by
  cases op with
  | add item =>
    obtain ⟨hout, hset⟩ := Bloom.add_spec ov item hb
    refine ⟨?_, _, hset⟩
    show InBounds ((b.add ov item).1.map fun _ => none)
    rcases hout with hout | hout <;> rw [hout]
    · exact ⟨by simp [Except.map], by simp [Except.map]⟩
    · exact ⟨by simp [Except.map], by simp [Except.map]⟩
  | contains item =>
    refine ⟨?_, _, Bloom.Sets.refl b⟩
    show InBounds ((b.contains item).map some)
    rw [Bloom.contains_spec item hb]
    exact ⟨by simp [Except.map], by simp [Except.map]⟩

theorem run_spec (ov : Overflow) (ops : List Op) {b : Bloom} (hb : b.Packed) :
    Along (exec ov) (fun b op => InBounds (exec ov b op).1) b ops ∧
      ∃ on, b.Sets (runFrom (exec ov) b ops) on := by
  induction ops generalizing b with
  | nil => exact ⟨trivial, _, Bloom.Sets.refl b⟩
  | cons op ops ih =>
    obtain ⟨hbounds, on, hset⟩ := exec_spec ov op hb
    obtain ⟨halong, on', hset'⟩ := ih (hset.packed hb)
    exact ⟨⟨hbounds, halong⟩, _, hset.trans hset'⟩

/-- An item stays present from its addition on. -/
theorem run_present (ov : Overflow) {ops : List Op} {item : Bytes} (h : .add item ∈ ops)
    {b : Bloom} (hb : b.Packed) : Present item (runFrom (exec ov) b ops) := by
  induction ops generalizing b with
  | nil => cases h
  | cons op ops ih =>
    obtain ⟨-, on, hset⟩ := exec_spec ov op hb
    have hnext := hset.packed hb
    rcases List.mem_cons.mp h with hop | hlater
    · subst hop
      obtain ⟨-, on', hset'⟩ := run_spec ov ops hnext
      exact (Present.added ov item hb).sets hset'
    · exact ih hlater hnext

theorem usable_iff_packed {b : Bloom} : Usable b ↔ b.Packed := by
  constructor
  · exact fun h => h.packed
  · intro hb
    refine ⟨hb, fun ov ops => (run_spec ov ops hb).1, fun ov ops item h => ?_⟩
    obtain ⟨-, on, hset⟩ := run_spec ov ops hb
    have hpresent := (run_present ov h hb).contains (hset.packed hb)
    refine ⟨hpresent, ?_⟩
    rw [cbloomContains, hpresent]

/-! ## Filters from bytes -/

theorem wordsOf_length (n : Nat) (bs : Bytes) : (wordsOf n bs).length = n := by
  induction n generalizing bs with
  | zero => rfl
  | succ n ih => rw [wordsOf, List.length_cons, ih]

/-- What an accepted buffer becomes: its fields, and as many words as the bits it claims come
to when divided by 64. -/
theorem fromBytes_some {data : Bytes} {b : Bloom} (h : Bloom.fromBytes data = some b) :
    b.numBits = numBitsField data ∧ b.numHashes = numHashesField data ∧
      b.inserted = insertedField data ∧ b.bits.length = numBitsField data / 64 := by
  unfold Bloom.fromBytes at h
  split at h
  · cases h
  split at h
  · cases h
  dsimp only at h
  split at h
  · cases h
  rename_i hlen
  rw [not_not] at hlen
  obtain rfl := Option.some.inj h
  refine ⟨rfl, rfl, rfl, ?_⟩
  show (wordsOf _ _).length = _
  rw [wordsOf_length, List.length_drop]
  omega

/-- **A deserialized filter is usable exactly when its header makes sense**: a positive
multiple of 64 bits, and at least one hash. -/
theorem deserialized_usable_iff (data : Bytes) (b : Bloom)
    (h : cbloomDeserialize (some data) = some b) :
    Usable b ↔ 64 ∣ numBitsField data ∧ 0 < numBitsField data ∧ 1 ≤ numHashesField data := by
  obtain ⟨hbits, hhashes, -, hlen⟩ := fromBytes_some h
  rw [usable_iff_packed]
  constructor
  · intro hb
    have hpos := hb.numBits_pos
    have heq := hb.numBits_eq
    rw [hbits] at hpos heq
    refine ⟨⟨b.bits.length, heq⟩, hpos, ?_⟩
    rw [← hhashes]
    exact hb.hashes_pos
  · intro hheader
    obtain ⟨hdvd, hpos, hone⟩ := hheader
    refine ⟨?_, ?_, ?_⟩
    · apply List.ne_nil_of_length_pos
      rw [hlen]
      exact Nat.div_pos (Nat.le_of_dvd hpos hdvd) (by decide)
    · rw [hbits, hlen, Nat.mul_div_cancel' hdvd]
    · rw [hhashes]
      exact hone

/-- A filter that went over the wire. -/
def wireFilter : Bytes := (Bloom.withParams 100 3).toBytes

theorem wireFilter_usable :
    Usable (Bloom.withParams 100 3) ↔
      64 ∣ numBitsField wireFilter ∧ 0 < numBitsField wireFilter ∧
        1 ≤ numHashesField wireFilter :=
  deserialized_usable_iff wireFilter (Bloom.withParams 100 3) (by decide)

/-- A header of one hash and no bits, and nothing behind it. -/
def noBits : Bytes := magic ++ [version] ++ leBytes 4 1 ++ leBytes 8 0 ++ leBytes 8 0

/-- It is accepted. The filter divides by zero at the first call, and behind the C functions
an item that was just added is reported absent. -/
theorem noBits_accepted :
    ∃ b, cbloomDeserialize (some noBits) = some b ∧ ¬ Usable b ∧
      b.contains [] = .error .remainderByZero ∧
      cbloomContains (cbloomAdd .checked (some b) (some [])) (some []) = false := by
  refine ⟨⟨[], 0, 1, 0⟩, by decide, ?_, by decide, by decide⟩
  intro h
  exact h.packed.bits_ne rfl

end RustFundamentals.Cbloom
