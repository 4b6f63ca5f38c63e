import RustFundamentals.Cbloom.WireFormat

/-!
# cbloom: what a filter knows

The bits of a filter are the probes of the items that have been added to it, whatever their order,
and however often it went over the wire in between. `contains` can ask for no more than that
(`membership_exact`).
-/

namespace RustFundamentals.Cbloom

open Foundation

/-- A call that changes a filter, or takes it through its bytes. -/
inductive Change
  | add (item : Bytes)
  | roundTrip
  deriving DecidableEq

/-- A change; `none` is a filter whose bytes were refused. A panic of the counter leaves the filter
with its bits set. -/
def change (ov : Overflow) (b : Bloom) : Change → Option Bloom
  | .add item => some (b.add ov item).2
  | .roundTrip => Bloom.fromBytes b.toBytes

/-- Changes, one after the other. -/
def changes (ov : Overflow) (b : Bloom) (cs : List Change) : Option Bloom :=
  cs.foldlM (change ov) b

/-- The items that are added. -/
def addedItems : List Change → List Bytes
  | [] => []
  | .add item :: cs => item :: addedItems cs
  | .roundTrip :: cs => addedItems cs

/-- The filter is what the items make it. -/
structure KnowsExactly (b : Bloom) (items : List Bytes) : Prop where
  isSet_iff : ∀ j, b.isSet j = true ↔ ∃ item ∈ items, ∃ i < b.numHashes,
    bitIndex (hashPair item).1 (hashPair item).2 i b.numBits = .ok j
  contains_iff : ∀ x, b.contains x = .ok true ↔ ∀ i < b.numHashes,
    ∃ item ∈ items, ∃ i' < b.numHashes,
      bitIndex (hashPair x).1 (hashPair x).2 i b.numBits =
        bitIndex (hashPair item).1 (hashPair item).2 i' b.numBits
  answers : ∀ x, ∃ present, b.contains x = .ok present
  present : ∀ item ∈ items, b.contains item = .ok true

/-! ## Bits and words -/

theorem withParams_isSet (numBits numHashes j : Nat) :
    (Bloom.withParams numBits numHashes).isSet j = false := by
  unfold Bloom.isSet Bloom.withParams
  rw [List.getElem?_replicate]
  split
  · next word h =>
    split at h
    · obtain rfl := Option.some.inj h
      exact Nat.zero_testBit _
    · cases h
  · rfl

/-- Filters with the same bits set have the same words. -/
theorem bits_ext {b b' : Bloom} (hlen : b.bits.length = b'.bits.length)
    (h : ∀ j, b.isSet j = b'.isSet j) : b.bits = b'.bits := by
  apply List.ext_getElem hlen
  intro n hn hn'
  apply UInt64.toNat_inj.mp
  apply Nat.eq_of_testBit_eq
  intro i
  by_cases hi : i < 64
  · have hword : (64 * n + i) / 64 = n := by omega
    have hbit : (64 * n + i) % 64 = i := by omega
    have hset := h (64 * n + i)
    rw [Bloom.isSet, Bloom.isSet, hword, hbit, List.getElem?_eq_getElem hn,
      List.getElem?_eq_getElem hn'] at hset
    exact hset
  · have hpow : 2 ^ 64 ≤ 2 ^ i := Nat.pow_le_pow_right (by decide) (by omega)
    rw [Nat.testBit_lt_two_pow (lt_of_lt_of_le b.bits[n].toNat_lt hpow),
      Nat.testBit_lt_two_pow (lt_of_lt_of_le b'.bits[n].toNat_lt hpow)]

/-! ## Runs -/

/-- The filter `b` is the empty filter `empty`, with these items added. -/
structure Grown (empty : Bloom) (items : List Bytes) (b : Bloom) : Prop where
  packed : b.Packed
  typed : b.Typed
  sets : empty.Sets b fun j => ∃ item ∈ items, ∃ i < empty.numHashes, j = empty.probe item i

/-- The counter stays a `u64`. -/
theorem add_inserted (ov : Overflow) (item : Bytes) {b : Bloom} (hb : b.Packed)
    (h : b.inserted < 2 ^ 64) : (b.add ov item).2.inserted < 2 ^ 64 := by
  obtain ⟨b', hloop, hinserted, -⟩ := Bloom.addLoop_spec item (List.range b.numHashes) hb
  unfold Bloom.add
  simp only [hloop]
  cases hfit : ov.fit 64 (b'.inserted + 1) with
  | none =>
    show b'.inserted < 2 ^ 64
    rw [hinserted]
    exact h
  | some n => exact Overflow.fit_lt hfit

theorem Grown.add (ov : Overflow) {empty b : Bloom} {items : List Bytes}
    (h : Grown empty items b) (item : Bytes) :
    Grown empty (items ++ [item]) (b.add ov item).2 := by
  obtain ⟨-, hset⟩ := Bloom.add_spec ov item h.packed
  refine ⟨hset.packed h.packed, ⟨?_, ?_, ?_⟩, (h.sets.trans hset).congr fun j => ?_⟩
  · rw [hset.numBits_eq]
    exact h.typed.numBits
  · rw [hset.numHashes_eq]
    exact h.typed.numHashes
  · exact add_inserted ov item h.packed h.typed.inserted
  · simp only [h.sets.numHashes_eq, h.sets.probe, List.mem_append, List.mem_singleton, or_and_right,
      exists_or, exists_eq_left]

theorem Grown.roundTrip {empty b : Bloom} {items : List Bytes} (h : Grown empty items b) :
    Bloom.fromBytes b.toBytes = some b := fromBytes_toBytes h.typed h.packed.numBits_eq

/-- **A run** of changes adds its items. -/
theorem Grown.changes (ov : Overflow) (cs : List Change) {empty b : Bloom} {items : List Bytes}
    (h : Grown empty items b) :
    ∃ b', Cbloom.changes ov b cs = some b' ∧ Grown empty (items ++ addedItems cs) b' := by
  induction cs generalizing b items with
  | nil => exact ⟨b, rfl, by rw [addedItems, List.append_nil]; exact h⟩
  | cons c cs ih =>
    cases c with
    | add item =>
      obtain ⟨b', hrun, h'⟩ := ih (h.add ov item)
      refine ⟨b', hrun, ?_⟩
      rw [addedItems, List.append_cons]
      exact h'
    | roundTrip =>
      obtain ⟨b', hrun, h'⟩ := ih h
      refine ⟨b', ?_, h'⟩
      unfold Cbloom.changes at hrun ⊢
      rw [List.foldlM_cons, change, h.roundTrip]
      exact hrun

theorem withParams_grown {numBits numHashes : Nat}
    (hbits : (Bloom.withParams numBits numHashes).numBits < 2 ^ 64) (hhashes : numHashes < 2 ^ 32) :
    Grown (Bloom.withParams numBits numHashes) [] (Bloom.withParams numBits numHashes) where
  packed := Bloom.withParams_packed numBits numHashes
  typed := ⟨hbits, max_lt hhashes (by decide), Nat.two_pow_pos 64⟩
  sets := (Bloom.Sets.refl _).congr fun j => by simp

theorem bitIndex_eq {b : Bloom} (hb : b.Packed) (item : Bytes) (i j : Nat) :
    bitIndex (hashPair item).1 (hashPair item).2 i b.numBits = .ok j ↔ j = b.probe item i := by
  rw [hb.bitIndex]
  exact ⟨fun h => (Except.ok.inj h).symm, fun h => congrArg Except.ok h.symm⟩

/-- **What has been added is all a filter knows.** -/
theorem Grown.knows {numBits numHashes : Nat} {items : List Bytes} {b : Bloom}
    (h : Grown (Bloom.withParams numBits numHashes) items b) : KnowsExactly b items := by
  have hset : ∀ j, b.isSet j = true ↔ ∃ item ∈ items, ∃ i < b.numHashes, j = b.probe item i := by
    intro j
    rw [h.sets.isSet_iff, withParams_isSet]
    simp only [Bool.false_eq_true, false_or, h.sets.numHashes_eq, h.sets.probe]
  have hcontains : ∀ x, b.contains x = .ok true ↔
      ∀ i < b.numHashes, b.isSet (b.probe x i) = true := by
    intro x
    rw [Bloom.contains_spec x h.packed]
    refine ⟨?_, ?_⟩
    · intro hall i hi
      exact List.all_eq_true.mp (Except.ok.inj hall) i (List.mem_range.mpr hi)
    · intro hall
      congr 1
      exact List.all_eq_true.mpr fun i hi => hall i (List.mem_range.mp hi)
  refine ⟨?_, ?_, ?_, ?_⟩
  · intro j
    rw [hset]
    simp only [bitIndex_eq h.packed]
  · intro x
    rw [hcontains]
    simp only [hset, h.packed.bitIndex, Except.ok.injEq]
  · exact fun x => ⟨_, Bloom.contains_spec x h.packed⟩
  · intro item hitem
    rw [hcontains]
    intro i hi
    exact (hset _).mpr ⟨item, hitem, i, hi, rfl⟩

/-- The order and the repetition of the additions leave no trace in the bits. -/
theorem Grown.bits_eq {empty b b' : Bloom} {items items' : List Bytes} (h : Grown empty items b)
    (h' : Grown empty items' b') (hitems : ∀ item, item ∈ items' ↔ item ∈ items) :
    b'.bits = b.bits := by
  apply bits_ext
  · rw [h.sets.length_eq, h'.sets.length_eq]
  · intro j
    rw [Bool.eq_iff_iff, h.sets.isSet_iff, h'.sets.isSet_iff]
    simp only [hitems]

/-- **Membership is exact**: a filter that has been made with `with_params`, and changed by any run
of additions with round trips in between, has the bits set that are probes of the items added; it
contains what these bits say, all of the items among it; and the bits depend on the set of the items
alone. -/
theorem membership_exact (ov : Overflow) {numBits numHashes : Nat}
    (hbits : (Bloom.withParams numBits numHashes).numBits < 2 ^ 64) (hhashes : numHashes < 2 ^ 32)
    (cs : List Change) :
    ∃ b, changes ov (Bloom.withParams numBits numHashes) cs = some b ∧
      KnowsExactly b (addedItems cs) ∧
      ∀ cs', (∀ item, item ∈ addedItems cs' ↔ item ∈ addedItems cs) →
        ∃ b', changes ov (Bloom.withParams numBits numHashes) cs' = some b' ∧
          b'.bits = b.bits := by
  have hempty := withParams_grown hbits hhashes
  obtain ⟨b, hrun, h⟩ := hempty.changes ov cs
  refine ⟨b, hrun, h.knows, fun cs' hitems => ?_⟩
  obtain ⟨b', hrun', h'⟩ := hempty.changes ov cs'
  exact ⟨b', hrun', h.bits_eq h' hitems⟩

/-- An item added, sent over the wire, and added again. -/
def resent : List Change := [.add [97], .roundTrip, .add [98], .add [97]]

theorem resent_exact :
    ∃ b, changes .checked (Bloom.withParams 100 3) resent = some b ∧
      KnowsExactly b [[97], [98], [97]] ∧
      ∀ cs', (∀ item, item ∈ addedItems cs' ↔ item ∈ [[97], [98], [97]]) →
        ∃ b', changes .checked (Bloom.withParams 100 3) cs' = some b' ∧ b'.bits = b.bits :=
  membership_exact .checked (by decide) (by decide) resent

end RustFundamentals.Cbloom
