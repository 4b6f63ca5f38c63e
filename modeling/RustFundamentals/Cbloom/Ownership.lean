import RustFundamentals.Cbloom.Handles

/-!
# cbloom: the caller's books

What a caller of the C functions knows from what it asked for and was told: which addresses are its
own, what has been added to each filter, and which bytes were a filter when. `View.Allows` is the
contract of `cbloom.h` in these terms, `View.Expects` what the caller may count on in return.
-/

namespace RustFundamentals.Cbloom

open Foundation

instance Bloom.Packed.decidable (b : Bloom) : Decidable b.Packed :=
  decidable_of_iff (b.bits ≠ [] ∧ b.numBits = 64 * b.bits.length ∧ 1 ≤ b.numHashes)
    ⟨fun h => ⟨h.1, h.2.1, h.2.2⟩, fun h => ⟨h.bits_ne, h.numBits_eq, h.hashes_pos⟩⟩

/-- A filter as the caller sees it: what it began as, and the items added since. -/
structure Contents where
  base : Bloom
  packed : base.Packed
  items : List Bytes

namespace Contents

def made (size : Sizing) : Contents :=
  ⟨.withParams size.numBits size.numHashes, Bloom.withParams_packed _ _, []⟩

def add (item : Bytes) (c : Contents) : Contents := { c with items := c.items ++ [item] }

/-- All probes of the item are probes of items added, or were there from the beginning. -/
def Has (c : Contents) (item : Bytes) : Prop :=
  ∀ i < c.base.numHashes, c.base.isSet (c.base.probe item i) = true ∨
    ∃ added ∈ c.items, ∃ i' < c.base.numHashes, c.base.probe item i = c.base.probe added i'

/-- No more additions than the counter can count. -/
def Counted (c : Contents) : Prop := c.base.inserted + c.items.length < 2 ^ 64

end Contents

/-- What the caller has to give back. Of a filter that it does not know, the contents are left
out. -/
inductive Owned
  | filter (c : Option Contents)
  | buffer (bytes : Bytes)

/-- The caller's books. -/
structure View where
  owned : Addr → Option Owned
  saved : List (Bytes × Contents)

namespace View

def empty : View := { owned := fun _ => none, saved := [] }

def filter (v : View) (bf : Addr) : Option (Option Contents) :=
  match v.owned bf with
  | some (.filter c) => some c
  | _ => none

def buffer (v : View) (data : Addr) : Option Bytes :=
  match v.owned data with
  | some (.buffer bytes) => some bytes
  | _ => none

/-- What the bytes describe: a filter that was saved as these bytes, or else what they say. -/
def contentsOf (v : View) (bytes : Bytes) : Option Contents :=
  match v.saved.lookup bytes with
  | some c => some c
  | none =>
    (Bloom.fromBytes bytes).bind fun b => if hb : b.Packed then some ⟨b, hb, []⟩ else none

/-- A new entry; null is never one. -/
def take (a : Addr) (o : Owned) (v : View) : View :=
  if a = 0 then v else { v with owned := Function.update v.owned a (some o) }

def giveBack (a : Addr) (v : View) : View := { v with owned := Function.update v.owned a none }

def addTo (bf : Addr) (item : Option Bytes) (v : View) : View :=
  match v.filter bf, item with
  | some c, some item => v.take bf (.filter (c.map (Contents.add item)))
  | _, _ => v

def save (bf : Addr) (bytes : Bytes) (v : View) : View :=
  match v.filter bf with
  | some (some c) => { v with saved := (bytes, c) :: v.saved }
  | _ => v

end View

section Contract

variable {F : Type} (host : Host F)

/-- The books after a call and its answer. -/
def View.after (v : View) : Call F → Answer → View
  | .new expectedItems fpRate, .handle bf =>
    v.take bf (.filter ((host.sizing expectedItems fpRate).map Contents.made))
  | .free bf, _ => v.giveBack bf
  | .add bf data len, _ => v.addTo bf (data.slice v.buffer len)
  | .addStr bf s, _ => v.addTo bf (s.bind cStr)
  | .serialize bf, .buffer buf bytes => (v.save bf bytes).take buf.data (.buffer bytes)
  | .bufferFree buf, _ => v.giveBack buf.data
  | .deserialize data len, .handle bf =>
    v.take bf (.filter ((data.slice v.buffer len).bind v.contentsOf))
  | _, _ => v

/-- The contract of `cbloom.h`: null, or a filter not yet freed; bytes that are all there; a buffer
as it was handed out and not yet freed. -/
def View.Allows (v : View) : Call F → Prop
  | .new _ _ => True
  | .free bf | .getStats bf | .serialize bf => bf = 0 ∨ (v.filter bf).isSome
  | .add bf data len | .contains bf data len =>
    bf = 0 ∨ data = .null ∨ (v.filter bf).isSome ∧ (data.slice v.buffer len).isSome
  | .addStr bf s | .containsStr bf s =>
    bf = 0 ∨ s = none ∨ (v.filter bf).isSome ∧ (s.bind cStr).isSome
  | .bufferFree buf => buf.data = 0 ∨ (v.buffer buf.data).map List.length = some buf.len
  | .deserialize data len => data = .null ∨ (data.slice v.buffer len).isSome

instance View.Allows.decidable (v : View) : ∀ call : Call F, Decidable (v.Allows call)
  | .new _ _ => isTrue trivial
  | .free bf | .getStats bf | .serialize bf =>
    inferInstanceAs (Decidable (bf = 0 ∨ (v.filter bf).isSome))
  | .add bf data len | .contains bf data len =>
    inferInstanceAs (Decidable (bf = 0 ∨ data = .null ∨
      (v.filter bf).isSome ∧ (data.slice v.buffer len).isSome))
  | .addStr bf s | .containsStr bf s =>
    inferInstanceAs (Decidable (bf = 0 ∨ s = none ∨
      (v.filter bf).isSome ∧ (s.bind cStr).isSome))
  | .bufferFree buf =>
    inferInstanceAs (Decidable (buf.data = 0 ∨ (v.buffer buf.data).map List.length = some buf.len))
  | .deserialize data len =>
    inferInstanceAs (Decidable (data = .null ∨ (data.slice v.buffer len).isSome))

/-- An address that is null, or new to the caller. -/
def View.New (v : View) (a : Addr) : Prop := a ≠ 0 → v.owned a = none

/-- `known` is the right answer to whether the filter has the item; null has nothing. -/
def View.Tells (v : View) (bf : Addr) (item : Option Bytes) (known : Bool) : Prop :=
  (bf = 0 ∨ item = none → known = false) ∧
    ∀ c bytes, v.filter bf = some (some c) → item = some bytes → (known = true ↔ c.Has bytes)

/-- What the caller may count on. -/
def View.Expects (v : View) : Call F → Answer → Prop
  | .new expectedItems fpRate, answer => ∃ bf, answer = .handle bf ∧ v.New bf ∧
    (bf = 0 ↔ host.sizing expectedItems fpRate = none)
  | .free _, answer | .add _ _ _, answer | .addStr _ _, answer | .bufferFree _, answer =>
    answer = .nothing
  | .contains bf data len, answer => ∃ known, answer = .present known ∧
    v.Tells bf (data.slice v.buffer len) known
  | .containsStr bf s, answer => ∃ known, answer = .present known ∧ v.Tells bf (s.bind cStr) known
  | .getStats bf, answer => ∃ stats : CBloomStats, answer = .stats stats ∧
    (bf = 0 → stats = { numBits := 0, numHashes := 0, approxItems := 0 }) ∧
    ∀ c, v.filter bf = some (some c) →
      stats.numBits = c.base.numBits ∧ stats.numHashes = c.base.numHashes ∧
        (c.Counted → stats.approxItems = c.base.inserted + c.items.length)
  | .serialize bf, answer => ∃ buf bytes, answer = .buffer buf bytes ∧ v.New buf.data ∧
    (buf.data = 0 ↔ bf = 0) ∧ buf.len = bytes.length
  | .deserialize data len, answer => ∃ bf, answer = .handle bf ∧ v.New bf ∧
    (bf = 0 ↔ (data.slice v.buffer len).bind Bloom.fromBytes = none) ∧
    ∀ bytes, data.slice v.buffer len = some bytes → (v.saved.lookup bytes).isSome → bf ≠ 0

end Contract

/-! ## The books are true -/

/-- The filter is what the books say. -/
structure Contents.Holds (c : Contents) (b : Bloom) : Prop where
  grown : Grown c.base c.items b
  inserted : c.Counted → b.inserted = c.base.inserted + c.items.length

/-- An entry and the memory behind it. -/
inductive Owned.Matches : Owned → Cell → Prop
  | filter {c : Option Contents} {b : Bloom} (h : ∀ x, c = some x → x.Holds b) :
      Matches (.filter c) (.bloom b)
  | buffer (bytes : Bytes) : Matches (.buffer bytes) (.buffer bytes)

/-- **The invariant**: an entry for every live address and no other, and each true. -/
structure View.Agrees (v : View) (h : Heap) : Prop where
  cells : ∀ a, Option.Rel Owned.Matches (v.owned a) (h.lookup a)
  null : v.owned 0 = none
  saved : ∀ p ∈ v.saved, ∃ b, Bloom.fromBytes p.1 = some b ∧ p.2.Holds b

theorem Contents.made_holds (size : Sizing) :
    (Contents.made size).Holds (.withParams size.numBits size.numHashes) where
  grown := withParams_grown size.numBits_lt size.numHashes_lt
  inserted := fun _ => rfl

theorem add_counts {ov : Overflow} {b : Bloom} (hb : b.Packed) (item : Bytes)
    (h : b.inserted + 1 < 2 ^ 64) : (b.add ov item).2.inserted = b.inserted + 1 := by
  obtain ⟨b', hloop, hinserted, -⟩ := Bloom.addLoop_spec item (List.range b.numHashes) hb
  unfold Bloom.add
  simp only [hloop]
  rw [hinserted, ov.fit_of_lt h]

theorem Contents.Holds.add {c : Contents} {b : Bloom} (h : c.Holds b) (ov : Overflow)
    (item : Bytes) : (c.add item).Holds (b.add ov item).2 where
  grown := h.grown.add ov item
  inserted := by
    intro hcount
    have hlen : (c.add item).items.length = c.items.length + 1 := List.length_append
    have hlt : c.base.inserted + (c.items.length + 1) < 2 ^ 64 := by
      rw [← hlen]
      exact hcount
    have hold : b.inserted = c.base.inserted + c.items.length := by
      apply h.inserted
      show _ < _
      omega
    rw [add_counts h.grown.packed item (by omega), hold, hlen]
    rfl

theorem field_lt (data : Bytes) (start stop : Nat) :
    field data start stop < 256 ^ (stop - start) := by
  have hlen : ((data.drop start).take (stop - start)).length ≤ stop - start := by
    rw [List.length_take]
    exact min_le_left _ _
  calc field data start stop < 256 ^ ((data.drop start).take (stop - start)).length := ofLe_lt _
    _ ≤ 256 ^ (stop - start) := Nat.pow_le_pow_right (by decide) hlen

/-- A buffer that is accepted has its numbers in the range of their types. -/
theorem fromBytes_typed {data : Bytes} {b : Bloom} (h : Bloom.fromBytes data = some b) :
    b.Typed := by
  obtain ⟨hbits, hhashes, hinserted, -⟩ := fromBytes_some h
  refine ⟨?_, ?_, ?_⟩
  · rw [hbits]
    exact field_lt data 17 25
  · rw [hhashes]
    exact field_lt data 5 9
  · rw [hinserted]
    exact field_lt data 9 17

theorem grown_self {b : Bloom} (hb : b.Packed) (ht : b.Typed) : Grown b [] b where
  packed := hb
  typed := ht
  sets := (Bloom.Sets.refl b).congr fun j => by simp

/-- What the probes of an item say. -/
theorem Contents.Holds.contains {c : Contents} {b : Bloom} (h : c.Holds b) (item : Bytes) :
    Cbloom.cbloomContains (some b) (some item) = true ↔ c.Has item := by
  have hprobes : ∀ i, b.isSet (b.probe item i) = true ↔
      c.base.isSet (c.base.probe item i) = true ∨
        ∃ added ∈ c.items, ∃ i' < c.base.numHashes,
          c.base.probe item i = c.base.probe added i' := by
    intro i
    rw [h.grown.sets.isSet_iff, h.grown.sets.probe]
  rw [cbloomContains, Bloom.contains_spec item h.grown.packed]
  show List.all _ _ = true ↔ _
  rw [List.all_eq_true, h.grown.sets.numHashes_eq]
  simp only [List.mem_range, hprobes]
  rfl

namespace View.Agrees

variable {v : View} {h : Heap}

theorem live_iff (hv : v.Agrees h) (a : Addr) : (v.owned a).isSome ↔ (h.lookup a).isSome := by
  have hcell := hv.cells a
  generalize v.owned a = o at hcell ⊢
  generalize h.lookup a = cell at hcell ⊢
  cases hcell with
  | some _ => exact Iff.rfl
  | none => exact Iff.rfl

theorem buffer_eq (hv : v.Agrees h) : h.buffer = v.buffer := by
  funext a
  have hcell := hv.cells a
  unfold Heap.buffer View.buffer
  generalize v.owned a = o at hcell ⊢
  generalize h.lookup a = cell at hcell ⊢
  cases hcell with
  | some hm =>
    cases hm with
    | filter _ => rfl
    | buffer _ => rfl
  | none => rfl

/-- A filter in the books is a filter in memory. -/
theorem bloom_of_filter (hv : v.Agrees h) {bf : Addr} {c : Option Contents}
    (hc : v.filter bf = some c) : ∃ b, h.bloom bf = some b ∧ ∀ x, c = some x → x.Holds b := by
  have hcell := hv.cells bf
  unfold View.filter at hc
  unfold Heap.bloom
  generalize v.owned bf = o at hcell hc
  generalize h.lookup bf = cell at hcell ⊢
  cases hcell with
  | some hm =>
    cases hm with
    | filter hx =>
      obtain rfl := Option.some.inj hc
      exact ⟨_, rfl, hx⟩
    | buffer _ => cases hc
  | none => cases hc

theorem bloom_of_allowed (hv : v.Agrees h) {bf : Addr} (hbf : (v.filter bf).isSome) :
    ∃ c b, v.filter bf = some c ∧ h.bloom bf = some b ∧ ∀ x, c = some x → x.Holds b := by
  obtain ⟨c, hc⟩ := Option.isSome_iff_exists.mp hbf
  obtain ⟨b, hb, hx⟩ := hv.bloom_of_filter hc
  exact ⟨c, b, hc, hb, hx⟩

/-- Null is not in the books. -/
theorem filter_null (hv : v.Agrees h) : v.filter 0 = none := by
  rw [View.filter, hv.null]

/-- What is allocated, or written over, is entered. -/
theorem take (hv : v.Agrees h) {a : Addr} (ha : a ≠ 0) {o : Owned} {cell : Cell}
    (hm : o.Matches cell) : (v.take a o).Agrees (h.insert a cell) := by
  rw [View.take, if_neg ha]
  refine ⟨?_, ?_, hv.saved⟩
  · intro a'
    show Option.Rel _ (Function.update v.owned a (some o) a') _
    by_cases heq : a' = a
    · subst heq
      rw [Function.update_self, AList.lookup_insert]
      exact .some hm
    · rw [Function.update_of_ne heq, AList.lookup_insert_ne heq]
      exact hv.cells a'
  · show Function.update v.owned a (some o) 0 = none
    rw [Function.update_of_ne ha.symm]
    exact hv.null

theorem take_null (hv : v.Agrees h) (o : Owned) : (v.take 0 o).Agrees h := by
  rw [View.take, if_pos rfl]
  exact hv

/-- What is freed is struck out. -/
theorem giveBack (hv : v.Agrees h) (a : Addr) : (v.giveBack a).Agrees (h.erase a) := by
  refine ⟨?_, ?_, hv.saved⟩
  · intro a'
    show Option.Rel _ (Function.update v.owned a none a') _
    by_cases heq : a' = a
    · subst heq
      rw [Function.update_self, AList.lookup_erase]
      exact .none
    · rw [Function.update_of_ne heq, AList.lookup_erase_ne heq]
      exact hv.cells a'
  · show Function.update v.owned a none 0 = none
    by_cases ha : 0 = a
    · rw [← ha, Function.update_self]
    · rw [Function.update_of_ne ha]
      exact hv.null

theorem giveBack_null (hv : v.Agrees h) : (v.giveBack 0).Agrees h := by
  have heq : v.giveBack 0 = v := by
    rw [View.giveBack, ← hv.null, Function.update_eq_self]
  rw [heq]
  exact hv

theorem save (hv : v.Agrees h) {bf : Addr} {b : Bloom} (hb : h.bloom bf = some b) :
    (v.save bf b.toBytes).Agrees h := by
  unfold View.save
  split
  · next c hc =>
    obtain ⟨b', hb', hx⟩ := hv.bloom_of_filter hc
    obtain rfl := Option.some.inj (hb.symm.trans hb')
    have hholds := hx c rfl
    refine ⟨hv.cells, hv.null, ?_⟩
    intro p hp
    rcases List.mem_cons.mp hp with rfl | hp
    · exact ⟨b, hholds.grown.roundTrip, hholds⟩
    · exact hv.saved p hp
  · exact hv

theorem saved_lookup (hv : v.Agrees h) {bytes : Bytes} {c : Contents}
    (hc : v.saved.lookup bytes = some c) : ∃ b, Bloom.fromBytes bytes = some b ∧ c.Holds b := by
  obtain ⟨pre, post, heq, -⟩ := List.lookup_eq_some_iff.mp hc
  apply hv.saved (bytes, c)
  rw [heq]
  exact List.mem_append_right _ List.mem_cons_self

/-- What bytes describe is true of the filter they are read as. -/
theorem contentsOf_holds (hv : v.Agrees h) {bytes : Bytes} {b : Bloom}
    (hb : Bloom.fromBytes bytes = some b) {c : Contents} (hc : v.contentsOf bytes = some c) :
    c.Holds b := by
  unfold View.contentsOf at hc
  cases hsaved : v.saved.lookup bytes with
  | some x =>
    rw [hsaved] at hc
    obtain rfl := Option.some.inj hc
    obtain ⟨b', hb', hx⟩ := hv.saved_lookup hsaved
    obtain rfl := Option.some.inj (hb.symm.trans hb')
    exact hx
  | none =>
    rw [hsaved, hb] at hc
    change (if hp : b.Packed then some (⟨b, hp, []⟩ : Contents) else none) = some c at hc
    split at hc
    · next hp =>
      obtain rfl := Option.some.inj hc
      exact ⟨grown_self hp (fromBytes_typed hb), fun _ => rfl⟩
    · cases hc

end View.Agrees

end RustFundamentals.Cbloom
