import RustFundamentals.Cbloom.Ownership

/-!
# cbloom: a caller that keeps the contract

Call by call: from books that agree with memory, a call that `cbloom.h` allows is defined, gives
what the caller may count on, and leaves books that agree. So does a run of them
(`handles_sound`).
-/

namespace RustFundamentals.Cbloom

open Foundation

section Calls

variable {F : Type} {host : Host F} {v : View} {h : Heap}

/-- Defined, as expected, and the books agree again. -/
def Sound (host : Host F) (v : View) (h : Heap) (call : Call F) : Prop :=
  ∃ answer h', host.exec h call = some (answer, h') ∧ v.Expects host call answer ∧
    (v.after host call answer).Agrees h'

theorem Host.intoRaw_agrees (host : Host F) (hv : v.Agrees h) {o : Owned} {cell : Cell}
    (hm : o.Matches cell) : (v.take (host.alloc h) o).Agrees (host.intoRaw cell h).2 :=
  hv.take (host.alloc_ne h) hm

theorem Host.alloc_new (host : Host F) (hv : v.Agrees h) : v.New (host.alloc h) := by
  intro _
  have hdead : ¬ (v.owned (host.alloc h)).isSome := by
    rw [hv.live_iff, host.alloc_fresh]
    exact Bool.false_ne_true
  exact Option.not_isSome_iff_eq_none.mp hdead

theorem View.new_null : v.New 0 := fun hne => absurd rfl hne

theorem sound_new (hv : v.Agrees h) (expectedItems : Nat) (fpRate : F) :
    Sound host v h (.new expectedItems fpRate) := by
  cases hsize : host.sizing expectedItems fpRate with
  | none =>
    refine ⟨.handle 0, h, ?_, ⟨0, rfl, View.new_null, iff_of_true rfl hsize⟩, hv.take_null _⟩
    rw [Host.exec, Host.cbloomNew, hsize]
  | some size =>
    have hmatch : Owned.Matches (.filter (some (Contents.made size)))
        (.bloom (.withParams size.numBits size.numHashes)) := by
      apply Owned.Matches.filter
      intro x hx
      obtain rfl := Option.some.inj hx
      exact Contents.made_holds size
    refine ⟨.handle (host.alloc h),
      (host.intoRaw (.bloom (.withParams size.numBits size.numHashes)) h).2, ?_,
      ⟨host.alloc h, rfl, host.alloc_new hv, ?_⟩, ?_⟩
    · rw [Host.exec, Host.cbloomNew, hsize]
      rfl
    · rw [hsize]
      exact iff_of_false (host.alloc_ne h) (fun hne => by cases hne)
    · rw [View.after, hsize]
      exact host.intoRaw_agrees hv hmatch

theorem sound_free (hv : v.Agrees h) {bf : Addr} (hbf : v.Allows (.free bf : Call F)) :
    Sound host v h (.free bf) := by
  by_cases hnull : bf = 0
  · subst hnull
    exact ⟨.nothing, h, rfl, rfl, hv.giveBack_null⟩
  · obtain ⟨c, b, -, hb, -⟩ := hv.bloom_of_allowed (hbf.resolve_left hnull)
    refine ⟨.nothing, h.erase bf, ?_, rfl, hv.giveBack bf⟩
    rw [Host.exec, Host.cbloomFree, if_neg hnull, hb]
    rfl

/-- An addition to a live filter. -/
theorem addTo_agrees (host : Host F) (hv : v.Agrees h) {bf : Addr} (hnull : bf ≠ 0)
    (hbf : (v.filter bf).isSome) (item : Bytes) :
    ∃ h', host.addTo bf item h = some h' ∧ (v.addTo bf (some item)).Agrees h' := by
  obtain ⟨c, b, hc, hb, hholds⟩ := hv.bloom_of_allowed hbf
  refine ⟨h.insert bf (.bloom (b.add host.ov item).2), ?_, ?_⟩
  · rw [Host.addTo, hb]
    rfl
  · have htake : v.addTo bf (some item) = v.take bf (.filter (c.map (Contents.add item))) := by
      unfold View.addTo
      rw [hc]
    rw [htake]
    apply hv.take hnull
    apply Owned.Matches.filter
    intro x hx
    obtain ⟨y, rfl, rfl⟩ := Option.map_eq_some_iff.mp hx
    exact (hholds y rfl).add host.ov item

/-- What is added to null, or from null, is added nowhere. -/
theorem View.addTo_eq_self (hv : v.Agrees h) {bf : Addr} {item : Option Bytes}
    (hnull : bf = 0 ∨ item = none) : v.addTo bf item = v := by
  unfold View.addTo
  split
  · next c x hc =>
    rcases hnull with rfl | hitem
    · rw [hv.filter_null] at hc
      cases hc
    · cases hitem
  · rfl

theorem sound_add (hv : v.Agrees h) {bf : Addr} {data : Pointer} {len : Nat}
    (hcall : v.Allows (.add bf data len : Call F)) : Sound host v h (.add bf data len) := by
  by_cases hnull : bf = 0 ∨ data = .null
  · refine ⟨.nothing, h, ?_, rfl, ?_⟩
    · rw [Host.exec, Host.cbloomAdd, if_pos hnull]
      rfl
    · rw [View.after, View.addTo_eq_self hv (hnull.imp_right fun hd => by rw [hd]; rfl)]
      exact hv
  · rw [not_or] at hnull
    obtain ⟨hbf, hdata⟩ := (hcall.resolve_left hnull.1).resolve_left hnull.2
    obtain ⟨item, hitem⟩ := Option.isSome_iff_exists.mp hdata
    obtain ⟨h', hadd, hv'⟩ := addTo_agrees host hv hnull.1 hbf item
    refine ⟨.nothing, h', ?_, rfl, ?_⟩
    · rw [Host.exec, Host.cbloomAdd, if_neg (not_or.mpr hnull), hv.buffer_eq, hitem]
      show (host.addTo bf item h >>= fun h' => some (Answer.nothing, h')) = _
      rw [hadd]
      rfl
    · rw [View.after, hitem]
      exact hv'

theorem sound_addStr (hv : v.Agrees h) {bf : Addr} {s : Option Bytes}
    (hcall : v.Allows (.addStr bf s : Call F)) : Sound host v h (.addStr bf s) := by
  cases s with
  | none =>
    refine ⟨.nothing, h, rfl, rfl, ?_⟩
    rw [View.after, Option.bind_none, View.addTo_eq_self hv (.inr rfl)]
    exact hv
  | some memory =>
    by_cases hnull : bf = 0
    · refine ⟨.nothing, h, ?_, rfl, ?_⟩
      · rw [Host.exec, Host.cbloomAddStr, if_pos hnull]
        rfl
      · rw [View.after, View.addTo_eq_self hv (.inl hnull)]
        exact hv
    · obtain ⟨hbf, hs⟩ := (hcall.resolve_left hnull).resolve_left fun hs => by cases hs
      obtain ⟨item, hitem⟩ := Option.isSome_iff_exists.mp hs
      have hbytes : cStr memory = some item := hitem
      obtain ⟨h', hadd, hv'⟩ := addTo_agrees host hv hnull hbf item
      refine ⟨.nothing, h', ?_, rfl, ?_⟩
      · rw [Host.exec, Host.cbloomAddStr, if_neg hnull, hbytes]
        show (host.addTo bf item h >>= fun h' => some (Answer.nothing, h')) = _
        rw [hadd]
        rfl
      · rw [View.after, hitem]
        exact hv'

/-- A question to a live filter. -/
theorem tells_of_allowed (hv : v.Agrees h) {bf : Addr} (hnull : bf ≠ 0)
    (hbf : (v.filter bf).isSome) (item : Bytes) :
    ∃ b, h.bloom bf = some b ∧
      v.Tells bf (some item) (Cbloom.cbloomContains (some b) (some item)) := by
  obtain ⟨c, b, hc, hb, hholds⟩ := hv.bloom_of_allowed hbf
  refine ⟨b, hb, ?_, ?_⟩
  · intro hno
    rcases hno with hno | hno
    · exact absurd hno hnull
    · cases hno
  · intro x bytes hx hbytes
    obtain rfl := Option.some.inj hbytes
    obtain rfl := Option.some.inj (hc.symm.trans hx)
    exact (hholds x rfl).contains item

/-- Null has nothing, and nothing has null. -/
theorem tells_null (hv : v.Agrees h) {bf : Addr} {item : Option Bytes}
    (hnull : bf = 0 ∨ item = none) : v.Tells bf item false := by
  refine ⟨fun _ => rfl, ?_⟩
  intro c bytes hc hbytes
  rcases hnull with rfl | rfl
  · rw [hv.filter_null] at hc
    cases hc
  · cases hbytes

theorem sound_contains (hv : v.Agrees h) {bf : Addr} {data : Pointer} {len : Nat}
    (hcall : v.Allows (.contains bf data len : Call F)) :
    Sound host v h (.contains bf data len) := by
  by_cases hnull : bf = 0 ∨ data = .null
  · refine ⟨.present false, h, ?_, ⟨false, rfl, tells_null hv ?_⟩, hv⟩
    · rw [Host.exec, Host.cbloomContains, if_pos hnull]
      rfl
    · exact hnull.imp_right fun hd => by rw [hd]; rfl
  · rw [not_or] at hnull
    obtain ⟨hbf, hdata⟩ := (hcall.resolve_left hnull.1).resolve_left hnull.2
    obtain ⟨item, hitem⟩ := Option.isSome_iff_exists.mp hdata
    obtain ⟨b, hb, htells⟩ := tells_of_allowed hv hnull.1 hbf item
    refine ⟨.present (Cbloom.cbloomContains (some b) (some item)), h, ?_, ⟨_, rfl, ?_⟩, hv⟩
    · rw [Host.exec, Host.cbloomContains, if_neg (not_or.mpr hnull), hv.buffer_eq, hitem, hb]
      rfl
    · rw [hitem]
      exact htells

theorem sound_containsStr (hv : v.Agrees h) {bf : Addr} {s : Option Bytes}
    (hcall : v.Allows (.containsStr bf s : Call F)) : Sound host v h (.containsStr bf s) := by
  cases s with
  | none => exact ⟨.present false, h, rfl, ⟨false, rfl, tells_null hv (.inr rfl)⟩, hv⟩
  | some memory =>
    by_cases hnull : bf = 0
    · refine ⟨.present false, h, ?_, ⟨false, rfl, tells_null hv (.inl hnull)⟩, hv⟩
      rw [Host.exec, Host.cbloomContainsStr, if_pos hnull]
      rfl
    · obtain ⟨hbf, hs⟩ := (hcall.resolve_left hnull).resolve_left fun hs => by cases hs
      obtain ⟨item, hitem⟩ := Option.isSome_iff_exists.mp hs
      have hbytes : cStr memory = some item := hitem
      obtain ⟨b, hb, htells⟩ := tells_of_allowed hv hnull hbf item
      refine ⟨.present (Cbloom.cbloomContains (some b) (some item)), h, ?_, ⟨_, rfl, ?_⟩, hv⟩
      · rw [Host.exec, Host.cbloomContainsStr, if_neg hnull, hbytes, hb]
        rfl
      · rw [hitem]
        exact htells

theorem sound_getStats (hv : v.Agrees h) {bf : Addr}
    (hcall : v.Allows (.getStats bf : Call F)) : Sound host v h (.getStats bf) := by
  by_cases hnull : bf = 0
  · refine ⟨.stats { numBits := 0, numHashes := 0, approxItems := 0 }, h, ?_,
      ⟨_, rfl, fun _ => rfl, ?_⟩, hv⟩
    · rw [Host.exec, Host.cbloomGetStats, if_pos hnull]
      rfl
    · intro c hc
      rw [hnull, hv.filter_null] at hc
      cases hc
  · obtain ⟨c, b, hc, hb, hholds⟩ := hv.bloom_of_allowed (hcall.resolve_left hnull)
    refine ⟨.stats ⟨b.numBits, b.numHashes, b.inserted⟩, h, ?_,
      ⟨_, rfl, fun hbf => absurd hbf hnull, ?_⟩, hv⟩
    · rw [Host.exec, Host.cbloomGetStats, if_neg hnull, hb]
      rfl
    · intro x hx
      obtain rfl := Option.some.inj (hc.symm.trans hx)
      have hx := hholds x rfl
      exact ⟨hx.grown.sets.numBits_eq, hx.grown.sets.numHashes_eq, hx.inserted⟩

theorem sound_serialize (hv : v.Agrees h) {bf : Addr}
    (hcall : v.Allows (.serialize bf : Call F)) : Sound host v h (.serialize bf) := by
  by_cases hnull : bf = 0
  · have hnone : h.buffer 0 = none := by rw [hv.buffer_eq, View.buffer, hv.null]
    have hsave : v.save bf [] = v := by
      rw [hnull, View.save, hv.filter_null]
    refine ⟨.buffer ⟨0, 0⟩ [], h, ?_, ⟨_, _, rfl, View.new_null, ?_, rfl⟩, ?_⟩
    · rw [Host.exec, Host.cbloomSerialize, if_pos hnull]
      show some (Answer.buffer ⟨0, 0⟩ ((h.buffer 0).getD []), h) = _
      rw [hnone]
      rfl
    · exact iff_of_true rfl hnull
    · rw [View.after, hsave]
      exact hv.take_null _
  · obtain ⟨c, b, -, hb, -⟩ := hv.bloom_of_allowed (hcall.resolve_left hnull)
    have hread : Heap.buffer (host.intoRaw (.buffer b.toBytes) h).2 (host.alloc h) =
        some b.toBytes := by
      rw [Heap.buffer, Host.intoRaw, AList.lookup_insert]
    refine ⟨.buffer ⟨host.alloc h, b.toBytes.length⟩ b.toBytes,
      (host.intoRaw (.buffer b.toBytes) h).2, ?_,
      ⟨_, _, rfl, host.alloc_new hv, iff_of_false (host.alloc_ne h) hnull, rfl⟩, ?_⟩
    · rw [Host.exec, Host.cbloomSerialize, if_neg hnull, hb]
      show some (Answer.buffer ⟨host.alloc h, b.toBytes.length⟩
        ((Heap.buffer (host.intoRaw (.buffer b.toBytes) h).2 (host.alloc h)).getD []), _) = _
      rw [hread]
      rfl
    · exact host.intoRaw_agrees (hv.save hb) (.buffer b.toBytes)

theorem sound_bufferFree (hv : v.Agrees h) {buf : CBloomBuffer}
    (hcall : v.Allows (.bufferFree buf : Call F)) : Sound host v h (.bufferFree buf) := by
  by_cases hnull : buf.data = 0
  · refine ⟨.nothing, h, ?_, rfl, ?_⟩
    · rw [Host.exec, Host.cbloomBufferFree, if_pos hnull]
      rfl
    · rw [View.after, hnull]
      exact hv.giveBack_null
  · obtain ⟨bytes, hbytes, hlen⟩ := Option.map_eq_some_iff.mp (hcall.resolve_left hnull)
    refine ⟨.nothing, h.erase buf.data, ?_, rfl, hv.giveBack buf.data⟩
    have hfree : Host.cbloomBufferFree buf h = some (h.erase buf.data) := by
      rw [Host.cbloomBufferFree, if_neg hnull, hv.buffer_eq, hbytes]
      exact if_pos hlen
    rw [Host.exec, hfree]
    rfl

theorem Host.cbloomDeserialize_eq (host : Host F) {data : Pointer} {len : Nat} {bytes : Bytes}
    (hdata : data ≠ .null) (hbytes : data.slice h.buffer len = some bytes) :
    host.cbloomDeserialize data len h =
      some (((Bloom.fromBytes bytes).map fun b => host.intoRaw (.bloom b) h).getD (0, h)) := by
  rw [Host.cbloomDeserialize, if_neg hdata, hbytes]
  simp only [Option.bind_eq_bind, Option.bind_some, Cbloom.cbloomDeserialize]
  cases Bloom.fromBytes bytes with
  | some b => rfl
  | none => rfl

theorem sound_deserialize (hv : v.Agrees h) {data : Pointer} {len : Nat}
    (hcall : v.Allows (.deserialize data len : Call F)) :
    Sound host v h (.deserialize data len) := by
  by_cases hnull : data = .null
  · subst hnull
    refine ⟨.handle 0, h, rfl, ⟨0, rfl, View.new_null, iff_of_true rfl rfl, ?_⟩, hv.take_null _⟩
    intro bytes hbytes
    cases hbytes
  · obtain ⟨bytes, hbytes⟩ := Option.isSome_iff_exists.mp (hcall.resolve_left hnull)
    cases hread : Bloom.fromBytes bytes with
    | none =>
      refine ⟨.handle 0, h, ?_, ⟨0, rfl, View.new_null, ?_, ?_⟩, hv.take_null _⟩
      · rw [Host.exec, host.cbloomDeserialize_eq hnull (hv.buffer_eq ▸ hbytes), hread]
        rfl
      · rw [hbytes]
        exact iff_of_true rfl hread
      · intro bytes' hbytes' hsaved
        obtain rfl := Option.some.inj (hbytes.symm.trans hbytes')
        obtain ⟨c, hc⟩ := Option.isSome_iff_exists.mp hsaved
        obtain ⟨b, hb, -⟩ := hv.saved_lookup hc
        rw [hread] at hb
        cases hb
    | some b =>
      have hmatch : Owned.Matches (.filter (v.contentsOf bytes)) (.bloom b) := by
        apply Owned.Matches.filter
        intro x hx
        exact hv.contentsOf_holds hread hx
      refine ⟨.handle (host.alloc h), (host.intoRaw (.bloom b) h).2, ?_,
        ⟨host.alloc h, rfl, host.alloc_new hv, ?_, fun _ _ _ => host.alloc_ne h⟩, ?_⟩
      · rw [Host.exec, host.cbloomDeserialize_eq hnull (hv.buffer_eq ▸ hbytes), hread]
        rfl
      · rw [hbytes]
        refine iff_of_false (host.alloc_ne h) ?_
        show ¬ Bloom.fromBytes bytes = none
        rw [hread]
        exact fun hne => by cases hne
      · rw [View.after, hbytes]
        exact host.intoRaw_agrees hv hmatch

/-- **A call.** -/
theorem sound_of_allowed (hv : v.Agrees h) (call : Call F) (hcall : v.Allows call) :
    Sound host v h call := by
  cases call with
  | new expectedItems fpRate => exact sound_new hv expectedItems fpRate
  | free bf => exact sound_free hv hcall
  | add bf data len => exact sound_add hv hcall
  | addStr bf s => exact sound_addStr hv hcall
  | contains bf data len => exact sound_contains hv hcall
  | containsStr bf s => exact sound_containsStr hv hcall
  | getStats bf => exact sound_getStats hv hcall
  | serialize bf => exact sound_serialize hv hcall
  | bufferFree buf => exact sound_bufferFree hv hcall
  | deserialize data len => exact sound_deserialize hv hcall

end Calls

/-! ## Runs -/

/-- Memory, and the caller's books. -/
structure Session where
  heap : Heap
  view : View

def Session.start : Session := { heap := ∅, view := .empty }

section Sessions

variable {F : Type} (host : Host F)

/-- A call and its entry. Of an undefined call, nothing is known. -/
def Host.call (s : Session) (call : Call F) : Option Answer × Session :=
  match host.exec s.heap call with
  | some (answer, h) => (some answer, { heap := h, view := s.view.after host call answer })
  | none => (none, s)

def Session.Allows (s : Session) (call : Call F) : Prop := s.view.Allows call

instance Session.Allows.decidable (s : Session) (call : Call F) : Decidable (s.Allows call) :=
  View.Allows.decidable s.view call

/-- The call is defined, and the answer is what the caller may count on. -/
def Session.Served (s : Session) (call : Call F) : Prop :=
  ∃ answer, (host.call s call).1 = some answer ∧ s.view.Expects host call answer

def Session.Agrees (s : Session) : Prop := s.view.Agrees s.heap

theorem start_agrees : Session.start.Agrees where
  cells := fun a => by
    show Option.Rel _ none (AList.lookup a (∅ : Heap))
    rw [AList.lookup_empty]
    exact .none
  null := rfl
  saved := List.forall_mem_nil _

theorem call_spec {s : Session} (hs : s.Agrees) {call : Call F} (hcall : s.Allows call) :
    s.Served host call ∧ (host.call s call).2.Agrees := by
  have hsound : Sound host s.view s.heap call := sound_of_allowed hs call hcall
  obtain ⟨answer, h', hexec, hexpects, hagrees⟩ := hsound
  have heq : host.call s call =
      (some answer, ⟨h', s.view.after host call answer⟩) := by
    rw [Host.call, hexec]
  exact ⟨⟨answer, congrArg Prod.fst heq, hexpects⟩, by rw [heq]; exact hagrees⟩

/-- **A caller that keeps the contract of `cbloom.h` is safe**: however many filters and buffers it
has at a time, in whatever order it uses and frees them and takes filters through their bytes, no
call is undefined, and every answer is what its books say. What Rust has allocated is what the
caller has in its books, so nothing is left when it has given everything back. -/
theorem handles_sound {calls : List (Call F)}
    (hcalls : Along host.call Session.Allows .start calls) :
    Along host.call (Session.Served host) .start calls ∧
      (∀ a, ((runFrom host.call .start calls).view.owned a).isSome ↔
        ((runFrom host.call .start calls).heap.lookup a).isSome) ∧
      ((∀ a, (runFrom host.call .start calls).view.owned a = none) →
        (runFrom host.call .start calls).heap = ∅) := by
  have hkeeps : ∀ s (call : Call F), Session.Agrees s → s.Allows call →
      Session.Agrees (host.call s call).2 := fun _ _ hs hcall => (call_spec host hs hcall).2
  have hend : (runFrom host.call .start calls).Agrees :=
    runFrom_invariant hkeeps start_agrees hcalls
  refine ⟨?_, hend.live_iff, ?_⟩
  · exact Along.imp_of_invariant Session.Agrees (fun _ _ hs hcall => (call_spec host hs hcall).1)
      hkeeps start_agrees hcalls
  · intro hnone
    have hdead : ∀ a, a ∉ (runFrom host.call .start calls).heap := by
      intro a
      rw [← AList.lookup_isSome, ← hend.live_iff a, hnone]
      exact Bool.false_ne_true
    exact AList.ext (List.eq_nil_iff_forall_not_mem.mpr fun cell hcell =>
      hdead cell.1 (List.mem_map_of_mem hcell))

end Sessions

theorem le_foldr_max {as : List Nat} {a : Nat} (h : a ∈ as) : a ≤ as.foldr max 0 := by
  induction as with
  | nil => cases h
  | cons b as ih =>
    rcases List.mem_cons.mp h with rfl | h
    · exact le_max_left _ _
    · exact (ih h).trans (le_max_right _ _)

/-- An allocator that takes the address after the last, and a filter for ten items at one per
cent. -/
def tenItems : Host Unit where
  ov := .checked
  sizing := fun _ _ => some ⟨128, 9, by decide, by decide⟩
  alloc := fun h => h.keys.foldr max 0 + 1
  alloc_ne := fun h => Nat.succ_ne_zero _
  alloc_fresh := fun h => by
    rw [AList.lookup_eq_none]
    intro hmem
    exact absurd (le_foldr_max hmem) (Nat.not_succ_le_self _)

/-- A filter is filled, read back from its buffer, and everything is freed. -/
def throughBuffer : List (Call Unit) :=
  [.new 10 (), .add 1 (.own [1, 2, 3]) 2, .addStr 1 (some [97, 0]), .serialize 1,
    .deserialize (.lent 2) 41, .bufferFree ⟨2, 41⟩, .free 1, .contains 3 (.own [1, 2]) 2,
    .getStats 3, .free 3, .free 0]

theorem throughBuffer_sound :
    Along tenItems.call (Session.Served tenItems) .start throughBuffer ∧
      (∀ a, ((runFrom tenItems.call .start throughBuffer).view.owned a).isSome ↔
        ((runFrom tenItems.call .start throughBuffer).heap.lookup a).isSome) ∧
      ((∀ a, (runFrom tenItems.call .start throughBuffer).view.owned a = none) →
        (runFrom tenItems.call .start throughBuffer).heap = ∅) :=
  handles_sound tenItems (by decide +kernel)

end RustFundamentals.Cbloom
