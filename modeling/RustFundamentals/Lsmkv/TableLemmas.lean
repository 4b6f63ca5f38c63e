import RustFundamentals.Lsmkv.SsTable
import RustFundamentals.Lsmkv.Wal

/-!
# lsmkv: reading and writing whole tables

The spec lemmas of `SsTable`: what `get` and `iter` return on the handle of a written table,
which file names the store uses, and every way `SsTable::write` can end.
-/

namespace RustFundamentals.Lsmkv

open Foundation Foundation.Fs

/-! ## The largest sequence number -/

theorem le_foldl_max (xs : List Nat) (init : Nat) :
    init ≤ xs.foldl max init ∧ ∀ x ∈ xs, x ≤ xs.foldl max init := by
  induction xs generalizing init with
  | nil => simp
  | cons x xs ih =>
    obtain ⟨hinit, hmem⟩ := ih (max init x)
    rw [List.foldl_cons]
    refine ⟨(le_max_left _ _).trans hinit, fun y hy => ?_⟩
    rcases List.mem_cons.mp hy with rfl | hy
    · exact (le_max_right _ _).trans hinit
    · exact hmem y hy

theorem foldl_max_mem (xs : List Nat) (init : Nat) :
    xs.foldl max init = init ∨ xs.foldl max init ∈ xs := by
  induction xs generalizing init with
  | nil => exact .inl rfl
  | cons x xs ih =>
    rw [List.foldl_cons]
    rcases ih (max init x) with h | h
    · rcases max_choice init x with hm | hm
      · exact .inl (h.trans hm)
      · exact .inr (List.mem_cons.mpr (.inl (h.trans hm)))
    · exact .inr (List.mem_cons_of_mem _ h)

/-! ## Lookups and scans of one table -/

/-- The record a sorted record list holds for a key. -/
def findKey (records : List Record) (key : Bytes) : Option Record :=
  records.find? fun r => r.key = key

theorem findKey_eq_some {records : List Record} (h : SortedByKey records) {key : Bytes}
    {r : Record} : findKey records key = some r ↔ r ∈ records ∧ r.key = key := by
  constructor
  · intro hf
    exact ⟨List.mem_of_find?_eq_some hf, by simpa using List.find?_some hf⟩
  · intro hboth
    obtain ⟨hr, rfl⟩ := hboth
    obtain ⟨s, t, rfl⟩ := List.append_of_mem hr
    rw [findKey, List.find?_append]
    have hnone : s.find? (fun x => x.key = r.key) = none := by
      rw [List.find?_eq_none]
      intro x hx heq
      have hlt := (List.pairwise_append.mp h).2.2 x hx r (by simp)
      rw [of_decide_eq_true heq] at hlt
      simp at hlt
    simp [hnone]

theorem findKey_eq_none {records : List Record} {key : Bytes} :
    findKey records key = none ↔ ∀ r ∈ records, r.key ≠ key := by
  simp [findKey]

namespace SsTable

theorem keys_entriesFrom (offset : Nat) (records : List Record) :
    (entriesFrom offset records).map IndexEntry.key = records.map Record.key := by
  induction records generalizing offset with
  | nil => rfl
  | cons r rs ih => simp [entriesFrom, ih]

/-- The index of a sorted table is fit for binary search. -/
theorem entriesFrom_ascending {records : List Record} (h : SortedByKey records) (offset : Nat)
    (key : Bytes) :
    Ascending (fun e : IndexEntry => compare e.key key) (entriesFrom offset records) := by
  have hkeys : (records.map Record.key).Pairwise fun a b => compare a b = .lt := by
    rwa [List.pairwise_map]
  rw [← keys_entriesFrom offset records, List.pairwise_map] at hkeys
  refine hkeys.imp ?_
  intro a b hab hne
  have hba : compare b.key a.key = .gt := Std.OrientedCmp.gt_of_lt hab
  refine Std.TransCmp.gt_of_gt_of_isGE hba ?_
  cases hc : compare a.key key with
  | lt => exact absurd hc hne
  | eq => rfl
  | gt => rfl

theorem dataOf_length_le (records : List Record) :
    (dataOf records).length ≤ (image records).length := by
  rw [image_length]
  omega

/-- **Lookup in a written table.** -/
theorem get_ofRecords {records : List Record} (hs : Storable records) (h : SortedByKey records)
    (id : Nat) (key : Bytes) :
    (ofRecords id records).get key = .ok (findKey records key) := by
  cases hf : findKey records key with
  | none =>
    have hmiss : binarySearchBy (fun e : IndexEntry => compare e.key key)
        (entriesFrom 0 records) = none := by
      refine binarySearchBy_eq_none fun e he heq => ?_
      have hk : e.key ∈ records.map Record.key := by
        rw [← keys_entriesFrom 0 records]
        exact List.mem_map_of_mem he
      obtain ⟨r, hr, hrk⟩ := List.mem_map.mp hk
      exact findKey_eq_none.mp hf r hr (by rw [hrk]; exact Std.LawfulEqCmp.eq_of_compare heq)
    simp only [get, ofRecords, hmiss, Option.bind_none]
  | some r =>
    obtain ⟨hr, hkey⟩ := (findKey_eq_some h).mp hf
    -- its index entry is the one between those of the records before and behind it
    obtain ⟨s, t, rfl⟩ := List.append_of_mem hr
    have hfit : r.Fits := hs.fits r hr
    set entry : IndexEntry :=
      { key := r.key, offset := (dataOf s).length, len := r.encode.length } with hentry
    have hindex : entriesFrom 0 (s ++ r :: t) =
        entriesFrom 0 s ++ entry :: entriesFrom ((dataOf s).length + r.encode.length) t := by
      rw [entriesFrom_append, entriesFrom, Nat.mod_eq_of_lt hfit.length_lt, Nat.zero_add]
    have hget : (entriesFrom 0 (s ++ r :: t))[s.length]? = some entry := by
      rw [hindex, List.getElem?_append_right (by simp)]
      simp
    have hhit := binarySearchBy_eq_some (entriesFrom_ascending h 0 key) hget
      (by simp [hentry, hkey])
    have hread : readExactAt (image (s ++ r :: t)) (dataOf s).length r.encode.length =
        .ok r.encode := by
      have hsplit : image (s ++ r :: t) = dataOf s ++ r.encode ++
          (dataOf t ++ indexOf (s ++ r :: t) ++ footerOf (s ++ r :: t)) := by
        rw [image_eq, dataOf_append]
        simp [dataOf]
      have hle : r.encode.length ≤ isizeMax := by
        have := hs.small
        rw [hsplit] at this
        simp at this
        omega
      rw [hsplit]
      exact readExactAt_append rfl rfl hle
    simp only [get, ofRecords, hhit, Option.bind_some, hget, hentry, hread]
    simp [Record.decode_encode hfit, bind, Except.bind]

/-- One round of the walk. -/
theorem decodeAll_encode_append {r : Record} (h : r.Bounded) (id fuel pos : Nat) (t : Bytes) :
    decodeAll id (fuel + 1) pos (r.encode ++ t) =
      (decodeAll id fuel (pos + r.encode.length) t).map (r :: ·) := by
  have hne : r.encode ++ t ≠ [] := by
    intro hnil
    have := congrArg List.length hnil
    rw [List.length_append, Record.encode_length, List.length_nil] at this
    omega
  rw [decodeAll]
  · rw [h.decode_encode_append]
    simp only [List.drop_left]
    cases decodeAll id fuel (pos + r.encode.length) t <;> rfl
  · exact hne

/-- The walk over a data region returns the records stored there. -/
theorem decodeAll_dataOf {records : List Record} (h : ∀ r ∈ records, r.Bounded) (id pos : Nat)
    {fuel : Nat} (hfuel : (dataOf records).length ≤ fuel) :
    decodeAll id fuel pos (dataOf records) = .ok records := by
  induction records generalizing fuel pos with
  | nil => cases fuel <;> rfl
  | cons r rs ih =>
    have hr : r.Bounded := h r (by simp)
    have hdata : dataOf (r :: rs) = r.encode ++ dataOf rs := by simp [dataOf]
    have hpos : 17 ≤ r.encode.length := by rw [Record.encode_length]; omega
    rw [hdata, List.length_append] at hfuel
    obtain ⟨fuel, rfl⟩ : ∃ f, fuel = f + 1 := ⟨fuel - 1, by omega⟩
    have htl : decodeAll id fuel (pos + r.encode.length) (dataOf rs) = .ok rs :=
      ih (fun x hx => h x (by simp [hx])) _ (by omega)
    rw [hdata, decodeAll_encode_append hr, htl]
    rfl

/-- The data region of a written table. -/
theorem readData_ofRecords {records : List Record} (hle : (image records).length ≤ isizeMax)
    (id : Nat) :
    readExactAt (ofRecords id records).file 0 (ofRecords id records).dataLen =
      .ok (dataOf records) := by
  have hle' := dataOf_length_le records
  have hsplit : image records = [] ++ dataOf records ++ (indexOf records ++ footerOf records) := by
    rw [image_eq]
    simp
  simp only [ofRecords]
  rw [hsplit]
  exact readExactAt_append rfl rfl (by omega)

/-- **Listing a written table.** -/
theorem iter_ofRecords {records : List Record} (hs : Storable records) (id : Nat) :
    (ofRecords id records).iter = .ok records := by
  rw [iter, readData_ofRecords hs.small id]
  exact decodeAll_dataOf hs.bounded id 0 le_rfl

end SsTable

/-! ## File names -/

theorem idText_injective {i j : Nat} (h : idText i = idText j) : i = j := by
  have hi := parseDigits_padded (10 - (decimal i).length) i
  have hj := parseDigits_padded (10 - (decimal j).length) j
  rw [← idText] at hi hj
  rw [h, hj] at hi
  exact (Option.some.inj hi).symm

@[simp] theorem sstPath_inj {i j : Nat} : sstPath i = sstPath j ↔ i = j :=
  ⟨fun h => idText_injective (List.append_cancel_right h), fun h => h ▸ rfl⟩

theorem sstPath_getLast? (id : Nat) : (sstPath id).getLast? = some 116 := by
  rw [sstPath, List.getLast?_append]
  rfl

theorem tmpPath_getLast? (id : Nat) : (tmpPath id).getLast? = some 112 := by
  rw [tmpPath, List.getLast?_append]
  rfl

theorem walName_getLast? : walName.getLast? = some 103 := by decide

@[simp] theorem sstPath_ne_tmpPath (i j : Nat) : sstPath i ≠ tmpPath j := by
  intro h
  have := congrArg List.getLast? h
  rw [sstPath_getLast?, tmpPath_getLast?] at this
  exact absurd this (by decide)

@[simp] theorem sstPath_ne_walName (id : Nat) : sstPath id ≠ walName := by
  intro h
  have := congrArg List.getLast? h
  rw [sstPath_getLast?, walName_getLast?] at this
  exact absurd this (by decide)

@[simp] theorem tmpPath_ne_walName (id : Nat) : tmpPath id ≠ walName := by
  intro h
  have := congrArg List.getLast? h
  rw [tmpPath_getLast?, walName_getLast?] at this
  exact absurd this (by decide)

theorem stripSuffix_eq_some {s suffix stem : Bytes} :
    stripSuffix s suffix = some stem ↔ s = stem ++ suffix := by
  unfold stripSuffix
  split
  · next h =>
    obtain ⟨stem', rfl⟩ := h
    rw [List.length_append, Nat.add_sub_cancel, List.take_left, Option.some_inj]
    refine ⟨?_, List.append_cancel_right⟩
    rintro rfl
    rfl
  · next h =>
    refine iff_of_false nofun ?_
    rintro rfl
    exact h (List.suffix_append _ _)

/-- **A name is a table's** if a `u64` stands in front of `.sst`, behind a plus or not. -/
theorem parseSstId_eq_some {name : Name} {id : Nat} : parseSstId name = some id ↔
    id < 2 ^ 64 ∧ ∃ digits, parseDigits digits = some id ∧
      (name = digits ++ ascii ".sst" ∨ name = 43 :: digits ++ ascii ".sst") := by
  refine ⟨?_, ?_⟩
  · intro h
    obtain ⟨text, htext, h⟩ := Option.bind_eq_some_iff.mp h
    obtain ⟨stem, hstem, hparse⟩ := Option.bind_eq_some_iff.mp h
    obtain rfl : name = text := by
      unfold fromUtf8 at htext
      split at htext
      · exact Option.some.inj htext
      · cases htext
    obtain rfl := stripSuffix_eq_some.mp hstem
    obtain ⟨hlt, digits, hdigits, rfl | rfl⟩ := parseUnsigned_eq_some.mp hparse
    · exact ⟨hlt, stem, hdigits, .inl rfl⟩
    · exact ⟨hlt, digits, hdigits, .inr rfl⟩
  · rintro ⟨hlt, digits, hdigits, hname⟩
    obtain ⟨stem, rfl, hstem⟩ : ∃ stem, name = stem ++ ascii ".sst" ∧
        (stem = digits ∨ stem = 43 :: digits) := by
      rcases hname with rfl | rfl
      · exact ⟨digits, rfl, .inl rfl⟩
      · exact ⟨43 :: digits, rfl, .inr rfl⟩
    have hparse : parseUnsigned 64 stem = some id :=
      parseUnsigned_eq_some.mpr ⟨hlt, digits, hdigits, hstem⟩
    have hdigit : ∀ b ∈ digits, b < 0x80 := (DenotesInt.plain digits id hdigits).ascii
    have hsuffix : ∀ b ∈ ascii ".sst", b < 0x80 := by simp [ascii]
    have hascii : ∀ b ∈ stem ++ ascii ".sst", b < 0x80 := by
      intro b hb
      rcases List.mem_append.mp hb with hb | hb
      · rcases hstem with rfl | rfl
        · exact hdigit b hb
        · exact List.forall_mem_cons.mpr ⟨by decide, hdigit⟩ b hb
      · exact hsuffix b hb
    have hutf : fromUtf8 (stem ++ ascii ".sst") = some (stem ++ ascii ".sst") := by
      rw [fromUtf8, validUtf8_ascii hascii, if_pos rfl]
    simp only [parseSstId, hutf, Option.bind_eq_bind, Option.bind_some,
      stripSuffix_eq_some.mpr rfl, hparse]

/-- The store recognises the names it gives its tables. -/
theorem parseSstId_sstPath {id : Nat} (h : id < 2 ^ 64) : parseSstId (sstPath id) = some id :=
  parseSstId_eq_some.mpr ⟨h, idText id, parseDigits_padded (10 - (decimal id).length) id, .inl rfl⟩

theorem parseSstId_lt {name : Name} {id : Nat} (h : parseSstId name = some id) : id < 2 ^ 64 :=
  (parseSstId_eq_some.mp h).1

/-- A name that does not end in `t` is not a table's. -/
theorem parseSstId_eq_none {name : Name} {b : UInt8} (h : name.getLast? = some b)
    (hb : b ≠ 116) : parseSstId name = none := by
  rw [Option.eq_none_iff_forall_ne_some]
  intro id hid
  obtain ⟨-, digits, -, rfl | rfl⟩ := parseSstId_eq_some.mp hid
  all_goals
    rw [List.getLast?_append] at h
    exact hb (Option.some.inj h).symm

theorem parseSstId_tmpPath (id : Nat) : parseSstId (tmpPath id) = none :=
  parseSstId_eq_none (tmpPath_getLast? id) (by decide)

theorem parseSstId_walName : parseSstId walName = none :=
  parseSstId_eq_none walName_getLast? (by decide)

/-! ## Writing a table under every fault plan -/

/-- The directories differ at most at the temporary name of `id`. -/
def SameButTmp (id : Nat) (d d' : Dir) : Prop := ∀ name ≠ tmpPath id, d'.lookup name = d.lookup name

/-- `d'` is `d` with the table of `records` installed under `id`. -/
structure Installed (id : Nat) (records : List Record) (d d' : Dir) : Prop where
  table : ∃ f, d'.lookup (sstPath id) = some f ∧ f.bytes = image records
  other : ∀ name, name ≠ tmpPath id → name ≠ sstPath id → d'.lookup name = d.lookup name

/-- Whatever happens to the temporary file alone. -/
theorem SameButTmp.append (id : Nat) {d d' : Dir} (h : SameButTmp id d d') (data : Bytes) :
    SameButTmp id d (Dir.append d' (tmpPath id) data) := fun name hname =>
  (Dir.lookup_append_ne d' hname data).trans (h name hname)

/-- **Every way `write` can end**: it panics before touching anything, it stops with at most
the temporary file changed, or the whole table is in place. -/
theorem SsTable.write_spec (id : Nat) (records : List Record) (w : World Site) :
    Post (SsTable.write id records) w fun r w' =>
      Plan.Rest w'.plan w.plan ∧
      ((r = .error .panicked ∧ w' = w ∧
          (isizeMax < (image records).length ∨ isizeMax < records.length * indexEntrySize)) ∨
        ((image records).length ≤ isizeMax ∧ records.length * indexEntrySize ≤ isizeMax ∧
          ((∃ e, r = .error e ∧ Blames w.plan e ∧ SameButTmp id w.dir w'.dir) ∨
            (Installed id records w.dir w'.dir ∧
              (r = .ok (sstPath id) ∨ ∃ e, r = .error e ∧ Blames w.plan e))))) := by
  rw [SsTable.write]
  split
  · rename_i hbig
    exact ⟨Plan.Rest.refl _, .inl ⟨rfl, rfl, hbig⟩⟩
  · rename_i hsmall
    have hsize : (image records).length ≤ isizeMax := by omega
    have hcount : records.length * indexEntrySize ≤ isizeMax := by omega
    have hne : image records ≠ [] := by
      intro hnil
      have := image_length records
      rw [hnil, List.length_nil, footerSize] at this
      omega
    -- `File::create`
    rw [Post_bind]
    refine Post_call ?_ fun n e h => ⟨w.advance_rest _, .inr ⟨hsize, hcount, .inl
      ⟨e, rfl, h.blames, fun _ _ => rfl⟩⟩⟩
    set w₁ : World Site := ⟨w.dir.insert (tmpPath id) ⟨[]⟩, w.advance .tmpCreate⟩ with hw₁
    have hp₁ : Plan.Rest w₁.plan w.plan := w.advance_rest _
    have hd₁ : SameButTmp id w.dir w₁.dir := fun name hname => AList.lookup_insert_ne hname
    have htmp₁ : w₁.dir.lookup (tmpPath id) = some ⟨[]⟩ := AList.lookup_insert _
    -- `write_all`
    simp only [Post_bind, writeAll]
    refine Post_call ?_ fun n e h => ⟨(w₁.advance_rest _).trans hp₁, .inr ⟨hsize, hcount, .inl
      ⟨e, rfl, h.blames.mono hp₁, hd₁.append id _⟩⟩⟩
    set w₂ : World Site :=
      ⟨Dir.append w₁.dir (tmpPath id) (image records), w₁.advance .tmpWrite⟩ with hw₂
    have hp₂ : Plan.Rest w₂.plan w.plan := (w₁.advance_rest _).trans hp₁
    have hd₂ : SameButTmp id w.dir w₂.dir := hd₁.append id _
    have htmp₂ : w₂.dir.lookup (tmpPath id) = some ⟨[image records]⟩ :=
      Dir.lookup_append_self htmp₁ hne
    -- `sync_all`
    refine Post_tick ?_ fun n e h => ⟨(w₂.advance_rest _).trans hp₂, .inr ⟨hsize, hcount, .inl
      ⟨e, rfl, h.blames.mono hp₂, hd₂⟩⟩⟩
    set w₃ : World Site := ⟨w₂.dir, w₂.advance .tmpSync⟩ with hw₃
    have hp₃ : Plan.Rest w₃.plan w.plan := (w₂.advance_rest _).trans hp₂
    -- `rename`
    refine Post_call ?_ fun n e h => ⟨(w₃.advance_rest _).trans hp₃, .inr ⟨hsize, hcount, .inl
      ⟨e, rfl, h.blames.mono hp₃, hd₂⟩⟩⟩
    set w₄ : World Site :=
      ⟨Dir.rename w₃.dir (tmpPath id) (sstPath id), w₃.advance .tmpRename⟩ with hw₄
    have hp₄ : Plan.Rest w₄.plan w.plan := (w₃.advance_rest _).trans hp₃
    have hinst : Installed id records w.dir w₄.dir :=
      { table := ⟨_, Dir.lookup_rename_new htmp₂, by simp [File.bytes]⟩
        other := fun name ht hs => (Dir.lookup_rename_ne _ ht hs).trans (hd₂ name ht) }
    -- `sync_dir`
    refine Post_tick ⟨(w₄.advance_rest _).trans hp₄, .inr ⟨hsize, hcount, .inr
      ⟨hinst, .inl rfl⟩⟩⟩ fun n e h => ⟨(w₄.advance_rest _).trans hp₄, .inr ⟨hsize, hcount, .inr
      ⟨hinst, .inr ⟨e, rfl, h.blames.mono hp₄⟩⟩⟩⟩

end RustFundamentals.Lsmkv
