import RustFundamentals.Lsmkv.Opening
import RustFundamentals.Lsmkv.Replay

/-!
# lsmkv: opening a damaged table file

`open` believes the footer: it asks for as much memory as the footer says and cuts the index
region where the key lengths say. The files on which that goes well are those of `Tame`
(`opens_safely_iff`).
-/

namespace RustFundamentals.Lsmkv

open Foundation Foundation.Fs

/-! ## The index walk -/

namespace SsTable

/-- An index entry whose fields hold what it says. -/
structure IndexEntry.Bounded (e : IndexEntry) : Prop where
  key_lt : e.key.length < 2 ^ 32
  offset_lt : e.offset < 2 ^ 64
  len_lt : e.len < 2 ^ 32

/-- The region is whole index entries, one after the other. -/
def WholeEntries (region : Bytes) : Prop :=
  ∃ es : List IndexEntry, (∀ e ∈ es, IndexEntry.Bounded e) ∧
    region = (es.map IndexEntry.encode).flatten

/-- A slice of four bytes holds what `leBytes` puts there. -/
theorem leBytes_ofLe_of_length {bs : Bytes} {w : Nat} (h : bs.length = w) :
    leBytes w (ofLe bs) = bs ∧ ofLe bs < 256 ^ w := by
  subst h
  exact ⟨leBytes_ofLe bs, ofLe_lt bs⟩

/-- What the index walk has cut up was whole entries. -/
theorem parseIndex_sound {fuel : Nat} {region : Bytes} {es : List IndexEntry}
    (h : parseIndex fuel region = some es) :
    (∀ e ∈ es, IndexEntry.Bounded e) ∧ region = (es.map IndexEntry.encode).flatten := by
  induction fuel generalizing region es with
  | zero =>
    cases region with
    | nil =>
      obtain rfl := Option.some.inj h
      exact ⟨fun _ he => absurd he List.not_mem_nil, rfl⟩
    | cons b bs => cases h
  | succ fuel ih =>
    cases region with
    | nil =>
      obtain rfl := Option.some.inj h
      exact ⟨fun _ he => absurd he List.not_mem_nil, rfl⟩
    | cons b bs =>
      generalize hregion : b :: bs = region at h
      rw [← hregion, parseIndex, hregion] at h
      · simp only [Option.bind_eq_bind, Option.bind_eq_some_iff, Option.map_eq_some_iff] at h
        obtain ⟨_, ⟨klen4, hklen, rfl⟩, key, hkey, _, ⟨offset8, hoffset, rfl⟩, _,
          ⟨len4, hlen, rfl⟩, entries, hentries, hes⟩ := h
        obtain rfl := Option.some.inj hes
        obtain ⟨hbounds, htail⟩ := ih hentries
        obtain ⟨hklenLen, hklenAt⟩ := drop_of_slice? hklen
        obtain ⟨hkeyLen, hkeyAt⟩ := drop_of_slice? hkey
        obtain ⟨hoffsetLen, hoffsetAt⟩ := drop_of_slice? hoffset
        obtain ⟨hlenLen, hlenAt⟩ := drop_of_slice? hlen
        obtain ⟨hk, hkLt⟩ := leBytes_ofLe_of_length (show klen4.length = 4 by omega)
        obtain ⟨ho, hoLt⟩ := leBytes_ofLe_of_length (show offset8.length = 8 by omega)
        obtain ⟨hl, hlLt⟩ := leBytes_ofLe_of_length (show len4.length = 4 by omega)
        have hkey' : key.length = ofLe klen4 := by omega
        refine ⟨fun e he => ?_, ?_⟩
        · rcases List.mem_cons.mp he with rfl | he
          · exact ⟨by simp only [hkey']; omega, by simp only; omega, by simp only; omega⟩
          · exact hbounds e he
        · -- the four fields, and the entries behind them
          rw [List.map_cons, List.flatten_cons, ← htail, IndexEntry.encode]
          simp only [hkey', hk, ho, hl, List.append_assoc]
          rw [← hlenAt, ← hoffsetAt, ← hkeyAt]
          exact hklenAt
      · simp

/-- **The index walk succeeds** on whole entries, and on nothing else. -/
theorem parseIndex_isSome_iff {region : Bytes} :
    (parseIndex region.length region).isSome ↔ WholeEntries region := by
  constructor
  · intro h
    obtain ⟨es, hes⟩ := Option.isSome_iff_exists.mp h
    obtain ⟨hbounds, heq⟩ := parseIndex_sound hes
    exact ⟨es, hbounds, heq⟩
  · intro h
    obtain ⟨es, hbounds, rfl⟩ := h
    rw [parseIndex_encode (fun e he => ?_) le_rfl]
    · rfl
    · exact ⟨(hbounds e he).key_lt, (hbounds e he).offset_lt, (hbounds e he).len_lt⟩

/-! ## Reads that answer -/

/-- The bytes at `offset` are there; an empty buffer is filled anywhere. -/
def Inside (file : Bytes) (offset len : Nat) : Prop := len = 0 ∨ offset + len ≤ file.length

theorem readExactAt_inside {file : Bytes} {offset len : Nat} (hlen : len ≤ isizeMax)
    (h : Inside file offset len) :
    readExactAt file offset len = .ok ((file.drop offset).take len) := by
  rw [readExactAt, if_neg (by omega)]
  rcases h with rfl | hin
  · simp
  · by_cases hzero : len = 0
    · simp [hzero]
    · rw [if_neg hzero, if_pos hin]

theorem readExactAt_outside {file : Bytes} {offset len : Nat} (hlen : len ≤ isizeMax)
    (h : ¬ Inside file offset len) :
    readExactAt file offset len = .error (.err (.corrupt (.shortRead len offset))) := by
  rw [Inside, not_or] at h
  rw [readExactAt, if_neg (by omega), if_neg h.1, if_neg h.2]

theorem readExactAt_answers (file : Bytes) (offset : Nat) {len : Nat} (hlen : len ≤ isizeMax) :
    Answers (readExactAt file offset len) := by
  by_cases h : Inside file offset len
  · exact .inl ⟨_, readExactAt_inside hlen h⟩
  · exact .inr ⟨_, readExactAt_outside hlen h⟩

theorem decodeAll_answers (id fuel pos : Nat) (rest : Bytes) :
    Answers (decodeAll id fuel pos rest) := by
  induction fuel generalizing pos rest with
  | zero =>
    cases rest with
    | nil => exact .inl ⟨[], rfl⟩
    | cons b bs => exact .inr ⟨_, rfl⟩
  | succ fuel ih =>
    cases rest with
    | nil => exact .inl ⟨[], rfl⟩
    | cons b bs =>
      rw [decodeAll]
      · cases hdecode : Record.decode (b :: bs) with
        | none => exact .inr ⟨_, rfl⟩
        | some r =>
          simp only [bind, Except.bind]
          rcases ih (pos + r.2) ((b :: bs).drop r.2) with ⟨rs, hrs⟩ | ⟨e, he⟩
          · exact .inl ⟨r.1 :: rs, by rw [hrs]⟩
          · exact .inr ⟨e, by rw [he]⟩
      · simp

/-! ## The loop of `iter` -/

/-- More fuel than bytes changes nothing. -/
theorem decodeAll_fuel (id : Nat) {fuel : Nat} (pos : Nat) {rest : Bytes}
    (h : rest.length ≤ fuel) : decodeAll id fuel pos rest = decodeAll id rest.length pos rest := by
  refine @fuel_irrelevant _ _ (fun fuel state => decodeAll id fuel state.1 state.2)
    (fun state : Nat × Bytes => state.2.length) ?_ ?_ _ _ (pos, rest) h le_rfl
  · intro m n state hnil
    show decodeAll id m state.1 state.2 = decodeAll id n state.1 state.2
    rw [List.length_eq_zero_iff.mp hnil]
    cases m <;> cases n <;> rfl
  · intro m n state hrest hne
    obtain ⟨pos, rest⟩ := state
    replace hne : 0 < rest.length := hne
    have hcons : rest ≠ [] := List.length_pos_iff.mp hne
    show decodeAll id (m + 1) pos rest = decodeAll id (n + 1) pos rest
    rw [decodeAll, decodeAll]
    · cases hdecode : Record.decode rest with
      | none => rfl
      | some r =>
        have htakes := selfDelimiting_decode.takes (v := r.1) (n := r.2) hdecode
        have hshort : (rest.drop r.2).length < rest.length := by
          rw [List.length_drop]
          omega
        simp only [hrest (pos + r.2, rest.drop r.2) hshort]
    · exact hcons
    · exact hcons

/-- The body of the loop of `iter`, on positions. -/
def iterRound (ov : Overflow) (id : Nat) (data : Bytes) (state : Nat × List Record) :
    Except (Stop Error) (List Record ⊕ Nat × List Record) := do
  let (pos, records) := state
  if data.length ≤ pos then return .inl records
  let some (record, consumed) ← Record.decodeChecked ov (data.drop pos)
    | .error (.err (.corrupt (.badRecord pos id)))
  let pos ← usizeAdd ov pos consumed
  return .inr (pos, records ++ [record])

/-- The loop of `iter`, for a number of rounds. -/
def iterRounds (ov : Overflow) (id : Nat) (data : Bytes) (rounds : Nat) :
    Option (Except (Stop Error) (List Record)) := runLoop (iterRound ov id data) rounds (0, [])

/-- **The loop of `iter` comes to its end**, in either build. -/
theorem iterRounds_eq (ov : Overflow) (id : Nat) {data : Bytes} (h : data.length ≤ isizeMax)
    {rounds : Nat} (hrounds : data.length < rounds) :
    iterRounds ov id data rounds = some (decodeAll id data.length 0 data) := by
  -- from any position, the loop is on its way to the records so far and those from there on
  have hround : ∀ state : Nat × List Record, state.1 ≤ data.length →
      Approaches (iterRound ov id data) (fun state => state.1 ≤ data.length)
        (fun state => data.length - state.1)
        (fun state => (decodeAll id (data.drop state.1).length state.1 (data.drop state.1)).map
          (state.2 ++ ·)) state := by
    intro state hpos
    obtain ⟨pos, records⟩ := state
    simp only at hpos
    by_cases hend : data.length ≤ pos
    · refine .inr (.inl ⟨records, ?_, ?_⟩)
      · rw [iterRound]
        simp only [if_pos hend]
        rfl
      · simp only [List.drop_eq_nil_of_le hend]
        show Except.ok (records ++ []) = _
        rw [List.append_nil]
    · have hrest : (data.drop pos).length ≤ isizeMax := by rw [List.length_drop]; omega
      obtain ⟨n, hn⟩ : ∃ n, (data.drop pos).length = n + 1 :=
        ⟨data.length - pos - 1, by rw [List.length_drop]; omega⟩
      have hne : data.drop pos ≠ [] := by
        intro hnil
        rw [hnil] at hn
        cases hn
      rw [Approaches]
      simp only [hn]
      rw [decodeAll]
      · cases hdecode : Record.decode (data.drop pos) with
        | none =>
          refine .inl ⟨_, ?_, rfl⟩
          rw [iterRound]
          simp only [if_neg hend, Record.decodeChecked_eq ov hrest, hdecode]
          rfl
        | some r =>
          obtain ⟨record, consumed⟩ := r
          have htakes := selfDelimiting_decode.takes hdecode
          have hwithin := selfDelimiting_decode.within hdecode
          rw [List.length_drop] at hwithin
          have hsum : pos + consumed < 2 ^ 64 := by
            unfold isizeMax at h
            omega
          refine .inr (.inr ⟨(pos + consumed, records ++ [record]), ?_, ?_, ?_, ?_⟩)
          · rw [iterRound]
            simp only [if_neg hend, Record.decodeChecked_eq ov hrest, hdecode, bind, Except.bind,
              usizeAdd_of_lt ov hsum]
            rfl
          · show pos + consumed ≤ data.length
            omega
          · show data.length - (pos + consumed) < data.length - pos
            omega
          · rw [List.length_drop] at hn
            simp only [List.drop_drop]
            have hfew : (data.drop (pos + consumed)).length ≤ n := by
              rw [List.length_drop]
              omega
            rw [decodeAll_fuel id (pos + consumed) hfew]
            cases decodeAll id (data.drop (pos + consumed)).length (pos + consumed)
              (data.drop (pos + consumed)) with
            | error stop => rfl
            | ok rs =>
              show Except.ok (records ++ record :: rs) = Except.ok (records ++ [record] ++ rs)
              rw [List.append_assoc, List.singleton_append]
      · exact hne
  have hrun := runLoop_eq hround (s := (0, [])) (Nat.zero_le _) (by simpa using hrounds)
  rw [iterRounds, hrun, List.drop_zero]
  cases decodeAll id data.length 0 data <;> rfl

/-! ## Tame files -/

/-- A request no larger than the file, nor than one allocation may be. -/
def Modest (file : Bytes) (n : Nat) : Prop := n ≤ file.length ∧ n ≤ isizeMax

/-- **The files that `open` and the reads behind it come through**: too short for a footer,
without the magic number, with an index of modest length that is not all there, or whole: an
index region of whole entries, a modest count, a modest data region. -/
inductive Tame (file : Bytes) : Prop
  | short (h : file.length < footerSize)
  | magic (h : (Footer.ofFile file).magic ≠ sstMagic)
  | shortIndex (hlen : Modest file (Footer.ofFile file).indexLen)
      (h : ¬ Inside file (Footer.ofFile file).indexOffset (Footer.ofFile file).indexLen)
  | whole (hlen : Modest file (Footer.ofFile file).indexLen)
      (hin : Inside file (Footer.ofFile file).indexOffset (Footer.ofFile file).indexLen)
      (hcount : Modest file ((Footer.ofFile file).count * indexEntrySize))
      (hentries : WholeEntries
        ((file.drop (Footer.ofFile file).indexOffset).take (Footer.ofFile file).indexLen))
      (hdata : Modest file (Footer.ofFile file).indexOffset)

/-- What a reader may count on: `open` returns a table or `Corrupt`, no field of the footer
makes it or `iter` ask for more than the file has, and on the table it returns `get` and `iter`
answer, the loop of `iter` within as many rounds as there are bytes. -/
structure OpensSafely (name : Name) (id : Nat) (file : Bytes) : Prop where
  outcome : (∃ t, opened name id file = .ok t) ∨
    ∃ what, opened name id file = .error (.err (.corrupt what))
  modest : ∀ n ∈ requests name id file, n ≤ file.length
  reads : ∀ t, opened name id file = .ok t → t.dataLen ≤ file.length ∧
    (∀ key, Answers (t.get key)) ∧ Answers t.iter ∧
    ∀ ov data, readExactAt t.file 0 t.dataLen = .ok data → ∀ rounds, data.length < rounds →
      iterRounds ov t.id data rounds = some t.iter

theorem get_answers {t : SsTable} (h : ∀ e ∈ t.index, IndexEntry.Bounded e) (key : Bytes) :
    Answers (t.get key) := by
  rw [get]
  cases hslot : (binarySearchBy (fun entry => compare entry.key key) t.index).bind
      (t.index[·]?) with
  | none => exact .inl ⟨none, rfl⟩
  | some entry =>
    obtain ⟨i, -, hi⟩ := Option.bind_eq_some_iff.mp hslot
    have hlen : entry.len ≤ isizeMax := by
      have := (h entry (List.mem_of_getElem? hi)).len_lt
      unfold isizeMax
      omega
    rcases readExactAt_answers t.file entry.offset hlen with ⟨bytes, hbytes⟩ | ⟨e, he⟩
    · simp only [hbytes, bind, Except.bind]
      cases Record.decode bytes with
      | none => exact .inr ⟨_, rfl⟩
      | some r => exact .inl ⟨some r.1, rfl⟩
    · simp only [he, bind, Except.bind]
      exact .inr ⟨e, rfl⟩

theorem iter_answers {t : SsTable} (h : t.dataLen ≤ isizeMax) : Answers t.iter := by
  rw [iter]
  rcases readExactAt_answers t.file 0 h with ⟨data, hdata⟩ | ⟨e, he⟩
  · rw [hdata]
    exact decodeAll_answers t.id data.length 0 data
  · rw [he]
    exact .inr ⟨e, rfl⟩

/-- A read that succeeds returns no more than one allocation may hold. -/
theorem readExactAt_length {file data : Bytes} {offset len : Nat}
    (h : readExactAt file offset len = .ok data) : len ≤ isizeMax ∧ data.length ≤ isizeMax := by
  have hlen : len ≤ isizeMax := by
    by_contra hbig
    rw [readExactAt, if_pos (by omega)] at h
    cases h
  have hin : Inside file offset len := by
    by_contra hout
    rw [readExactAt_outside hlen hout] at h
    cases h
  rw [readExactAt_inside hlen hin] at h
  obtain rfl := Except.ok.inj h
  refine ⟨hlen, ?_⟩
  rw [List.length_take]
  omega

/-- The table that `open` returns for a whole file. -/
theorem opened_whole {name : Name} {id : Nat} {file : Bytes} (h : footerSize ≤ file.length)
    (hm : (Footer.ofFile file).magic = sstMagic) (hlen : Modest file (Footer.ofFile file).indexLen)
    (hin : Inside file (Footer.ofFile file).indexOffset (Footer.ofFile file).indexLen)
    (hcount : (Footer.ofFile file).count * indexEntrySize ≤ isizeMax)
    (hentries : WholeEntries
      ((file.drop (Footer.ofFile file).indexOffset).take (Footer.ofFile file).indexLen)) :
    ∃ index, (∀ e ∈ index, IndexEntry.Bounded e) ∧
      opened name id file = .ok { id, file, index, dataLen := (Footer.ofFile file).indexOffset,
                                  maxSeq := (Footer.ofFile file).maxSeq } := by
  obtain ⟨index, hindex⟩ := Option.isSome_iff_exists.mp (parseIndex_isSome_iff.mpr hentries)
  refine ⟨index, (parseIndex_sound hindex).1, ?_⟩
  rw [opened, openBytes_index h hm (readExactAt_inside hlen.2 hin) hcount, hindex]
  rfl

theorem Tame.opensSafely {file : Bytes} (h : Tame file) (name : Name) (id : Nat) :
    OpensSafely name id file := by
  -- an error other than a panic, and requests that are modest
  have herror : ∀ {what : Corruption} {sizes : List Nat}, (∀ n ∈ sizes, n ≤ file.length) →
      (openBytes name id file).run [] = (.error (.err (.corrupt what)), sizes) →
      OpensSafely name id file := by
    intro what sizes hsizes hrun
    refine ⟨.inr ⟨what, by rw [opened, hrun]⟩, by rwa [requests, hrun], fun t ht => ?_⟩
    rw [opened, hrun] at ht
    cases ht
  by_cases hshort : file.length < footerSize
  · exact herror (fun _ hn => absurd hn List.not_mem_nil) (openBytes_short hshort)
  have hlong : footerSize ≤ file.length := by omega
  by_cases hm : (Footer.ofFile file).magic = sstMagic
  · cases h with
    | short h => exact absurd h hshort
    | magic h => exact absurd hm h
    | shortIndex hlen h =>
      refine herror ?_ (openBytes_noIndex hlong hm (readExactAt_outside hlen.2 h))
      simpa using hlen.1
    | whole hlen hin hcount hentries hdata =>
      obtain ⟨index, hbounds, hopened⟩ :=
        @opened_whole name id _ hlong hm hlen hin hcount.2 hentries
      refine ⟨.inl ⟨_, hopened⟩, ?_, fun t ht => ?_⟩
      · rw [requests, openBytes_index hlong hm (readExactAt_inside hlen.2 hin) hcount.2]
        simpa using ⟨hlen.1, hcount.1⟩
      · rw [hopened] at ht
        obtain rfl := Except.ok.inj ht
        refine ⟨hdata.1, get_answers hbounds, iter_answers hdata.2, ?_⟩
        intro ov data hread rounds hrounds
        rw [iterRounds_eq ov id (readExactAt_length hread).2 hrounds, iter, hread]
        rfl
  · exact herror (fun _ hn => absurd hn List.not_mem_nil) (openBytes_magic hlong hm)

theorem OpensSafely.not_panicked {name : Name} {id : Nat} {file : Bytes}
    (h : OpensSafely name id file) : opened name id file ≠ .error .panicked := by
  intro hpanic
  rcases h.outcome with ⟨t, ht⟩ | ⟨what, hwhat⟩
  · rw [hpanic] at ht
    cases ht
  · rw [hpanic] at hwhat
    cases hwhat

theorem OpensSafely.tame {name : Name} {id : Nat} {file : Bytes} (h : OpensSafely name id file) :
    Tame file := by
  have hpanic := h.not_panicked
  by_cases hshort : file.length < footerSize
  · exact .short hshort
  have hlong : footerSize ≤ file.length := by omega
  by_cases hm : (Footer.ofFile file).magic = sstMagic
  · -- the index region: its buffer is no larger than the file
    have hsmall : (Footer.ofFile file).indexLen ≤ isizeMax := by
      by_contra hbig
      apply hpanic
      have hread : readExactAt file (Footer.ofFile file).indexOffset
          (Footer.ofFile file).indexLen = .error .panicked := by
        rw [readExactAt, if_pos (by omega)]
      rw [opened, openBytes_noIndex hlong hm hread]
    by_cases hin : Inside file (Footer.ofFile file).indexOffset (Footer.ofFile file).indexLen
    · have hread := readExactAt_inside hsmall hin
      -- the index: neither its capacity nor a slice makes `open` panic
      have hcount : (Footer.ofFile file).count * indexEntrySize ≤ isizeMax := by
        by_contra hbig
        apply hpanic
        rw [opened, openBytes_capacity hlong hm hread (by omega)]
      have hrun := @openBytes_index name id _ hlong hm _ hread hcount
      have hmodest := h.modest
      rw [requests, hrun] at hmodest
      have hlen : Modest file (Footer.ofFile file).indexLen := ⟨hmodest _ (by simp), hsmall⟩
      have hentries : WholeEntries
          ((file.drop (Footer.ofFile file).indexOffset).take (Footer.ofFile file).indexLen) := by
        rw [← parseIndex_isSome_iff]
        by_contra hnone
        apply hpanic
        rw [opened, hrun, Option.not_isSome_iff_eq_none.mp hnone]
        rfl
      obtain ⟨index, -, hopened⟩ := @opened_whole name id _ hlong hm hlen hin hcount hentries
      obtain ⟨hdata, -, hiter, -⟩ := h.reads _ hopened
      refine .whole hlen hin ⟨hmodest _ (by simp), hcount⟩ hentries ⟨hdata, ?_⟩
      -- the data region: `iter` does not panic
      by_contra hbig
      have hpanics : iter { id, file, index, dataLen := (Footer.ofFile file).indexOffset,
                            maxSeq := (Footer.ofFile file).maxSeq } = .error .panicked := by
        have hhuge : isizeMax < (Footer.ofFile file).indexOffset := by omega
        simp only [iter, readExactAt, if_pos hhuge]
        rfl
      rcases hiter with ⟨rs, hrs⟩ | ⟨e, he⟩
      · rw [hpanics] at hrs
        cases hrs
      · rw [hpanics] at he
        cases he
    · have hmodest := h.modest
      rw [requests, openBytes_noIndex hlong hm (readExactAt_outside hsmall hin)] at hmodest
      exact .shortIndex ⟨hmodest _ (by simp), hsmall⟩ hin
  · exact .magic hm

end SsTable

/-- **Opening any file**: `open` and the reads behind it come through without a panic, a loop or
an immodest request exactly on the tame files. -/
theorem opens_safely_iff (name : Name) (id : Nat) (file : Bytes) :
    SsTable.OpensSafely name id file ↔ SsTable.Tame file :=
  ⟨SsTable.OpensSafely.tame, fun h => h.opensSafely name id⟩

/-- A footer and nothing else, with a count that no allocation can hold. -/
def hugeCount : Bytes :=
  leBytes 8 0 ++ leBytes 8 0 ++ leBytes 8 (2 ^ 63) ++ leBytes 8 0 ++ leBytes 4 sstMagic

/-- A footer behind one byte of an index entry. -/
def tornEntry : Bytes :=
  [7] ++ leBytes 8 0 ++ leBytes 8 1 ++ leBytes 8 1 ++ leBytes 8 0 ++ leBytes 4 sstMagic

/-- `open` panics on both. -/
theorem damagedFooters_panic :
    (SsTable.opened [] 0 hugeCount = .error .panicked ∧
      ¬ SsTable.OpensSafely [] 0 hugeCount) ∧
    (SsTable.opened [] 0 tornEntry = .error .panicked ∧
      ¬ SsTable.OpensSafely [] 0 tornEntry) := by
  have hhuge : SsTable.opened [] 0 hugeCount = .error .panicked := rfl
  have htorn : SsTable.opened [] 0 tornEntry = .error .panicked := rfl
  exact ⟨⟨hhuge, fun hsafe => hsafe.not_panicked hhuge⟩, htorn,
    fun hsafe => hsafe.not_panicked htorn⟩

end RustFundamentals.Lsmkv
