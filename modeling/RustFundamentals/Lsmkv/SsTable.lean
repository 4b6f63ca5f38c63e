import RustFundamentals.Foundation.Decimal
import RustFundamentals.Foundation.Search
import RustFundamentals.Foundation.Utf8
import RustFundamentals.Lsmkv.MemTable

/-!
# lsmkv: SSTables

`sstable.rs`. A table is one file: the records, an index entry for each, a footer. It is
written under a temporary name and renamed into place, and never changed after that, so an
open handle is the file's content at the time of opening (`SsTable.file`).
-/

namespace RustFundamentals.Lsmkv

open Foundation Foundation.Fs

/-- `FOOTER_SIZE`. -/
def footerSize : Nat := 8 * 4 + 4

/-- One index slot: a key and where its record sits. -/
structure IndexEntry where
  key : Bytes
  offset : Nat
  len : Nat
  deriving DecidableEq, Repr

/-- `size_of::<IndexEntry>()`: what `Vec::with_capacity` multiplies a footer's count by. -/
def indexEntrySize : Nat := 40

/-- A read handle: the open file and its index. -/
structure SsTable where
  id : Nat
  file : Bytes
  index : List IndexEntry
  dataLen : Nat
  maxSeq : Seq

/-! ## Names -/

/-- `format!("{id:010}")`. -/
def idText (id : Nat) : Bytes :=
  List.replicate (10 - (decimal id).length) (digitByte 0) ++ decimal id

/-- `sst_path`, inside the directory. -/
def sstPath (id : Nat) : Name := idText id ++ ascii ".sst"

/-- `sst_path(..).with_extension("sst.tmp")`. -/
def tmpPath (id : Nat) : Name := idText id ++ ascii ".sst.tmp"

/-- `str::strip_suffix`. -/
def stripSuffix (s suffix : Bytes) : Option Bytes :=
  if suffix <:+ s then some (s.take (s.length - suffix.length)) else none

/-- `parse_sst_id`. -/
def parseSstId (name : Name) : Option Nat := do
  let name ← fromUtf8 name
  let stem ← stripSuffix name (ascii ".sst")
  parseUnsigned 64 stem

/-! ## Writing -/

/-- What the first loop of `write` has built. -/
structure Body where
  data : Bytes
  index : List IndexEntry
  maxSeq : Seq

/-- The body of the first loop of `write`. -/
def Body.push (b : Body) (record : Record) : Body :=
  let encoded := record.encode
  { data := b.data ++ encoded
    index := b.index ++
      [{ key := record.key, offset := b.data.length, len := encoded.length % 2 ^ 32 }]
    maxSeq := max b.maxSeq record.seq }

def Body.ofRecords (records : List Record) : Body := records.foldl Body.push ⟨[], [], 0⟩

/-- One entry of the index region. -/
def IndexEntry.encode (e : IndexEntry) : Bytes :=
  leBytes 4 e.key.length ++ e.key ++ leBytes 8 e.offset ++ leBytes 4 e.len

/-- The file image `write` builds. -/
def image (records : List Record) : Bytes :=
  let body := Body.ofRecords records
  let indexOffset := body.data.length
  let data := body.data ++ (body.index.map IndexEntry.encode).flatten
  let indexLen := data.length - indexOffset
  data ++ leBytes 8 indexOffset ++ leBytes 8 indexLen ++ leBytes 8 body.index.length ++
    leBytes 8 body.maxSeq ++ leBytes 4 sstMagic

namespace SsTable

/-- `SsTable::write`. The image and the index are built in memory; a `Vec` that would grow
beyond `isize::MAX` bytes is the capacity-overflow panic, before any file is touched. -/
def write (id : Nat) (records : List Record) : FsM Name := do
  let data := image records
  if isizeMax < data.length ∨ isizeMax < records.length * indexEntrySize then throw .panicked
  create .tmpCreate (tmpPath id)
  writeAll .tmpWrite (tmpPath id) data
  tick .tmpSync
  rename .tmpRename (tmpPath id) (sstPath id)
  tick .tmpSyncDir
  return sstPath id

/-! ## Reading -/

/-- `read_exact_at`: `vec![0; len]`, then a read that must fill it. Filling an empty buffer
succeeds at any offset. -/
def readExactAt (file : Bytes) (offset len : Nat) : Except (Stop Error) Bytes :=
  if isizeMax < len then .error .panicked
  else if len = 0 then .ok []
  else if offset + len ≤ file.length then .ok ((file.drop offset).take len)
  else .error (.err (.corrupt (.shortRead len offset)))

/-- A positioned read through the filesystem; a failing one is reported as a short read. -/
def pread (site : Site) (file : Bytes) (offset len : Nat) : FsM Bytes := do
  if isizeMax < len then throw .panicked
  mapErr (fun _ => .corrupt (.shortRead len offset)) (tick site)
  ofExcept (readExactAt file offset len)

/-- The index walk of `open`; `rest` is the index region from `pos` on, `none` is a slice out
of range. Each entry takes at least sixteen bytes, so the region's length is fuel enough. -/
def parseIndex : Nat → Bytes → Option (List IndexEntry)
  | _, [] => some []
  | 0, _ => none
  | fuel + 1, rest => do
    let klen ← (slice? rest 0 4).map ofLe
    let key ← slice? rest 4 (4 + klen)
    let offset ← (slice? rest (4 + klen) (4 + klen + 8)).map ofLe
    let len ← (slice? rest (4 + klen + 8) (4 + klen + 8 + 4)).map ofLe
    let entries ← parseIndex fuel (rest.drop (4 + klen + 8 + 4))
    return { key, offset, len } :: entries

/-- `SsTable::open`. -/
def openTable (name : Name) (id : Nat) : FsM SsTable := do
  let file ← openRead .sstOpen name
  tick .sstMetadata
  let fileLen := file.length
  if fileLen < footerSize then throw (.err (.corrupt (.shortFile name fileLen)))
  let footer ← pread .sstFooter file (fileLen - footerSize) footerSize
  let indexOffset := ofLe (footer.take 8)
  let indexLen := ofLe ((footer.drop 8).take 8)
  let count := ofLe ((footer.drop 16).take 8)
  let maxSeq := ofLe ((footer.drop 24).take 8)
  let magic := ofLe (footer.drop 32)
  if magic ≠ sstMagic then throw (.err (.corrupt (.badMagic magic name)))
  let indexBytes ← pread .sstIndex file indexOffset indexLen
  if isizeMax < count * indexEntrySize then throw .panicked
  let index ← orPanic (parseIndex indexBytes.length indexBytes)
  return { id, file, index, dataLen := indexOffset, maxSeq }

/-- `SsTable::get`. -/
def get (t : SsTable) (key : Bytes) : Except (Stop Error) (Option Record) :=
  match (binarySearchBy (fun entry => compare entry.key key) t.index).bind (t.index[·]?) with
  | none => .ok none
  | some entry => do
    let bytes ← readExactAt t.file entry.offset entry.len
    match Record.decode bytes with
    | none => .error (.err (.corrupt (.badRecord entry.offset t.id)))
    | some (record, _) => .ok (some record)

/-- The walk of `iter`; `rest` is the data region from `pos` on. A record takes at least one
byte, so the region's length is fuel enough. -/
def decodeAll (id : Nat) : Nat → Nat → Bytes → Except (Stop Error) (List Record)
  | _, _, [] => .ok []
  | 0, pos, _ => .error (.err (.corrupt (.badRecord pos id)))
  | fuel + 1, pos, rest =>
    match Record.decode rest with
    | none => .error (.err (.corrupt (.badRecord pos id)))
    | some (record, consumed) => do
      let records ← decodeAll id fuel (pos + consumed) (rest.drop consumed)
      .ok (record :: records)

/-- `SsTable::iter`. -/
def iter (t : SsTable) : Except (Stop Error) (List Record) := do
  let data ← readExactAt t.file 0 t.dataLen
  decodeAll t.id data.length 0 data

/-! ## What a written table reads back as -/

/-- The index entries of records stored from `offset` on. -/
def entriesFrom (offset : Nat) : List Record → List IndexEntry
  | [] => []
  | r :: rs =>
    { key := r.key, offset, len := r.encode.length % 2 ^ 32 } ::
      entriesFrom (offset + r.encode.length) rs

/-- The data region of a table. -/
def dataOf (records : List Record) : Bytes := (records.map Record.encode).flatten

/-- The largest sequence number, zero for no records. -/
def maxSeqOf (records : List Record) : Seq := (records.map Record.seq).foldl max 0

/-- The handle on a table that holds `records`. -/
def ofRecords (id : Nat) (records : List Record) : SsTable where
  id := id
  file := image records
  index := entriesFrom 0 records
  dataLen := (dataOf records).length
  maxSeq := maxSeqOf records

theorem dataOf_append (xs ys : List Record) : dataOf (xs ++ ys) = dataOf xs ++ dataOf ys := by
  simp [dataOf]

theorem entriesFrom_append (offset : Nat) (xs ys : List Record) :
    entriesFrom offset (xs ++ ys) =
      entriesFrom offset xs ++ entriesFrom (offset + (dataOf xs).length) ys := by
  induction xs generalizing offset with
  | nil => simp [entriesFrom, dataOf]
  | cons r rs ih =>
    rw [List.cons_append, entriesFrom, entriesFrom, ih, List.cons_append]
    simp [dataOf, Nat.add_assoc]

@[simp] theorem entriesFrom_length (offset : Nat) (rs : List Record) :
    (entriesFrom offset rs).length = rs.length := by
  induction rs generalizing offset with
  | nil => rfl
  | cons r rs ih => simp [entriesFrom, ih]

/-- The first loop of `write` collects exactly these. -/
theorem body_foldl (records : List Record) (b : Body) :
    records.foldl Body.push b =
      { data := b.data ++ dataOf records
        index := b.index ++ entriesFrom b.data.length records
        maxSeq := (records.map Record.seq).foldl max b.maxSeq } := by
  induction records generalizing b with
  | nil => simp [dataOf, entriesFrom]
  | cons r rs ih =>
    rw [List.foldl_cons, ih]
    simp [Body.push, dataOf, entriesFrom]

theorem body_ofRecords (records : List Record) :
    Body.ofRecords records = ⟨dataOf records, entriesFrom 0 records, maxSeqOf records⟩ := by
  simp [Body.ofRecords, body_foldl, maxSeqOf]

/-- The index region of a table. -/
def indexOf (records : List Record) : Bytes :=
  ((entriesFrom 0 records).map IndexEntry.encode).flatten

/-- The footer of a table. -/
def footerOf (records : List Record) : Bytes :=
  leBytes 8 (dataOf records).length ++ leBytes 8 (indexOf records).length ++
    leBytes 8 records.length ++ leBytes 8 (maxSeqOf records) ++ leBytes 4 sstMagic

theorem image_eq (records : List Record) :
    image records = dataOf records ++ indexOf records ++ footerOf records := by
  simp [image, body_ofRecords, footerOf, indexOf]

@[simp] theorem footerOf_length (records : List Record) :
    (footerOf records).length = footerSize := by
  simp [footerOf, footerSize]

theorem image_length (records : List Record) :
    (image records).length = (dataOf records).length + (indexOf records).length + footerSize := by
  rw [image_eq]
  simp
  omega

/-- The records of a table fit its formats, and the table one allocation. -/
structure Storable (records : List Record) : Prop where
  fits : ∀ r ∈ records, r.Fits
  small : (image records).length ≤ isizeMax
  few : records.length * indexEntrySize ≤ isizeMax

theorem Storable.bounded {records : List Record} (h : Storable records) :
    ∀ r ∈ records, r.Bounded := fun r hr => (h.fits r hr).bounded

/-- The index and the footer can hold what they say of the records, lengths modulo `2 ^ 32`. -/
structure Indexable (records : List Record) : Prop where
  seqs_lt : ∀ r ∈ records, r.seq < 2 ^ 64
  keys_lt : ∀ r ∈ records, r.key.length < 2 ^ 32
  small : (image records).length ≤ isizeMax
  few : records.length * indexEntrySize ≤ isizeMax

theorem Storable.indexable {records : List Record} (h : Storable records) : Indexable records where
  seqs_lt := fun r hr => (h.fits r hr).seq_lt
  keys_lt := fun r hr => (h.bounded r hr).key_lt
  small := h.small
  few := h.few

theorem entriesFrom_bounds {records : List Record} (h : ∀ r ∈ records, r.key.length < 2 ^ 32)
    {offset bound : Nat} (hb : offset + (dataOf records).length < bound) :
    ∀ e ∈ entriesFrom offset records,
      e.key.length < 2 ^ 32 ∧ e.offset < bound ∧ e.len < 2 ^ 32 := by
  induction records generalizing offset with
  | nil => simp [entriesFrom]
  | cons r rs ih =>
    have hlen : (dataOf (r :: rs)).length = r.encode.length + (dataOf rs).length := by
      simp [dataOf]
    intro e he
    rcases List.mem_cons.mp he with rfl | he
    · exact ⟨h r (by simp), by dsimp only; omega, Nat.mod_lt _ (by omega)⟩
    · exact ih (fun x hx => h x (by simp [hx])) (by omega) e he

/-- The index region parses back into its entries. -/
theorem parseIndex_encode {es : List IndexEntry}
    (h : ∀ e ∈ es, e.key.length < 2 ^ 32 ∧ e.offset < 2 ^ 64 ∧ e.len < 2 ^ 32) {fuel : Nat}
    (hfuel : ((es.map IndexEntry.encode).flatten).length ≤ fuel) :
    parseIndex fuel (es.map IndexEntry.encode).flatten = some es := by
  induction es generalizing fuel with
  | nil => cases fuel <;> rfl
  | cons e es ih =>
    obtain ⟨hk, ho, hl⟩ := h e (by simp)
    set tail := (es.map IndexEntry.encode).flatten with htail
    have hbuf : ((e :: es).map IndexEntry.encode).flatten =
        leBytes 4 e.key.length ++ e.key ++ leBytes 8 e.offset ++ leBytes 4 e.len ++ tail := by
      simp [IndexEntry.encode, htail]
    have hlength : (((e :: es).map IndexEntry.encode).flatten).length =
        4 + e.key.length + 8 + 4 + tail.length := by
      rw [hbuf]
      simp
      omega
    rw [hlength] at hfuel
    obtain ⟨fuel, rfl⟩ : ∃ f, fuel = f + 1 := ⟨fuel - 1, by omega⟩
    rw [hbuf]
    set buf := leBytes 4 e.key.length ++ e.key ++ leBytes 8 e.offset ++ leBytes 4 e.len ++ tail
      with hbufdef
    have hne : ∃ b bs, buf = b :: bs := by
      apply List.exists_cons_of_ne_nil
      intro hnil
      have := congrArg List.length hnil
      simp [hbufdef] at this
    -- the slices that the loop reads, one behind the other
    have hklen : slice? buf 0 4 = some (leBytes 4 e.key.length) :=
      slice?_append_of_eq [] (e.key ++ leBytes 8 e.offset ++ leBytes 4 e.len ++ tail)
        (by simp [hbufdef]) (by simp) (by simp)
    have hkey : slice? buf 4 (4 + e.key.length) = some e.key :=
      slice?_append_of_eq (leBytes 4 e.key.length) (leBytes 8 e.offset ++ leBytes 4 e.len ++ tail)
        (by simp [hbufdef]) (by simp) (by simp)
    have hoff : slice? buf (4 + e.key.length) (4 + e.key.length + 8) = some (leBytes 8 e.offset) :=
      slice?_append_of_eq (leBytes 4 e.key.length ++ e.key) (leBytes 4 e.len ++ tail)
        (by simp [hbufdef]) (by simp) (by simp)
    have hlen : slice? buf (4 + e.key.length + 8) (4 + e.key.length + 8 + 4) =
        some (leBytes 4 e.len) :=
      slice?_append_of_eq (leBytes 4 e.key.length ++ e.key ++ leBytes 8 e.offset) tail
        hbufdef (by simp; omega) (by simp; omega)
    have hdrop : buf.drop (4 + e.key.length + 8 + 4) = tail := by
      rw [hbufdef]
      exact List.drop_left' (by simp; omega)
    have hk' : ofLe (leBytes 4 e.key.length) = e.key.length := ofLe_leBytes_of_lt (by omega)
    have ho' : ofLe (leBytes 8 e.offset) = e.offset := ofLe_leBytes_of_lt (by omega)
    have hl' : ofLe (leBytes 4 e.len) = e.len := ofLe_leBytes_of_lt (by omega)
    have htl : parseIndex fuel tail = some es :=
      ih (fun x hx => h x (by simp [hx])) (by omega)
    obtain ⟨b, bs, hcons⟩ := hne
    rw [hcons, parseIndex, ← hcons]
    · simp only [hklen, hkey, hoff, hlen, hdrop, hk', ho', hl', htl, Option.map_some,
        Option.bind_eq_bind, Option.bind_some, pure]
    · simp

theorem readExactAt_append {pre mid post : Bytes} {offset len : Nat} (hoff : offset = pre.length)
    (hlen : len = mid.length) (hmax : mid.length ≤ isizeMax) :
    readExactAt (pre ++ mid ++ post) offset len = .ok mid := by
  subst hoff hlen
  unfold readExactAt
  rw [if_neg (by omega)]
  split
  · rename_i h0
    rw [List.length_eq_zero_iff.mp h0]
  · rw [if_pos (by simp)]
    simp [List.append_assoc]

theorem foldl_max_lt {xs : List Nat} {init bound : Nat} (hi : init < bound)
    (h : ∀ x ∈ xs, x < bound) : xs.foldl max init < bound := by
  induction xs generalizing init with
  | nil => exact hi
  | cons x xs ih =>
    rw [List.foldl_cons]
    exact ih (max_lt hi (h x (by simp))) fun y hy => h y (by simp [hy])

theorem pread_readOnly (site : Site) {file data : Bytes} {offset len : Nat}
    (h : readExactAt file offset len = .ok data) (w : World Site) :
    Post (pread site file offset len) w (ReadOnly data w) := by
  have hlen : ¬ isizeMax < len := by
    intro hlt
    simp [readExactAt, hlt] at h
  rw [pread, if_neg hlen]
  refine Post_bind_readOnly (mapErr_tick_readOnly _ _ _) fun w₁ _ => ?_
  rw [h]
  exact Post_pure_readOnly _ _

/-- **Opening a written table** gives the handle on its records. -/
theorem openTable_indexable {name : Name} (id : Nat) {records : List Record} {f : File}
    {w : World Site} (h : Indexable records) (hf : w.dir.lookup name = some f)
    (hb : f.bytes = image records) :
    Post (openTable name id) w (ReadOnly (ofRecords id records) w) := by
  have hsmall := h.small
  rw [image_length] at hsmall
  have h63 : isizeMax < 2 ^ 64 := by decide
  -- the two reads
  have hfooter : readExactAt (image records) ((image records).length - footerSize) footerSize =
      .ok (footerOf records) := by
    have hsplit : image records = dataOf records ++ indexOf records ++ footerOf records ++ [] := by
      rw [image_eq]
      simp
    have hlen := image_length records
    rw [hsplit]
    exact readExactAt_append (by simp; omega) (by simp) (by simp; decide)
  have hindex : readExactAt (image records) (dataOf records).length (indexOf records).length =
      .ok (indexOf records) := by
    rw [image_eq]
    exact readExactAt_append rfl rfl (by omega)
  -- the fields of the footer
  have hoff : ofLe ((footerOf records).take 8) = (dataOf records).length := by
    rw [footerOf]
    simp only [List.append_assoc]
    rw [List.take_left' (leBytes_length _ _), ofLe_leBytes_of_lt (by omega)]
  have hilen : ofLe (((footerOf records).drop 8).take 8) = (indexOf records).length := by
    rw [footerOf]
    simp only [List.append_assoc]
    rw [List.drop_left' (leBytes_length _ _), List.take_left' (leBytes_length _ _),
      ofLe_leBytes_of_lt (by omega)]
  have hcount : ofLe (((footerOf records).drop 16).take 8) = records.length := by
    have hfew := h.few
    rw [footerOf]
    simp only [indexEntrySize] at hfew
    rw [show ∀ a b c d e : Bytes, a ++ b ++ c ++ d ++ e = (a ++ b) ++ (c ++ (d ++ e)) by simp,
      List.drop_left' (by simp), List.take_left' (leBytes_length _ _),
      ofLe_leBytes_of_lt (by omega)]
  have hseq : ofLe (((footerOf records).drop 24).take 8) = maxSeqOf records := by
    have hlt : maxSeqOf records < 2 ^ 64 := by
      refine foldl_max_lt (by omega) fun x hx => ?_
      obtain ⟨r, hr, rfl⟩ := List.mem_map.mp hx
      exact h.seqs_lt r hr
    rw [footerOf]
    rw [show ∀ a b c d e : Bytes, a ++ b ++ c ++ d ++ e = (a ++ b ++ c) ++ (d ++ e) by simp,
      List.drop_left' (by simp), List.take_left' (leBytes_length _ _),
      ofLe_leBytes_of_lt (by omega)]
  have hmagic : ofLe ((footerOf records).drop 32) = sstMagic := by
    rw [footerOf, List.drop_left' (by simp), ofLe_leBytes_of_lt (by decide)]
  have hparse : parseIndex (indexOf records).length (indexOf records) =
      some (entriesFrom 0 records) := by
    refine parseIndex_encode (fun e he => ?_) le_rfl
    have hbound : 0 + (dataOf records).length < isizeMax := by
      simp only [footerSize] at hsmall
      omega
    obtain ⟨hk, ho, hl⟩ := entriesFrom_bounds h.keys_lt hbound e he
    exact ⟨hk, by omega, hl⟩
  -- the calls of `openTable`, in their order
  rw [openTable]
  refine Post_bind_readOnly (openRead_readOnly _ hf) fun w₁ _ => ?_
  refine Post_bind_readOnly (tick_readOnly _ _) fun w₂ _ => ?_
  simp only [hb]
  rw [if_neg (by rw [image_length]; omega)]
  refine Post_bind_readOnly (pread_readOnly _ hfooter _) fun w₃ _ => ?_
  simp only [hoff, hilen, hcount, hseq, hmagic]
  rw [if_neg (by simp)]
  refine Post_bind_readOnly (pread_readOnly _ hindex _) fun w₄ _ => ?_
  rw [if_neg (by have := h.few; omega), hparse]
  exact Post_pure_readOnly _ _

theorem openTable_readOnly {name : Name} (id : Nat) {records : List Record} {f : File}
    {w : World Site} (h : Storable records) (hf : w.dir.lookup name = some f)
    (hb : f.bytes = image records) :
    Post (openTable name id) w (ReadOnly (ofRecords id records) w) :=
  openTable_indexable id h.indexable hf hb

end SsTable

end RustFundamentals.Lsmkv
