import RustFundamentals.Lsmkv.Error

/-!
# lsmkv: records on disk

`encoding.rs`: the record type, its wire format, and the CRC-32 that guards
every frame of the write-ahead log.

A sequence number is a `Nat`; `encode` stores it in eight bytes, as the `u64` of the source.
-/

namespace RustFundamentals.Lsmkv

open Foundation Foundation.Fs

/-- A global, increasing version stamp (`u64`). -/
abbrev Seq := Nat

/-- What a key maps to on disk. -/
inductive ValueKind
  | put (bytes : Bytes)
  | delete
  deriving DecidableEq, Repr

/-- One logical write. -/
structure Record where
  seq : Seq
  key : Bytes
  value : ValueKind
  deriving DecidableEq, Repr

def kindPut : UInt8 := 0
def kindDelete : UInt8 := 1

/-- `"LSM1"`, the footer's magic number. -/
def sstMagic : Nat := 0x4C534D31

namespace Record

/-- A put record. -/
def put (seq : Seq) (key value : Bytes) : Record := { seq, key, value := .put value }

/-- A delete record. -/
def tombstone (seq : Seq) (key : Bytes) : Record := { seq, key, value := .delete }

@[simp] theorem put_seq (seq : Seq) (key value : Bytes) : (put seq key value).seq = seq := rfl
@[simp] theorem put_key (seq : Seq) (key value : Bytes) : (put seq key value).key = key := rfl
@[simp] theorem tombstone_seq (seq : Seq) (key : Bytes) : (tombstone seq key).seq = seq := rfl
@[simp] theorem tombstone_key (seq : Seq) (key : Bytes) : (tombstone seq key).key = key := rfl

end Record

/-- The kind byte and the value bytes of a record. -/
def ValueKind.parts : ValueKind → UInt8 × Bytes
  | .put bytes => (kindPut, bytes)
  | .delete => (kindDelete, [])

/-- The value a reader sees: `none` for a tombstone. -/
def ValueKind.toOption : ValueKind → Option Bytes
  | .put bytes => some bytes
  | .delete => none

/-- The wire format: `seq`, kind, key length, key, value length, value. -/
def Record.encode (r : Record) : Bytes :=
  let (kind, value) := r.value.parts
  leBytes 8 r.seq ++ [kind] ++ leBytes 4 r.key.length ++ r.key ++
    leBytes 4 value.length ++ value

/-- The `match kind` of `decode`. -/
def decodeValue (kind : UInt8) (valueBytes : Bytes) : Option ValueKind :=
  if kind = kindPut then some (.put valueBytes)
  else if kind = kindDelete then some .delete
  else none

/-- Parse one record from the front of `buf`, with the number of bytes it took. -/
def Record.decode (buf : Bytes) : Option (Record × Nat) := do
  let pos := 0
  let seq ← (slice? buf pos (pos + 8)).map ofLe
  let pos := pos + 8
  let kind ← buf[pos]?
  let pos := pos + 1
  let klen ← (slice? buf pos (pos + 4)).map ofLe
  let pos := pos + 4
  let key ← slice? buf pos (pos + klen)
  let pos := pos + klen
  let vlen ← (slice? buf pos (pos + 4)).map ofLe
  let pos := pos + 4
  let valueBytes ← slice? buf pos (pos + vlen)
  let pos := pos + vlen
  let value ← decodeValue kind valueBytes
  return ({ seq, key, value }, pos)

/-- The encoding is shorter than `2 ^ 32` bytes and the sequence number is a `u64`: what the
length and sequence fields of the formats can hold. -/
structure Record.Fits (r : Record) : Prop where
  seq_lt : r.seq < 2 ^ 64
  length_lt : r.encode.length < 2 ^ 32

theorem Record.encode_length (r : Record) :
    r.encode.length = 17 + r.key.length + r.value.parts.2.length := by
  simp [Record.encode]
  omega

/-- The sequence number does not change how long the encoding is. -/
theorem Record.encode_length_congr {r r' : Record} (hk : r.key = r'.key)
    (hv : r.value = r'.value) : r.encode.length = r'.encode.length := by
  rw [Record.encode_length, Record.encode_length, hk, hv]

theorem decodeValue_parts (v : ValueKind) : decodeValue v.parts.1 v.parts.2 = some v := by
  cases v <;> rfl

/-- The layout of a record, whatever its kind byte. -/
def wire (seq : Nat) (kind : UInt8) (key value : Bytes) : Bytes :=
  leBytes 8 seq ++ [kind] ++ leBytes 4 key.length ++ key ++ leBytes 4 value.length ++ value

@[simp] theorem wire_length (seq : Nat) (kind : UInt8) (key value : Bytes) :
    (wire seq kind key value).length = 17 + key.length + value.length := by
  simp [wire]
  omega

theorem Record.encode_eq_wire (r : Record) :
    r.encode = wire r.seq r.value.parts.1 r.key r.value.parts.2 := rfl

/-- `decode` reads the fields back, and leaves the verdict to the kind byte. -/
theorem Record.decode_wire {seq : Nat} {key value : Bytes} (hseq : seq < 2 ^ 64)
    (hkey : key.length < 2 ^ 32) (hvalue : value.length < 2 ^ 32) (kind : UInt8) (t : Bytes) :
    Record.decode (wire seq kind key value ++ t) =
      (decodeValue kind value).map fun v =>
        ({ seq, key, value := v }, (wire seq kind key value).length) := by
  have hs : slice? (wire seq kind key value ++ t) 0 8 = some (leBytes 8 seq) :=
    slice?_append_of_eq []
      ([kind] ++ leBytes 4 key.length ++ key ++ leBytes 4 value.length ++ value ++ t)
      (by simp [wire]) (by simp) (by simp)
  have hk : (wire seq kind key value ++ t)[8]? = some kind := by simp [wire]
  have hkl : slice? (wire seq kind key value ++ t) 9 13 = some (leBytes 4 key.length) :=
    slice?_append_of_eq (leBytes 8 seq ++ [kind]) (key ++ leBytes 4 value.length ++ value ++ t)
      (by simp [wire]) (by simp) (by simp)
  have hkb : slice? (wire seq kind key value ++ t) 13 (13 + key.length) = some key :=
    slice?_append_of_eq (leBytes 8 seq ++ [kind] ++ leBytes 4 key.length)
      (leBytes 4 value.length ++ value ++ t) (by simp [wire]) (by simp) (by simp)
  have hvl : slice? (wire seq kind key value ++ t) (13 + key.length)
      (13 + key.length + 4) = some (leBytes 4 value.length) :=
    slice?_append_of_eq (leBytes 8 seq ++ [kind] ++ leBytes 4 key.length ++ key)
      (value ++ t) (by simp [wire]) (by simp; omega) (by simp; omega)
  have hvb : slice? (wire seq kind key value ++ t) (13 + key.length + 4)
      (13 + key.length + 4 + value.length) = some value :=
    slice?_append_of_eq
      (leBytes 8 seq ++ [kind] ++ leBytes 4 key.length ++ key ++ leBytes 4 value.length) t
      (by simp [wire]) (by simp; omega) (by simp; omega)
  have hle8 : ofLe (leBytes 8 seq) = seq := ofLe_leBytes_of_lt (by omega)
  have hle4 : ofLe (leBytes 4 key.length) = key.length := ofLe_leBytes_of_lt (by omega)
  have hle4' : ofLe (leBytes 4 value.length) = value.length := ofLe_leBytes_of_lt (by omega)
  have hlength : (wire seq kind key value).length = 13 + key.length + 4 + value.length := by
    rw [wire_length]
    omega
  simp only [Record.decode, Nat.zero_add, hs, hk, hkl, hkb, hvl, hvb, hle8, hle4, hle4', hlength,
    Option.map_some, Option.bind_eq_bind, Option.bind_some, pure]
  cases decodeValue kind value <;> rfl

/-- The sequence number and the two lengths are what their fields can hold. -/
structure Record.Bounded (r : Record) : Prop where
  seq_lt : r.seq < 2 ^ 64
  key_lt : r.key.length < 2 ^ 32
  value_lt : r.value.parts.2.length < 2 ^ 32

theorem Record.Fits.bounded {r : Record} (h : r.Fits) : r.Bounded := by
  have hlen := h.length_lt
  rw [Record.encode_length] at hlen
  exact ⟨h.seq_lt, by omega, by omega⟩

/-- **The codec round-trips** in front of anything. -/
theorem Record.Bounded.decode_encode_append {r : Record} (h : r.Bounded) (t : Bytes) :
    Record.decode (r.encode ++ t) = some (r, r.encode.length) := by
  rw [Record.encode_eq_wire, Record.decode_wire h.seq_lt h.key_lt h.value_lt, decodeValue_parts]
  rfl

theorem Record.decode_encode_append {r : Record} (h : r.Fits) (t : Bytes) :
    Record.decode (r.encode ++ t) = some (r, r.encode.length) :=
  h.bounded.decode_encode_append t

theorem Record.decode_encode {r : Record} (h : r.Fits) :
    Record.decode r.encode = some (r, r.encode.length) := by
  simpa using Record.decode_encode_append h []

/-! ## CRC-32 -/

/-- One step of the inner loop of `crc32_table`. -/
def crcBit (crc : UInt32) : UInt32 :=
  if crc &&& 1 = 1 then (crc >>> 1) ^^^ 0xEDB88320 else crc >>> 1

/-- The table entry for byte value `i`: eight steps of the inner loop. -/
def crcEntry (i : Nat) : UInt32 := crcBit^[8] (UInt32.ofNat i)

/-- `CRC_TABLE`. -/
def crc32Table : List UInt32 := (List.range 256).map crcEntry

/-- The loop body of `crc32`. -/
def crcByte (crc : UInt32) (byte : UInt8) : UInt32 :=
  let idx := ((crc ^^^ byte.toUInt32) &&& 0xFF).toNat
  (crc >>> 8) ^^^ crc32Table.getD idx 0

/-- CRC-32 of `data`. -/
def crc32 (data : Bytes) : UInt32 := data.foldl crcByte 0xFFFFFFFF ^^^ 0xFFFFFFFF

/-- The check value of the test `crc32_matches_known_vector`. -/
example : crc32 (ascii "123456789") = 0xCBF43926 := by decide +kernel

end RustFundamentals.Lsmkv
