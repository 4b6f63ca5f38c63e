import RustFundamentals.Foundation.Loop
import RustFundamentals.Foundation.Decimal
import RustFundamentals.Rudis.Error

/-!
# rudis: the wire format

`resp.rs`: RESP values, their encoding, and the parser of one value from the front of a
buffer. The parser may find the value incomplete, find it malformed, or panic: at a buffer
that starts with CR LF it slices backwards, and an array count may ask for more memory than
one allocation may hold.
-/

namespace RustFundamentals.Rudis

open Foundation Foundation.Fs

/-- A RESP value: one request or one reply. -/
inductive Resp
  | simple (text : Str)
  | error (text : Str)
  | integer (i : Int)
  | bulk (bytes : Bytes)
  | null
  | array (items : List Resp)

mutual

/-- Equality of values, decided. -/
def Resp.beq : Resp → Resp → Bool
  | .simple s, .simple t => s = t
  | .error s, .error t => s = t
  | .integer i, .integer j => i = j
  | .bulk b, .bulk c => b = c
  | .null, .null => true
  | .array xs, .array ys => beqAll xs ys
  | _, _ => false

def beqAll : List Resp → List Resp → Bool
  | [], [] => true
  | x :: xs, y :: ys => x.beq y && beqAll xs ys
  | _, _ => false

end

mutual

theorem Resp.beq_iff : ∀ v w : Resp, v.beq w = true ↔ v = w
  | .simple _, w => by cases w <;> simp [Resp.beq]
  | .error _, w => by cases w <;> simp [Resp.beq]
  | .integer _, w => by cases w <;> simp [Resp.beq]
  | .bulk _, w => by cases w <;> simp [Resp.beq]
  | .null, w => by cases w <;> simp [Resp.beq]
  | .array xs, w => by cases w <;> simp [Resp.beq, beqAll_iff xs]

theorem beqAll_iff : ∀ vs ws : List Resp, beqAll vs ws = true ↔ vs = ws
  | [], ws => by cases ws <;> simp [beqAll]
  | v :: vs, ws => by cases ws <;> simp [beqAll, Resp.beq_iff v, beqAll_iff vs]

end

instance : DecidableEq Resp := fun v w => decidable_of_iff _ (v.beq_iff w)

/-- The end of a framing line. -/
def crlf : Bytes := [13, 10]

/-! ## Encoding -/

mutual

/-- `Resp::encode`: the bytes it appends to its output. -/
def Resp.encode : Resp → Bytes
  | .simple text => 43 :: text.bytes ++ crlf
  | .error text => 45 :: text.bytes ++ crlf
  | .integer i => 58 :: decimalInt i ++ crlf
  | .bulk bytes => 36 :: decimal bytes.length ++ crlf ++ bytes ++ crlf
  | .null => ascii "$-1" ++ crlf
  | .array items => 42 :: decimal items.length ++ crlf ++ encodeAll items

/-- The values one after the other. -/
def encodeAll : List Resp → Bytes
  | [] => []
  | item :: items => item.encode ++ encodeAll items

end

/-! ## Parsing -/

/-- `Resp::find_crlf`. -/
def findCrlf : Bytes → Option Nat
  | [] => none
  | b :: bs => if b = 13 ∧ bs.head? = some 10 then some 0 else (findCrlf bs).map (· + 1)

/-- What a parse comes to: a value and the bytes it took, nothing yet, an error, a panic. -/
abbrev Parsed := Except (Stop Error) (Option (Resp × Nat))

/-- `Err(Error::protocol(msg))`. -/
def protocolError {α : Type} (msg : Str) : Except (Stop Error) α := .error (.err (.protocol msg))

/-- The line as an `i64`. -/
def lineInt (line : Bytes) (complaint : Str) : Except (Stop Error) Int :=
  match (Str.fromUtf8 line).bind fun text => parseSigned 64 text.bytes with
  | some n => .ok n
  | none => protocolError complaint

/-- The line as text. -/
def lineText (line : Bytes) (complaint : Str) : Except (Stop Error) Str :=
  match Str.fromUtf8 line with
  | some text => .ok text
  | none => protocolError complaint

/-- A byte under `{:#x}`. -/
def hexByte (b : UInt8) : Str where
  bytes :=
    if b < 16 then [48, 120, hexDigit b.toNat]
    else [48, 120, hexDigit (b.toNat / 16), hexDigit (b.toNat % 16)]
  valid := by
    have hb : b.toNat < 256 := b.toNat_lt
    apply validUtf8_ascii
    split
    · rename_i hlow
      simp [hexDigit_lt b.toNat hlow]
    · simp [hexDigit_lt (b.toNat / 16) (by omega), hexDigit_lt (b.toNat % 16) (by omega)]

/-- `size_of::<Resp>()`. -/
def respSize : Nat := 32

/-- The items loop of an array: `count` more values, `consumed` bytes into `buf`. -/
def parseItems (parse : Bytes → Parsed) (buf : Bytes) : Nat → Nat → List Resp → Parsed
  | 0, consumed, items => .ok (some (.array items, consumed))
  | count + 1, consumed, items =>
    match slice? buf consumed buf.length with
    | none => .error .panicked
    | some rest => do
      match ← parse rest with
      | some (value, used) => parseItems parse buf count (consumed + used) (items ++ [value])
      | none => .ok none

/-- The `match` of `Resp::parse` on the type byte; `parse` is its recursive call. -/
def parseTagged (parse : Bytes → Parsed) (buf : Bytes) (tag : UInt8) (line : Bytes)
    (afterLine : Nat) : Parsed :=
  if tag = 43 then do
    let text ← lineText line (Str.lit "invalid UTF-8 in simple string")
    .ok (some (.simple text, afterLine))
  else if tag = 45 then do
    let text ← lineText line (Str.lit "invalid UTF-8 in error")
    .ok (some (.error text, afterLine))
  else if tag = 58 then do
    let n ← lineInt line (Str.lit "invalid integer")
    .ok (some (.integer n, afterLine))
  else if tag = 36 then do
    let n ← lineInt line (Str.lit "invalid bulk length")
    if n < 0 then .ok (some (.null, afterLine))
    else
      let valueEnd := afterLine + n.toNat
      if buf.length < valueEnd + 2 then .ok none
      else
        match slice? buf afterLine valueEnd with
        | none => .error .panicked
        | some value => .ok (some (.bulk value, valueEnd + 2))
  else if tag = 42 then do
    let count ← lineInt line (Str.lit "invalid array count")
    if count < 0 then .ok (some (.null, afterLine))
    else if isizeMax < count.toNat * respSize then .error .panicked
    else parseItems parse buf count.toNat afterLine []
  else protocolError (Str.lit "bad type byte: " ++ hexByte tag)

/-- The body of `Resp::parse`. -/
def parseStep (parse : Bytes → Parsed) (buf : Bytes) : Parsed :=
  match buf.head?, findCrlf buf with
  | none, _ => .ok none
  | some _, none => .ok none
  | some tag, some lineEnd =>
    match slice? buf 1 lineEnd with
    | none => .error .panicked
    | some line => parseTagged parse buf tag line (lineEnd + 2)

/-- `parse` with a bound on the nesting, which the length of the buffer is. -/
def parseLoop : Nat → Bytes → Parsed
  | 0, _ => .error .panicked
  | fuel + 1, buf => parseStep (parseLoop fuel) buf

/-- `Resp::parse`: one value from the front of the buffer. -/
def Resp.parse (buf : Bytes) : Parsed := parseLoop (buf.length + 1) buf

theorem parseItems_congr {p q : Bytes → Parsed} {buf : Bytes}
    (h : ∀ b : Bytes, b.length < buf.length → p b = q b) (hne : buf ≠ []) (count : Nat)
    {consumed : Nat} (hpos : 0 < consumed) (items : List Resp) :
    parseItems p buf count consumed items = parseItems q buf count consumed items := by
  induction count generalizing consumed items with
  | zero => rfl
  | succ count ih =>
    rw [parseItems, parseItems]
    cases hrest : slice? buf consumed buf.length with
    | none => rfl
    | some rest =>
      obtain ⟨hle, _, rfl⟩ := slice?_eq_some hrest
      have hlt : ((buf.drop consumed).take (buf.length - consumed)).length < buf.length := by
        have := List.length_pos_iff.mpr hne
        simp only [List.length_take, List.length_drop]
        omega
      simp only [h _ hlt]
      congr 1
      funext r
      cases r with
      | none => rfl
      | some r => exact ih (by omega) _

/-- Only the recursive calls on shorter buffers matter. -/
theorem parseStep_congr {p q : Bytes → Parsed} {buf : Bytes}
    (h : ∀ b : Bytes, b.length < buf.length → p b = q b) : parseStep p buf = parseStep q buf := by
  have hitems : ∀ count lineEnd, buf ≠ [] →
      parseItems p buf count (lineEnd + 2) [] = parseItems q buf count (lineEnd + 2) [] :=
    fun count lineEnd hne => parseItems_congr h hne count (by omega) []
  cases buf with
  | nil => rfl
  | cons tag bs => simp only [parseStep, parseTagged, hitems _ _ (List.cons_ne_nil tag bs)]

theorem parseLoop_eq {fuel : Nat} {buf : Bytes} (h : buf.length < fuel) :
    parseLoop fuel buf = Resp.parse buf :=
  fuel_irrelevant_lt _ List.length (fun _ _ _ => parseStep_congr) h (Nat.lt_succ_self _)

/-- `Resp::parse` is its body with itself as the recursive call. -/
theorem Resp.parse_eq (buf : Bytes) : Resp.parse buf = parseStep Resp.parse buf :=
  parseStep_congr fun _ hb => parseLoop_eq hb

end RustFundamentals.Rudis
