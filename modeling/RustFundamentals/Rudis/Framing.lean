import RustFundamentals.Rudis.Grammar

/-!
# rudis: framing

What the encoder writes the parser reads back, whatever follows it, as long as no status line
has a CR LF of its own (`parse_encode`).
-/

namespace RustFundamentals.Rudis

open Foundation Foundation.Fs

/-! ## Lines -/

theorem findCrlf_of_not_mem {bs : Bytes} (h : 13 ∉ bs) : findCrlf bs = none := by
  rw [findCrlf_eq_none]
  intro hin
  exact h (hin.subset (by simp))

theorem findCrlf_decimalInt (i : Int) : findCrlf (decimalInt i) = none := by
  apply findCrlf_of_not_mem
  intro hmem
  exact absurd (decimalInt_byte hmem).1 (by decide)

theorem decimalInt_natCast (n : Nat) : decimalInt n = decimal n := by
  rw [decimalInt, if_neg (by omega), Int.natAbs_natCast]

/-! ## Values -/

mutual

/-- The value can be sent as one: its status lines have no CR LF, its integers are `i64`s,
its strings and arrays fit in memory. -/
def Resp.Sendable : Resp → Prop
  | .simple text => findCrlf text.bytes = none
  | .error text => findCrlf text.bytes = none
  | .integer i => IsI64 i
  | .bulk bytes => bytes.length ≤ isizeMax
  | .null => True
  | .array items => items.length * respSize ≤ isizeMax ∧ AllSendable items

def AllSendable : List Resp → Prop
  | [] => True
  | item :: items => item.Sendable ∧ AllSendable items

end

/-- The text of an `i64` reads back. -/
theorem lineValue_decimalInt {i : Int} (h : IsI64 i) : lineValue (decimalInt i) = some i := by
  have hvalid : validUtf8 (decimalInt i) = true :=
    validUtf8_ascii fun b hb => (decimalInt_byte hb).2
  have hparse := parseSigned_decimalInt (w := 64) h.1 h.2
  simp only [lineValue, Str.fromUtf8, dif_pos hvalid, Option.bind_some, hparse]

/-- A length that fits is read back. -/
theorem lineValue_length {n : Nat} (h : n ≤ isizeMax) : lineValue (decimal n) = some (n : Int) := by
  rw [← decimalInt_natCast]
  unfold isizeMax at h
  exact lineValue_decimalInt ⟨by omega, by omega⟩

theorem findCrlf_decimal (n : Nat) : findCrlf (decimal n) = none := by
  rw [← decimalInt_natCast]
  exact findCrlf_decimalInt n

mutual

/-- What the encoder writes is an encoding, its bulk strings ended by CR LF. -/
theorem encodes_encode : ∀ (v : Resp), v.Sendable → Encodes IsCrlf v v.encode
  | .simple text, h => ⟨h, by simp [Resp.encode, header]⟩
  | .error text, h => ⟨h, by simp [Resp.encode, header]⟩
  | .integer i, h =>
    ⟨decimalInt i, findCrlf_decimalInt i, lineValue_decimalInt h, by simp [Resp.encode, header]⟩
  | .bulk bytes, h =>
    ⟨decimal bytes.length, crlf, findCrlf_decimal _, lineValue_length h, rfl,
      by simp [Resp.encode, header]⟩
  | .null, _ =>
    ⟨36, decimalInt (-1), -1, .inl rfl, findCrlf_decimalInt _, lineValue_decimalInt (by decide),
      by decide, by decide⟩
  | .array items, ⟨hfit, hitems⟩ =>
    ⟨decimal items.length, encodeAll items, findCrlf_decimal _,
      lineValue_length (le_trans (by unfold respSize; omega) hfit), hfit,
      encodesAll_encodeAll items hitems, by simp [Resp.encode, header]⟩

theorem encodesAll_encodeAll : ∀ (items : List Resp), AllSendable items →
    EncodesAll IsCrlf items (encodeAll items)
  | [], _ => rfl
  | item :: items, ⟨hitem, hitems⟩ =>
    ⟨item.encode, encodeAll items, encodes_encode item hitem, encodesAll_encodeAll items hitems,
      rfl⟩

end

/-- **What is sent is read back**, whatever follows it. -/
theorem parse_encode (v : Resp) (rest : Bytes) (h : v.Sendable) :
    Resp.parse (v.encode ++ rest) = .ok (some (v, v.encode.length)) :=
  parse_of_encodes v _ rest ((encodes_encode v h).mono fun _ => IsCrlf.anyTwo)

end RustFundamentals.Rudis
