import RustFundamentals.Rudis.Resp

/-!
# rudis: the grammar of the wire format

`Encodes` says, without a parser, which byte strings encode a value: a header line that ends in
CR LF, behind it the payload of a bulk string and its two terminator bytes, or the items of an
array. What may stand in the place of a terminator is a parameter. With any two bytes there,
the encodings are exactly what `Resp::parse` takes (`parse_of_encodes`, `parse_sound`).
-/

namespace RustFundamentals.Rudis

open Foundation Foundation.Fs

/-! ## Lines -/

/-- The first CR LF is none exactly when there is none. -/
theorem findCrlf_eq_none {bs : Bytes} : findCrlf bs = none ↔ ¬ [13, 10] <:+: bs := by
  induction bs with
  | nil => simp [findCrlf]
  | cons b bs ih =>
    rw [findCrlf, List.infix_cons_iff, List.cons_prefix_cons]
    have hhead : [10] <+: bs ↔ bs.head? = some 10 := by
      cases bs with
      | nil => simp
      | cons c bs => simp [List.cons_prefix_cons, eq_comm]
    rw [hhead]
    by_cases h : b = 13 ∧ bs.head? = some 10
    · simp [h]
    · have hnot : ¬ (13 = b ∧ bs.head? = some 10) := fun hc => h ⟨hc.1.symm, hc.2⟩
      rw [if_neg h, Option.map_eq_none_iff, ih, or_iff_right hnot]

/-- The CR LF that ends a line is found. -/
theorem findCrlf_line {line : Bytes} (h : findCrlf line = none) (rest : Bytes) :
    findCrlf (line ++ crlf ++ rest) = some line.length := by
  induction line with
  | nil => rfl
  | cons b line ih =>
    rw [findCrlf] at h
    split at h
    · exact absurd h (by simp)
    rename_i hb
    have hcr : ¬ (b = 13 ∧ (line ++ crlf ++ rest).head? = some 10) := by
      intro hboth
      obtain ⟨rfl, hhead⟩ := hboth
      cases line with
      | nil => simp [crlf] at hhead
      | cons c line => exact hb ⟨rfl, hhead⟩
    rw [List.cons_append, List.cons_append, findCrlf, if_neg hcr,
      ih (by simpa using h)]
    rfl

/-- A line that is found. -/
theorem line_of_findCrlf {bs : Bytes} {n : Nat} (h : findCrlf bs = some n) :
    ∃ line rest, bs = line ++ crlf ++ rest ∧ findCrlf line = none ∧ line.length = n := by
  induction bs generalizing n with
  | nil => cases h
  | cons b bs ih =>
    rw [findCrlf] at h
    split at h
    · rename_i hb
      obtain rfl := Option.some.inj h
      cases bs with
      | nil => exact absurd hb.2 (by simp)
      | cons c bs =>
        obtain ⟨rfl, hc⟩ := hb
        obtain rfl : c = 10 := Option.some.inj hc
        exact ⟨[], bs, rfl, rfl, rfl⟩
    · rename_i hb
      obtain ⟨m, hm, rfl⟩ := Option.map_eq_some_iff.mp h
      obtain ⟨line, rest, rfl, hline, rfl⟩ := ih hm
      refine ⟨b :: line, rest, rfl, ?_, rfl⟩
      -- no CR LF across the first two bytes of the line
      have hfirst : ¬ (b = 13 ∧ line.head? = some 10) := by
        intro hboth
        apply hb
        cases line with
        | nil => exact absurd hboth.2 (by simp)
        | cons c line => exact hboth
      rw [findCrlf, if_neg hfirst, hline]
      rfl

/-! ## Headers -/

/-- The number a line reads as. -/
def lineValue (line : Bytes) : Option Int :=
  (Str.fromUtf8 line).bind fun text => parseSigned 64 text.bytes

theorem lineInt_of_lineValue {line : Bytes} {n : Int} (h : lineValue line = some n)
    (complaint : Str) : lineInt line complaint = .ok n := by
  rw [lineValue] at h
  rw [lineInt, h]

theorem lineInt_of_none {line : Bytes} (h : lineValue line = none) (complaint : Str) :
    lineInt line complaint = protocolError complaint := by
  rw [lineValue] at h
  rw [lineInt, h]

/-- A header line: the type byte, the line, and its CR LF. -/
def header (tag : UInt8) (line : Bytes) : Bytes := tag :: line ++ crlf

@[simp] theorem header_length (tag : UInt8) (line : Bytes) :
    (header tag line).length = line.length + 3 := by
  simp [header, crlf]

/-- The type byte is not part of a CR LF. -/
theorem findCrlf_cons {tag : UInt8} (htag : tag ≠ 13) {line : Bytes}
    (hline : findCrlf line = none) : findCrlf (tag :: line) = none := by
  rw [findCrlf, if_neg (fun h => htag h.1), hline]
  rfl

theorem findCrlf_header {tag : UInt8} {line : Bytes} (hline : findCrlf (tag :: line) = none)
    (rest : Bytes) : findCrlf (header tag line ++ rest) = some (line.length + 1) :=
  findCrlf_line hline rest

theorem slice?_header (tag : UInt8) (line rest : Bytes) :
    slice? (header tag line ++ rest) 1 (line.length + 1) = some line :=
  slice?_append_of_eq [tag] (crlf ++ rest) (by simp [header]) rfl (by simp [Nat.add_comm])

theorem parseStep_header (parse : Bytes → Parsed) {tag : UInt8} {line : Bytes}
    (hline : findCrlf (tag :: line) = none) (rest : Bytes) :
    parseStep parse (header tag line ++ rest) =
      parseTagged parse (header tag line ++ rest) tag line (line.length + 3) := by
  have hhead : (header tag line ++ rest).head? = some tag := rfl
  simp only [parseStep, hhead, findCrlf_header hline, slice?_header]

theorem lineText_bytes (text : Str) (complaint : Str) :
    lineText text.bytes complaint = .ok text := by
  simp only [lineText, Str.fromUtf8_bytes]

theorem parseTagged_bulk {parse : Bytes → Parsed} {buf line value : Bytes} {n afterLine : Nat}
    (hread : ∀ complaint, lineInt line complaint = .ok (n : Int))
    (hroom : afterLine + n + 2 ≤ buf.length)
    (hslice : slice? buf afterLine (afterLine + n) = some value) :
    parseTagged parse buf 36 line afterLine = .ok (some (.bulk value, afterLine + n + 2)) := by
  have hpos : ¬ (n : Int) < 0 := by omega
  show (lineInt line _ >>= _) = _
  rw [hread]
  simp only [bind, Except.bind, if_neg hpos, Int.toNat_natCast, if_neg (not_lt.mpr hroom), hslice]

theorem parseTagged_bulkPart {parse : Bytes → Parsed} {buf line : Bytes} {n afterLine : Nat}
    (hread : ∀ complaint, lineInt line complaint = .ok (n : Int))
    (hroom : buf.length < afterLine + n + 2) :
    parseTagged parse buf 36 line afterLine = .ok none := by
  have hpos : ¬ (n : Int) < 0 := by omega
  show (lineInt line _ >>= _) = _
  rw [hread]
  simp only [bind, Except.bind, if_neg hpos, Int.toNat_natCast, if_pos hroom]

theorem parseTagged_hugeArray {parse : Bytes → Parsed} {buf line : Bytes} {n afterLine : Nat}
    (hread : ∀ complaint, lineInt line complaint = .ok (n : Int)) (hbig : isizeMax < n * respSize) :
    parseTagged parse buf 42 line afterLine = .error .panicked := by
  have hpos : ¬ (n : Int) < 0 := by omega
  show (lineInt line _ >>= _) = _
  rw [hread]
  simp only [bind, Except.bind, if_neg hpos, Int.toNat_natCast, if_pos hbig]

theorem parseTagged_array {parse : Bytes → Parsed} {buf line : Bytes} {n afterLine : Nat}
    (hread : ∀ complaint, lineInt line complaint = .ok (n : Int)) (hfit : n * respSize ≤ isizeMax) :
    parseTagged parse buf 42 line afterLine = parseItems parse buf n afterLine [] := by
  have hpos : ¬ (n : Int) < 0 := by omega
  show (lineInt line _ >>= _) = _
  rw [hread]
  simp only [bind, Except.bind, if_neg hpos, Int.toNat_natCast, if_neg (not_lt.mpr hfit)]

/-- A negative length is a null, for a bulk string and for an array. -/
theorem parseTagged_null {parse : Bytes → Parsed} {buf line : Bytes} {tag : UInt8} {n : Int}
    {afterLine : Nat} (htag : tag = 36 ∨ tag = 42)
    (hread : ∀ complaint, lineInt line complaint = .ok n) (hneg : n < 0) :
    parseTagged parse buf tag line afterLine = .ok (some (.null, afterLine)) := by
  rcases htag with rfl | rfl
  · show (lineInt line _ >>= _) = _
    rw [hread]
    simp only [bind, Except.bind, if_pos hneg]
  · show (lineInt line _ >>= _) = _
    rw [hread]
    simp only [bind, Except.bind, if_pos hneg]

/-! ## Encodings -/

/-- Any two bytes: what the parser makes sure of behind a bulk string. -/
def AnyTwo (ending : Bytes) : Prop := ending.length = 2

/-- CR LF: what the protocol wants there. -/
def IsCrlf (ending : Bytes) : Prop := ending = crlf

mutual

/-- The bytes encode the value, `Ending` being what may stand behind the payload of a bulk
string. -/
def Encodes (Ending : Bytes → Prop) : Resp → Bytes → Prop
  | .simple text, bs => findCrlf text.bytes = none ∧ bs = header 43 text.bytes
  | .error text, bs => findCrlf text.bytes = none ∧ bs = header 45 text.bytes
  | .integer i, bs =>
    ∃ line, findCrlf line = none ∧ lineValue line = some i ∧ bs = header 58 line
  | .bulk value, bs =>
    ∃ line ending, findCrlf line = none ∧ lineValue line = some (value.length : Int) ∧
      Ending ending ∧ bs = header 36 line ++ value ++ ending
  | .null, bs =>
    ∃ tag line n, (tag = 36 ∨ tag = 42) ∧ findCrlf line = none ∧ lineValue line = some n ∧
      n < 0 ∧ bs = header tag line
  | .array items, bs =>
    ∃ line body, findCrlf line = none ∧ lineValue line = some (items.length : Int) ∧
      items.length * respSize ≤ isizeMax ∧ EncodesAll Ending items body ∧
      bs = header 42 line ++ body

/-- The bytes are encodings of the values, one after the other. -/
def EncodesAll (Ending : Bytes → Prop) : List Resp → Bytes → Prop
  | [], body => body = []
  | item :: items, body =>
    ∃ bs rest, Encodes Ending item bs ∧ EncodesAll Ending items rest ∧ body = bs ++ rest

end

mutual

/-- A laxer rule for terminators accepts more. -/
theorem Encodes.mono {E F : Bytes → Prop} (h : ∀ ending, E ending → F ending) :
    ∀ {v : Resp} {bs : Bytes}, Encodes E v bs → Encodes F v bs
  | .simple _, _, hv => hv
  | .error _, _, hv => hv
  | .integer _, _, hv => hv
  | .bulk _, _, ⟨line, ending, hline, hvalue, hending, hbs⟩ =>
    ⟨line, ending, hline, hvalue, h ending hending, hbs⟩
  | .null, _, hv => hv
  | .array _, _, ⟨line, body, hline, hvalue, hfit, hitems, hbs⟩ =>
    ⟨line, body, hline, hvalue, hfit, hitems.mono h, hbs⟩

theorem EncodesAll.mono {E F : Bytes → Prop} (h : ∀ ending, E ending → F ending) :
    ∀ {items : List Resp} {body : Bytes}, EncodesAll E items body → EncodesAll F items body
  | [], _, hbody => hbody
  | _ :: _, _, ⟨bs, rest, hitem, hitems, hbody⟩ => ⟨bs, rest, hitem.mono h, hitems.mono h, hbody⟩

end

theorem IsCrlf.anyTwo {ending : Bytes} (h : IsCrlf ending) : AnyTwo ending := by
  rw [h]
  rfl

/-! ## What is an encoding is parsed -/

theorem parse_header {tag : UInt8} (htag : tag ≠ 13) {line : Bytes} (hline : findCrlf line = none)
    (rest : Bytes) :
    Resp.parse (header tag line ++ rest) =
      parseTagged Resp.parse (header tag line ++ rest) tag line (line.length + 3) := by
  rw [Resp.parse_eq, parseStep_header Resp.parse (findCrlf_cons htag hline)]

mutual

/-- **An encoding is parsed**, whatever follows it, and whatever its terminators are. -/
theorem parse_of_encodes : ∀ (v : Resp) (bs rest : Bytes), Encodes AnyTwo v bs →
    Resp.parse (bs ++ rest) = .ok (some (v, bs.length))
  | .simple text, bs, rest, ⟨hline, hbs⟩ => by
    subst hbs
    rw [parse_header (by decide) hline, header_length]
    simp [parseTagged, lineText_bytes]
    rfl
  | .error text, bs, rest, ⟨hline, hbs⟩ => by
    subst hbs
    rw [parse_header (by decide) hline, header_length]
    simp [parseTagged, lineText_bytes]
    rfl
  | .integer i, bs, rest, ⟨line, hline, hvalue, hbs⟩ => by
    subst hbs
    rw [parse_header (by decide) hline, header_length]
    simp [parseTagged, lineInt_of_lineValue hvalue]
    rfl
  | .bulk value, bs, rest, ⟨line, ending, hline, hvalue, hending, hbs⟩ => by
    subst hbs
    have hlen : ending.length = 2 := hending
    have hslice : slice? (header 36 line ++ value ++ ending ++ rest) (line.length + 3)
        (line.length + 3 + value.length) = some value :=
      slice?_append_of_eq (header 36 line) (ending ++ rest) (by simp) (by simp) (by simp)
    rw [List.append_assoc, List.append_assoc, parse_header (by decide) hline,
      ← List.append_assoc, ← List.append_assoc]
    rw [parseTagged_bulk (lineInt_of_lineValue hvalue) (by simp; omega) hslice]
    simp [hlen]
    omega
  | .null, bs, rest, ⟨tag, line, n, htag, hline, hvalue, hneg, hbs⟩ => by
    subst hbs
    have hne : tag ≠ 13 := by
      rcases htag with rfl | rfl <;> decide
    rw [parse_header hne hline, parseTagged_null htag (lineInt_of_lineValue hvalue) hneg,
      header_length]
  | .array items, bs, rest, ⟨line, body, hline, hvalue, hfit, hitems, hbs⟩ => by
    subst hbs
    rw [List.append_assoc, parse_header (by decide) hline,
      parseTagged_array (lineInt_of_lineValue hvalue) hfit]
    have hitems' := parseItems_of_encodes items (header 42 line ++ (body ++ rest)) body rest 0
      (line.length + 3) [] hitems (by simp) (List.drop_left' (by simp))
    rw [Nat.zero_add] at hitems'
    rw [hitems']
    simp [parseItems]

/-- The items loop reads encodings that stand one after the other, with `count` items still to
come behind them. -/
theorem parseItems_of_encodes : ∀ (items : List Resp) (buf body rest : Bytes)
    (count consumed : Nat) (acc : List Resp), EncodesAll AnyTwo items body →
    consumed ≤ buf.length → buf.drop consumed = body ++ rest →
    parseItems Resp.parse buf (count + items.length) consumed acc =
      parseItems Resp.parse buf count (consumed + body.length) (acc ++ items)
  | [], buf, body, rest, count, consumed, acc, hbody, _, _ => by
    obtain rfl : body = [] := hbody
    simp
  | item :: items, buf, body, rest, count, consumed, acc, ⟨bs, tail, hitem, hitems, hbody⟩, hle,
      hbuf => by
    subst hbody
    rw [List.append_assoc] at hbuf
    have hread := parse_of_encodes item bs (tail ++ rest) hitem
    have hlen : (buf.drop consumed).length = bs.length + (tail ++ rest).length := by
      rw [hbuf, List.length_append]
    rw [List.length_drop] at hlen
    have hnext : buf.drop (consumed + bs.length) = tail ++ rest := drop_behind hbuf
    rw [List.length_cons, ← Nat.add_assoc, parseItems, slice?_to_end hle]
    show (Resp.parse (buf.drop consumed) >>= _) = _
    rw [hbuf, hread]
    show parseItems Resp.parse buf (count + items.length) _ _ = _
    rw [parseItems_of_encodes items buf tail rest count _ _ hitems (by omega) hnext]
    simp [Nat.add_assoc]

end

end RustFundamentals.Rudis
