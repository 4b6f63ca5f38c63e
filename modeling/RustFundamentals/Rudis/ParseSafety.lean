import RustFundamentals.Foundation.Usize
import RustFundamentals.Rudis.Soundness

/-!
# rudis: when the parser panics

`Resp.parseIn` is `Resp::parse` with its `usize` additions those of a build profile. No sum is
out of range but on a buffer of the greatest length there is (`Resp.parseIn_eq`). The parser does
not return on the buffers of `Trips`, and on no others (`parse_answers_iff`).
-/

namespace RustFundamentals.Rudis

open Foundation Foundation.Fs

/-! ## The parser with its additions -/

/-- The items loop. -/
def parseItemsIn (ov : Overflow) (parse : Bytes → Parsed) (buf : Bytes) :
    Nat → Nat → List Resp → Parsed
  | 0, consumed, items => .ok (some (.array items, consumed))
  | count + 1, consumed, items =>
    match slice? buf consumed buf.length with
    | none => .error .panicked
    | some rest => do
      match ← parse rest with
      | some (value, used) =>
        let consumed ← usizeAdd ov consumed used
        parseItemsIn ov parse buf count consumed (items ++ [value])
      | none => .ok none

/-- The branch of `$`, for a length that is not negative. -/
def parseBulkIn (ov : Overflow) (buf : Bytes) (n afterLine : Nat) : Parsed := do
  let valueEnd ← usizeAdd ov afterLine n
  let needed ← usizeAdd ov valueEnd 2
  if buf.length < needed then .ok none
  else
    match slice? buf afterLine valueEnd with
    | none => .error .panicked
    | some value =>
      let consumed ← usizeAdd ov valueEnd 2
      .ok (some (.bulk value, consumed))

/-- The `match` on the type byte. Only the branches of `$` and `*` add, and only behind a number
that is not negative. -/
def parseTaggedIn (ov : Overflow) (parse : Bytes → Parsed) (buf : Bytes) (tag : UInt8)
    (line : Bytes) (afterLine : Nat) : Parsed :=
  match lineValue line with
  | some (.ofNat n) =>
    if tag = 36 then parseBulkIn ov buf n afterLine
    else if tag = 42 then
      if isizeMax < n * respSize then .error .panicked
      else parseItemsIn ov parse buf n afterLine []
    else parseTagged parse buf tag line afterLine
  | _ => parseTagged parse buf tag line afterLine

/-- The body of `Resp::parse`. -/
def parseStepIn (ov : Overflow) (parse : Bytes → Parsed) (buf : Bytes) : Parsed :=
  match buf.head?, findCrlf buf with
  | some tag, some lineEnd =>
    match slice? buf 1 lineEnd with
    | none => .error .panicked
    | some line => do
      let afterLine ← usizeAdd ov lineEnd 2
      parseTaggedIn ov parse buf tag line afterLine
  | _, _ => .ok none

/-- `parseIn` with a bound on the nesting. -/
def parseLoopIn (ov : Overflow) : Nat → Bytes → Parsed
  | 0, _ => .error .panicked
  | fuel + 1, buf => parseStepIn ov (parseLoopIn ov fuel) buf

/-- `Resp::parse` in a build with the given profile. -/
def Resp.parseIn (ov : Overflow) (buf : Bytes) : Parsed := parseLoopIn ov (buf.length + 1) buf

/-! ## Which sums are out of range -/

/-- A header says a length that no position in memory can have behind it. -/
def Overlong (buf : Bytes) : Prop :=
  ∃ line rest n, findCrlf line = none ∧ lineValue line = some (Int.ofNat n) ∧
    2 ^ 64 ≤ line.length + 3 + n + 2 ∧ buf = header 36 line ++ rest

theorem lineValue_lt {line : Bytes} {n : Nat} (h : lineValue line = some (Int.ofNat n)) :
    n < 2 ^ 63 := by
  obtain ⟨text, -, htext⟩ := Option.bind_eq_some_iff.mp h
  exact parseSigned_lt htext

/-- Only a buffer of `isizeMax` bytes has room for such a header. -/
theorem not_overlong {buf : Bytes} (h : buf.length < isizeMax) : ¬ Overlong buf := by
  intro hover
  obtain ⟨line, rest, n, -, hvalue, hsum, rfl⟩ := hover
  have hn := lineValue_lt hvalue
  rw [List.length_append, header_length, isizeMax] at h
  omega

/-! ## The additions that are exact -/

theorem parseItemsIn_eq (ov : Overflow) {p : Bytes → Parsed} {buf : Bytes}
    (h : ∀ b : Bytes, b.length < buf.length → p b = Resp.parse b) (hmem : buf.length ≤ isizeMax)
    (count : Nat) {consumed : Nat} (hpos : 0 < consumed) (hle : consumed ≤ buf.length)
    (items : List Resp) :
    parseItemsIn ov p buf count consumed items =
      parseItems Resp.parse buf count consumed items := by
  induction count generalizing consumed items with
  | zero => rfl
  | succ count ih =>
    have hlen := List.length_drop (i := consumed) (l := buf)
    rw [parseItemsIn, parseItems, slice?_to_end hle]
    simp only
    rw [h (buf.drop consumed) (by omega)]
    cases hval : Resp.parse (buf.drop consumed) with
    | error stop => rfl
    | ok r =>
      cases r with
      | none => rfl
      | some r =>
        obtain ⟨value, used⟩ := r
        obtain ⟨bs, rest, hbs, rfl, -⟩ := parse_sound _ value used hval
        have hused := congrArg List.length hbs
        rw [List.length_append] at hused
        have hsum : consumed + bs.length < 2 ^ 64 := by
          unfold isizeMax at hmem
          omega
        simp only [bind, Except.bind, usizeAdd_of_lt ov hsum]
        exact ih (by omega) (by omega) _

theorem parseBulkIn_eq (ov : Overflow) {parse : Bytes → Parsed} {buf line : Bytes}
    {n afterLine : Nat} (hvalue : lineValue line = some (Int.ofNat n))
    (hsum : afterLine + n + 2 < 2 ^ 64) :
    parseBulkIn ov buf n afterLine = parseTagged parse buf 36 line afterLine := by
  have hend : afterLine + n < 2 ^ 64 := by omega
  unfold parseBulkIn
  simp only [usizeAdd_of_lt ov hend, usizeAdd_of_lt ov hsum, bind, Except.bind]
  split
  · rename_i hroom
    rw [parseTagged_bulkPart (lineInt_of_lineValue hvalue) hroom]
  · rename_i hroom
    have hslice : slice? buf afterLine (afterLine + n) = some ((buf.drop afterLine).take n) := by
      rw [slice?, if_pos (by omega), Nat.add_sub_cancel_left]
    rw [parseTagged_bulk (lineInt_of_lineValue hvalue) (by omega) hslice, hslice]

theorem parseTaggedIn_eq (ov : Overflow) {p : Bytes → Parsed} {buf : Bytes}
    (h : ∀ b : Bytes, b.length < buf.length → p b = Resp.parse b) (hmem : buf.length ≤ isizeMax)
    (tag : UInt8) {line : Bytes} {afterLine : Nat} (hpos : 0 < afterLine)
    (hle : afterLine ≤ buf.length)
    (hsum : tag = 36 → ∀ n, lineValue line = some (Int.ofNat n) → afterLine + n + 2 < 2 ^ 64) :
    parseTaggedIn ov p buf tag line afterLine = parseTagged Resp.parse buf tag line afterLine := by
  have hne : buf ≠ [] := by
    intro hnil
    rw [hnil, List.length_nil] at hle
    omega
  have hsame : parseTagged p buf tag line afterLine =
      parseTagged Resp.parse buf tag line afterLine := by
    simp only [parseTagged, parseItems_congr h hne _ hpos]
  unfold parseTaggedIn
  split
  · rename_i n hvalue
    split
    · rename_i htag
      subst htag
      exact parseBulkIn_eq ov hvalue (hsum rfl n hvalue)
    split
    · rename_i htag
      subst htag
      split
      · rename_i hbig
        rw [parseTagged_hugeArray (lineInt_of_lineValue hvalue) hbig]
      · rename_i hfit
        rw [parseTagged_array (lineInt_of_lineValue hvalue) (by omega),
          parseItemsIn_eq ov h hmem n hpos hle]
    · exact hsame
  · exact hsame

theorem parseStepIn_eq (ov : Overflow) {p : Bytes → Parsed} {buf : Bytes}
    (h : ∀ b : Bytes, b.length < buf.length → p b = Resp.parse b) (hmem : buf.length ≤ isizeMax)
    (hover : ¬ Overlong buf) : parseStepIn ov p buf = Resp.parse buf := by
  rw [Resp.parse_eq]
  cases firstLine buf with
  | empty => rfl
  | unended _ hend =>
    rw [parseStepIn, parseStep, hend]
    cases buf <;> rfl
  | crlf rest => rfl
  | line tag line rest hline =>
    have hlen : (header tag line ++ rest).length = line.length + 3 + rest.length := by
      rw [List.length_append, header_length]
    have hsum : line.length + 1 + 2 < 2 ^ 64 := by
      unfold isizeMax at hmem
      omega
    have hhead : (header tag line ++ rest).head? = some tag := rfl
    rw [parseStep_header Resp.parse hline]
    simp only [parseStepIn, hhead, findCrlf_header hline, slice?_header, usizeAdd_of_lt ov hsum,
      bind, Except.bind]
    apply parseTaggedIn_eq ov h hmem tag (by omega) (by omega)
    intro htag n hvalue
    subst htag
    by_contra hbig
    exact hover ⟨line, rest, n, findCrlf_tail hline, hvalue, by omega, rfl⟩

theorem parseLoopIn_eq (ov : Overflow) {fuel : Nat} {buf : Bytes} (hfuel : buf.length < fuel)
    (hmem : buf.length < isizeMax) : parseLoopIn ov fuel buf = Resp.parse buf := by
  induction fuel generalizing buf with
  | zero => exact absurd hfuel (Nat.not_lt_zero _)
  | succ fuel ih =>
    apply parseStepIn_eq ov _ (le_of_lt hmem) (not_overlong hmem)
    intro b hb
    exact ih (by omega) (by omega)

/-- **Every sum is exact**, unless the buffer starts with an overlong header. -/
theorem Resp.parseIn_eq (ov : Overflow) {buf : Bytes} (hmem : buf.length ≤ isizeMax)
    (hover : ¬ Overlong buf) : Resp.parseIn ov buf = Resp.parse buf := by
  apply parseStepIn_eq ov _ hmem hover
  intro b hb
  exact parseLoopIn_eq ov hb (by omega)

/-- Behind an overlong header the sum is out of range, or wraps around to a slice that is. -/
theorem Resp.parseIn_overlong (ov : Overflow) {buf : Bytes} (hmem : buf.length ≤ isizeMax)
    (hover : Overlong buf) : Resp.parseIn ov buf = .error .panicked := by
  obtain ⟨line, rest, n, hline, hvalue, hsum, rfl⟩ := hover
  have hn := lineValue_lt hvalue
  have hlen : (header 36 line ++ rest).length = line.length + 3 + rest.length := by
    rw [List.length_append, header_length]
  rw [isizeMax] at hmem
  have hline' : findCrlf (36 :: line) = none := findCrlf_cons (by decide) hline
  have hhead : (header 36 line ++ rest).head? = some 36 := rfl
  have hafter : line.length + 1 + 2 < 2 ^ 64 := by omega
  have hend : line.length + 3 + n < 2 ^ 64 := by omega
  have hslice : slice? (header 36 line ++ rest) (line.length + 3) (line.length + 3 + n) = none :=
    slice?_eq_none_of_lt (by omega)
  rw [Resp.parseIn, parseLoopIn, parseStepIn]
  simp only [hhead, findCrlf_header hline', slice?_header, usizeAdd_of_lt ov hafter, bind,
    Except.bind, parseTaggedIn, hvalue, if_pos, parseBulkIn, usizeAdd_of_lt ov hend]
  cases ov with
  | checked =>
    have hfit : Overflow.checked.fit 64 (line.length + 3 + n + 2) = none := by
      rw [Overflow.fit, if_neg (by omega)]
    rw [usizeAdd, hfit]
  | wrapping =>
    have hfit : Overflow.wrapping.fit 64 (line.length + 3 + n + 2) = some 0 := by
      have hwrap : (line.length + 3 + n + 2) % 2 ^ 64 = 0 := by omega
      rw [← hwrap]
      exact if_neg (by omega)
    rw [usizeAdd, hfit]
    simp only [Nat.not_lt_zero, if_false, hslice]

/-! ## When the parser returns -/

/-- **`Resp::parse` returns**, whatever the build, on the buffers in memory on which it does not
come to a place where it trips, and which do not start with an overlong header. -/
theorem parse_answers_iff (ov : Overflow) {buf : Bytes} (hmem : buf.length ≤ isizeMax) :
    Answers (Resp.parseIn ov buf) ↔ (∀ rest, Reaches buf rest → ¬ Trips rest) ∧ ¬ Overlong buf := by
  by_cases hover : Overlong buf
  · rw [Resp.parseIn_overlong ov hmem hover]
    exact iff_of_false not_answers_panicked fun h => h.2 hover
  rw [Resp.parseIn_eq ov hmem hover, and_iff_left hover]
  constructor
  · intro h rest hreach htrips
    rw [hreach.parse_error htrips.parse_eq] at h
    exact not_answers_panicked h
  · intro h
    cases hparse : Resp.parse buf with
    | ok r => exact .inl ⟨r, rfl⟩
    | error stop =>
      obtain ⟨rest, hreach, hstop, htrips | hmal⟩ := parse_error_reaches hparse
      · exact absurd htrips (h rest hreach)
      · obtain ⟨e, he⟩ := hmal.parse_eq
        obtain rfl := Except.error.inj (hstop.symm.trans he)
        exact .inr ⟨e, rfl⟩

/-- An array of two, the second of which would start at a CR LF. -/
def emptyItem : Bytes := ascii "*2\r\n:1\r\n\r\n"

theorem emptyItem_trips : ¬ Answers (Resp.parseIn .wrapping emptyItem) := by
  rw [parse_answers_iff .wrapping (by decide)]
  intro h
  have hitems : EncodesAll AnyTwo [.integer 1] (ascii ":1\r\n") :=
    ⟨ascii ":1\r\n", [], ⟨[49], rfl, rfl, rfl⟩, rfl, rfl⟩
  have hreach : Reaches emptyItem crlf :=
    .item [50] (ascii ":1\r\n") crlf crlf [.integer 1] 2 rfl rfl (by decide) hitems (by decide)
      (.here crlf)
  exact h.1 crlf hreach (.crlf [])

/-- An array of as many items as an `i64` can count. -/
def greatestArray : Bytes := ascii "*9223372036854775807\r\n"

/-- Neither an empty line nor a great count is refused: the process is gone, in both builds. -/
theorem crlf_and_greatestArray_panic :
    (¬ Answers (Resp.parseIn .checked crlf) ∧ ¬ Answers (Resp.parseIn .wrapping crlf)) ∧
      ¬ Answers (Resp.parseIn .checked greatestArray) ∧
      ¬ Answers (Resp.parseIn .wrapping greatestArray) := by
  have hcrlf : ∀ ov, Resp.parseIn ov crlf = .error .panicked := fun _ => rfl
  have hcount : ∀ ov, Resp.parseIn ov greatestArray = .error .panicked := by
    intro ov
    cases ov <;> decide
  rw [hcrlf, hcrlf, hcount, hcount]
  exact ⟨⟨not_answers_panicked, not_answers_panicked⟩, not_answers_panicked, not_answers_panicked⟩

end RustFundamentals.Rudis
