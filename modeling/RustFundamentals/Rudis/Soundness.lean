import RustFundamentals.Rudis.Grammar

/-!
# rudis: what the parser accepts

Whatever `Resp::parse` returns a value for is an encoding of it, up to the two bytes behind each
bulk string (`parse_sound`), at which it does not look. Whatever it fails on it has come to a place
where it fails at once (`parse_error_reaches`). So it accepts only RESP exactly where the bulk
strings it comes to end in CR LF, or it comes to a header that it refuses
(`accepts_only_resp_iff`).
-/

namespace RustFundamentals.Rudis

open Foundation Foundation.Fs

/-! ## How the `match` on the type byte can end -/

/-- A header that no value has. -/
def BadHeader (tag : UInt8) (line : Bytes) : Prop :=
  if tag = 43 ∨ tag = 45 then Str.fromUtf8 line = none
  else if tag = 58 ∨ tag = 36 ∨ tag = 42 then lineValue line = none
  else True

/-- What `parse` comes to behind a header line. -/
inductive TaggedOutcome (parse : Bytes → Parsed) (buf line : Bytes) (afterLine : Nat) :
    UInt8 → Parsed → Prop
  | malformed (tag : UInt8) (h : BadHeader tag line) (e : Error) :
    TaggedOutcome parse buf line afterLine tag (.error (.err e))
  | simple (text : Str) (h : line = text.bytes) :
    TaggedOutcome parse buf line afterLine 43 (.ok (some (.simple text, afterLine)))
  | error (text : Str) (h : line = text.bytes) :
    TaggedOutcome parse buf line afterLine 45 (.ok (some (.error text, afterLine)))
  | integer (i : Int) (h : lineValue line = some i) :
    TaggedOutcome parse buf line afterLine 58 (.ok (some (.integer i, afterLine)))
  | null (tag : UInt8) (n : Int) (htag : tag = 36 ∨ tag = 42) (h : lineValue line = some n)
      (hneg : n < 0) :
    TaggedOutcome parse buf line afterLine tag (.ok (some (.null, afterLine)))
  | bulkPart (n : Nat) (h : lineValue line = some (n : Int))
      (hroom : buf.length < afterLine + n + 2) :
    TaggedOutcome parse buf line afterLine 36 (.ok none)
  | bulk (n : Nat) (h : lineValue line = some (n : Int)) (hroom : afterLine + n + 2 ≤ buf.length) :
    TaggedOutcome parse buf line afterLine 36
      (.ok (some (.bulk ((buf.drop afterLine).take n), afterLine + n + 2)))
  | hugeArray (n : Nat) (h : lineValue line = some (n : Int)) (hbig : isizeMax < n * respSize) :
    TaggedOutcome parse buf line afterLine 42 (.error .panicked)
  | array (n : Nat) (h : lineValue line = some (n : Int)) (hfit : n * respSize ≤ isizeMax) :
    TaggedOutcome parse buf line afterLine 42 (parseItems parse buf n afterLine [])

theorem lineText_of_none {line : Bytes} (h : Str.fromUtf8 line = none) (complaint : Str) :
    lineText line complaint = protocolError complaint := by
  rw [lineText, h]

/-- A bad header is refused, whatever is behind it. -/
theorem BadHeader.parseTagged {tag : UInt8} {line : Bytes} (h : BadHeader tag line) :
    ∃ e, ∀ parse buf afterLine, parseTagged parse buf tag line afterLine = .error (.err e) := by
  by_cases h43 : tag = 43
  · subst h43
    refine ⟨.protocol (Str.lit "invalid UTF-8 in simple string"), fun parse buf afterLine => ?_⟩
    show (lineText line _ >>= _) = _
    rw [lineText_of_none h]
    rfl
  by_cases h45 : tag = 45
  · subst h45
    refine ⟨.protocol (Str.lit "invalid UTF-8 in error"), fun parse buf afterLine => ?_⟩
    show (lineText line _ >>= _) = _
    rw [lineText_of_none h]
    rfl
  by_cases h58 : tag = 58
  · subst h58
    refine ⟨.protocol (Str.lit "invalid integer"), fun parse buf afterLine => ?_⟩
    show (lineInt line _ >>= _) = _
    rw [lineInt_of_none h]
    rfl
  by_cases h36 : tag = 36
  · subst h36
    refine ⟨.protocol (Str.lit "invalid bulk length"), fun parse buf afterLine => ?_⟩
    show (lineInt line _ >>= _) = _
    rw [lineInt_of_none h]
    rfl
  by_cases h42 : tag = 42
  · subst h42
    refine ⟨.protocol (Str.lit "invalid array count"), fun parse buf afterLine => ?_⟩
    show (lineInt line _ >>= _) = _
    rw [lineInt_of_none h]
    rfl
  refine ⟨.protocol (Str.lit "bad type byte: " ++ hexByte tag), fun parse buf afterLine => ?_⟩
  rw [Rudis.parseTagged, if_neg h43, if_neg h45, if_neg h58, if_neg h36, if_neg h42]
  rfl

section Outcome

variable (parse : Bytes → Parsed) (buf : Bytes) {line : Bytes} (afterLine : Nat)

theorem bulk_outcome {i : Int} (hvalue : lineValue line = some i) :
    TaggedOutcome parse buf line afterLine 36 (parseTagged parse buf 36 line afterLine) := by
  by_cases hneg : i < 0
  · rw [parseTagged_null (.inl rfl) (lineInt_of_lineValue hvalue) hneg]
    exact .null 36 i (.inl rfl) hvalue hneg
  obtain ⟨n, rfl⟩ := Int.eq_ofNat_of_zero_le (not_lt.mp hneg)
  by_cases hroom : afterLine + n + 2 ≤ buf.length
  · have hslice : slice? buf afterLine (afterLine + n) = some ((buf.drop afterLine).take n) := by
      rw [slice?, if_pos (by omega), Nat.add_sub_cancel_left]
    rw [parseTagged_bulk (lineInt_of_lineValue hvalue) hroom hslice]
    exact .bulk n hvalue hroom
  · rw [parseTagged_bulkPart (lineInt_of_lineValue hvalue) (not_le.mp hroom)]
    exact .bulkPart n hvalue (not_le.mp hroom)

theorem array_outcome {i : Int} (hvalue : lineValue line = some i) :
    TaggedOutcome parse buf line afterLine 42 (parseTagged parse buf 42 line afterLine) := by
  by_cases hneg : i < 0
  · rw [parseTagged_null (.inr rfl) (lineInt_of_lineValue hvalue) hneg]
    exact .null 42 i (.inr rfl) hvalue hneg
  obtain ⟨n, rfl⟩ := Int.eq_ofNat_of_zero_le (not_lt.mp hneg)
  by_cases hfit : n * respSize ≤ isizeMax
  · rw [parseTagged_array (lineInt_of_lineValue hvalue) hfit]
    exact .array n hvalue hfit
  · rw [parseTagged_hugeArray (lineInt_of_lineValue hvalue) (not_le.mp hfit)]
    exact .hugeArray n hvalue (not_le.mp hfit)

/-- The text of a line that is no bad header. -/
theorem text_of_line (h : ¬ Str.fromUtf8 line = none) : ∃ text : Str, line = text.bytes := by
  by_cases hvalid : validUtf8 line = true
  · exact ⟨⟨line, hvalid⟩, rfl⟩
  · exact absurd (dif_neg hvalid) h

theorem parseTagged_outcome (line : Bytes) (tag : UInt8) :
    TaggedOutcome parse buf line afterLine tag (parseTagged parse buf tag line afterLine) := by
  by_cases hbad : BadHeader tag line
  · obtain ⟨e, he⟩ := hbad.parseTagged
    rw [he]
    exact .malformed tag hbad e
  by_cases h43 : tag = 43
  · subst h43
    obtain ⟨text, htext⟩ := text_of_line hbad
    show TaggedOutcome parse buf line afterLine 43 (lineText line _ >>= _)
    rw [htext, lineText_bytes]
    exact .simple text rfl
  by_cases h45 : tag = 45
  · subst h45
    obtain ⟨text, htext⟩ := text_of_line hbad
    show TaggedOutcome parse buf line afterLine 45 (lineText line _ >>= _)
    rw [htext, lineText_bytes]
    exact .error text rfl
  by_cases h58 : tag = 58
  · subst h58
    obtain ⟨i, hvalue⟩ := Option.ne_none_iff_exists'.mp hbad
    show TaggedOutcome parse buf line afterLine 58 (lineInt line _ >>= _)
    rw [lineInt_of_lineValue hvalue]
    exact .integer i hvalue
  by_cases h36 : tag = 36
  · subst h36
    obtain ⟨i, hvalue⟩ := Option.ne_none_iff_exists'.mp hbad
    exact bulk_outcome parse buf afterLine hvalue
  by_cases h42 : tag = 42
  · subst h42
    obtain ⟨i, hvalue⟩ := Option.ne_none_iff_exists'.mp hbad
    exact array_outcome parse buf afterLine hvalue
  -- no other type byte has a value
  refine absurd ?_ hbad
  simp [BadHeader, h43, h45, h58, h36, h42]

end Outcome

/-! ## How a parse can end -/

/-- How the first line of a buffer can look. -/
inductive FirstLine : Bytes → Prop
  | empty : FirstLine []
  | unended (buf : Bytes) (h : findCrlf buf = none) : FirstLine buf
  | crlf (rest : Bytes) : FirstLine (Rudis.crlf ++ rest)
  | line (tag : UInt8) (line rest : Bytes) (h : findCrlf (tag :: line) = none) :
    FirstLine (header tag line ++ rest)

theorem firstLine (buf : Bytes) : FirstLine buf := by
  cases buf with
  | nil => exact .empty
  | cons tag bs =>
    cases hend : findCrlf (tag :: bs) with
    | none => exact .unended _ hend
    | some lineEnd =>
      obtain ⟨line, rest, hbuf, hline, -⟩ := line_of_findCrlf hend
      rw [hbuf]
      cases line with
      | nil => exact .crlf rest
      | cons c line => exact .line c line rest hline

theorem findCrlf_tail {tag : UInt8} {line : Bytes} (h : findCrlf (tag :: line) = none) :
    findCrlf line = none := by
  rw [findCrlf] at h
  split at h
  · cases h
  · exact Option.map_eq_none_iff.mp h

theorem parse_unended {buf : Bytes} (h : findCrlf buf = none) : Resp.parse buf = .ok none := by
  rw [Resp.parse_eq, parseStep, h]
  cases buf <;> rfl

/-- A buffer that starts with CR LF: the line would end before it starts. -/
theorem parse_crlf (rest : Bytes) : Resp.parse (crlf ++ rest) = .error .panicked := by
  rw [Resp.parse_eq]
  rfl

/-! ## What is parsed is an encoding -/

/-- The value that a buffer starts with is encoded there. -/
def SoundOn (buf : Bytes) : Prop :=
  ∀ v n, Resp.parse buf = .ok (some (v, n)) →
    ∃ bs rest, buf = bs ++ rest ∧ n = bs.length ∧ Encodes AnyTwo v bs

theorem parseItems_sound {buf : Bytes} (ih : ∀ b : Bytes, b.length < buf.length → SoundOn b)
    (count : Nat) {consumed : Nat} {items : List Resp} (hpos : 0 < consumed)
    (hle : consumed ≤ buf.length) {v : Resp} {n : Nat}
    (h : parseItems Resp.parse buf count consumed items = .ok (some (v, n))) :
    ∃ vs body rest, v = .array (items ++ vs) ∧ vs.length = count ∧ EncodesAll AnyTwo vs body ∧
      buf.drop consumed = body ++ rest ∧ n = consumed + body.length := by
  induction count generalizing consumed items with
  | zero =>
    obtain ⟨rfl, rfl⟩ := Prod.mk.inj (Option.some.inj (Except.ok.inj h))
    exact ⟨[], [], buf.drop consumed, by rw [List.append_nil], rfl, rfl, rfl, rfl⟩
  | succ count hitems =>
    rw [parseItems, slice?_to_end hle] at h
    simp only at h
    cases hval : Resp.parse (buf.drop consumed) with
    | error stop => rw [hval] at h; cases h
    | ok r =>
      rw [hval] at h
      cases r with
      | none => cases h
      | some r =>
        obtain ⟨value, used⟩ := r
        have hshort : (buf.drop consumed).length < buf.length := by
          rw [List.length_drop]
          omega
        obtain ⟨bs, rest, hdrop, rfl, hvalue⟩ := ih _ hshort value used hval
        have hlen := congrArg List.length hdrop
        rw [List.length_drop, List.length_append] at hlen
        have hnext : buf.drop (consumed + bs.length) = rest := drop_behind hdrop
        obtain ⟨vs, body, rest', rfl, rfl, hvs, hbody, rfl⟩ := hitems (by omega) (by omega) h
        refine ⟨value :: vs, bs ++ body, rest', by simp, rfl, ⟨bs, body, hvalue, hvs, rfl⟩, ?_, ?_⟩
        · rw [hdrop, List.append_assoc, ← hbody, hnext]
        · rw [List.length_append]
          omega

/-- **What is parsed is an encoding**, up to the terminators of its bulk strings. -/
theorem parse_sound (buf : Bytes) : SoundOn buf := by
  induction hlen : buf.length using Nat.strong_induction_on generalizing buf with
  | _ len ih =>
    intro v n h
    cases firstLine buf with
    | empty => cases h
    | unended _ hend =>
      rw [parse_unended hend] at h
      cases h
    | crlf rest =>
      rw [parse_crlf] at h
      cases h
    | line tag line rest hfirst =>
      have hline := findCrlf_tail hfirst
      have hdrop : (header tag line ++ rest).drop (line.length + 3) = rest :=
        List.drop_left' (header_length tag line)
      have hbufLen : (header tag line ++ rest).length = line.length + 3 + rest.length := by
        rw [List.length_append, header_length]
      have hout :=
        parseTagged_outcome Resp.parse (header tag line ++ rest) (line.length + 3) line tag
      rw [Resp.parse_eq, parseStep_header Resp.parse hfirst] at h
      rw [h] at hout
      generalize hr : (Except.ok (some (v, n)) : Parsed) = r at hout
      cases hout with
      | malformed => cases hr
      | simple text htext =>
        obtain ⟨rfl, rfl⟩ := Prod.mk.inj (Option.some.inj (Except.ok.inj hr))
        subst htext
        exact ⟨_, rest, rfl, by simp, hline, rfl⟩
      | error text htext =>
        obtain ⟨rfl, rfl⟩ := Prod.mk.inj (Option.some.inj (Except.ok.inj hr))
        subst htext
        exact ⟨_, rest, rfl, by simp, hline, rfl⟩
      | integer i hvalue =>
        obtain ⟨rfl, rfl⟩ := Prod.mk.inj (Option.some.inj (Except.ok.inj hr))
        exact ⟨_, rest, rfl, by simp, line, hline, hvalue, rfl⟩
      | null _ m htag hvalue hneg =>
        obtain ⟨rfl, rfl⟩ := Prod.mk.inj (Option.some.inj (Except.ok.inj hr))
        exact ⟨_, rest, rfl, by simp, tag, line, m, htag, hline, hvalue, hneg, rfl⟩
      | bulkPart => cases hr
      | bulk m hvalue hroom =>
        obtain ⟨rfl, rfl⟩ := Prod.mk.inj (Option.some.inj (Except.ok.inj hr))
        rw [hdrop]
        -- the payload, and the two bytes nobody looks at
        have hpayload : (rest.take m).length = m := by
          rw [List.length_take]
          omega
        have hending : ((rest.drop m).take 2).length = 2 := by
          rw [List.length_take, List.length_drop]
          omega
        refine ⟨header 36 line ++ rest.take m ++ (rest.drop m).take 2, rest.drop (m + 2), ?_, ?_,
          line, (rest.drop m).take 2, hline, by rw [hpayload]; exact hvalue, hending, rfl⟩
        · rw [← List.drop_drop, List.append_assoc, List.take_append_drop, List.append_assoc,
            List.take_append_drop]
        · simp only [List.length_append, header_length, hpayload, hending]
      | hugeArray => cases hr
      | array m hvalue hfit =>
        obtain ⟨vs, body, rest', rfl, rfl, hvs, hbody, rfl⟩ :=
          parseItems_sound (fun b hb => ih b.length (by omega) b rfl) _ (by omega) (by omega)
            hr.symm
        rw [hdrop] at hbody
        refine ⟨header 42 line ++ body, rest', ?_, by simp, line, body, hline, hvalue, hfit, hvs,
          rfl⟩
        rw [List.append_assoc, ← hbody]

/-- A buffer starts with one encoding of a value at most. -/
theorem encodes_unique {v w : Resp} {bs cs rest tail : Bytes} (hv : Encodes AnyTwo v bs)
    (hw : Encodes AnyTwo w cs) (h : bs ++ rest = cs ++ tail) : v = w ∧ bs = cs ∧ rest = tail := by
  have hread := parse_of_encodes v bs rest hv
  rw [h, parse_of_encodes w cs tail hw] at hread
  obtain ⟨rfl, hlen⟩ := Prod.mk.inj (Option.some.inj (Except.ok.inj hread))
  obtain ⟨rfl, rfl⟩ := List.append_inj h hlen.symm
  exact ⟨rfl, rfl, rfl⟩

/-! ## Where the parser comes to -/

/-- On `buf`, `parse` comes to call itself on `tail`: behind array headers and whole items, and
with items still to come. -/
inductive Reaches : Bytes → Bytes → Prop
  | here (buf : Bytes) : Reaches buf buf
  | item (line body rest tail : Bytes) (items : List Resp) (n : Nat) (hline : findCrlf line = none)
      (hvalue : lineValue line = some (Int.ofNat n)) (hfit : n * respSize ≤ isizeMax)
      (hitems : EncodesAll AnyTwo items body) (hmore : items.length < n) (h : Reaches rest tail) :
    Reaches (header 42 line ++ (body ++ rest)) tail

/-- A failure ends all the calls. -/
theorem Reaches.parse_error {buf tail : Bytes} (h : Reaches buf tail) {stop : Stop Error}
    (hstop : Resp.parse tail = .error stop) : Resp.parse buf = .error stop := by
  induction h with
  | here => exact hstop
  | item line body rest tail items n hline hvalue hfit hitems hmore _ ih =>
    obtain ⟨count, rfl⟩ : ∃ count, n = count + 1 + items.length :=
      ⟨n - items.length - 1, by omega⟩
    have hdrop : (header 42 line ++ (body ++ rest)).drop (line.length + 3) = body ++ rest :=
      List.drop_left' (header_length 42 line)
    have hrest : (header 42 line ++ (body ++ rest)).drop (line.length + 3 + body.length) =
        rest := drop_behind hdrop
    have hle : line.length + 3 + body.length ≤ (header 42 line ++ (body ++ rest)).length := by
      simp only [List.length_append, header_length]
      omega
    rw [parse_header (by decide) hline, parseTagged_array (lineInt_of_lineValue hvalue) hfit,
      parseItems_of_encodes items _ body rest _ _ [] hitems (by omega) hdrop,
      parseItems, slice?_to_end hle, hrest]
    show (Resp.parse rest >>= _) = _
    rw [ih hstop]
    rfl

/-- The first line ends before it starts, or announces more items than a vector can hold. -/
inductive Trips : Bytes → Prop
  | crlf (rest : Bytes) : Trips (Rudis.crlf ++ rest)
  | hugeArray (line rest : Bytes) (n : Nat) (hline : findCrlf line = none)
      (hvalue : lineValue line = some (Int.ofNat n)) (hbig : isizeMax < n * respSize) :
    Trips (header 42 line ++ rest)

theorem Trips.parse_eq {buf : Bytes} (h : Trips buf) : Resp.parse buf = .error .panicked := by
  cases h with
  | crlf rest => exact parse_crlf rest
  | hugeArray line rest n hline hvalue hbig =>
    rw [parse_header (by decide) hline, parseTagged_hugeArray (lineInt_of_lineValue hvalue) hbig]

/-- The buffer starts with a header that no value has. -/
def Malformed (buf : Bytes) : Prop :=
  ∃ tag line rest, findCrlf (tag :: line) = none ∧ BadHeader tag line ∧
    buf = header tag line ++ rest

/-- What is behind a malformed header does not matter. -/
theorem Malformed.parse_append {buf : Bytes} (h : Malformed buf) :
    ∃ e, ∀ rest, Resp.parse (buf ++ rest) = .error (.err e) := by
  obtain ⟨tag, line, rest, hline, hbad, rfl⟩ := h
  obtain ⟨e, he⟩ := hbad.parseTagged
  refine ⟨e, fun more => ?_⟩
  rw [List.append_assoc, Resp.parse_eq, parseStep_header Resp.parse hline, he]

theorem Malformed.parse_eq {buf : Bytes} (h : Malformed buf) :
    ∃ e, Resp.parse buf = .error (.err e) := by
  obtain ⟨e, he⟩ := h.parse_append
  have hparse := he []
  rw [List.append_nil] at hparse
  exact ⟨e, hparse⟩

/-- The items loop fails with one of its items. -/
theorem parseItems_error {buf : Bytes} {stop : Stop Error} (count : Nat) {consumed : Nat}
    {acc : List Resp} (hpos : 0 < consumed) (hle : consumed ≤ buf.length)
    (h : parseItems Resp.parse buf count consumed acc = .error stop) :
    ∃ items body rest, items.length < count ∧ EncodesAll AnyTwo items body ∧
      buf.drop consumed = body ++ rest ∧ Resp.parse rest = .error stop := by
  induction count generalizing consumed acc with
  | zero => cases h
  | succ count hitems =>
    have hlen := List.length_drop (i := consumed) (l := buf)
    rw [parseItems, slice?_to_end hle] at h
    simp only at h
    cases hval : Resp.parse (buf.drop consumed) with
    | error stop' =>
      rw [hval] at h
      obtain rfl := Except.error.inj h
      exact ⟨[], [], _, Nat.succ_pos count, rfl, rfl, hval⟩
    | ok r =>
      rw [hval] at h
      cases r with
      | none => cases h
      | some r =>
        obtain ⟨value, used⟩ := r
        obtain ⟨bs, rest, hdrop, rfl, hvalue⟩ := parse_sound _ value used hval
        have hused := congrArg List.length hdrop
        rw [List.length_append] at hused
        have hnext : buf.drop (consumed + bs.length) = rest := drop_behind hdrop
        obtain ⟨items, body, tail, hcount, hbody, htail, hstop⟩ :=
          hitems (by omega) (by omega) h
        refine ⟨value :: items, bs ++ body, tail, ?_, ⟨bs, body, hvalue, hbody, rfl⟩, ?_, hstop⟩
        · rw [List.length_cons]
          omega
        · rw [hdrop, List.append_assoc, ← htail, hnext]

/-- **A failed parse** has come to a place where it fails at once, and in the same way. -/
theorem parse_error_reaches {buf : Bytes} {stop : Stop Error} (h : Resp.parse buf = .error stop) :
    ∃ tail, Reaches buf tail ∧ Resp.parse tail = .error stop ∧ (Trips tail ∨ Malformed tail) := by
  induction hlen : buf.length using Nat.strong_induction_on generalizing buf with
  | _ len ih =>
    cases firstLine buf with
    | empty => cases h
    | unended _ hend =>
      rw [parse_unended hend] at h
      cases h
    | crlf rest => exact ⟨_, .here _, h, .inl (.crlf rest)⟩
    | line tag line rest hline =>
      have hstop := h
      rw [Resp.parse_eq, parseStep_header Resp.parse hline] at h
      have hout :=
        parseTagged_outcome Resp.parse (header tag line ++ rest) (line.length + 3) line tag
      rw [h] at hout
      generalize hr : (Except.error stop : Parsed) = r at hout
      cases hout with
      | malformed _ hbad e =>
        exact ⟨_, .here _, hstop.trans hr, .inr ⟨tag, line, rest, hline, hbad, rfl⟩⟩
      | hugeArray n hvalue hbig =>
        have htrips : Trips (header 42 line ++ rest) :=
          .hugeArray line rest n (findCrlf_tail hline) hvalue hbig
        exact ⟨_, .here _, hstop.trans hr, .inl htrips⟩
      | array n hvalue hfit =>
        have hdrop : (header 42 line ++ rest).drop (line.length + 3) = rest :=
          List.drop_left' (header_length 42 line)
        have hbufLen : (header 42 line ++ rest).length = line.length + 3 + rest.length := by
          rw [List.length_append, header_length]
        obtain ⟨items, body, more, hmore, hitems, hrest, hmoreStop⟩ :=
          parseItems_error n (by omega) (by omega) hr.symm
        rw [hdrop] at hrest
        subst hrest
        simp only [List.length_append, header_length] at hlen
        obtain ⟨tail, hreach, htail, hfails⟩ := ih more.length (by omega) hmoreStop rfl
        exact ⟨tail, .item line body more tail items n (findCrlf_tail hline) hvalue hfit hitems
          hmore hreach, htail.trans hr, hfails⟩
      | _ => cases hr

/-! ## Bytes behind what is parsed -/

theorem Encodes.length_pos {E : Bytes → Prop} {v : Resp} {bs : Bytes} (h : Encodes E v bs) :
    0 < bs.length := by
  cases v with
  | simple text =>
    rw [h.2, header_length]
    omega
  | error text =>
    rw [h.2, header_length]
    omega
  | integer i =>
    obtain ⟨line, -, -, rfl⟩ := h
    rw [header_length]
    omega
  | bulk value =>
    obtain ⟨line, ending, -, -, -, rfl⟩ := h
    simp only [List.length_append, header_length]
    omega
  | null =>
    obtain ⟨tag, line, n, -, -, -, -, rfl⟩ := h
    rw [header_length]
    omega
  | array items =>
    obtain ⟨line, body, -, -, -, -, rfl⟩ := h
    simp only [List.length_append, header_length]
    omega

/-- A parsed value has taken at least one byte, and none that is not there. -/
theorem parse_consumed {buf : Bytes} {v : Resp} {n : Nat}
    (h : Resp.parse buf = .ok (some (v, n))) : 0 < n ∧ n ≤ buf.length := by
  obtain ⟨bs, rest, rfl, rfl, henc⟩ := parse_sound buf v n h
  refine ⟨henc.length_pos, ?_⟩
  rw [List.length_append]
  exact Nat.le_add_right _ _

theorem Reaches.append {buf tail : Bytes} (h : Reaches buf tail) (rest : Bytes) :
    Reaches (buf ++ rest) (tail ++ rest) := by
  induction h with
  | here buf => exact .here _
  | item line body more tail items n hline hvalue hfit hitems hmore _ ih =>
    rw [List.append_assoc, List.append_assoc]
    exact .item line body (more ++ rest) _ items n hline hvalue hfit hitems hmore ih

theorem Trips.append {buf : Bytes} (h : Trips buf) (rest : Bytes) : Trips (buf ++ rest) := by
  cases h with
  | crlf more =>
    rw [List.append_assoc]
    exact .crlf _
  | hugeArray line more n hline hvalue hbig =>
    rw [List.append_assoc]
    exact .hugeArray line _ n hline hvalue hbig

/-- **A parse that has come to something stands**, whatever arrives behind it. -/
theorem parse_append {buf : Bytes} (rest : Bytes) (h : Resp.parse buf ≠ .ok none) :
    Resp.parse (buf ++ rest) = Resp.parse buf := by
  cases hparse : Resp.parse buf with
  | ok r =>
    cases r with
    | none => exact absurd hparse h
    | some r =>
      obtain ⟨v, n⟩ := r
      obtain ⟨bs, tail, rfl, rfl, henc⟩ := parse_sound buf v n hparse
      rw [List.append_assoc, parse_of_encodes v bs _ henc]
  | error stop =>
    obtain ⟨tail, hreach, hstop, hfails⟩ := parse_error_reaches hparse
    apply (hreach.append rest).parse_error
    rcases hfails with htrips | hmal
    · rw [(htrips.append rest).parse_eq, ← htrips.parse_eq, hstop]
    · obtain ⟨e, he⟩ := hmal.parse_append
      have hnil := he []
      rw [List.append_nil, hstop] at hnil
      rw [he rest, hnil]

/-! ## Terminators -/

/-- The buffer starts with a bulk string whose payload is followed by two other bytes than
CR LF. -/
def BadBulk (buf : Bytes) : Prop :=
  ∃ line value ending rest, findCrlf line = none ∧ lineValue line = some (value.length : Int) ∧
    AnyTwo ending ∧ ¬ IsCrlf ending ∧ buf = header 36 line ++ value ++ ending ++ rest

mutual

/-- Either every bulk string of an encoding ends in CR LF, or the parser comes to one that does
not. -/
theorem Encodes.terminated_or (tail : Bytes) : ∀ {v : Resp} {bs : Bytes}, Encodes AnyTwo v bs →
    Encodes IsCrlf v bs ∨ ∃ rest, Reaches (bs ++ tail) rest ∧ BadBulk rest
  | .simple _, _, h => .inl h
  | .error _, _, h => .inl h
  | .integer _, _, h => .inl h
  | .bulk value, bs, ⟨line, ending, hline, hvalue, htwo, hbs⟩ => by
    by_cases hcrlf : IsCrlf ending
    · exact .inl ⟨line, ending, hline, hvalue, hcrlf, hbs⟩
    · rw [hbs]
      exact .inr ⟨_, .here _, line, value, ending, tail, hline, hvalue, htwo, hcrlf, rfl⟩
  | .null, _, h => .inl h
  | .array items, bs, ⟨line, body, hline, hvalue, hfit, hitems, hbs⟩ => by
    rcases hitems.terminated_or tail with hall | ⟨done, pre, more, hmore, hdone, hbody, rest,
      hreach, hbad⟩
    · exact .inl ⟨line, body, hline, hvalue, hfit, hall, hbs⟩
    · rw [hbs, List.append_assoc, hbody]
      exact .inr ⟨rest, .item line pre more rest done items.length hline hvalue hfit hdone hmore
        hreach, hbad⟩

theorem EncodesAll.terminated_or (tail : Bytes) : ∀ {items : List Resp} {body : Bytes},
    EncodesAll AnyTwo items body → EncodesAll IsCrlf items body ∨
      ∃ done pre more, done.length < items.length ∧ EncodesAll AnyTwo done pre ∧
        body ++ tail = pre ++ more ∧ ∃ rest, Reaches more rest ∧ BadBulk rest
  | [], _, h => .inl h
  | item :: items, body, ⟨bs, rest, hitem, hitems, hbody⟩ => by
    rcases hitem.terminated_or (rest ++ tail) with hgood | hbad
    · rcases hitems.terminated_or tail with hall | ⟨done, pre, more, hmore, hdone, hrest, hbad⟩
      · exact .inl ⟨bs, rest, hgood, hall, hbody⟩
      · refine .inr ⟨item :: done, bs ++ pre, more, ?_, ⟨bs, pre, hitem, hdone, rfl⟩, ?_, hbad⟩
        · exact Nat.succ_lt_succ hmore
        · rw [hbody, List.append_assoc, hrest, List.append_assoc]
    · refine .inr ⟨[], [], bs ++ (rest ++ tail), Nat.succ_pos _, rfl, ?_, hbad⟩
      rw [hbody, List.append_assoc, List.nil_append]

end

/-- What the parser takes is well-formed, and wherever it comes to a bulk string with a wrong
terminator it refuses the buffer. -/
structure AcceptsOnlyResp (buf : Bytes) : Prop where
  wellFormed : ∀ v n, Resp.parse buf = .ok (some (v, n)) → Encodes IsCrlf v (buf.take n)
  refused : ∀ rest, Reaches buf rest → BadBulk rest → ∃ e, Resp.parse buf = .error (.err e)

/-- **The parser accepts only RESP** exactly on the buffers where it comes to no bulk string with
a wrong terminator, or comes to a header that it refuses as well. -/
theorem accepts_only_resp_iff (buf : Bytes) :
    AcceptsOnlyResp buf ↔
      (∀ rest, Reaches buf rest → ¬ BadBulk rest) ∨ ∃ rest, Reaches buf rest ∧ Malformed rest := by
  constructor
  · intro h
    by_cases hbad : ∃ rest, Reaches buf rest ∧ BadBulk rest
    · obtain ⟨rest, hreach, hrest⟩ := hbad
      obtain ⟨e, he⟩ := h.refused rest hreach hrest
      obtain ⟨tail, htail, hstop, htrips | hmal⟩ := parse_error_reaches he
      · rw [htrips.parse_eq] at hstop
        cases hstop
      · exact .inr ⟨tail, htail, hmal⟩
    · exact .inl fun rest hreach hrest => hbad ⟨rest, hreach, hrest⟩
  · intro h
    have hrefused : (∃ rest, Reaches buf rest ∧ BadBulk rest) →
        ∃ e, Resp.parse buf = .error (.err e) := by
      intro hbad
      obtain ⟨rest, hreach, hrest⟩ := hbad
      rcases h with hnone | ⟨tail, htail, hmal⟩
      · exact absurd hrest (hnone rest hreach)
      · obtain ⟨e, he⟩ := hmal.parse_eq
        exact ⟨e, htail.parse_error he⟩
    constructor
    · intro v n hparse
      obtain ⟨bs, tail, rfl, rfl, hlax⟩ := parse_sound buf v n hparse
      rw [List.take_left]
      rcases hlax.terminated_or tail with hgood | hbad
      · exact hgood
      · obtain ⟨e, he⟩ := hrefused hbad
        rw [hparse] at he
        cases he
    · intro rest hreach hrest
      exact hrefused ⟨rest, hreach, hrest⟩

/-- `$1`, a payload of one byte, and `XX` where the CR LF should be. -/
def wrongTerminator : Bytes := ascii "$1\r\naXX"

/-- All of it is taken as a bulk string. -/
theorem wrongTerminator_accepted :
    Resp.parse wrongTerminator = .ok (some (.bulk [97], 7)) ∧
      ¬ AcceptsOnlyResp wrongTerminator := by
  have hparse : Resp.parse wrongTerminator = .ok (some (.bulk [97], 7)) := by decide
  refine ⟨hparse, fun h => ?_⟩
  obtain ⟨line, ending, -, -, hending, hbs⟩ := h.wellFormed _ _ hparse
  -- the last byte would be a line feed
  have hlast := congrArg List.getLast? hbs
  rw [hending, List.getLast?_append] at hlast
  have hlf : (wrongTerminator.take 7).getLast? = some 10 := hlast
  exact absurd hlf (by decide)

end RustFundamentals.Rudis
