import RustFundamentals.Foundation.Loop
import RustFundamentals.Foundation.Bytes

/-!
# UTF-8

Which byte strings are UTF-8 (`str::from_utf8`) and what `String::from_utf8_lossy` makes of
the rest. A Rust `str` is its bytes, so text is a byte string throughout. Decoding follows
the standard library: a lead byte fixes the ranges its continuation bytes must lie in, and a
sequence that breaks off is replaced as a whole, up to the byte that broke it.
-/

namespace Foundation

/-- The ranges of the continuation bytes a lead byte asks for; `none` if it cannot lead. -/
def tailRanges (b : UInt8) : Option (List (UInt8 × UInt8)) :=
  let cont : UInt8 × UInt8 := (0x80, 0xBF)
  if b < 0x80 then some []
  else if b < 0xC2 then none
  else if b < 0xE0 then some [cont]
  else if b = 0xE0 then some [(0xA0, 0xBF), cont]
  else if b = 0xED then some [(0x80, 0x9F), cont]
  else if b < 0xF0 then some [cont, cont]
  else if b = 0xF0 then some [(0x90, 0xBF), cont, cont]
  else if b < 0xF4 then some [cont, cont, cont]
  else if b = 0xF4 then some [(0x80, 0x8F), cont, cont]
  else none

/-- How many of the ranges the bytes fill before one does not fit. -/
def matched : List (UInt8 × UInt8) → Bytes → Nat
  | [], _ => 0
  | _, [] => 0
  | (lo, hi) :: ranges, b :: bs => if lo ≤ b ∧ b ≤ hi then matched ranges bs + 1 else 0

/-- The sequence at the front of `b :: bs`: whether it is a character, and how many bytes
follow `b` in it. -/
def charStep (b : UInt8) (bs : Bytes) : Bool × Nat :=
  match tailRanges b with
  | none => (false, 0)
  | some ranges => (matched ranges bs = ranges.length, matched ranges bs)

/-- `str::from_utf8` succeeds; the length of the string is fuel enough. -/
def validLoop : Nat → Bytes → Bool
  | _, [] => true
  | 0, _ => false
  | fuel + 1, b :: bs =>
    let (valid, n) := charStep b bs
    valid && validLoop fuel (bs.drop n)

/-- `str::from_utf8(bs).is_ok()`. -/
def validUtf8 (bs : Bytes) : Bool := validLoop bs.length bs

/-- `str::from_utf8(bs).ok()`. -/
def fromUtf8 (bs : Bytes) : Option Bytes := if validUtf8 bs then some bs else none

/-- U+FFFD. -/
def replacement : Bytes := [0xEF, 0xBF, 0xBD]

/-- The sequences of a string, one after the other: the bytes of a character, `none` where they
are none. The length of the string is fuel enough. -/
def sequencesLoop : Nat → Bytes → List (Option Bytes)
  | _, [] => []
  | 0, _ => []
  | fuel + 1, b :: bs =>
    let (valid, n) := charStep b bs
    (if valid then some (b :: bs.take n) else none) :: sequencesLoop fuel (bs.drop n)

def sequences (bs : Bytes) : List (Option Bytes) := sequencesLoop bs.length bs

/-- `String::from_utf8_lossy(bs)`. -/
def fromUtf8Lossy (bs : Bytes) : Bytes := (sequences bs).flatMap fun s => s.getD replacement

/-- `to_ascii_uppercase` of one byte. -/
def upperByte (b : UInt8) : UInt8 := if 97 ≤ b ∧ b ≤ 122 then b - 32 else b

/-- `to_ascii_uppercase`. -/
def toAsciiUppercase (bs : Bytes) : Bytes := bs.map upperByte

theorem charStep_ascii {b : UInt8} (h : b < 0x80) (bs : Bytes) : charStep b bs = (true, 0) := by
  simp [charStep, tailRanges, h, matched]

/-! ## Characters -/

/-- Continuation bytes are not ASCII. -/
theorem tailRanges_lo {b : UInt8} {ranges : List (UInt8 × UInt8)} (h : tailRanges b = some ranges) :
    ∀ r ∈ ranges, 0x80 ≤ r.1 := by
  unfold tailRanges at h
  dsimp only at h
  repeat' split at h
  all_goals simp only [Option.some.injEq, reduceCtorEq] at h
  all_goals
    subst h
    simp

theorem matched_le (ranges : List (UInt8 × UInt8)) (bs : Bytes) :
    matched ranges bs ≤ bs.length := by
  induction ranges generalizing bs with
  | nil => simp [matched]
  | cons r ranges ih =>
    cases bs with
    | nil => simp [matched]
    | cons b bs =>
      obtain ⟨lo, hi⟩ := r
      rw [matched]
      split
      · simpa using ih bs
      · simp

/-- What follows the matched bytes does not matter. -/
theorem matched_append {ranges : List (UInt8 × UInt8)} {bs : Bytes}
    (h : matched ranges bs = ranges.length) (rest : Bytes) :
    matched ranges (bs.take ranges.length ++ rest) = ranges.length := by
  induction ranges generalizing bs with
  | nil => simp [matched]
  | cons r ranges ih =>
    obtain ⟨lo, hi⟩ := r
    cases bs with
    | nil => simp [matched] at h
    | cons b bs =>
      rw [matched] at h
      split at h
      · rename_i hb
        rw [List.length_cons, List.take_succ_cons, List.cons_append, matched, if_pos hb,
          ih (Nat.succ.inj h)]
      · simp at h

/-- The matched bytes are not ASCII. -/
theorem matched_high {ranges : List (UInt8 × UInt8)} (hlo : ∀ r ∈ ranges, 0x80 ≤ r.1)
    (bs : Bytes) : ∀ b ∈ bs.take (matched ranges bs), 0x80 ≤ b := by
  induction ranges generalizing bs with
  | nil => simp [matched]
  | cons r ranges ih =>
    obtain ⟨lo, hi⟩ := r
    cases bs with
    | nil => simp
    | cons b bs =>
      rw [matched]
      split
      · rename_i hb
        intro x hx
        rw [List.take_succ_cons, List.mem_cons] at hx
        rcases hx with rfl | hx
        · exact UInt8.le_trans (hlo (lo, hi) (by simp)) hb.1
        · exact ih (fun r hr => hlo r (by simp [hr])) bs x hx
      · simp

theorem charStep_le (b : UInt8) (bs : Bytes) : (charStep b bs).2 ≤ bs.length := by
  unfold charStep
  split
  · simp
  · exact matched_le _ bs

/-- The bytes of a sequence behind its lead are not ASCII. -/
theorem charStep_high (b : UInt8) (bs : Bytes) : ∀ x ∈ bs.take (charStep b bs).2, 0x80 ≤ x := by
  unfold charStep
  split
  · simp
  · rename_i ranges hr
    exact matched_high (tailRanges_lo hr) bs

/-- A character is one whatever follows it. -/
theorem charStep_append {b : UInt8} {bs : Bytes} {n : Nat} (h : charStep b bs = (true, n))
    (rest : Bytes) : charStep b (bs.take n ++ rest) = (true, n) := by
  unfold charStep at h ⊢
  split at h
  · simp at h
  · rename_i ranges hr
    simp only [Prod.mk.injEq, decide_eq_true_eq] at h
    obtain ⟨hall, rfl⟩ := h
    simp only [hall, matched_append hall, decide_true]

/-! ## Valid strings -/

/-- The length is fuel enough. -/
theorem validLoop_eq {fuel : Nat} {bs : Bytes} (h : bs.length ≤ fuel) :
    validLoop fuel bs = validUtf8 bs := by
  refine fuel_irrelevant _ List.length ?_ ?_ h le_rfl
  · intro m n bs hnil
    rw [List.length_eq_zero_iff.mp hnil]
    cases m <;> cases n <;> rfl
  · intro m n bs hrest hne
    cases bs with
    | nil => rfl
    | cons b bs =>
      have hdrop := hrest (bs.drop (charStep b bs).2)
        (by simp only [List.length_drop, List.length_cons]; omega)
      simp only [validLoop, hdrop]

theorem validUtf8_cons (b : UInt8) (bs : Bytes) :
    validUtf8 (b :: bs) = ((charStep b bs).1 && validUtf8 (bs.drop (charStep b bs).2)) := by
  have hdrop : (bs.drop (charStep b bs).2).length ≤ bs.length := by simp
  rw [← validLoop_eq hdrop]
  rfl

/-- A character in front of a string. -/
theorem validUtf8_char {b : UInt8} {bs : Bytes} {n : Nat} (h : charStep b bs = (true, n))
    (rest : Bytes) : validUtf8 (b :: (bs.take n ++ rest)) = validUtf8 rest := by
  have hn : n ≤ bs.length := by
    have := charStep_le b bs
    rwa [h] at this
  rw [validUtf8_cons, charStep_append h]
  simp [hn]

/-- The induction of decoding: one character after the other. -/
theorem chars_induction {P : Bytes → Prop} (nil : P [])
    (char : ∀ b bs, P (bs.drop (charStep b bs).2) → P (b :: bs)) (bs : Bytes) : P bs := by
  induction hlen : bs.length using Nat.strong_induction_on generalizing bs with
  | _ len ih =>
    cases bs with
    | nil => exact nil
    | cons b bs =>
      rw [List.length_cons] at hlen
      exact char b bs (ih _ (by simp only [List.length_drop]; omega) _ rfl)

theorem validUtf8_append {as bs : Bytes} (ha : validUtf8 as = true) (hb : validUtf8 bs = true) :
    validUtf8 (as ++ bs) = true := by
  induction as using chars_induction with
  | nil => exact hb
  | char a as ih =>
    rw [validUtf8_cons, Bool.and_eq_true] at ha
    obtain ⟨hchar, hrest⟩ := ha
    have hstep : charStep a as = (true, (charStep a as).2) := Prod.ext hchar rfl
    have hsplit : as ++ bs = as.take (charStep a as).2 ++ (as.drop (charStep a as).2 ++ bs) := by
      rw [← List.append_assoc, List.take_append_drop]
    rw [List.cons_append, hsplit, validUtf8_char hstep]
    exact ih hrest

/-- ASCII is UTF-8. -/
theorem validUtf8_ascii {bs : Bytes} (h : ∀ b ∈ bs, b < 0x80) : validUtf8 bs = true := by
  induction bs with
  | nil => rfl
  | cons b bs ih =>
    rw [validUtf8_cons, charStep_ascii (h b (by simp))]
    simpa using ih fun x hx => h x (by simp [hx])

/-! ## Lossy decoding -/

theorem sequencesLoop_eq {fuel : Nat} {bs : Bytes} (h : bs.length ≤ fuel) :
    sequencesLoop fuel bs = sequences bs := by
  refine fuel_irrelevant _ List.length ?_ ?_ h le_rfl
  · intro m n bs hnil
    rw [List.length_eq_zero_iff.mp hnil]
    cases m <;> cases n <;> rfl
  · intro m n bs hrest hne
    cases bs with
    | nil => rfl
    | cons b bs =>
      have hdrop := hrest (bs.drop (charStep b bs).2)
        (by simp only [List.length_drop, List.length_cons]; omega)
      simp only [sequencesLoop, hdrop]

theorem sequences_cons (b : UInt8) (bs : Bytes) :
    sequences (b :: bs) =
      (if (charStep b bs).1 then some (b :: bs.take (charStep b bs).2) else none) ::
        sequences (bs.drop (charStep b bs).2) := by
  have hdrop : (bs.drop (charStep b bs).2).length ≤ bs.length := by simp
  rw [← sequencesLoop_eq hdrop]
  rfl

theorem fromUtf8Lossy_cons (b : UInt8) (bs : Bytes) :
    fromUtf8Lossy (b :: bs) =
      (if (charStep b bs).1 then b :: bs.take (charStep b bs).2 else replacement) ++
        fromUtf8Lossy (bs.drop (charStep b bs).2) := by
  rw [fromUtf8Lossy, sequences_cons, List.flatMap_cons]
  cases (charStep b bs).1 <;> rfl

/-- ASCII bytes are kept one by one. -/
theorem fromUtf8Lossy_ascii {b : UInt8} (h : b < 0x80) (bs : Bytes) :
    fromUtf8Lossy (b :: bs) = b :: fromUtf8Lossy bs := by
  rw [fromUtf8Lossy_cons, charStep_ascii h]
  rfl

/-- The induction of lossy decoding: an ASCII byte, or a sequence of other bytes for which
other bytes stand. -/
theorem fromUtf8Lossy_induction {P : Bytes → Bytes → Prop} (nil : P [] [])
    (asciiByte : ∀ b bs, b < 0x80 → P bs (fromUtf8Lossy bs) → P (b :: bs) (b :: fromUtf8Lossy bs))
    (sequence : ∀ read made bs, (∀ x ∈ read, 0x80 ≤ x) → (∀ x ∈ made, 0x80 ≤ x) → read ≠ [] →
      made ≠ [] → P bs (fromUtf8Lossy bs) → P (read ++ bs) (made ++ fromUtf8Lossy bs))
    (bs : Bytes) : P bs (fromUtf8Lossy bs) := by
  induction bs using chars_induction with
  | nil => exact nil
  | char b bs ih =>
    by_cases hb : b < 0x80
    · rw [charStep_ascii hb] at ih
      rw [fromUtf8Lossy_ascii hb]
      exact asciiByte b bs hb ih
    · have hhigh : 0x80 ≤ b := UInt8.not_lt.mp hb
      have htail := charStep_high b bs
      have hread : b :: bs = (b :: bs.take (charStep b bs).2) ++ bs.drop (charStep b bs).2 := by
        simp
      rw [fromUtf8Lossy_cons]
      conv => enter [1]; rw [hread]
      refine sequence _ _ _ ?_ ?_ (by simp) ?_ ih
      · simpa using ⟨hhigh, htail⟩
      · split
        · simpa using ⟨hhigh, htail⟩
        · simp [replacement]
      · split <;> simp [replacement]

/-- Text is left as it is. -/
theorem fromUtf8Lossy_of_valid {bs : Bytes} (h : validUtf8 bs = true) : fromUtf8Lossy bs = bs := by
  induction bs using chars_induction with
  | nil => rfl
  | char b bs ih =>
    rw [validUtf8_cons, Bool.and_eq_true] at h
    rw [fromUtf8Lossy_cons, if_pos h.1, ih h.2, List.cons_append, List.take_append_drop]

/-- Lossy decoding makes UTF-8. -/
theorem validUtf8_fromUtf8Lossy (bs : Bytes) : validUtf8 (fromUtf8Lossy bs) = true := by
  induction bs using chars_induction with
  | nil => rfl
  | char b bs ih =>
    rw [fromUtf8Lossy_cons]
    split
    · rename_i hchar
      have hstep : charStep b bs = (true, (charStep b bs).2) := Prod.ext hchar rfl
      rw [List.cons_append, validUtf8_char hstep]
      exact ih
    · exact validUtf8_append (by decide) ih

/-- Where no byte of `hi` is `a`, a pair `a, b` is not in it or across its end. -/
theorem pair_infix_append {a b : UInt8} {hi : Bytes} (ha : a ∉ hi) (rest : Bytes) :
    [a, b] <:+: hi ++ rest ↔ [a, b] <:+: rest := by
  induction hi with
  | nil => rfl
  | cons x hi ih =>
    rw [List.cons_append, List.infix_cons_iff, ih (by simp_all)]
    refine or_iff_right ?_
    rw [List.cons_prefix_cons]
    intro hboth
    obtain ⟨rfl, _⟩ := hboth
    simp at ha

/-- **Lossy decoding keeps pairs of ASCII bytes**: none is made, none is lost. -/
theorem pair_infix_fromUtf8Lossy {a b : UInt8} (ha : a < 0x80) (hb : b < 0x80) (bs : Bytes) :
    [a, b] <:+: fromUtf8Lossy bs ↔ [a, b] <:+: bs := by
  have hnot : ∀ {c : UInt8} {hi : Bytes}, c < 0x80 → (∀ x ∈ hi, 0x80 ≤ x) → c ∉ hi :=
    fun hc hhi hmem => UInt8.not_lt.mpr (hhi _ hmem) hc
  -- the two strings also start with `b` together
  suffices h : ([b] <+: fromUtf8Lossy bs ↔ [b] <+: bs) ∧
      ([a, b] <:+: fromUtf8Lossy bs ↔ [a, b] <:+: bs) from h.2
  induction bs using fromUtf8Lossy_induction with
  | nil => simp
  | asciiByte c bs _ ih =>
    refine ⟨by simp, ?_⟩
    rw [List.infix_cons_iff, List.infix_cons_iff, ih.2, List.cons_prefix_cons,
      List.cons_prefix_cons, ih.1]
  | sequence read made bs hread hmade hne hne' ih =>
    constructor
    · have hhead : ∀ {hi : Bytes} (rest), (∀ x ∈ hi, 0x80 ≤ x) → hi ≠ [] →
          ¬ [b] <+: hi ++ rest := by
        intro hi rest hhi hne
        cases hi with
        | nil => exact absurd rfl hne
        | cons x hi =>
          rw [List.cons_append, List.cons_prefix_cons]
          intro hboth
          obtain ⟨rfl, _⟩ := hboth
          exact hnot hb hhi (by simp)
      exact iff_of_false (hhead _ hmade hne') (hhead _ hread hne)
    · rw [pair_infix_append (hnot ha hmade), pair_infix_append (hnot ha hread)]
      exact ih.2

/-! ## Upper case -/

theorem upperByte_lt {b : UInt8} : upperByte b < 0x80 ↔ b < 0x80 := by
  unfold upperByte
  split <;> grind

theorem upperByte_of_high {b : UInt8} (h : 0x80 ≤ b) : upperByte b = b := by
  unfold upperByte
  split <;> grind

theorem tailRanges_upperByte (b : UInt8) : tailRanges (upperByte b) = tailRanges b := by
  by_cases h : b < 0x80
  · simp [tailRanges, h, upperByte_lt.mpr h]
  · rw [upperByte_of_high (UInt8.not_lt.mp h)]

theorem matched_toAsciiUppercase {ranges : List (UInt8 × UInt8)}
    (hlo : ∀ r ∈ ranges, 0x80 ≤ r.1) (bs : Bytes) :
    matched ranges (toAsciiUppercase bs) = matched ranges bs := by
  induction ranges generalizing bs with
  | nil => rfl
  | cons r ranges ih =>
    obtain ⟨lo, hi⟩ := r
    have hl : 0x80 ≤ lo := hlo (lo, hi) (by simp)
    cases bs with
    | nil => rfl
    | cons b bs =>
      rw [toAsciiUppercase, List.map_cons, matched, matched]
      by_cases h : b < 0x80
      · -- neither byte can continue a character
        have hlt : ∀ {c : UInt8}, c < 0x80 → ¬ (lo ≤ c ∧ c ≤ hi) := fun hc hr =>
          UInt8.not_lt.mpr (UInt8.le_trans hl hr.1) hc
        rw [if_neg (hlt h), if_neg (hlt (upperByte_lt.mpr h))]
      · rw [upperByte_of_high (UInt8.not_lt.mp h)]
        have hrest := ih (fun r hr => hlo r (by simp [hr])) bs
        rw [toAsciiUppercase] at hrest
        rw [hrest]

theorem charStep_toAsciiUppercase (b : UInt8) (bs : Bytes) :
    charStep (upperByte b) (toAsciiUppercase bs) = charStep b bs := by
  unfold charStep
  rw [tailRanges_upperByte]
  split
  · rfl
  · rw [matched_toAsciiUppercase (tailRanges_lo ‹_›)]

/-- Upper case keeps a string one. -/
theorem validUtf8_toAsciiUppercase (bs : Bytes) :
    validUtf8 (toAsciiUppercase bs) = validUtf8 bs := by
  induction bs using chars_induction with
  | nil => rfl
  | char b bs ih =>
    show validUtf8 (upperByte b :: toAsciiUppercase bs) = _
    rw [validUtf8_cons, validUtf8_cons, charStep_toAsciiUppercase, ← ih]
    simp only [toAsciiUppercase, List.map_drop]

theorem pair_infix_map {f : UInt8 → UInt8} {a b : UInt8} (ha : ∀ x, a = f x ↔ a = x)
    (hb : ∀ x, b = f x ↔ b = x) (bs : Bytes) : [a, b] <:+: bs.map f ↔ [a, b] <:+: bs := by
  have hhead : ∀ bs : Bytes, [b] <+: bs.map f ↔ [b] <+: bs := by
    intro bs
    cases bs with
    | nil => rfl
    | cons x bs => simp [List.cons_prefix_cons, hb]
  induction bs with
  | nil => rfl
  | cons x bs ih =>
    rw [List.map_cons, List.infix_cons_iff, List.infix_cons_iff, List.cons_prefix_cons,
      List.cons_prefix_cons, hhead, ha]
    exact or_congr_right ih

/-! ## Text -/

/-- A Rust `str`: bytes that are UTF-8. -/
structure Str where
  bytes : Bytes
  valid : validUtf8 bytes = true
  deriving DecidableEq

namespace Str

/-- A string literal. -/
def lit (s : String) (h : validUtf8 (ascii s) = true := by decide) : Str := ⟨ascii s, h⟩

instance : Append Str := ⟨fun s t => ⟨s.bytes ++ t.bytes, validUtf8_append s.valid t.valid⟩⟩

@[simp] theorem bytes_append (s t : Str) : (s ++ t).bytes = s.bytes ++ t.bytes := rfl

@[simp] theorem bytes_lit (s : String) (h : validUtf8 (ascii s) = true) :
    (lit s h).bytes = ascii s := rfl

/-- `str::from_utf8(bs).ok()`. -/
def fromUtf8 (bs : Bytes) : Option Str := if h : validUtf8 bs = true then some ⟨bs, h⟩ else none

/-- `String::from_utf8_lossy`. -/
def fromUtf8Lossy (bs : Bytes) : Str := ⟨Foundation.fromUtf8Lossy bs, validUtf8_fromUtf8Lossy bs⟩

/-- `to_ascii_uppercase`. -/
def toAsciiUppercase (s : Str) : Str :=
  ⟨Foundation.toAsciiUppercase s.bytes, by rw [validUtf8_toAsciiUppercase, s.valid]⟩

@[simp] theorem fromUtf8_bytes (s : Str) : fromUtf8 s.bytes = some s := by
  rw [fromUtf8, dif_pos s.valid]

example : (lit "PONG").bytes = [80, 79, 78, 71] := by decide

end Str

end Foundation
