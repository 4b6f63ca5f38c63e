import RustFundamentals.Foundation.Lines
import RustFundamentals.Foundation.Text
import RustFundamentals.Foundation.Utf8

/-!
# Lines and words of text

Bytes decoded to characters, as `String::from_utf8_lossy` does it, and the lines and words of
text. An ASCII byte is never part of a longer sequence, so the two sides of it are decoded
independently (`fromUtf8Lossy_append`), and text that ends a line can be cut there.
-/

namespace Foundation

namespace Text

/-! ## Decoding -/

/-- The code point that the bytes of a character encode. -/
def codePoint (bytes : Bytes) : Nat :=
  match bytes.map UInt8.toNat with
  | [a] => a
  | [a, b] => a % 32 * 64 + b % 64
  | [a, b, c] => (a % 16 * 64 + b % 64) * 64 + c % 64
  | [a, b, c, d] => ((a % 8 * 64 + b % 64) * 64 + c % 64) * 64 + d % 64
  | _ => 0xFFFD

/-- The character of a sequence, U+FFFD where it is none. -/
def sequenceChar : Option Bytes → Char
  | some bytes => Char.ofNat (codePoint bytes)
  | none => '\uFFFD'

/-- `String::from_utf8_lossy(bs)`. -/
def fromUtf8Lossy (bs : Bytes) : Text := (sequences bs).map sequenceChar

theorem fromUtf8Lossy_cons (b : UInt8) (bs : Bytes) :
    fromUtf8Lossy (b :: bs) =
      (if (charStep b bs).1 then Char.ofNat (codePoint (b :: bs.take (charStep b bs).2))
        else '\uFFFD') :: fromUtf8Lossy (bs.drop (charStep b bs).2) := by
  rw [fromUtf8Lossy, sequences_cons, List.map_cons]
  cases (charStep b bs).1 <;> rfl

/-- An ASCII byte breaks off what is matched. -/
theorem matched_append_ascii {ranges : List (UInt8 × UInt8)} (hlo : ∀ r ∈ ranges, 0x80 ≤ r.1)
    (as : Bytes) {b : UInt8} (hb : b < 0x80) (bs : Bytes) :
    matched ranges (as ++ b :: bs) = matched ranges as := by
  induction ranges generalizing as with
  | nil => cases as <;> rfl
  | cons r ranges ih =>
    obtain ⟨lo, hi⟩ := r
    cases as with
    | nil =>
      have hnot : ¬ (lo ≤ b ∧ b ≤ hi) := by
        intro h
        exact absurd (UInt8.lt_of_lt_of_le hb (hlo _ List.mem_cons_self)) (UInt8.not_lt.mpr h.1)
      show matched ((lo, hi) :: ranges) (b :: bs) = 0
      rw [matched, if_neg hnot]
    | cons a as =>
      rw [List.cons_append, matched, matched, ih (fun r hr => hlo r (List.mem_cons_of_mem _ hr))]

theorem charStep_append_ascii (a : UInt8) (as : Bytes) {b : UInt8} (hb : b < 0x80) (bs : Bytes) :
    charStep a (as ++ b :: bs) = charStep a as := by
  unfold charStep
  cases hranges : tailRanges a with
  | none => rfl
  | some ranges =>
    dsimp only
    rw [matched_append_ascii (tailRanges_lo hranges) as hb]

/-- **The two sides of an ASCII byte are decoded independently.** -/
theorem fromUtf8Lossy_append (as : Bytes) {b : UInt8} (hb : b < 0x80) (bs : Bytes) :
    fromUtf8Lossy (as ++ b :: bs) =
      fromUtf8Lossy as ++ Char.ofNat b.toNat :: fromUtf8Lossy bs := by
  induction hn : as.length using Nat.strongRecOn generalizing as with
  | ind n ih =>
    cases as with
    | nil =>
      rw [List.nil_append, fromUtf8Lossy_cons, charStep_ascii hb]
      rfl
    | cons a as =>
      have hle := charStep_le a as
      rw [List.cons_append, fromUtf8Lossy_cons, fromUtf8Lossy_cons, charStep_append_ascii a as hb,
        List.take_append_of_le_length hle, List.drop_append_of_le_length hle,
        ih _ _ (as.drop (charStep a as).2) rfl, List.cons_append]
      rw [← hn, List.length_drop, List.length_cons]
      omega

/-- A byte as a character. -/
def asciiChar (b : UInt8) : Char := Char.ofNat b.toNat

theorem toNat_asciiChar (b : UInt8) : (asciiChar b).toNat = b.toNat := by
  have hlt : b.toNat < 0xD800 := lt_trans b.toNat_lt (by decide)
  rw [asciiChar, Char.ofNat, dif_pos (.inl hlt)]
  rfl

/-- ASCII is decoded byte by byte. -/
theorem fromUtf8Lossy_ascii {bs : Bytes} (h : ∀ b ∈ bs, b < 0x80) :
    fromUtf8Lossy bs = bs.map asciiChar := by
  induction bs with
  | nil => rfl
  | cons b bs ih =>
    have htail := ih fun x hx => h x (List.mem_cons_of_mem _ hx)
    rw [fromUtf8Lossy_cons, charStep_ascii (h b List.mem_cons_self), List.map_cons, ← htail]
    rfl

/-! ## Lines -/

/-- The character that ends a line. -/
def isNewline (c : Char) : Bool := c == '\n'

/-- A `\r` in front of the `\n` belongs to the end of the line. -/
def stripCr (line : Text) : Text := if line.getLast? = some '\r' then line.dropLast else line

/-- `str::lines`. -/
def lines (s : Text) : List Text :=
  (Lines.records isNewline s).map stripCr ++
    if (Lines.unended isNewline s).isEmpty then [] else [Lines.unended isNewline s]

/-- `str::split_whitespace`. -/
def splitWhitespace (s : Text) : List Text := (s.splitOnP isWhitespace).filter fun w => !w.isEmpty

/-- `str::splitn`, at a character. -/
def splitn : Nat → Char → Text → List Text
  | 0, _, _ => []
  | 1, _, s => [s]
  | n + 2, sep, s =>
    match s.span fun c => c != sep with
    | (head, []) => [head]
    | (head, _ :: rest) => head :: splitn (n + 1) sep rest

theorem lines_append {s : Text} (h : Lines.Closed isNewline s) (t : Text) :
    lines (s ++ t) = lines s ++ lines t := by
  have hs : Lines.unended isNewline s = [] := by
    have := Lines.unended_append h []
    rwa [List.append_nil] at this
  rw [lines, Lines.records_append h, Lines.unended_append h, List.map_append, lines, lines, hs]
  simp

/-- The byte that ends a line. -/
def newlineByte (b : UInt8) : Bool := b == 10

/-- Bytes that end with a newline are decoded independently of what follows. -/
theorem fromUtf8Lossy_closed {bs : Bytes} (h : Lines.Closed newlineByte bs) (cs : Bytes) :
    fromUtf8Lossy (bs ++ cs) = fromUtf8Lossy bs ++ fromUtf8Lossy cs ∧
      Lines.Closed isNewline (fromUtf8Lossy bs) := by
  rcases h with rfl | ⟨before, b, rfl, hb⟩
  · exact ⟨rfl, .inl rfl⟩
  · obtain rfl : b = 10 := by simpa [newlineByte] using hb
    have hsplit : ∀ cs, fromUtf8Lossy (before ++ 10 :: cs) =
        fromUtf8Lossy before ++ '\n' :: fromUtf8Lossy cs := fun cs =>
      fromUtf8Lossy_append before (by decide) cs
    rw [List.append_assoc, List.singleton_append, hsplit, hsplit, List.append_assoc]
    exact ⟨rfl, Lines.closed_snoc rfl⟩

/-- The lines of bytes. -/
def linesLossy (bs : Bytes) : List Text := lines (fromUtf8Lossy bs)

theorem linesLossy_append {bs : Bytes} (h : Lines.Closed newlineByte bs) (cs : Bytes) :
    linesLossy (bs ++ cs) = linesLossy bs ++ linesLossy cs := by
  obtain ⟨hsplit, hclosed⟩ := fromUtf8Lossy_closed h cs
  rw [linesLossy, hsplit, lines_append hclosed]
  rfl

/-- **Pieces have the lines of the whole.** -/
theorem linesLossy_flatten {ps : List Bytes} (h : Lines.Pieces newlineByte ps) :
    linesLossy ps.flatten = (ps.map linesLossy).flatten := by
  induction h with
  | nil => rfl
  | last p => simp
  | cons hp _ ih =>
    rw [List.flatten_cons, linesLossy_append hp, ih, List.map_cons, List.flatten_cons]

/-! ## Words and plain lines -/

/-- A word is split off in front of whitespace. -/
theorem splitWhitespace_word {w : Text} (hne : w ≠ []) (hw : ∀ c ∈ w, isWhitespace c = false)
    {c : Char} (hc : isWhitespace c = true) (rest : Text) :
    splitWhitespace (w ++ c :: rest) = w :: splitWhitespace rest := by
  rw [splitWhitespace, List.splitOnP_append_cons_of_forall_mem hw c hc,
    List.filter_cons_of_pos (by simpa using hne)]
  rfl

theorem splitWhitespace_last {w : Text} (hne : w ≠ []) (hw : ∀ c ∈ w, isWhitespace c = false) :
    splitWhitespace w = [w] := by
  rw [splitWhitespace, List.splitOnP_eq_singleton hw, List.filter_cons_of_pos (by simpa using hne)]
  rfl

/-- **Words with blanks between them are split.** -/
theorem splitWhitespace_intercalate {ws : List Text}
    (h : ∀ w ∈ ws, w ≠ [] ∧ ∀ c ∈ w, isWhitespace c = false) :
    splitWhitespace ([' '].intercalate ws) = ws := by
  induction ws with
  | nil => rfl
  | cons w ws ih =>
    obtain ⟨hw, hws⟩ := List.forall_mem_cons.mp h
    cases ws with
    | nil => rw [List.intercalate_singleton, splitWhitespace_last hw.1 hw.2]
    | cons w' ws =>
      rw [List.intercalate_cons_cons, List.append_assoc, List.singleton_append,
        splitWhitespace_word hw.1 hw.2 rfl, ih hws]

/-- Printable ASCII, and some of it. -/
def Printable (w : Bytes) : Prop := w ≠ [] ∧ ∀ b ∈ w, 33 ≤ b.toNat ∧ b.toNat < 127

instance (w : Bytes) : Decidable (Printable w) := inferInstanceAs (Decidable (_ ∧ _))

theorem Printable.text {w : Bytes} (h : Printable w) :
    w.map asciiChar ≠ [] ∧ ∀ c ∈ w.map asciiChar, isWhitespace c = false := by
  refine ⟨by simpa using h.1, fun c hc => ?_⟩
  obtain ⟨b, hb, rfl⟩ := List.mem_map.mp hc
  obtain ⟨hlo, hhi⟩ := h.2 b hb
  rw [← toNat_asciiChar b] at hlo hhi
  simp only [isWhitespace, Bool.or_eq_false_iff, Bool.and_eq_false_iff, decide_eq_false_iff_not,
    beq_eq_false_iff_ne]
  omega

theorem map_intercalate {α β : Type} (f : α → β) (sep : List α) (ws : List (List α)) :
    (sep.intercalate ws).map f = (sep.map f).intercalate (ws.map fun w => w.map f) := by
  induction ws with
  | nil => rfl
  | cons w ws ih =>
    cases ws with
    | nil => rw [List.intercalate_singleton, List.map_singleton, List.intercalate_singleton]
    | cons w' ws =>
      rw [List.map_cons, List.map_cons, List.intercalate_cons_cons, List.intercalate_cons_cons,
        ← List.map_cons, ← ih, List.map_append, List.map_append]

/-- Printable words with blanks between them are split. -/
theorem splitWhitespace_printable {ws : List Bytes} (h : ∀ w ∈ ws, Printable w) :
    splitWhitespace (([32].intercalate ws).map asciiChar) = ws.map fun w => w.map asciiChar := by
  rw [map_intercalate]
  refine splitWhitespace_intercalate fun w hw => ?_
  obtain ⟨w', hw', rfl⟩ := List.mem_map.mp hw
  exact (h w' hw').text

/-- ASCII with no end of a line in it. -/
def PlainLine (l : Bytes) : Prop := ∀ b ∈ l, b < 0x80 ∧ b ≠ 10 ∧ b ≠ 13

theorem Printable.plainLine {w : Bytes} (h : Printable w) : PlainLine w := by
  intro b hb
  obtain ⟨hlo, hhi⟩ := h.2 b hb
  rw [UInt8.lt_iff_toNat_lt]
  refine ⟨Nat.lt_of_lt_of_le hhi (by decide), ?_, ?_⟩
  · rintro rfl
    exact absurd hlo (by decide)
  · rintro rfl
    exact absurd hlo (by decide)

/-- Printable words with blanks between them are a plain line. -/
theorem plainLine_printable {ws : List Bytes} (h : ∀ w ∈ ws, Printable w) :
    PlainLine ([32].intercalate ws) := by
  induction ws with
  | nil => exact fun b hb => absurd hb List.not_mem_nil
  | cons w ws ih =>
    obtain ⟨hw, hws⟩ := List.forall_mem_cons.mp h
    cases ws with
    | nil =>
      rw [List.intercalate_singleton]
      exact hw.plainLine
    | cons w' ws =>
      intro b hb
      rw [List.intercalate_cons_cons, List.append_assoc] at hb
      rcases List.mem_append.mp hb with hb | hb
      · exact hw.plainLine b hb
      · rcases List.mem_cons.mp hb with rfl | hb
        · decide
        · exact ih hws b hb

theorem linesLossy_line {l : Bytes} (h : PlainLine l) :
    linesLossy (l ++ [10]) = [l.map asciiChar] := by
  have hascii : ∀ b ∈ l ++ [10], b < 0x80 := by
    intro b hb
    rcases List.mem_append.mp hb with hb | hb
    · exact (h b hb).1
    · rw [List.mem_singleton.mp hb]
      decide
  have hchar : ∀ {b : UInt8} {c : Char}, asciiChar b = c → b.toNat = c.toNat := by
    rintro b c rfl
    exact (toNat_asciiChar b).symm
  have hplain : ∀ c ∈ l.map asciiChar, isNewline c = false := by
    intro c hc
    obtain ⟨b, hb, rfl⟩ := List.mem_map.mp hc
    rw [isNewline, beq_eq_false_iff_ne]
    intro heq
    exact (h b hb).2.1 (UInt8.toNat_inj.mp (hchar heq))
  have hlast : (l.map asciiChar).getLast? ≠ some '\r' := by
    intro heq
    obtain ⟨b, hb, hcr⟩ := List.mem_map.mp (List.mem_of_getLast? heq)
    exact (h b hb).2.2 (UInt8.toNat_inj.mp (hchar hcr))
  have hsplit : Lines.split isNewline ((l ++ [10]).map asciiChar) = ([l.map asciiChar], []) := by
    rw [List.map_append]
    exact Lines.split_record hplain rfl []
  rw [linesLossy, fromUtf8Lossy_ascii hascii, lines, Lines.records, Lines.unended, hsplit]
  show [stripCr (l.map asciiChar)] = _
  rw [stripCr, if_neg hlast]

/-- **Plain lines** of ASCII are read as they are. -/
theorem linesLossy_lines {ls : List Bytes} (h : ∀ l ∈ ls, PlainLine l) :
    linesLossy (ls.flatMap fun l => l ++ [10]) = ls.map fun l => l.map asciiChar := by
  induction ls with
  | nil => rfl
  | cons l ls ih =>
    obtain ⟨hl, hls⟩ := List.forall_mem_cons.mp h
    rw [List.flatMap_cons, linesLossy_append (Lines.closed_snoc rfl), linesLossy_line hl, ih hls]
    rfl

end Text

end Foundation
