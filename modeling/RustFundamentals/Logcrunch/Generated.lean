import Mathlib.Algebra.Order.BigOperators.Group.List
import RustFundamentals.Foundation.FixedPoint
import RustFundamentals.Logcrunch.ReportContents

/-!
# logcrunch: the generator

`examples/gen_log.rs`. Of the lines it draws, every mode counts the requests, with the fields drawn
and times to a tenth of a millisecond, and the rest as malformed (`generated_reported`). Standard
output is what is written to it when nothing fails; the arguments are those after the name of the
program.
-/

namespace RustFundamentals.Logcrunch

open Foundation

/-! ## The source -/

/-- `XorShift`. -/
abbrev XorShift := UInt64

namespace XorShift

/-- `next`, which returns the new state. -/
def next (rng : XorShift) : XorShift :=
  let x := rng
  let x := x ^^^ (x <<< 13)
  let x := x ^^^ (x >>> 7)
  x ^^^ (x <<< 17)

/-- `pick`. `none` is a panic. -/
def pick {α : Type} (rng : XorShift) (xs : List α) : Option (α × XorShift) :=
  (xs[rng.next.toNat % xs.length]?).map fun x => (x, rng.next)

end XorShift

/-- `ips`. -/
def ips : List Bytes :=
  [ascii "10.0.0.5", ascii "10.0.0.6", ascii "192.168.1.9", ascii "172.16.0.2", ascii "10.0.0.7"]

/-- `statuses`. -/
def statuses : List Nat := [200, 200, 200, 200, 301, 404, 500, 503]

/-- `methods`. -/
def methods : List Bytes :=
  [ascii "GET", ascii "GET", ascii "GET", ascii "POST", ascii "PUT", ascii "DELETE"]

/-- `paths`. -/
def paths : List Bytes :=
  [ascii "/", ascii "/api/users", ascii "/api/checkout", ascii "/favicon.ico",
    ascii "/static/app.js", ascii "/health", ascii "/api/search", ascii "/login"]

/-- What the body of the loop draws. The time is drawn in hundredths of a millisecond. -/
structure Draw where
  ip : Bytes
  status : Nat
  bytes : Nat
  hundredths : Nat
  method : Bytes
  path : Bytes
  malformed : Bool
  deriving DecidableEq, Repr

/-- `rt`. -/
def Draw.requestTime (d : Draw) : FloatValue := f32.div (f32.ofNat d.hundredths) (.finite 100)

/-- The draws of the body. -/
def draw (rng : XorShift) : Option (Draw × XorShift) := do
  let (ip, rng) ← rng.pick ips
  let (status, rng) ← rng.pick statuses
  let rng := rng.next
  let bytes := rng.toNat % 50000
  let rng := rng.next
  let hundredths := rng.toNat % 200000
  let (method, rng) ← rng.pick methods
  let (path, rng) ← rng.pick paths
  let rng := rng.next
  return (⟨ip, status, bytes, hundredths, method, path, rng.toNat % 1000 = 0⟩, rng)

/-- `writeln!`. -/
def Draw.line (d : Draw) : Bytes :=
  if d.malformed then ascii "garbage line not six fields\n"
  else d.ip ++ ascii " " ++ decimal d.status ++ ascii " " ++ decimal d.bytes ++ ascii " " ++
    oneDecimal d.requestTime ++ ascii " " ++ d.method ++ ascii " " ++ d.path ++ ascii "\n"

/-- The loop of `main`. -/
def writeDraws : Nat → XorShift → Option Bytes
  | 0, _ => some []
  | n + 1, rng => do
    let (d, rng) ← draw rng
    return d.line ++ (← writeDraws n rng)

/-- The number of lines. -/
def lineCount (args : List Bytes) : Nat := ((args[0]?).bind (parseUnsigned 64)).getD 1000000

/-- The seed. -/
def seed : XorShift := 0x9E3779B97F4A7C15

/-- `main` of `examples/gen_log.rs`, to standard output. -/
def genLog (args : List Bytes) : Option Bytes := writeDraws (lineCount args) seed

/-! ## What is drawn -/

/-- The fields are of the tables, and the numbers in their ranges. -/
structure Draw.Known (d : Draw) : Prop where
  ip : d.ip ∈ ips
  status : d.status ∈ statuses
  bytes : d.bytes < 50000
  hundredths : d.hundredths < 200000
  method : d.method ∈ methods
  path : d.path ∈ paths

theorem XorShift.pick_mem {α : Type} (rng : XorShift) (xs : List α) (hne : xs ≠ []) :
    ∃ x ∈ xs, rng.pick xs = some (x, rng.next) := by
  have hindex : rng.next.toNat % xs.length < xs.length :=
    Nat.mod_lt _ (List.length_pos_iff.mpr hne)
  refine ⟨_, List.getElem_mem hindex, ?_⟩
  rw [pick, List.getElem?_eq_getElem hindex]
  rfl

/-- **What is drawn is known**: no index is out of range. -/
theorem draw_known (rng : XorShift) : ∃ d rng', draw rng = some (d, rng') ∧ d.Known := by
  obtain ⟨ip, hip, hpickIp⟩ := rng.pick_mem ips (by decide)
  obtain ⟨status, hstatus, hpickStatus⟩ := rng.next.pick_mem statuses (by decide)
  obtain ⟨method, hmethod, hpickMethod⟩ := rng.next.next.next.next.pick_mem methods (by decide)
  obtain ⟨path, hpath, hpickPath⟩ := rng.next.next.next.next.next.pick_mem paths (by decide)
  have hdraw : draw rng = some (⟨ip, status, rng.next.next.next.toNat % 50000,
      rng.next.next.next.next.toNat % 200000, method, path,
      rng.next.next.next.next.next.next.next.toNat % 1000 = 0⟩,
      rng.next.next.next.next.next.next.next) := by
    rw [draw, hpickIp]
    simp [hpickStatus, hpickMethod, hpickPath]
  exact ⟨_, _, hdraw, hip, hstatus, Nat.mod_lt _ (by norm_num), Nat.mod_lt _ (by norm_num),
    hmethod, hpath⟩

/-! ## Times -/

/-- Rounding to a `f32` hardly moves a time. -/
theorem f32_round_time {q : ℚ} (hlo : q = 0 ∨ 1 / 100 ≤ q) (hhi : q ≤ 2001) :
    ∃ t, f32.round q = .finite t ∧ |t - q| ≤ 1 / 2 ^ 13 ∧ 0 ≤ t := by
  rcases hlo with rfl | hlo
  · refine ⟨0, ?_, by norm_num, le_rfl⟩
    rw [FloatFormat.round, if_pos rfl]
  · obtain ⟨t, hnear, hround⟩ := f32_round_near hlo (by linarith)
    have hsmall : q / 2 ^ 24 ≤ 1 / 2 ^ 13 := by
      rw [div_le_iff₀ (by norm_num)]
      linarith
    refine ⟨t, hround, hnear.trans hsmall, ?_⟩
    have hbelow := (abs_le.mp hnear).1
    linarith

/-- The drawn time, in milliseconds. -/
def Draw.time (d : Draw) : ℚ := d.hundredths / 100

theorem Draw.Known.requestTime {d : Draw} (h : d.Known) :
    ∃ t, d.requestTime = .finite t ∧ |t - d.time| ≤ 1 / 2 ^ 13 ∧ 0 ≤ t := by
  have hlt : |(d.hundredths : ℤ)| < 2 ^ f32.precision := by
    have := h.hundredths
    rw [abs_of_nonneg (Int.natCast_nonneg _)]
    show (d.hundredths : ℤ) < 2 ^ 24
    omega
  have hexact : f32.ofNat d.hundredths = .finite d.hundredths := by
    rw [FloatFormat.ofNat, ← Int.cast_natCast]
    exact FloatFormat.round_intCast (by decide) (by decide) hlt
  have htime : d.requestTime = f32.round d.time := by
    rw [Draw.requestTime, hexact]
    exact FloatFormat.div_finite _ (by norm_num)
  rw [htime]
  refine f32_round_time ?_ ?_
  · rcases Nat.eq_zero_or_pos d.hundredths with hzero | hpos
    · exact .inl (by rw [Draw.time, hzero]; norm_num)
    · refine .inr ?_
      have hone : (1 : ℚ) ≤ d.hundredths := by exact_mod_cast hpos
      rw [Draw.time]
      linarith
  · have hbound : (d.hundredths : ℚ) ≤ 200000 := by exact_mod_cast h.hundredths.le
    rw [Draw.time]
    linarith

/-- The tenths of a millisecond that are written. -/
def Draw.tenths (d : Draw) : Nat :=
  match d.requestTime with
  | .finite t => nearestTenths t
  | _ => 0

theorem Draw.Known.written {d : Draw} (h : d.Known) :
    oneDecimal d.requestTime = tenthsText false d.tenths ∧
      |(d.tenths : ℚ) / 10 - d.time| ≤ 1 / 20 + 1 / 2 ^ 13 := by
  obtain ⟨t, ht, hnear, hnonneg⟩ := h.requestTime
  have htenths : d.tenths = nearestTenths t := by rw [Draw.tenths, ht]
  have hrounded := abs_nearestTenths_sub_le t
  rw [abs_of_nonneg hnonneg] at hrounded
  rw [ht, htenths]
  refine ⟨?_, ?_⟩
  · show tenthsText (decide (t < 0)) _ = _
    rw [decide_eq_false (not_lt.mpr hnonneg)]
  · rw [abs_le] at hrounded hnear ⊢
    constructor <;> linarith

/-- What the time is read back as. -/
def Draw.readTime (d : Draw) : FloatValue := f32.round (d.tenths / 10)

/-- **A time is read back to a tenth of a millisecond.** -/
theorem Draw.Known.readTime {d : Draw} (h : d.Known) :
    ∃ t, d.readTime = .finite t ∧ |t - d.time| ≤ 1 / 20 + 1 / 2 ^ 12 := by
  obtain ⟨-, hwritten⟩ := h.written
  have hwritten' := abs_le.mp hwritten
  have hbound : (d.hundredths : ℚ) ≤ 200000 := by exact_mod_cast h.hundredths.le
  have hlo : (d.tenths : ℚ) / 10 = 0 ∨ 1 / 100 ≤ (d.tenths : ℚ) / 10 := by
    rcases Nat.eq_zero_or_pos d.tenths with hzero | hpos
    · exact .inl (by rw [hzero]; norm_num)
    · have hone : (1 : ℚ) ≤ d.tenths := by exact_mod_cast hpos
      exact .inr (by linarith)
  have hhi : (d.tenths : ℚ) / 10 ≤ 2001 := by
    have htime : d.time ≤ 2000 := by
      rw [Draw.time]
      linarith
    linarith [hwritten'.2]
  obtain ⟨t, ht, hnear, -⟩ := f32_round_time hlo hhi
  refine ⟨t, ht, ?_⟩
  rw [abs_le] at hnear ⊢
  constructor <;> linarith [hwritten'.1, hwritten'.2]

theorem tables_printable : (∀ w ∈ ips, Text.Printable w) ∧ (∀ w ∈ methods, Text.Printable w) ∧
    ∀ w ∈ paths, Text.Printable w := by
  decide +kernel

/-! ## Lines -/

/-- The fields that are written. -/
def Draw.words (d : Draw) : List Bytes :=
  [d.ip, decimal d.status, decimal d.bytes, tenthsText false d.tenths, d.method, d.path]

/-- The line without its end. -/
def Draw.content (d : Draw) : Bytes :=
  if d.malformed then ascii "garbage line not six fields" else [32].intercalate d.words

/-- What the line is read back as. -/
def Draw.entry (d : Draw) : LogEntry :=
  ⟨d.ip.map Text.asciiChar, d.status, d.bytes, d.readTime, d.method.map Text.asciiChar,
    d.path.map Text.asciiChar⟩

theorem parseUint_decimalText {bits n : Nat} (h : n < 2 ^ bits) (field : Text) :
    parseUint bits field (decimalText n) = .ok n := by
  have hle : (n : Int) ≤ 2 ^ bits - 1 := by
    have : (n : Int) < 2 ^ bits := by exact_mod_cast h
    omega
  rw [parseUint, parseInt_decimalText hle]
  rfl

namespace Draw.Known

variable {d : Draw} (h : d.Known)
include h

theorem words_printable : ∀ w ∈ d.words, Text.Printable w := by
  obtain ⟨hips, hmethods, hpaths⟩ := tables_printable
  simp only [Draw.words, List.forall_mem_cons]
  exact ⟨hips _ h.ip, printable_decimal _, printable_decimal _, printable_tenthsText _,
    hmethods _ h.method, hpaths _ h.path, by simp⟩

theorem line_eq : d.line = d.content ++ [10] := by
  rw [Draw.line, Draw.content]
  cases d.malformed with
  | true => rfl
  | false =>
    rw [if_neg Bool.false_ne_true, if_neg Bool.false_ne_true, h.written.1, Draw.words]
    simp only [List.intercalate_cons_cons, List.intercalate_singleton, List.append_assoc]
    rfl

theorem content_plain : Text.PlainLine d.content := by
  rw [Draw.content, Text.PlainLine]
  split
  · decide +kernel
  · exact Text.plainLine_printable h.words_printable

theorem content_ne_nil : d.content ≠ [] := by
  rw [Draw.content]
  split
  · decide
  · obtain ⟨b, bs, hip⟩ := List.exists_cons_of_ne_nil (h.words_printable d.ip List.mem_cons_self).1
    rw [Draw.words, List.intercalate_cons_cons, hip]
    exact List.cons_ne_nil _ _

/-- **A line is read back**, or refused for its five fields. -/
theorem parse : parseLine (d.content.map Text.asciiChar) =
    if d.malformed then .error (.wrongFieldCount 5) else .ok d.entry := by
  cases hmalformed : d.malformed with
  | true =>
    rw [Draw.content, hmalformed]
    rfl
  | false =>
    have hstatus : d.status < 2 ^ 16 := by
      have hall : ∀ s ∈ statuses, s < 2 ^ 16 := by decide
      exact hall _ h.status
    have hbytes : d.bytes < 2 ^ 64 := lt_trans h.bytes (by norm_num)
    have hwords := Text.splitWhitespace_printable h.words_printable
    rw [Draw.content, hmalformed, if_neg Bool.false_ne_true, if_neg Bool.false_ne_true, parseLine,
      hwords, Draw.words]
    simp only [List.map_cons, List.map_nil, decimal_text, parseUint_decimalText hstatus,
      parseUint_decimalText hbytes, parse_tenthsText]
    rfl

end Draw.Known

/-! ## The file -/

/-- The draws of the loop. -/
def draws : Nat → XorShift → Option (List Draw)
  | 0, _ => some []
  | n + 1, rng => do
    let (d, rng) ← draw rng
    return d :: (← draws n rng)

/-- **Every round draws**, and its line is written. -/
theorem exists_draws (n : Nat) (rng : XorShift) : ∃ ds, draws n rng = some ds ∧ ds.length = n ∧
    (∀ d ∈ ds, d.Known) ∧ writeDraws n rng = some (ds.flatMap Draw.line) := by
  induction n generalizing rng with
  | zero => exact ⟨[], rfl, rfl, by simp, rfl⟩
  | succ n ih =>
    obtain ⟨d, rng', hdraw, hknown⟩ := draw_known rng
    obtain ⟨ds, hds, hlength, hall, hwritten⟩ := ih rng'
    refine ⟨d :: ds, ?_, by rw [List.length_cons, hlength], List.forall_mem_cons.mpr ⟨hknown, hall⟩,
      ?_⟩
    · rw [draws, hdraw, Option.bind_eq_bind, Option.bind_some]
      dsimp only
      rw [hds]
      rfl
    · rw [writeDraws, hdraw, Option.bind_eq_bind, Option.bind_some]
      dsimp only
      rw [hwritten]
      rfl

section Drawn

variable {ds : List Draw} (h : ∀ d ∈ ds, d.Known)
include h

theorem linesOf_drawn :
    linesOf (ds.flatMap Draw.line) = ds.map fun d => d.content.map Text.asciiChar := by
  have hlines : ds.flatMap Draw.line = (ds.map Draw.content).flatMap fun l => l ++ [10] := by
    rw [List.flatMap_map]
    exact List.flatMap_congr fun d hd => (h d hd).line_eq
  have hplain : ∀ l ∈ ds.map Draw.content, Text.PlainLine l := by
    intro l hl
    obtain ⟨d, hd, rfl⟩ := List.mem_map.mp hl
    exact (h d hd).content_plain
  rw [linesOf, hlines, Text.linesLossy_lines hplain, List.map_map]
  refine List.filter_eq_self.mpr fun l hl => ?_
  obtain ⟨d, hd, rfl⟩ := List.mem_map.mp hl
  simpa using (h d hd).content_ne_nil

theorem entriesOf_drawn : entriesOf (linesOf (ds.flatMap Draw.line)) =
    (ds.filter fun d => !d.malformed).map Draw.entry := by
  rw [linesOf_drawn h, entriesOf]
  induction ds with
  | nil => rfl
  | cons d ds ih =>
    obtain ⟨hd, hds⟩ := List.forall_mem_cons.mp h
    rw [List.map_cons, List.filterMap_cons, hd.parse, ih hds, List.filter_cons]
    cases d.malformed <;> rfl

theorem malformedOf_drawn :
    malformedOf (linesOf (ds.flatMap Draw.line)) = ds.countP Draw.malformed := by
  rw [linesOf_drawn h, malformedOf, List.countP_map]
  refine List.countP_congr fun d hd => ?_
  rw [Function.comp_apply, (h d hd).parse]
  cases d.malformed <;> simp [Except.toOption]

theorem bytesOf_drawn : bytesOf (linesOf (ds.flatMap Draw.line)) ≤ ds.length * 50000 := by
  rw [bytesOf, entriesOf_drawn h, List.map_map]
  refine (List.sum_le_card_nsmul _ 50000 ?_).trans ?_
  · intro n hn
    obtain ⟨d, hd, rfl⟩ := List.mem_map.mp hn
    exact (h d (List.mem_of_mem_filter hd)).bytes.le
  · rw [List.length_map]
    exact Nat.mul_le_mul_right _ (List.length_filter_le _ _)

theorem noNan_drawn : NoNan (ds.flatMap Draw.line) := by
  intro e he
  rw [entriesOf_drawn h] at he
  obtain ⟨d, hd, rfl⟩ := List.mem_map.mp he
  obtain ⟨t, ht, -⟩ := (h d (List.mem_of_mem_filter hd)).readTime
  show d.readTime ≠ .nan
  rw [ht]
  exact FloatValue.noConfusion

end Drawn

/-- **What is generated is reported** in every mode. Of the lines drawn, every report counts the
well-formed ones with the fields drawn, times to a tenth of a millisecond, and the others as
malformed. -/
theorem generated_reported (ov : Overflow) (args : List Bytes)
    (hcount : lineCount args * 50000 < 2 ^ 64) :
    ∃ ds data, draws (lineCount args) seed = some ds ∧ ds.length = lineCount args ∧
      genLog args = some data ∧
      entriesOf (linesOf data) = (ds.filter fun d => !d.malformed).map Draw.entry ∧
      (∀ d ∈ ds, d.Known ∧
        ∃ t, d.readTime = .finite t ∧ |t - d.time| ≤ 1 / 20 + 1 / 2 ^ 12) ∧
      ∀ stats, Analysis ov data stats → ∀ topK, ∃ report, Reports stats topK report ∧
        ReportTrue (linesOf data) topK report ∧ report.malformed = ds.countP Draw.malformed := by
  obtain ⟨ds, hds, hlength, hknown, hwritten⟩ := exists_draws (lineCount args) seed
  have hfits : bytesOf (linesOf (ds.flatMap Draw.line)) < 2 ^ 64 := by
    have hbytes := bytesOf_drawn hknown
    rw [hlength] at hbytes
    exact hbytes.trans_lt hcount
  refine ⟨ds, ds.flatMap Draw.line, hds, hlength, hwritten, entriesOf_drawn hknown,
    fun d hd => ⟨hknown d hd, (hknown d hd).readTime⟩, fun stats hstats topK => ?_⟩
  obtain ⟨htrue, hmade⟩ := report_true hstats hfits topK
  obtain ⟨report, hreport⟩ := hmade (noNan_drawn hknown)
  have hcounts := htrue report hreport
  refine ⟨report, hreport, hcounts, ?_⟩
  -- the lines that are not requests
  have hlines := entries_add_malformed (linesOf (ds.flatMap Draw.line))
  have hevery := hcounts.everyLine
  rw [hcounts.requests] at hevery
  rw [← malformedOf_drawn hknown]
  omega

/-- The first three lines. -/
def threeLines : Bytes :=
  ascii ("10.0.0.7 500 35030 622.6 GET /api/users\n" ++
    "10.0.0.5 200 49982 1619.4 DELETE /health\n172.16.0.2 503 33160 1806.0 GET /api/users\n")

theorem genLog_three : genLog [ascii "3"] = some threeLines := by decide +kernel

theorem threeLines_reported :
    ∃ report, Reports (analyzeParallel .checked threeLines 4) 10 report ∧
      ReportTrue (linesOf threeLines) 10 report := by
  obtain ⟨ds, data, -, -, hdata, -, -, hreports⟩ :=
    generated_reported .checked [ascii "3"] (by decide)
  have hlines : data = threeLines := Option.some.inj (hdata.symm.trans genLog_three)
  rw [hlines] at hreports
  obtain ⟨report, hreport, htrue, -⟩ :=
    hreports (analyzeParallel .checked threeLines 4) (.parallel (by decide +kernel)) 10
  exact ⟨report, hreport, htrue⟩

end RustFundamentals.Logcrunch
