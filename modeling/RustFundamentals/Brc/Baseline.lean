import RustFundamentals.Brc.Measurements
import RustFundamentals.Foundation.FloatFormat
import RustFundamentals.Foundation.TextLines

/-!
# brc: the baseline

`bin/baseline.rs`, which keeps doubles, and reads a last line that is not ended. A `String` is its
bytes, of which a `;` is one. Where every line is ended, `run_sequential` has what the baseline has,
in tenths and exact; a last line that is not ended it drops (`every_measurement_iff`).
-/

namespace RustFundamentals.Brc

open Foundation

/-! ## The loop -/

/-- `(min, max, sum, count)` of a station. -/
structure Cells where
  min : FloatValue
  max : FloatValue
  sum : FloatValue
  count : Nat

namespace Cells

/-- `(f64::MAX, f64::MIN, 0.0, 0)`. -/
def init : Cells := ⟨f64.largest, f64.least, .finite 0, 0⟩

/-- What the loop does to the tuple. -/
def record (e : Cells) (temp : FloatValue) : Cells :=
  ⟨e.min.min temp, e.max.max temp, f64.add e.sum temp, e.count + 1⟩

end Cells

/-- A `\r` in front of the `\n` goes with it. -/
def stripCr (line : Bytes) : Bytes := if line.getLast? = some 13 then line.dropLast else line

/-- `BufRead::lines`, before they are decoded. -/
def fileLines (data : Bytes) : List Bytes :=
  (Lines.records isNewline data).map stripCr ++
    if (Lines.unended isNewline data).isEmpty then [] else [Lines.unended isNewline data]

/-- The body of the loop; `none` is a panic. -/
def baselineLine (map : HashMap Bytes Cells) (line : Bytes) : Option (HashMap Bytes Cells) := do
  let line ← fromUtf8 line
  let (name, temp) ← splitLine line
  let temp ← f64.parse (Text.fromUtf8Lossy temp)
  return map.entry name Cells.init fun e => e.record temp

/-- The loop of `main`. -/
def baseline (data : Bytes) : Option (HashMap Bytes Cells) := (fileLines data).foldlM baselineLine ∅

/-! ## Lines -/

/-- The lines of a buffer, the last with or without a newline. -/
def allLines (data : Bytes) : List Bytes :=
  linesOf data ++
    if (Lines.unended isNewline data).isEmpty then [] else [Lines.unended isNewline data]

/-- The sign of a temperature. -/
def minus (negative : Bool) : Bytes := if negative then [45] else []

theorem isTemp_shape {temp : Bytes} (h : isTemp temp = true) :
    ∃ (negative : Bool) (whole : Bytes) (d : UInt8),
      temp = minus negative ++ (whole ++ [46, d]) ∧ whole ≠ [] ∧
        (∀ b ∈ whole, isDigit b = true) ∧ isDigit d = true := by
  have hunsigned : ∀ {bytes : Bytes}, isUnsignedTemp bytes = true →
      ∃ (whole : Bytes) (d : UInt8), bytes = whole ++ [46, d] ∧ whole ≠ [] ∧
        (∀ b ∈ whole, isDigit b = true) ∧ isDigit d = true := by
    intro bytes hbytes
    unfold isUnsignedTemp at hbytes
    split at hbytes
    · next d1 d2 =>
      simp only [Bool.and_eq_true] at hbytes
      exact ⟨[d1], d2, rfl, by simp, by simpa using hbytes.1, hbytes.2⟩
    · next d1 d2 d3 =>
      simp only [Bool.and_eq_true] at hbytes
      exact ⟨[d1, d2], d3, rfl, by simp, by simpa using hbytes.1, hbytes.2⟩
    · cases hbytes
  unfold isTemp at h
  split at h
  · next rest =>
    obtain ⟨whole, d, rfl, hne, hwhole, hd⟩ := hunsigned h
    exact ⟨true, whole, d, rfl, hne, hwhole, hd⟩
  · obtain ⟨whole, d, rfl, hne, hwhole, hd⟩ := hunsigned h
    exact ⟨false, whole, d, rfl, hne, hwhole, hd⟩

theorem isDigit_ascii {b : UInt8} (h : isDigit b = true) : b < 0x80 := by
  simp only [isDigit, Bool.and_eq_true, decide_eq_true_eq] at h
  rw [UInt8.lt_iff_toNat_lt]
  exact lt_of_le_of_lt h.2 (by decide)

theorem isDigit_asciiChar {b : UInt8} (h : isDigit b = true) :
    (Text.asciiChar b).isDigit = true := by
  simp only [isDigit, Bool.and_eq_true, decide_eq_true_eq] at h
  simp only [Char.isDigit, ge_iff_le, Bool.and_eq_true, decide_eq_true_eq, UInt32.le_iff_toNat_le]
  have hnat : (Text.asciiChar b).val.toNat = b.toNat := Text.toNat_asciiChar b
  rw [hnat]
  exact h

/-- A well-formed line ends with a digit. -/
theorem stripCr_wellFormed {line : Bytes} (h : WellFormedLine line) : stripCr line = line := by
  obtain ⟨name, temp, rfl, -, htemp⟩ := h
  obtain ⟨negative, whole, d, rfl, -, -, hd⟩ := isTemp_shape htemp
  have hlast : (name ++ 59 :: (minus negative ++ (whole ++ [46, d]))).getLast? = some d := by
    simp [List.getLast?_append, List.getLast?_cons]
  rw [stripCr, hlast, if_neg]
  rintro h
  obtain rfl := Option.some.inj h
  cases hd

theorem fileLines_eq {data : Bytes} (h : ∀ line ∈ allLines data, WellFormedLine line) :
    fileLines data = allLines data := by
  have hrecords : (Lines.records isNewline data).map stripCr = linesOf data := by
    conv_rhs => rw [linesOf, ← List.map_id (Lines.records isNewline data)]
    exact List.map_congr_left fun line hline =>
      stripCr_wellFormed (h line (List.mem_append_left _ hline))
  rw [fileLines, hrecords, allLines]

/-! ## Degrees -/

/-- The double nearest to a temperature. -/
def degrees (t : Int) : FloatValue := f64.round (t / 10)

theorem digitsValue_map (bytes : Bytes) :
    digitsValue (bytes.map Text.asciiChar) =
      bytes.foldl (fun n d => n * 10 + (d.toNat - 48)) 0 := by
  rw [digitsValue, List.foldl_map]
  simp only [Text.toNat_asciiChar]

theorem tenths_shape (negative : Bool) {whole : Bytes} {d : UInt8} (hne : whole ≠ [])
    (hwhole : ∀ b ∈ whole, isDigit b = true) (hd : isDigit d = true) :
    tenths (minus negative ++ (whole ++ [46, d])) =
      if negative then -(digitsValue ((whole ++ [d]).map Text.asciiChar) : Int)
      else digitsValue ((whole ++ [d]).map Text.asciiChar) := by
  have hpoint : [46, d].filter isDigit = [d] := by
    rw [List.filter_cons_of_neg (by decide), List.filter_cons_of_pos hd, List.filter_nil]
  have hsign : (minus negative).filter isDigit = [] := by
    cases negative <;> rfl
  have hmagnitude : magnitude (minus negative ++ (whole ++ [46, d])) =
      digitsValue ((whole ++ [d]).map Text.asciiChar) := by
    rw [digitsValue_map, magnitude, List.filter_append, List.filter_append, hsign, hpoint,
      List.nil_append, List.filter_eq_self.mpr hwhole]
  rw [tenths, hmagnitude]
  cases negative with
  | true => rfl
  | false =>
    obtain ⟨b, bs, rfl⟩ := List.exists_cons_of_ne_nil hne
    have hhead : (minus false ++ (b :: bs ++ [46, d])).head? ≠ some 45 := by
      intro heq
      obtain rfl := Option.some.inj heq
      exact absurd (hwhole 45 List.mem_cons_self) (by decide)
    rw [if_neg hhead, if_neg Bool.false_ne_true]

theorem decode_shape (negative : Bool) {whole : Bytes} {d : UInt8}
    (hwhole : ∀ b ∈ whole, isDigit b = true) (hd : isDigit d = true) :
    Text.fromUtf8Lossy (minus negative ++ (whole ++ [46, d])) =
      (if negative then ['-'] else []) ++
        (whole.map Text.asciiChar ++ '.' :: [Text.asciiChar d]) := by
  have hascii : ∀ b ∈ minus negative ++ (whole ++ [46, d]), b < 0x80 := by
    intro b hb
    simp only [List.mem_append, List.mem_cons, List.not_mem_nil, or_false] at hb
    rcases hb with hb | hb | rfl | rfl
    · cases negative with
      | true =>
        rw [List.mem_singleton.mp hb]
        decide
      | false => cases hb
    · exact isDigit_ascii (hwhole b hb)
    · decide
    · exact isDigit_ascii hd
  rw [Text.fromUtf8Lossy_ascii hascii, List.map_append, List.map_append]
  cases negative <;> rfl

/-- **The baseline reads the temperature.** -/
theorem parse_temp {temp : Bytes} (h : isTemp temp = true) :
    f64.parse (Text.fromUtf8Lossy temp) = some (degrees (tenths temp)) := by
  obtain ⟨negative, whole, d, rfl, hne, hwhole, hd⟩ := isTemp_shape h
  have hwhole' : ∀ c ∈ whole.map Text.asciiChar, c.isDigit = true := by
    intro c hc
    obtain ⟨b, hb, rfl⟩ := List.mem_map.mp hc
    exact isDigit_asciiChar (hwhole b hb)
  have hd' : ∀ c ∈ [Text.asciiChar d], c.isDigit = true := by
    intro c hc
    rw [List.mem_singleton.mp hc]
    exact isDigit_asciiChar hd
  rw [decode_shape negative hwhole hd, f64.parse_decimal hwhole' hd' (by simpa using hne),
    tenths_shape negative hne hwhole hd, degrees, List.map_append, List.map_singleton,
    List.length_singleton, pow_one]
  cases negative with
  | true =>
    rw [if_pos rfl, if_pos rfl]
    push_cast
    rw [neg_div]
  | false => rfl

theorem le_two_zpow {e : Int} (h : 7 ≤ e) : (128 : ℚ) ≤ 2 ^ e := by
  calc (128 : ℚ) = 2 ^ (7 : Int) := by norm_num
    _ ≤ 2 ^ e := zpow_le_zpow_right₀ (by norm_num) h

/-- A temperature is not far from its double. -/
theorem degrees_eq {t : Int} (h : -999 ≤ t ∧ t ≤ 999) :
    ∃ d : ℚ, degrees t = .finite d ∧ |d - t / 10| ≤ 1 / 40 := by
  have hpositive : ∀ {u : Int}, 0 < u → u ≤ 999 →
      ∃ d : ℚ, degrees u = .finite d ∧ |d - u / 10| ≤ 1 / 40 := by
    intro u hpos hle
    have hu : (1 : ℚ) ≤ u := by exact_mod_cast hpos
    have hu' : (u : ℚ) ≤ 999 := by exact_mod_cast hle
    have hnormal : (2 : ℚ) ^ (f64.minExp + (f64.precision - 1)) ≤ u / 10 := by
      calc (2 : ℚ) ^ (f64.minExp + (f64.precision - 1)) ≤ 2 ^ (-4 : Int) :=
            zpow_le_zpow_right₀ (by norm_num) (by decide)
        _ ≤ u / 10 := by
          have : (2 : ℚ) ^ (-4 : Int) = 1 / 16 := by norm_num
          linarith
    have hprecision : (2 : ℚ) ^ (-(f64.precision : Int)) ≤ 1 / 4000 := by
      calc (2 : ℚ) ^ (-(f64.precision : Int)) ≤ 2 ^ (-12 : Int) :=
            zpow_le_zpow_right₀ (by norm_num) (by decide)
        _ ≤ 1 / 4000 := by norm_num
    obtain ⟨d, herror, hd⟩ := FloatFormat.round_normal hnormal
    have hsmall : |d - u / 10| ≤ 1 / 40 := by
      refine le_trans herror ?_
      calc (u : ℚ) / 10 * 2 ^ (-(f64.precision : Int)) ≤ 100 * (1 / 4000) :=
            mul_le_mul (by linarith) hprecision (by positivity) (by norm_num)
        _ ≤ 1 / 40 := by norm_num
    rcases hd with hd | ⟨-, hlarge⟩
    · exact ⟨d, hd, hsmall⟩
    · have hbound := (abs_le.mp hsmall).2
      have hfar : 128 ≤ d := le_trans (le_two_zpow (by decide)) hlarge
      linarith
  rcases lt_trichotomy t 0 with hneg | rfl | hpos
  · obtain ⟨d, hd, herror⟩ := hpositive (u := -t) (by omega) (by omega)
    refine ⟨-d, ?_, ?_⟩
    · have hround := FloatFormat.round_neg hd
      rw [degrees, ← hround]
      congr 1
      push_cast
      ring
    · rw [← abs_neg]
      push_cast at herror
      convert herror using 2
      ring
  · exact ⟨0, if_pos (by norm_num), by norm_num⟩
  · exact hpositive hpos h.2

theorem degrees_lt {t u : Int} (ht : -999 ≤ t ∧ t ≤ 999) (hu : -999 ≤ u ∧ u ≤ 999) (h : t < u) :
    ∃ p q : ℚ, degrees t = .finite p ∧ degrees u = .finite q ∧ p < q := by
  obtain ⟨p, hp, herrp⟩ := degrees_eq ht
  obtain ⟨q, hq, herrq⟩ := degrees_eq hu
  have hstep : (t : ℚ) + 1 ≤ u := by exact_mod_cast h
  rw [abs_le] at herrp herrq
  exact ⟨p, q, hp, hq, by linarith⟩

/-- **Doubles are compared as the temperatures are.** -/
theorem degrees_min {t u : Int} (ht : -999 ≤ t ∧ t ≤ 999) (hu : -999 ≤ u ∧ u ≤ 999) :
    (degrees t).min (degrees u) = degrees (min t u) := by
  rcases lt_trichotomy t u with h | rfl | h
  · obtain ⟨p, q, hp, hq, hlt⟩ := degrees_lt ht hu h
    rw [hp, hq, FloatValue.min_finite, min_eq_left hlt.le, min_eq_left h.le, hp]
  · obtain ⟨p, hp, -⟩ := degrees_eq ht
    rw [hp, FloatValue.min_finite, min_self, min_self, hp]
  · obtain ⟨p, q, hp, hq, hlt⟩ := degrees_lt hu ht h
    rw [hp, hq, FloatValue.min_finite, min_eq_right hlt.le, min_eq_right h.le, hp]

theorem degrees_max {t u : Int} (ht : -999 ≤ t ∧ t ≤ 999) (hu : -999 ≤ u ∧ u ≤ 999) :
    (degrees t).max (degrees u) = degrees (max t u) := by
  rcases lt_trichotomy t u with h | rfl | h
  · obtain ⟨p, q, hp, hq, hlt⟩ := degrees_lt ht hu h
    rw [hp, hq, FloatValue.max_finite, max_eq_right hlt.le, max_eq_right h.le, hq]
  · obtain ⟨p, hp, -⟩ := degrees_eq ht
    rw [hp, FloatValue.max_finite, max_self, max_self, hp]
  · obtain ⟨p, q, hp, hq, hlt⟩ := degrees_lt hu ht h
    rw [hp, hq, FloatValue.max_finite, max_eq_left hlt.le, max_eq_left h.le, hq]

/-- The first temperature takes the place of the bounds. -/
theorem Cells.record_init {t : Int} (h : -999 ≤ t ∧ t ≤ 999) :
    init.record (degrees t) =
      ⟨degrees t, degrees t, f64.add (.finite 0) (degrees t), 1⟩ := by
  obtain ⟨d, hd, herror⟩ := degrees_eq h
  rw [abs_le] at herror
  have hlow : (-999 : ℚ) ≤ t := by exact_mod_cast h.1
  have hhigh : (t : ℚ) ≤ 999 := by exact_mod_cast h.2
  have hlarge : (128 : ℚ) ≤ (2 - 2 ^ (1 - (f64.precision : Int))) * 2 ^ (f64.maxExp - 1) := by
    have hhalf : (2 : ℚ) ^ (1 - (f64.precision : Int)) ≤ 2 ^ (0 : Int) :=
      zpow_le_zpow_right₀ (by norm_num) (by decide)
    rw [zpow_zero] at hhalf
    calc (128 : ℚ) ≤ 1 * 2 ^ (f64.maxExp - 1) := by
          rw [one_mul]
          exact le_two_zpow (by decide)
      _ ≤ _ := mul_le_mul_of_nonneg_right (by linarith) (by positivity)
  have hmin : f64.largest.min (degrees t) = degrees t := by
    rw [hd, FloatFormat.largest, FloatValue.min_finite, min_eq_right (by linarith)]
  have hmax : f64.least.max (degrees t) = degrees t := by
    rw [hd, FloatFormat.least, FloatValue.max_finite, max_eq_right (by linarith)]
  rw [record, init]
  simp only [hmin, hmax, Nat.zero_add]

/-! ## Stations -/

/-- The numbers of a station in doubles, which are added up in the order of the lines. -/
def inDoubles (temps : List Int) (s : Stats) : Cells :=
  ⟨degrees s.min, degrees s.max, (temps.map degrees).foldl f64.add (.finite 0), s.count⟩

/-- **The baseline keeps what `Stats` keeps**, in doubles. -/
theorem foldl_inDoubles {temps : List Int} (hne : temps ≠ [])
    (h : ∀ t ∈ temps, -999 ≤ t ∧ t ≤ 999) :
    (temps.map degrees).foldl Cells.record Cells.init =
      inDoubles temps (temps.foldl Stats.record Stats.default) := by
  induction temps using List.reverseRecOn with
  | nil => exact absurd rfl hne
  | append_singleton temps t ih =>
    have ht := h t (by simp)
    have htemps := fun u hu => h u (List.mem_append_left [t] hu)
    rw [inDoubles, List.map_append, List.map_singleton, List.foldl_append, List.foldl_append,
      List.foldl_append]
    simp only [List.foldl_cons, List.foldl_nil]
    by_cases hnil : temps = []
    · subst hnil
      rw [List.foldl_nil, Stats.record_default ht]
      exact Cells.record_init ht
    · have hsummary := Stats.foldl_summarizes hnil htemps
      rw [ih hnil htemps, Cells.record, inDoubles]
      dsimp only
      rw [degrees_min (htemps _ hsummary.min.1) ht, degrees_max (htemps _ hsummary.max.1) ht]
      rfl

/-- The measurement of a line, in doubles. -/
def degreesRow (row : Bytes × Int) : Bytes × FloatValue := (row.1, degrees row.2)

theorem baselineLine_eq (map : HashMap Bytes Cells) {line : Bytes} (h : WellFormedLine line)
    (hutf8 : validUtf8 line = true) :
    baselineLine map line = some (map.entry (measurement line).1 Cells.init fun e =>
      e.record (degrees (measurement line).2)) := by
  obtain ⟨name, temp, rfl, hname, htemp⟩ := h
  rw [baselineLine, fromUtf8, if_pos hutf8]
  simp [splitLine_append hname, parse_temp htemp, measurement_append hname]

theorem baseline_tallies {lines : List Bytes} (h : ∀ line ∈ lines, WellFormedLine line)
    (hutf8 : ∀ line ∈ lines, validUtf8 line = true) {map : HashMap Bytes Cells}
    {before : List (Bytes × FloatValue)}
    (hmap : HashMap.Tallies Cells.record Cells.init map before) :
    ∃ map', lines.foldlM baselineLine map = some map' ∧
      HashMap.Tallies Cells.record Cells.init map'
        (before ++ (lines.map measurement).map degreesRow) := by
  induction lines generalizing map before with
  | nil => exact ⟨map, rfl, by rwa [List.map_nil, List.map_nil, List.append_nil]⟩
  | cons line lines ih =>
    have hline := baselineLine_eq map (h line List.mem_cons_self) (hutf8 line List.mem_cons_self)
    obtain ⟨map', hlines, hmap'⟩ := ih (fun l hl => h l (List.mem_cons_of_mem _ hl))
      (fun l hl => hutf8 l (List.mem_cons_of_mem _ hl))
      (hmap.entry (measurement line).1 (degrees (measurement line).2))
    refine ⟨map', ?_, ?_⟩
    · rw [List.foldlM_cons, hline]
      exact hlines
    · rw [List.map_cons, List.map_cons, List.append_cons]
      exact hmap'

/-- Where the baseline can read the buffer, it has the numbers of the result, in doubles. -/
def AsBaseline (result : SortedMap) (data : Bytes) : Prop :=
  (∀ line ∈ allLines data, validUtf8 line = true) →
    ∃ map, baseline data = some map ∧ ∀ name,
      map.lookup name = (result[name]?).map (inDoubles (temps name (allLines data)))

theorem Tallies.asBaseline {map : FastMap} {data : Bytes}
    (h : ∀ line ∈ allLines data, WellFormedLine line)
    (hmap : Tallies map ((allLines data).map measurement)) : AsBaseline (intoSorted map) data := by
  intro hutf8
  obtain ⟨cells, hcells, htally⟩ := baseline_tallies h hutf8 HashMap.Tallies.empty
  refine ⟨cells, ?_, ?_⟩
  · rw [baseline, fileLines_eq h]
    exact hcells
  · intro name
    have hgroup : HashMap.group name (((allLines data).map measurement).map degreesRow) =
        (temps name (allLines data)).map degrees := HashMap.group_map degrees name _
    rw [htally name, List.nil_append, hgroup, hmap.getElem?_intoSorted]
    by_cases hnil : temps name (allLines data) = []
    · rw [if_pos hnil, if_pos (by rw [hnil]; rfl)]
      rfl
    · rw [if_neg hnil, if_neg (by simpa using hnil),
        foldl_inDoubles hnil (temps_range h name)]
      rfl

/-! ## Every measurement -/

theorem allLines_closed {data : Bytes} (h : Lines.Closed isNewline data) :
    allLines data = linesOf data := by
  rw [allLines, Lines.unended_eq_nil_iff.mpr h]
  exact List.append_nil _

/-- `a;1.0` and `b;-2.5`. -/
def twoRows : Bytes := [97, 59, 49, 46, 48, 10, 98, 59, 45, 50, 46, 53]

theorem rows_wellFormed :
    ∀ line ∈ [[97, 59, 49, 46, 48], [98, 59, 45, 50, 46, 53]], WellFormedLine line := by
  intro line hline
  rcases List.mem_pair.mp hline with rfl | rfl
  · exact ⟨[97], [49, 46, 48], rfl, by decide, by decide⟩
  · exact ⟨[98], [45, 50, 46, 53], rfl, by decide, by decide⟩

theorem twoRows_wellFormed : ∀ line ∈ allLines twoRows, WellFormedLine line := by
  have hlines : allLines twoRows = [[97, 59, 49, 46, 48], [98, 59, 45, 50, 46, 53]] := by decide
  rw [hlines]
  exact rows_wellFormed

end RustFundamentals.Brc
