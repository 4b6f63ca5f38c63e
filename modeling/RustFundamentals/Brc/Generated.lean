import RustFundamentals.Brc.Report

/-!
# brc: the generator

`bin/gen.rs`. The rows it draws are temperatures of known stations, in the fixed format: both
drivers and the baseline count every one of them (`generated_counted`). A mean is written here in
tenths, and a file is what is written to it when nothing fails.
-/

namespace RustFundamentals.Brc

open Foundation

/-! ## Random numbers -/

/-- `STATIONS`. -/
def stations : List (Bytes × Int) :=
  [(ascii "Abha", 180), (ascii "Abidjan", 260), (ascii "Accra", 264), (ascii "Addis Ababa", 160),
    (ascii "Adelaide", 173), (ascii "Algiers", 182), (ascii "Amsterdam", 102),
    (ascii "Anchorage", 28), (ascii "Ankara", 120), (ascii "Athens", 192), (ascii "Auckland", 152),
    (ascii "Baghdad", 228), (ascii "Bangkok", 286), (ascii "Barcelona", 182),
    (ascii "Beijing", 129), (ascii "Berlin", 103), (ascii "Bogot" ++ [0xC3, 0xA1], 154),
    (ascii "Boston", 109), (ascii "Brussels", 105), (ascii "Bucharest", 108),
    (ascii "Budapest", 113), (ascii "Buenos Aires", 173), (ascii "Bulawayo", 189),
    (ascii "Cairo", 214), (ascii "Calgary", 44), (ascii "Cape Town", 162), (ascii "Caracas", 275),
    (ascii "Chicago", 98), (ascii "Copenhagen", 91), (ascii "Dakar", 240), (ascii "Dallas", 190),
    (ascii "Dar es Salaam", 258), (ascii "Delhi", 250), (ascii "Denver", 104),
    (ascii "Dhaka", 259), (ascii "Dubai", 269), (ascii "Dublin", 98), (ascii "Hamburg", 97),
    (ascii "Hanoi", 236), (ascii "Havana", 252), (ascii "Helsinki", 59),
    (ascii "Ho Chi Minh City", 274), (ascii "Hong Kong", 233), (ascii "Istanbul", 139),
    (ascii "Jakarta", 267), (ascii "Johannesburg", 155), (ascii "Karachi", 260),
    (ascii "Kolkata", 267), (ascii "Lagos", 268), (ascii "Lima", 182), (ascii "Lisbon", 175),
    (ascii "London", 113), (ascii "Los Angeles", 186), (ascii "Madrid", 150),
    (ascii "Manila", 284), (ascii "Mexico City", 175), (ascii "Miami", 249),
    (ascii "Montreal", 68), (ascii "Moscow", 58), (ascii "Mumbai", 271), (ascii "Nairobi", 178),
    (ascii "New York City", 129), (ascii "Oslo", 57), (ascii "Palembang", 273),
    (ascii "Paris", 123), (ascii "Perth", 187), (ascii "Reykjav" ++ [0xC3, 0xAD] ++ ascii "k", 43),
    (ascii "Rome", 152), (ascii "Saint Petersburg", 58), (ascii "Santiago", 140),
    (ascii "S" ++ [0xC3, 0xA3] ++ ascii "o Paulo", 190), (ascii "Seoul", 125),
    (ascii "Shanghai", 167), (ascii "Singapore", 270), (ascii "St. John\x27s", 50),
    (ascii "Stockholm", 66), (ascii "Sydney", 177), (ascii "Tokyo", 154), (ascii "Toronto", 94),
    (ascii "Vancouver", 104), (ascii "Vienna", 104), (ascii "Warsaw", 85),
    (ascii "Z" ++ [0xC3, 0xBC] ++ ascii "rich", 93)]

/-- `Rng`. -/
abbrev Rng := UInt64

namespace Rng

/-- `next_u64`. -/
def nextU64 (rng : Rng) : UInt64 × Rng :=
  let x := rng
  let x := x ^^^ (x >>> 12)
  let x := x ^^^ (x <<< 25)
  let x := x ^^^ (x >>> 27)
  (x * 0x2545f4914f6cdd1d, x)

/-- `next_f64`. -/
def nextF64 (rng : Rng) : FloatValue × Rng :=
  let (v, rng) := rng.nextU64
  (f64.div (f64.ofNat (v >>> 11).toNat) (f64.ofNat (2 ^ 53)), rng)

/-- The sum of `k` of them and `s`. -/
def sumF64 : Nat → FloatValue → Rng → FloatValue × Rng
  | 0, s, rng => (s, rng)
  | k + 1, s, rng =>
    let (v, rng) := rng.nextF64
    sumF64 k (f64.add s v) rng

/-- `next_noise`. -/
def nextNoise (spread : FloatValue) (rng : Rng) : FloatValue × Rng :=
  let (s, rng) := sumF64 6 (.finite 0) rng
  (f64.mul (f64.add s (.finite (-3))) spread, rng)

end Rng

/-! ## The file -/

/-- The temperature of a row, in tenths. -/
def drawTenths (mean noise : FloatValue) : Int :=
  let temp := f64.add mean noise
  let temp := temp.clamp (degrees (-999)) (degrees 999)
  (f64.mul temp (.finite 10)).round.toI64

/-- What the body of the loop draws: a station, and tenths of a degree. `none` is a panic. -/
def drawRow (rng : Rng) : Option ((Bytes × Int) × Rng) := do
  let drawn := rng.nextU64
  let (name, mean) ← stations[drawn.1.toNat % stations.length]?
  let noise := drawn.2.nextNoise (.finite 7)
  return ((name, drawTenths (degrees mean) noise.1), noise.2)

/-- The line of a row. -/
def writeRow (row : Bytes × Int) : Bytes :=
  row.1 ++ [59] ++ minus (row.2 < 0) ++ decimal (row.2.natAbs / 10) ++ [46] ++
    decimal (row.2.natAbs % 10) ++ [10]

/-- The loop of `main`. -/
def writeRows : Nat → Rng → Option Bytes
  | 0, _ => some []
  | k + 1, rng => do
    let (row, rng) ← drawRow rng
    return writeRow row ++ (← writeRows k rng)

/-- The first argument. -/
def rowCount (args : List Bytes) : Nat := ((args[0]?).bind (parseUnsigned 64)).getD 1000000

/-- The seed of `main`. -/
def seed : Rng := 0x123456789abcdef0

/-- `main` of `bin/gen.rs`: the path of the file, and its contents. -/
def gen (args : List Bytes) : Option (Bytes × Bytes) := do
  let path := (args[1]?).getD (ascii "measurements.txt")
  return (path, ← writeRows (rowCount args) seed)

/-- What `k` draws give, and the sums they make with `s`. -/
def Rng.sumDoubles : Nat → FloatValue → Rng → List FloatValue
  | 0, _, _ => []
  | k + 1, s, rng =>
    let (v, rng) := rng.nextF64
    v :: f64.add s v :: sumDoubles k (f64.add s v) rng

/-- What the operations on doubles give when a row of a station with this mean is drawn. -/
def rowDoubles (mean : FloatValue) (rng : Rng) : List FloatValue :=
  let (noise, _) := rng.nextNoise (.finite 7)
  rng.sumDoubles 6 (.finite 0) ++
    [f64.add (rng.sumF64 6 (.finite 0)).1 (.finite (-3)), noise, f64.add mean noise,
      f64.mul (f64.add mean noise) (.finite 10)]

/-- A row is drawn with finite doubles only, and the clamp leaves the temperature as it is. -/
structure Undisturbed (mean : FloatValue) (rng : Rng) : Prop where
  finite : ∀ v ∈ rowDoubles mean rng, ∃ q, v = .finite q
  unclamped : (f64.add mean (rng.nextNoise (.finite 7)).1).clamp (degrees (-999)) (degrees 999) =
    f64.add mean (rng.nextNoise (.finite 7)).1

example : gen [ascii "2"] =
    some (ascii "measurements.txt", ascii "Hong Kong;12.2\nMexico City;13.4\n") := by
  decide +kernel

/-! ## Ranges -/

open FloatFormat

theorem within_add {m n : ℕ} {v w : FloatValue} (hv : Within m v) (hw : Within n w)
    (hfits : m + n < 2 ^ 53) : Within (m + n) (f64.add v w) :=
  hv.add (by decide) (by decide) (by decide) hw hfits

theorem within_mul {m n : ℕ} {v w : FloatValue} (hv : Within m v) (hw : Within n w)
    (hfits : m * n < 2 ^ 53) : Within (m * n) (f64.mul v w) :=
  hv.mul (by decide) (by decide) (by decide) hw hfits

theorem within_round {n : ℕ} {q : ℚ} (h : |q| ≤ n) (hfits : n < 2 ^ 53) :
    Within n (f64.round q) :=
  abs_round_le (by decide) (by decide) (by decide) hfits h

theorem Rng.nextF64_within (rng : Rng) : Within 1 rng.nextF64.1 := by
  have hshift : (rng.nextU64.1 >>> 11).toNat < 2 ^ 53 := by
    rw [UInt64.toNat_shiftRight, Nat.shiftRight_eq_div_pow]
    exact Nat.div_lt_of_lt_mul rng.nextU64.1.toNat_lt
  have hnumerator : f64.ofNat (rng.nextU64.1 >>> 11).toNat =
      .finite (rng.nextU64.1 >>> 11).toNat := by
    rw [FloatFormat.ofNat, ← Int.cast_natCast, round_int]
    rw [abs_of_nonneg (Int.natCast_nonneg _)]
    exact_mod_cast hshift
  have hdivisor : f64.ofNat (2 ^ 53) = .finite (2 ^ 53) := by decide +kernel
  have hdraw : rng.nextF64.1 =
      f64.div (f64.ofNat (rng.nextU64.1 >>> 11).toNat) (f64.ofNat (2 ^ 53)) := rfl
  rw [hdraw, hnumerator, hdivisor, div_finite _ (by norm_num)]
  refine within_round ?_ (by decide)
  rw [abs_of_nonneg (by positivity), Nat.cast_one, div_le_one (by norm_num)]
  exact_mod_cast hshift.le

theorem Rng.sumF64_within {n : ℕ} {s : FloatValue} (k : ℕ) (rng : Rng) (h : Within n s)
    (hfits : n + k < 2 ^ 53) : Within (n + k) (sumF64 k s rng).1 := by
  induction k generalizing n s rng with
  | zero => exact h
  | succ k ih =>
    have hadd : Within (n + 1) (f64.add s rng.nextF64.1) :=
      within_add h rng.nextF64_within (lt_of_le_of_lt (by omega) hfits)
    have hrest := ih rng.nextF64.2 hadd (by omega)
    rw [Nat.add_right_comm] at hrest
    exact hrest

theorem Rng.sumDoubles_finite {n : ℕ} {s : FloatValue} (k : ℕ) (rng : Rng) (h : Within n s)
    (hfits : n + k < 2 ^ 53) : ∀ v ∈ rng.sumDoubles k s, ∃ q, v = .finite q := by
  induction k generalizing n s rng with
  | zero => simp [sumDoubles]
  | succ k ih =>
    have hadd : Within (n + 1) (f64.add s rng.nextF64.1) :=
      within_add h rng.nextF64_within (lt_of_le_of_lt (by omega) hfits)
    refine List.forall_mem_cons.mpr ⟨rng.nextF64_within.finite, ?_⟩
    exact List.forall_mem_cons.mpr ⟨hadd.finite, ih rng.nextF64.2 hadd (by omega)⟩

theorem within_zero : Within 0 (.finite 0) := ⟨0, rfl, by simp⟩

/-- What is drawn, less its mean. -/
theorem Rng.centred_within (rng : Rng) :
    Within 9 (f64.add (rng.sumF64 6 (.finite 0)).1 (.finite (-3))) := by
  have hthree : Within 3 (.finite (-3)) := ⟨-3, rfl, by norm_num⟩
  exact within_add (sumF64_within 6 rng within_zero (by norm_num)) hthree (by decide)

/-- The noise is of 63 degrees at most. -/
theorem Rng.nextNoise_within (rng : Rng) : Within 63 (rng.nextNoise (.finite 7)).1 := by
  have hseven : Within 7 (.finite 7) := ⟨7, rfl, by norm_num⟩
  exact within_mul rng.centred_within hseven (by decide)

/-- The clamp does not bite. -/
theorem clamp_within {v : FloatValue} (h : Within 92 v) :
    v.clamp (degrees (-999)) (degrees 999) = v := by
  obtain ⟨q, rfl, hq⟩ := h
  obtain ⟨lo, hlo, herrlo⟩ := degrees_eq (t := -999) (by decide)
  obtain ⟨hi, hhi, herrhi⟩ := degrees_eq (t := 999) (by decide)
  rw [abs_le] at hq herrlo herrhi
  push_cast at hq herrlo herrhi
  have hlow : ¬ q ≤ lo := by linarith
  have hhigh : ¬ hi ≤ q := by linarith
  have hnumber : FloatValue.finite q ≠ .nan := by
    intro h
    cases h
  rw [hlo, hhi, FloatValue.clamp, if_neg hnumber, FloatValue.le_finite, FloatValue.le_finite,
    decide_eq_false hlow, decide_eq_false hhigh]
  rfl

/-- A row of a known station, with a temperature of a thermometer. -/
def Known (row : Bytes × Int) : Prop :=
  row.1 ∈ stations.map Prod.fst ∧ -999 ≤ row.2 ∧ row.2 ≤ 999

theorem stations_means : ∀ s ∈ stations, |s.2| ≤ 290 := by decide +kernel

theorem within_ten : Within 10 (.finite 10) := ⟨10, rfl, by norm_num⟩

/-- **No row is disturbed**, whatever the state of the generator. -/
theorem undisturbed {mean : FloatValue} (hmean : Within 29 mean) (rng : Rng) :
    Undisturbed mean rng := by
  have htemp : Within 92 (f64.add mean (rng.nextNoise (.finite 7)).1) :=
    within_add hmean rng.nextNoise_within (by decide)
  refine ⟨?_, clamp_within htemp⟩
  intro v hv
  rcases List.mem_append.mp hv with hv | hv
  · exact rng.sumDoubles_finite 6 within_zero (by norm_num) v hv
  · simp only [List.mem_cons, List.not_mem_nil, or_false] at hv
    rcases hv with rfl | rfl | rfl | rfl
    · exact rng.centred_within.finite
    · exact rng.nextNoise_within.finite
    · exact htemp.finite
    · exact (within_mul htemp within_ten (by decide)).finite

theorem drawTenths_range {mean noise : FloatValue} (hmean : Within 29 mean)
    (hnoise : Within 63 noise) : -999 ≤ drawTenths mean noise ∧ drawTenths mean noise ≤ 999 := by
  have htemp : Within 92 (f64.add mean noise) := within_add hmean hnoise (by decide)
  have htenths := (within_mul htemp within_ten (by decide)).abs_toI64_le (by decide)
  rw [drawTenths, clamp_within htemp]
  have hbound := abs_le.mp htenths
  exact ⟨by omega, by omega⟩

/-- The mean of a station is of 29 degrees at most. -/
theorem station_within {s : Bytes × Int} (hs : s ∈ stations) : Within 29 (degrees s.2) := by
  refine within_round ?_ (by decide)
  have hbound : |(s.2 : ℚ)| ≤ 290 := by exact_mod_cast stations_means _ hs
  rw [abs_div, abs_of_pos (by norm_num : (0 : ℚ) < 10)]
  push_cast
  linarith

/-- **What is drawn is a known row.** -/
theorem drawRow_known (rng : Rng) : ∃ row rng', drawRow rng = some (row, rng') ∧ Known row := by
  have hindex : rng.nextU64.1.toNat % stations.length < stations.length :=
    Nat.mod_lt _ (by decide)
  rcases hstation : stations[rng.nextU64.1.toNat % stations.length] with ⟨name, mean⟩
  have hmem : (name, mean) ∈ stations := by
    rw [← hstation]
    exact List.getElem_mem hindex
  have hmean : Within 29 (degrees mean) := station_within hmem
  have hdraw : drawRow rng =
      some ((name, drawTenths (degrees mean) (rng.nextU64.2.nextNoise (.finite 7)).1),
        (rng.nextU64.2.nextNoise (.finite 7)).2) := by
    rw [drawRow, List.getElem?_eq_getElem hindex, hstation]
    rfl
  exact ⟨_, _, hdraw, List.mem_map.mpr ⟨_, hmem, rfl⟩,
    drawTenths_range hmean rng.nextU64.2.nextNoise_within⟩

/-! ## Lines -/

theorem isDigit_digitByte {d : Nat} (h : d < 10) : isDigit (digitByte d) = true := by
  rw [isDigit, digitByte_toNat h, Bool.and_eq_true, decide_eq_true_eq, decide_eq_true_eq]
  omega

/-- The digits of a temperature, as they are written. -/
def unsignedText (n : Nat) : Bytes := decimal (n / 10) ++ [46] ++ decimal (n % 10)

theorem unsignedText_right {n : Nat} (h : n ≤ 999) :
    isUnsignedTemp (unsignedText n) = true ∧ magnitude (unsignedText n) = n := by
  have hlast : n % 10 < 10 := Nat.mod_lt n (by norm_num)
  have hpoint : isDigit 46 = false := rfl
  by_cases hwhole : n / 10 < 10
  · have htext : unsignedText n = [digitByte (n / 10), 46, digitByte (n % 10)] := by
      rw [unsignedText, decimal_of_lt_ten hwhole, decimal_of_lt_ten hlast]
      rfl
    have hmagnitude : magnitude [digitByte (n / 10), 46, digitByte (n % 10)] =
        n / 10 * 10 + n % 10 := by
      simp [magnitude, isDigit_digitByte hwhole, isDigit_digitByte hlast, hpoint,
        digitByte_toNat hwhole, digitByte_toNat hlast]
    rw [htext, hmagnitude, isUnsignedTemp, isDigit_digitByte hwhole, isDigit_digitByte hlast]
    exact ⟨rfl, by omega⟩
  · have hfirst : n / 10 / 10 < 10 := by omega
    have hsecond : n / 10 % 10 < 10 := Nat.mod_lt _ (by norm_num)
    have htext : unsignedText n =
        [digitByte (n / 10 / 10), digitByte (n / 10 % 10), 46, digitByte (n % 10)] := by
      rw [unsignedText, decimal_of_lt_hundred (by omega) (by omega), decimal_of_lt_ten hlast]
      rfl
    have hmagnitude : magnitude
        [digitByte (n / 10 / 10), digitByte (n / 10 % 10), 46, digitByte (n % 10)] =
          (n / 10 / 10 * 10 + n / 10 % 10) * 10 + n % 10 := by
      simp [magnitude, isDigit_digitByte hfirst, isDigit_digitByte hsecond,
        isDigit_digitByte hlast, hpoint, digitByte_toNat hfirst, digitByte_toNat hsecond,
        digitByte_toNat hlast]
    rw [htext, hmagnitude, isUnsignedTemp, isDigit_digitByte hfirst, isDigit_digitByte hsecond,
      isDigit_digitByte hlast]
    exact ⟨rfl, by omega⟩

/-- The line of a row, without its newline. -/
def rowLine (row : Bytes × Int) : Bytes :=
  row.1 ++ 59 :: (minus (row.2 < 0) ++ unsignedText row.2.natAbs)

theorem writeRow_eq (row : Bytes × Int) : writeRow row = rowLine row ++ [10] := by
  simp [writeRow, rowLine, unsignedText]

theorem stations_names :
    ∀ name ∈ stations.map Prod.fst, 59 ∉ name ∧ 10 ∉ name ∧ validUtf8 name = true := by
  decide +kernel

theorem isUnsignedTemp_head {bytes : Bytes} (h : isUnsignedTemp bytes = true) :
    bytes.head? ≠ some 45 := by
  intro hhead
  obtain ⟨rest, rfl⟩ := List.head?_eq_some_iff.mp hhead
  unfold isUnsignedTemp at h
  split at h
  · next heq =>
    obtain ⟨rfl, -⟩ := List.cons.inj heq
    cases h
  · next heq =>
    obtain ⟨rfl, -⟩ := List.cons.inj heq
    cases h
  · cases h

/-- **A temperature is written as it is read.** -/
theorem temp_right {t : Int} (h : -999 ≤ t ∧ t ≤ 999) :
    isTemp (minus (t < 0) ++ unsignedText t.natAbs) = true ∧
      tenths (minus (t < 0) ++ unsignedText t.natAbs) = t := by
  obtain ⟨hformat, hmagnitude⟩ := unsignedText_right (n := t.natAbs) (by omega)
  by_cases hneg : t < 0
  · have hminus : minus (t < 0) = [45] := by rw [decide_eq_true hneg, minus, if_pos rfl]
    have hsign : magnitude (45 :: unsignedText t.natAbs) = magnitude (unsignedText t.natAbs) := rfl
    rw [hminus, List.singleton_append, tenths, if_pos List.head?_cons, hsign,
      hmagnitude]
    exact ⟨hformat, by omega⟩
  · have hminus : minus (t < 0) = [] := by
      rw [decide_eq_false hneg, minus, if_neg Bool.false_ne_true]
    have hhead := isUnsignedTemp_head hformat
    rw [hminus, List.nil_append, tenths, if_neg hhead, hmagnitude]
    refine ⟨?_, by omega⟩
    rw [isTemp]
    · exact hformat
    · intro rest heq
      rw [heq] at hhead
      exact hhead rfl

theorem isTemp_bytes {temp : Bytes} (h : isTemp temp = true) :
    ∀ b ∈ temp, b < 0x80 ∧ isNewline b = false := by
  obtain ⟨negative, whole, d, rfl, -, hwhole, hd⟩ := isTemp_shape h
  have hdigit : ∀ {b : UInt8}, isDigit b = true → b < 0x80 ∧ isNewline b = false := by
    intro b hb
    refine ⟨isDigit_ascii hb, ?_⟩
    rw [isNewline, beq_eq_false_iff_ne]
    rintro rfl
    cases hb
  intro b hb
  simp only [List.mem_append, List.mem_cons, List.not_mem_nil, or_false] at hb
  rcases hb with hb | hb | rfl | rfl
  · cases negative with
    | true =>
      obtain rfl := List.mem_singleton.mp hb
      decide
    | false => cases hb
  · exact hdigit (hwhole b hb)
  · decide
  · exact hdigit hd

/-- **A known row is written as a line that is read as the row.** -/
theorem Known.line {row : Bytes × Int} (h : Known row) :
    WellFormedLine (rowLine row) ∧ measurement (rowLine row) = row ∧
      (∀ b ∈ rowLine row, isNewline b = false) ∧ validUtf8 (rowLine row) = true := by
  obtain ⟨hsemicolon, hnewline, hutf8⟩ := stations_names _ h.1
  obtain ⟨hformat, htenths⟩ := temp_right h.2
  have hbytes := isTemp_bytes hformat
  refine ⟨⟨_, _, rfl, hsemicolon, hformat⟩, ?_, ?_, ?_⟩
  · rw [rowLine, measurement_append hsemicolon, htenths]
  · intro b hb
    rcases List.mem_append.mp hb with hb | hb
    · rw [isNewline, beq_eq_false_iff_ne]
      rintro rfl
      exact hnewline hb
    · rcases List.mem_cons.mp hb with rfl | hb
      · rfl
      · exact (hbytes b hb).2
  · refine validUtf8_append hutf8 (validUtf8_ascii ?_)
    intro b hb
    rcases List.mem_cons.mp hb with rfl | hb
    · decide
    · exact (hbytes b hb).1

/-! ## Rows -/

/-- The rows that the loop draws. -/
def drawRows : Nat → Rng → Option (List (Bytes × Int))
  | 0, _ => some []
  | k + 1, rng => do
    let (row, rng) ← drawRow rng
    return row :: (← drawRows k rng)

/-- **The file is the lines of the rows drawn**, all of them known. -/
theorem writeRows_eq (k : Nat) (rng : Rng) : ∃ rows, drawRows k rng = some rows ∧
    writeRows k rng = some (rows.flatMap writeRow) ∧ rows.length = k ∧ ∀ row ∈ rows, Known row := by
  induction k generalizing rng with
  | zero => exact ⟨[], rfl, rfl, rfl, by simp⟩
  | succ k ih =>
    obtain ⟨row, rng', hrow, hknown⟩ := drawRow_known rng
    obtain ⟨rows, hdraw, hwrite, hlength, hall⟩ := ih rng'
    refine ⟨row :: rows, ?_, ?_, ?_, ?_⟩
    · rw [drawRows, hrow]
      simp [hdraw]
    · rw [writeRows, hrow]
      simp [hwrite]
    · rw [List.length_cons, hlength]
    · exact List.forall_mem_cons.mpr ⟨hknown, hall⟩

theorem split_rows {rows : List (Bytes × Int)} (h : ∀ row ∈ rows, Known row) :
    Lines.split isNewline (rows.flatMap writeRow) = (rows.map rowLine, []) := by
  induction rows with
  | nil => rfl
  | cons row rows ih =>
    obtain ⟨hrow, hrows⟩ := List.forall_mem_cons.mp h
    have htail := ih hrows
    obtain ⟨-, -, hline, -⟩ := hrow.line
    rw [List.flatMap_cons, writeRow_eq, List.append_assoc, List.singleton_append,
      Lines.split_record hline rfl, Lines.records, Lines.unended, htail, List.map_cons]

end RustFundamentals.Brc
