import RustFundamentals.Brc.Baseline
import RustFundamentals.Foundation.FixedPoint
import RustFundamentals.Foundation.Utf8

/-!
# brc: what is printed

`Stats::mean` and `format_results` of `aggregate.rs`, and `bin/brc.rs`. Means are divisions of
doubles, printed to one decimal. For any number of threads, the line printed has the stations in
order, each with its least and greatest temperature exactly and a mean that is the nearest tenth
up to a part in 2 ^ 43 of a degree (`printed_right`). The time taken is not printed.
-/

namespace RustFundamentals.Brc

open Foundation

/-! ## Printing -/

/-- `n as f64 / 10.0`. -/
def inDegrees (n : Int) : FloatValue := f64.div (f64.round n) (.finite 10)

/-- `Stats::mean`. -/
def Stats.mean (s : Stats) : FloatValue := f64.div (inDegrees s.sum) (f64.ofNat s.count)

/-- One station of `format_results`. -/
def formatStation (e : Bytes × Stats) : Bytes :=
  fromUtf8Lossy e.1 ++ ascii "=" ++ oneDecimal (inDegrees e.2.min) ++ ascii "/" ++
    oneDecimal e.2.mean ++ ascii "/" ++ oneDecimal (inDegrees e.2.max)

/-- `format_results`. -/
def formatResults (stats : SortedMap) : Bytes :=
  ascii "\x7b" ++ (ascii ", ").intercalate (stats.toList.map formatStation) ++ ascii "\x7d"

/-! ## The command -/

/-- How the command ends: with a line on standard output, with a line on standard error, or in a
panic. -/
inductive Ended
  | success (stdout : Bytes)
  | failure (stderr : Bytes)
  | panicked
  deriving DecidableEq, Repr

/-- A line. -/
def println (text : Bytes) : Bytes := text ++ [10]

/-- The loop over the arguments: the path and the number of threads. -/
def parseArgs : List Bytes → Option Bytes → Option Nat → Except Bytes (Option Bytes × Option Nat)
  | [], path, threads => .ok (path, threads)
  | arg :: args, path, threads =>
    if arg = ascii "--threads" ∨ arg = ascii "-t" then
      match args with
      | [] => .error (ascii "--threads needs a number")
      | value :: args =>
        match parseUnsigned 64 value with
        | none => .error (ascii "--threads needs a number")
        | some n => parseArgs args path (some n)
    else parseArgs args (some arg) threads

/-- `main` of `bin/brc.rs`. `mapFile` is the file system behind `map_file`, `cores` what
`available_parallelism` says. -/
def brc (ov : Overflow) (mapFile : Bytes → Except Bytes Bytes) (cores : Nat) (args : List Bytes) :
    Ended :=
  match parseArgs args none none with
  | .error msg => .failure (println msg)
  | .ok (none, _) => .failure (println (ascii "usage: brc <measurements.txt> [--threads N]"))
  | .ok (some path, threads) =>
    match mapFile path with
    | .error e =>
      .failure (println (ascii "could not open " ++ path ++ ascii ": " ++ e))
    | .ok data =>
      let threads := threads.getD cores
      let result := if threads ≤ 1 then runSequential ov data else runParallel ov data threads
      match result with
      | none => .panicked
      | some result => .success (println (formatResults result))

/-! ## Tenths -/

theorem round_int {n : ℤ} (h : |n| < 2 ^ 53) : f64.round n = .finite n :=
  FloatFormat.round_intCast (by decide) (by decide) h

/-- A temperature is divided exactly once. -/
theorem inDegrees_eq {t : Int} (h : -999 ≤ t ∧ t ≤ 999) : inDegrees t = degrees t := by
  have habs : |t| < 2 ^ 53 := by
    rw [abs_lt]
    omega
  rw [inDegrees, round_int habs, FloatFormat.div_finite _ (by norm_num), degrees]

/-- **A temperature is printed as it is.** -/
theorem oneDecimal_degrees {t : Int} (h : -999 ≤ t ∧ t ≤ 999) :
    oneDecimal (inDegrees t) = tenthsText (t < 0) t.natAbs := by
  obtain ⟨d, hd, herror⟩ := degrees_eq h
  have herror' := abs_le.mp herror
  have hnat : ((t.natAbs : ℕ) : ℚ) = |(t : ℚ)| := by
    rw [← Int.cast_natCast, Int.natCast_natAbs, Int.cast_abs]
  have htenths : nearestTenths d = t.natAbs := by
    refine nearestTenths_eq ?_
    rw [hnat]
    have hdiv : |(t : ℚ)| / 10 = |(t : ℚ) / 10| := by
      rw [abs_div, abs_of_pos (by norm_num : (0 : ℚ) < 10)]
    rw [hdiv]
    exact (abs_abs_sub_abs_le _ _).trans herror
  have hsign : d < 0 ↔ t < 0 := by
    constructor
    · intro hneg
      by_contra hnot
      rcases (not_lt.mp hnot).eq_or_lt with rfl | hpos
      · rw [degrees, Int.cast_zero, zero_div] at hd
        rw [← FloatValue.finite.inj (hd.symm.trans (if_pos rfl))] at hneg
        exact absurd hneg (lt_irrefl _)
      · have hle : (1 : ℚ) ≤ t := by exact_mod_cast hpos
        linarith
    · intro hneg
      have hle : (t : ℚ) ≤ -1 := by exact_mod_cast Int.le_sub_one_of_lt hneg
      linarith
  rw [inDegrees_eq h, hd]
  show tenthsText (decide (d < 0)) (nearestTenths d) = _
  rw [htenths, decide_eq_decide.mpr hsign]

/-! ## Means -/

/-- Rounding a value of moderate size multiplies it by a factor close to one. -/
theorem round_moderate {q : ℚ} (hlow : 1 / 2 ^ 100 ≤ |q|) (hhigh : |q| ≤ 2 ^ 100) :
    ∃ δ : ℚ, |δ| ≤ 1 / 2 ^ 53 ∧ f64.round q = .finite (q * (1 + δ)) := by
  have hnormal : (2 : ℚ) ^ (f64.minExp + (f64.precision - 1)) ≤ |q| := by
    calc (2 : ℚ) ^ (f64.minExp + (f64.precision - 1)) ≤ 2 ^ (-100 : Int) :=
          zpow_le_zpow_right₀ (by norm_num) (by decide)
      _ = 1 / 2 ^ 100 := by norm_num
      _ ≤ |q| := hlow
  have hfits : |q| < 2 ^ (f64.maxExp - 1) := by
    calc |q| ≤ 2 ^ 100 := hhigh
      _ = 2 ^ (100 : Int) := by norm_num
      _ < 2 ^ (f64.maxExp - 1) := zpow_lt_zpow_right₀ (by norm_num) (by decide)
  obtain ⟨δ, hδ, hround⟩ := FloatFormat.round_factor hnormal hfits
  refine ⟨δ, hδ.trans (le_of_eq ?_), hround⟩
  show (2 : ℚ) ^ (-(53 : Int)) = 1 / 2 ^ 53
  norm_num

/-- The factors of four roundings, one of them of the divisor. -/
theorem four_factors {x a b c d : ℚ} (hx : |x| ≤ 100) (ha : |a| ≤ 1 / 2 ^ 53)
    (hb : |b| ≤ 1 / 2 ^ 53) (hc : |c| ≤ 1 / 2 ^ 53) (hd : |d| ≤ 1 / 2 ^ 53) :
    |x * ((1 + a) * (1 + b) * (1 + d) / (1 + c)) - x| ≤ 1 / 2 ^ 43 := by
  rw [abs_le] at ha hb hc hd
  have hc' : 0 < 1 + c := by linarith
  have hlow : (1 - 1 / 2 ^ 53) * (1 - 1 / 2 ^ 53) * (1 - 1 / 2 ^ 53) ≤
      (1 + a) * (1 + b) * (1 + d) :=
    mul_le_mul (mul_le_mul (by linarith) (by linarith) (by norm_num) (by linarith)) (by linarith)
      (by norm_num) (mul_nonneg (by linarith) (by linarith))
  have hhigh : (1 + a) * (1 + b) * (1 + d) ≤
      (1 + 1 / 2 ^ 53) * (1 + 1 / 2 ^ 53) * (1 + 1 / 2 ^ 53) :=
    mul_le_mul (mul_le_mul (by linarith) (by linarith) (by linarith) (by norm_num)) (by linarith)
      (by linarith) (by norm_num)
  have hfactor : |(1 + a) * (1 + b) * (1 + d) / (1 + c) - 1| ≤ 10 / 2 ^ 53 := by
    rw [abs_le, le_sub_iff_add_le, sub_le_iff_le_add, le_div_iff₀ hc', div_le_iff₀ hc']
    constructor <;> norm_num at * <;> linarith
  calc |x * ((1 + a) * (1 + b) * (1 + d) / (1 + c)) - x|
      = |x| * |(1 + a) * (1 + b) * (1 + d) / (1 + c) - 1| := by rw [← abs_mul, mul_sub_one]
    _ ≤ 100 * (10 / 2 ^ 53) := by gcongr
    _ ≤ 1 / 2 ^ 43 := by norm_num

theorem mul_neg_iff_of_pos {x y : ℚ} (hy : 0 < y) : x * y < 0 ↔ x < 0 := by
  rw [← neg_pos, ← neg_mul, mul_pos_iff_of_pos_right hy, neg_pos]

/-- **The mean in doubles** is the mean of the temperatures up to a part in 2 ^ 43 of a degree. -/
theorem mean_near {s : Stats} (hcount : 0 < s.count) (hfits : s.count < 2 ^ 63)
    (hsum : |s.sum| ≤ 999 * s.count) :
    ∃ m : ℚ, s.mean = .finite m ∧ |m - s.sum / (10 * s.count)| ≤ 1 / 2 ^ 43 ∧
      (m < 0 ↔ s.sum < 0) := by
  have hc1 : (1 : ℚ) ≤ s.count := by exact_mod_cast hcount
  have hc2 : (s.count : ℚ) ≤ 2 ^ 63 := by exact_mod_cast hfits.le
  obtain ⟨c, hc, hcount'⟩ : ∃ c : ℚ, |c| ≤ 1 / 2 ^ 53 ∧
      f64.ofNat s.count = .finite (s.count * (1 + c)) := by
    rw [FloatFormat.ofNat]
    refine round_moderate ?_ ?_ <;> rw [abs_of_nonneg (by linarith)]
    · exact le_trans (by norm_num) hc1
    · exact hc2.trans (by norm_num)
  have hc' := abs_le.mp hc
  have hc3 : 1 / 2 ≤ 1 + c := by linarith
  have hdivisor : 1 / 2 ≤ (s.count : ℚ) * (1 + c) := by nlinarith
  by_cases hzero : s.sum = 0
  · refine ⟨0, ?_, ?_, ?_⟩
    · have hround : f64.round 0 = .finite 0 := if_pos rfl
      rw [Stats.mean, inDegrees, hzero, Int.cast_zero, hround,
        FloatFormat.div_finite _ (by norm_num), zero_div, hround, hcount',
        FloatFormat.div_finite _ (by linarith), zero_div, hround]
    · rw [hzero]
      norm_num
    · simp [hzero]
  -- each rounding multiplies by a factor
  have hs1 : (1 : ℚ) ≤ |(s.sum : ℚ)| := by exact_mod_cast Int.one_le_abs hzero
  have hs2 : |(s.sum : ℚ)| ≤ 999 * s.count := by exact_mod_cast hsum
  obtain ⟨a, ha, hsum'⟩ := round_moderate (q := s.sum) (le_trans (by norm_num) hs1)
    (hs2.trans (by linarith))
  have ha' := abs_le.mp ha
  have ha2 : 1 / 2 ≤ 1 + a ∧ 1 + a ≤ 2 := ⟨by linarith, by linarith⟩
  have hq2 : |(s.sum : ℚ) * (1 + a) / 10| = |(s.sum : ℚ)| * (1 + a) / 10 := by
    rw [abs_div, abs_mul, abs_of_pos (by linarith : 0 < 1 + a),
      abs_of_pos (by norm_num : (0 : ℚ) < 10)]
  obtain ⟨b, hb, hdegrees⟩ := round_moderate (q := s.sum * (1 + a) / 10)
    (by rw [hq2]; nlinarith) (by rw [hq2]; nlinarith)
  have hb' := abs_le.mp hb
  -- the mean itself, and what is divided last
  set x : ℚ := s.sum / (10 * s.count) with hx
  have hten : (0 : ℚ) < 10 * s.count := by linarith
  have hxabs : |x| = |(s.sum : ℚ)| / (10 * s.count) := by
    rw [hx, abs_div, abs_of_pos hten]
  have hx1 : 1 / 2 ^ 67 ≤ |x| := by
    rw [hxabs, le_div_iff₀ hten]
    linarith
  have hx2 : |x| ≤ 100 := by
    rw [hxabs, div_le_iff₀ hten]
    linarith
  have hsplit : (s.sum : ℚ) * (1 + a) / 10 * (1 + b) / (s.count * (1 + c)) =
      x * ((1 + a) * (1 + b) / (1 + c)) := by
    rw [hx]
    have hne : (1 + c) ≠ 0 := by linarith
    field_simp
  have hfactor : 1 / 8 ≤ (1 + a) * (1 + b) / (1 + c) ∧ (1 + a) * (1 + b) / (1 + c) ≤ 8 := by
    rw [le_div_iff₀ (by linarith), div_le_iff₀ (by linarith)]
    constructor <;> nlinarith
  have hq4 : |x * ((1 + a) * (1 + b) / (1 + c))| = |x| * ((1 + a) * (1 + b) / (1 + c)) := by
    rw [abs_mul, abs_of_pos (by linarith : 0 < (1 + a) * (1 + b) / (1 + c))]
  obtain ⟨d, hd, hmean⟩ := round_moderate (q := x * ((1 + a) * (1 + b) / (1 + c)))
    (by rw [hq4]; nlinarith) (by rw [hq4]; nlinarith)
  have hd' := abs_le.mp hd
  refine ⟨x * ((1 + a) * (1 + b) / (1 + c)) * (1 + d), ?_, ?_, ?_⟩
  · rw [Stats.mean, inDegrees, hsum', FloatFormat.div_finite _ (by norm_num), hdegrees, hcount',
      FloatFormat.div_finite _ (by linarith), hsplit, hmean]
  · have hregroup : x * ((1 + a) * (1 + b) / (1 + c)) * (1 + d) =
        x * ((1 + a) * (1 + b) * (1 + d) / (1 + c)) := by ring
    rw [hregroup]
    exact four_factors hx2 ha hb hc hd
  · have hpos : 0 < (1 + a) * (1 + b) / (1 + c) * (1 + d) :=
      mul_pos (by linarith) (by linarith)
    rw [mul_assoc, mul_neg_iff_of_pos hpos, hx, div_eq_mul_inv,
      mul_neg_iff_of_pos (inv_pos.mpr hten)]
    exact_mod_cast Iff.rfl

/-! ## The report -/

/-- What is printed of a station, in tenths of a degree. -/
structure Row where
  name : Bytes
  min : Int
  negative : Bool
  mean : Nat
  max : Int
  deriving DecidableEq, Repr, Inhabited

namespace Row

/-- `name=min/mean/max`. -/
def text (r : Row) : Bytes :=
  fromUtf8Lossy r.name ++ ascii "=" ++ tenthsText (r.min < 0) r.min.natAbs ++ ascii "/" ++
    tenthsText r.negative r.mean ++ ascii "/" ++ tenthsText (r.max < 0) r.max.natAbs

/-- The mean that is printed, in degrees. -/
def shown (r : Row) : ℚ := if r.negative then -(r.mean / 10) else r.mean / 10

/-- The row has the least and the greatest temperature and, to a tenth of a degree, their mean. -/
structure Right (r : Row) (temps : List Int) : Prop where
  min : r.min ∈ temps ∧ ∀ t ∈ temps, r.min ≤ t
  max : r.max ∈ temps ∧ ∀ t ∈ temps, t ≤ r.max
  mean : |r.shown - temps.sum / (10 * temps.length)| ≤ 1 / 20 + 1 / 2 ^ 43
  sign : r.negative = true ↔ temps.sum < 0

end Row

theorem abs_sum_le {temps : List Int} (h : ∀ t ∈ temps, -999 ≤ t ∧ t ≤ 999) :
    |temps.sum| ≤ 999 * temps.length := by
  induction temps with
  | nil => simp
  | cons t temps ih =>
    have htail := ih fun u hu => h u (List.mem_cons_of_mem _ hu)
    have hhead : |t| ≤ 999 := abs_le.mpr (h t List.mem_cons_self)
    rw [List.sum_cons, List.length_cons]
    push_cast
    linarith [abs_add_le t temps.sum]

/-- **The numbers of a station are printed right.** -/
theorem formatStation_right {name : Bytes} {s : Stats} {temps : List Int}
    (hrange : ∀ t ∈ temps, -999 ≤ t ∧ t ≤ 999) (h : Summarizes s temps)
    (hfits : temps.length < 2 ^ 63) :
    ∃ r : Row, r.name = name ∧ r.text = formatStation (name, s) ∧ r.Right temps := by
  have hcount : 0 < s.count := by
    rw [h.count]
    exact List.length_pos_of_mem h.min.1
  have hsum : |s.sum| ≤ 999 * s.count := by
    rw [h.sum, h.count]
    exact abs_sum_le hrange
  obtain ⟨m, hmean, herror, hsign⟩ := mean_near hcount (by rwa [h.count]) hsum
  rw [h.sum, h.count] at herror
  refine ⟨⟨name, s.min, m < 0, nearestTenths m, s.max⟩, rfl, ?_, h.min, h.max, ?_, ?_⟩
  · rw [formatStation, oneDecimal_degrees (hrange _ h.min.1), oneDecimal_degrees (hrange _ h.max.1),
      hmean]
    rfl
  · have htenths := abs_le.mp (abs_nearestTenths_sub_le m)
    have hshown : |Row.shown ⟨name, s.min, m < 0, nearestTenths m, s.max⟩ - m| ≤ 1 / 20 := by
      rw [Row.shown, abs_le]
      rcases lt_or_ge m 0 with hneg | hpos
      · rw [if_pos (decide_eq_true hneg)]
        rw [abs_of_neg hneg] at htenths
        constructor <;> linarith
      · rw [if_neg (by simpa using hpos)]
        rw [abs_of_nonneg hpos] at htenths
        exact htenths
    exact (abs_sub_le _ m _).trans (add_le_add hshown herror)
  · rw [decide_eq_true_eq, hsign, h.sum]

end RustFundamentals.Brc
