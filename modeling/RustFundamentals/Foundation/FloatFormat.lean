import Mathlib.Algebra.Order.Field.Power
import Mathlib.Algebra.Order.Floor.Ring
import Mathlib.Data.Int.Log
import Mathlib.Data.Prod.Lex
import Mathlib.Data.Rat.Floor
import RustFundamentals.Foundation.Text

/-!
# Binary floating point

Values, rounding to nearest even, the operations the programs use, and `str::parse` into a
float. A finite value is the rational it denotes, so the two zeros are one: no comparison and no
operation here tells them apart. Every result is the exact one, rounded once (`round_normal` bounds
what that adds).
-/

namespace Foundation

/-! ## Values -/

/-- A floating-point value. -/
inductive FloatValue
  | nan
  | infinite (negative : Bool)
  | finite (q : ℚ)
  deriving DecidableEq

namespace FloatValue

/-- The place of a value in the order of `partial_cmp`, NaN behind all others. -/
def key : FloatValue → ℕ ×ₗ ℚ
  | infinite true => toLex (0, 0)
  | finite q => toLex (1, q)
  | infinite false => toLex (2, 0)
  | nan => toLex (3, 0)

theorem key_injective : Function.Injective key := by
  intro a b h
  rcases a with _ | (_ | _) | q <;> rcases b with _ | (_ | _) | r <;>
    simp_all [key, Prod.mk.injEq]

/-- `a <= b`, for values that are not NaN. -/
def le (a b : FloatValue) : Bool := decide (a.key ≤ b.key)

/-- `f32::round`, half away from zero. -/
def round : FloatValue → FloatValue
  | finite q => finite (if 0 ≤ q then ⌊q + 1 / 2⌋ else -⌊-q + 1 / 2⌋)
  | v => v

/-- `v as usize`. -/
def toUsize : FloatValue → Nat
  | nan => 0
  | infinite true => 0
  | infinite false => 2 ^ 64 - 1
  | finite q => min ⌊q⌋.toNat (2 ^ 64 - 1)

/-- `v as i64`. -/
def toI64 : FloatValue → Int
  | nan => 0
  | infinite true => -2 ^ 63
  | infinite false => 2 ^ 63 - 1
  | finite q => Max.max (-2 ^ 63) (Min.min (if 0 ≤ q then ⌊q⌋ else -⌊-q⌋) (2 ^ 63 - 1))

/-- `f64::min`; NaN counts for nothing. -/
def min : FloatValue → FloatValue → FloatValue
  | nan, b => b
  | a, nan => a
  | a, b => if a.le b then a else b

/-- `f64::max`; NaN counts for nothing. -/
def max : FloatValue → FloatValue → FloatValue
  | nan, b => b
  | a, nan => a
  | a, b => if a.le b then b else a

/-- `f64::clamp`, between bounds that are not NaN. -/
def clamp (v lo hi : FloatValue) : FloatValue :=
  if v = nan then nan
  else if v.le lo && v != lo then lo
  else if hi.le v && v != hi then hi
  else v

theorem le_finite (p q : ℚ) : (finite p).le (finite q) = decide (p ≤ q) := by
  simp [le, key, Prod.Lex.toLex_le_toLex]

theorem min_finite (p q : ℚ) : (finite p).min (finite q) = finite (Min.min p q) := by
  rw [min, le_finite]
  · rcases le_or_gt p q with h | h
    · rw [if_pos (by simpa using h), min_eq_left h]
    · rw [if_neg (by simpa using h), min_eq_right h.le]
  all_goals nofun

theorem max_finite (p q : ℚ) : (finite p).max (finite q) = finite (Max.max p q) := by
  rw [max, le_finite]
  · rcases le_or_gt p q with h | h
    · rw [if_pos (by simpa using h), max_eq_right h]
    · rw [if_neg (by simpa using h), max_eq_left h.le]
  all_goals nofun

end FloatValue

/-! ## Formats -/

/-- A binary format: the bits of its significands, the exponent of its least positive value, and
the exponent of the least power of two that is too large. -/
structure FloatFormat where
  precision : Nat
  minExp : Int
  maxExp : Int

/-- `f32`. -/
def f32 : FloatFormat := ⟨24, -149, 128⟩

/-- `f64`. -/
def f64 : FloatFormat := ⟨53, -1074, 1024⟩

/-- The nearest integer; the even one of two. -/
def roundEven (x : ℚ) : ℤ :=
  let below := ⌊x⌋
  if x - below < 1 / 2 then below
  else if 1 / 2 < x - below then below + 1
  else if below % 2 = 0 then below
  else below + 1

namespace FloatFormat

variable (fmt : FloatFormat)

/-- The distance between values of the magnitude of `q`. -/
def ulp (q : ℚ) : ℚ := 2 ^ max (Int.log 2 |q| - (fmt.precision - 1)) fmt.minExp

/-- The value nearest to `q`. -/
def round (q : ℚ) : FloatValue :=
  if q = 0 then .finite 0
  else
    let magnitude := roundEven (|q| / fmt.ulp q) * fmt.ulp q
    if 2 ^ fmt.maxExp ≤ magnitude then .infinite (q < 0)
    else .finite (if q < 0 then -magnitude else magnitude)

/-- `f64::MAX`. -/
def largest : FloatValue := .finite ((2 - 2 ^ (1 - (fmt.precision : Int))) * 2 ^ (fmt.maxExp - 1))

/-- `f64::MIN`. -/
def least : FloatValue := .finite (-((2 - 2 ^ (1 - (fmt.precision : Int))) * 2 ^ (fmt.maxExp - 1)))

/-- `n as f32`. -/
def ofNat (n : Nat) : FloatValue := fmt.round n

/-- The sign of a value that is not NaN. -/
def negative : FloatValue → Bool
  | .nan => false
  | .infinite negative => negative
  | .finite q => q < 0

/-- `a + b`. -/
def add : FloatValue → FloatValue → FloatValue
  | .finite p, .finite q => fmt.round (p + q)
  | .nan, _ | _, .nan => .nan
  | .infinite s, .infinite t => if s = t then .infinite s else .nan
  | .infinite s, .finite _ | .finite _, .infinite s => .infinite s

/-- `a * b`. -/
def mul : FloatValue → FloatValue → FloatValue
  | .finite p, .finite q => fmt.round (p * q)
  | .nan, _ | _, .nan => .nan
  | a, b => if a = .finite 0 ∨ b = .finite 0 then .nan else .infinite (negative a ^^ negative b)

/-- `a / b`; a zero is positive. -/
def div : FloatValue → FloatValue → FloatValue
  | .nan, _ | _, .nan => .nan
  | .infinite _, .infinite _ => .nan
  | .infinite s, b => .infinite (s ^^ negative b)
  | .finite _, .infinite _ => .finite 0
  | .finite p, .finite q =>
    if q = 0 then if p = 0 then .nan else .infinite (p < 0) else fmt.round (p / q)

end FloatFormat

/-! ## Parsing -/

/-- The number that digits denote. -/
def digitsValue (digits : Text) : Nat := digits.foldl (fun n c => n * 10 + (c.toNat - 48)) 0

/-- The exponent: an optional sign, then digits. -/
def parseExponent (s : Text) : Option Int :=
  let (negative, digits) := match s with
    | '-' :: digits => (true, digits)
    | '+' :: digits => (false, digits)
    | _ => (false, s)
  if digits.isEmpty ∨ ¬ digits.all Char.isDigit then none
  else some (if negative then -(digitsValue digits : Int) else digitsValue digits)

/-- A number without a sign: digits with a point, and an exponent. -/
def parseNumber (s : Text) : Option ℚ :=
  let (whole, rest) := s.span Char.isDigit
  let (fraction, rest) := match rest with
    | '.' :: rest => rest.span Char.isDigit
    | _ => ([], rest)
  let value (exponent : Int) : ℚ :=
    digitsValue (whole ++ fraction) * 10 ^ (exponent - (fraction.length : Int))
  if whole.isEmpty ∧ fraction.isEmpty then none
  else
    match rest with
    | [] => some (value 0)
    | c :: exponent => if c = 'e' ∨ c = 'E' then (parseExponent exponent).map value else none

/-- `str::parse` into a float: a number, or `nan`, `inf`, `infinity` in any case. -/
def FloatFormat.parse (fmt : FloatFormat) (s : Text) : Option FloatValue :=
  let (negative, body) := match s with
    | '-' :: body => (true, body)
    | '+' :: body => (false, body)
    | _ => (false, s)
  let lower := body.map Char.toLower
  if lower = "nan".toList then some .nan
  else if lower = "inf".toList ∨ lower = "infinity".toList then some (.infinite negative)
  else (parseNumber body).map fun q => fmt.round (if negative then -q else q)

/-! ## Decimals -/

theorem span_of_all {α : Type} {p : α → Bool} {as bs : List α} (h : ∀ a ∈ as, p a = true)
    (hbs : ∀ b ∈ bs.head?, p b = false) : (as ++ bs).span p = (as, bs) := by
  rw [List.span_eq_takeWhile_dropWhile, List.takeWhile_append_of_pos h,
    List.dropWhile_append_of_pos h]
  cases bs with
  | nil => simp
  | cons b bs =>
    have hb := hbs b rfl
    rw [List.takeWhile_cons_of_neg (by simp [hb]), List.dropWhile_cons_of_neg (by simp [hb]),
      List.append_nil]

theorem parseNumber_decimal {whole fraction : Text} (hwhole : ∀ c ∈ whole, c.isDigit = true)
    (hfraction : ∀ c ∈ fraction, c.isDigit = true) (hne : whole ≠ []) :
    parseNumber (whole ++ '.' :: fraction) =
      some ((digitsValue (whole ++ fraction) : ℚ) / 10 ^ fraction.length) := by
  have hspan : (whole ++ '.' :: fraction).span Char.isDigit = (whole, '.' :: fraction) := by
    apply span_of_all hwhole
    intro b hb
    obtain rfl := Option.some.inj hb
    rfl
  have hspan' : fraction.span Char.isDigit = (fraction, []) := by
    have hall := @span_of_all _ _ _ [] hfraction nofun
    rwa [List.append_nil] at hall
  have hempty : ¬ (whole.isEmpty = true ∧ fraction.isEmpty = true) := by
    intro h
    exact hne (List.isEmpty_iff.mp h.1)
  simp only [parseNumber, hspan, hspan']
  rw [if_neg hempty, zero_sub, zpow_neg, zpow_natCast, div_eq_mul_inv]

theorem toLower_digit {c : Char} (h : c.isDigit = true) : c.toLower = c := by
  have hupper : ¬ (c.val ≥ 'A'.val ∧ c.val ≤ 'Z'.val) := by
    simp only [Char.isDigit, ge_iff_le, Bool.and_eq_true, decide_eq_true_eq,
      UInt32.le_iff_toNat_le] at h ⊢
    intro hupper
    exact absurd (Nat.le_trans hupper.1 h.2) (by decide)
  unfold Char.toLower
  exact dif_neg hupper


/-- **A decimal is read** from its digits. -/
theorem FloatFormat.parse_decimal (fmt : FloatFormat) {whole fraction : Text}
    (hwhole : ∀ c ∈ whole, c.isDigit = true) (hfraction : ∀ c ∈ fraction, c.isDigit = true)
    (hne : whole ≠ []) (negative : Bool) :
    fmt.parse ((if negative then ['-'] else []) ++ (whole ++ '.' :: fraction)) =
      some (fmt.round
        (let q := (digitsValue (whole ++ fraction) : ℚ) / 10 ^ fraction.length
        if negative then -q else q)) := by
  obtain ⟨c, cs, rfl⟩ := List.exists_cons_of_ne_nil hne
  have hc := hwhole c List.mem_cons_self
  have hnumber := parseNumber_decimal hwhole hfraction hne
  have hword : ∀ word : Text, (∀ w ∈ word.head?, w.isDigit = false) → word ≠ [] →
      ((c :: cs) ++ '.' :: fraction).map Char.toLower ≠ word := by
    intro word hhead hword heq
    subst heq
    have hlower := hhead c.toLower rfl
    rw [toLower_digit hc, hc] at hlower
    cases hlower
  have hnan := hword "nan".toList (by simp) (by simp)
  have hinf := not_or.mpr ⟨hword "inf".toList (by simp) (by simp),
    hword "infinity".toList (by simp) (by simp)⟩
  cases negative with
  | true =>
    show fmt.parse ('-' :: ((c :: cs) ++ '.' :: fraction)) = _
    simp only [FloatFormat.parse]
    rw [if_neg hnan, if_neg hinf, hnumber]
    rfl
  | false =>
    show fmt.parse ((c :: cs) ++ '.' :: fraction) = _
    have hminus : c ≠ '-' := by
      rintro rfl
      cases hc
    have hplus : c ≠ '+' := by
      rintro rfl
      cases hc
    unfold FloatFormat.parse
    split
    next _ negative body heq =>
    split at heq
    · next hcons => exact absurd (List.cons.inj hcons).1 hminus
    · next hcons => exact absurd (List.cons.inj hcons).1 hplus
    · obtain ⟨rfl, rfl⟩ := Prod.mk.inj heq
      rw [if_neg hnan, if_neg hinf, hnumber]
      rfl

/-! ## Rounding -/

theorem abs_roundEven_sub_le (x : ℚ) : |(roundEven x : ℚ) - x| ≤ 1 / 2 := by
  have hfloor := Int.floor_le x
  have hlt := Int.lt_floor_add_one x
  unfold roundEven
  dsimp only
  rw [abs_le]
  split
  · constructor <;> linarith
  · split
    · push_cast
      constructor <;> linarith
    · split
      · constructor <;> linarith
      · push_cast
        constructor <;> linarith

theorem roundEven_intCast (n : ℤ) : roundEven n = n := by
  unfold roundEven
  dsimp only
  rw [Int.floor_intCast, sub_self, if_pos (by norm_num)]

theorem roundEven_mem (x : ℚ) : ⌊x⌋ ≤ roundEven x ∧ roundEven x ≤ ⌊x⌋ + 1 := by
  unfold roundEven
  dsimp only
  split_ifs <;> omega

theorem roundEven_mono {x y : ℚ} (h : x ≤ y) : roundEven x ≤ roundEven y := by
  obtain hlt | heq := (Int.floor_mono h).lt_or_eq
  · calc roundEven x ≤ ⌊x⌋ + 1 := (roundEven_mem x).2
      _ ≤ ⌊y⌋ := hlt
      _ ≤ roundEven y := (roundEven_mem y).1
  · unfold roundEven
    dsimp only
    rw [heq]
    split_ifs <;> first | omega | (exfalso; linarith)

namespace FloatFormat

variable {fmt : FloatFormat}

theorem ulp_pos (q : ℚ) : 0 < fmt.ulp q := zpow_pos (by norm_num) _

/-- The magnitude that a value is rounded to grows with it: within a power of two because rounding
to an integer does, and from one to a later one through the power of two between. -/
theorem magnitude_mono (hprecision : 1 ≤ fmt.precision) {x y : ℚ} (hx : 0 < x) (h : x ≤ y) :
    roundEven (x / fmt.ulp x) * fmt.ulp x ≤ roundEven (y / fmt.ulp y) * fmt.ulp y := by
  have hy : 0 < y := hx.trans_le h
  have hlog : Int.log 2 x ≤ Int.log 2 y := Int.log_mono_right hx h
  by_cases hsame : fmt.ulp x = fmt.ulp y
  · have hpos : 0 < fmt.ulp y := ulp_pos y
    have hround := roundEven_mono (div_le_div_of_nonneg_right h hpos.le)
    rw [hsame]
    exact mul_le_mul_of_nonneg_right (by exact_mod_cast hround) hpos.le
  · have hulpx : fmt.ulp x = 2 ^ max (Int.log 2 x - (fmt.precision - 1)) fmt.minExp := by
      rw [ulp, abs_of_pos hx]
    have hulpy : fmt.ulp y = 2 ^ max (Int.log 2 y - (fmt.precision - 1)) fmt.minExp := by
      rw [ulp, abs_of_pos hy]
    have hexp : max (Int.log 2 x - (fmt.precision - 1)) fmt.minExp ≠
        max (Int.log 2 y - (fmt.precision - 1)) fmt.minExp := by
      intro heq
      exact hsame (by rw [hulpx, hulpy, heq])
    obtain ⟨k, hk⟩ : ∃ k : ℕ, Int.log 2 y =
        max (Int.log 2 x - (fmt.precision - 1)) fmt.minExp + k :=
      ⟨(Int.log 2 y - max (Int.log 2 x - (fmt.precision - 1)) fmt.minExp).toNat, by omega⟩
    obtain ⟨l, hl⟩ : ∃ l : ℕ, Int.log 2 y =
        max (Int.log 2 y - (fmt.precision - 1)) fmt.minExp + l :=
      ⟨fmt.precision - 1, by omega⟩
    have hbelow : x ≤ 2 ^ Int.log 2 y := by
      have hlt : x < 2 ^ (Int.log 2 x + 1) := by
        exact_mod_cast Int.lt_zpow_succ_log_self (by norm_num : 1 < 2) x
      exact hlt.le.trans (zpow_le_zpow_right₀ (by norm_num) (by omega))
    have habove : (2 : ℚ) ^ Int.log 2 y ≤ y := by
      exact_mod_cast Int.zpow_log_le_self (by norm_num : 1 < 2) hy
    calc (roundEven (x / fmt.ulp x) : ℚ) * fmt.ulp x ≤ 2 ^ Int.log 2 y := ?_
      _ ≤ roundEven (y / fmt.ulp y) * fmt.ulp y := ?_
    · have hpow : (2 : ℚ) ^ Int.log 2 y = 2 ^ k * fmt.ulp x := by
        rw [hulpx, hk, zpow_add₀ (by norm_num), zpow_natCast, mul_comm]
      have hround : roundEven (x / fmt.ulp x) ≤ 2 ^ k := by
        rw [← roundEven_intCast (2 ^ k)]
        apply roundEven_mono
        rw [div_le_iff₀ (ulp_pos x)]
        push_cast
        rw [← hpow]
        exact hbelow
      rw [hpow]
      exact mul_le_mul_of_nonneg_right (by exact_mod_cast hround) (ulp_pos x).le
    · have hpow : (2 : ℚ) ^ Int.log 2 y = 2 ^ l * fmt.ulp y := by
        rw [hulpy]
        conv_lhs => rw [hl]
        rw [zpow_add₀ (by norm_num), zpow_natCast, mul_comm]
      have hround : 2 ^ l ≤ roundEven (y / fmt.ulp y) := by
        rw [← roundEven_intCast (2 ^ l)]
        apply roundEven_mono
        rw [le_div_iff₀ (ulp_pos y)]
        push_cast
        rw [← hpow]
        exact habove
      rw [hpow]
      exact mul_le_mul_of_nonneg_right (by exact_mod_cast hround) (ulp_pos y).le

/-- **Rounding is monotone.** -/
theorem round_mono (hprecision : 1 ≤ fmt.precision) {x y : ℚ} (hx : 0 < x) (h : x ≤ y) :
    (fmt.round x).key ≤ (fmt.round y).key := by
  have hmagnitude := magnitude_mono hprecision hx h
  have hy : 0 < y := hx.trans_le h
  unfold round
  rw [if_neg hx.ne', if_neg hy.ne', abs_of_pos hx, abs_of_pos hy]
  dsimp only
  rw [if_neg (not_lt.mpr hx.le), if_neg (not_lt.mpr hy.le)]
  simp only [not_lt.mpr hx.le, not_lt.mpr hy.le, decide_false]
  split_ifs with hxlarge hylarge hylarge
  · exact le_rfl
  · exact absurd (hxlarge.trans hmagnitude) hylarge
  · exact Prod.Lex.toLex_le_toLex.mpr (.inl Nat.one_lt_two)
  · exact Prod.Lex.toLex_le_toLex.mpr (.inr ⟨rfl, hmagnitude⟩)

/-- Above the least normal value, the distance between values is small against them. -/
theorem ulp_le {q : ℚ} (hq : 2 ^ (fmt.minExp + (fmt.precision - 1)) ≤ q) :
    0 < fmt.ulp q ∧ fmt.ulp q ≤ q * (2 * 2 ^ (-(fmt.precision : Int))) := by
  have hpos : 0 < q := lt_of_lt_of_le (zpow_pos (by norm_num) _) hq
  have hlog : fmt.minExp + (fmt.precision - 1) ≤ Int.log 2 q := by
    rw [← Int.zpow_le_iff_le_log (by norm_num) hpos]
    exact_mod_cast hq
  have hulp : fmt.ulp q = 2 ^ Int.log 2 q * (2 * 2 ^ (-(fmt.precision : Int))) := by
    have hexp : Int.log 2 q - (fmt.precision - 1) =
        Int.log 2 q + (1 + -(fmt.precision : Int)) := by ring
    rw [ulp, abs_of_pos hpos, max_eq_left (by omega), hexp, zpow_add₀ (by norm_num),
      zpow_add₀ (by norm_num), zpow_one]
  have hle : (2 : ℚ) ^ Int.log 2 q ≤ q := by
    exact_mod_cast Int.zpow_log_le_self (by norm_num) hpos
  rw [hulp]
  exact ⟨by positivity, mul_le_mul_of_nonneg_right hle (by positivity)⟩

/-- **The error of rounding**: one part in `2 ^ precision` at most, above the least normal
value, unless the result is too large for the format. -/
theorem round_normal {q : ℚ} (hq : 2 ^ (fmt.minExp + (fmt.precision - 1)) ≤ q) :
    ∃ v, |v - q| ≤ q * 2 ^ (-(fmt.precision : Int)) ∧
      (fmt.round q = .finite v ∨ fmt.round q = .infinite false ∧ 2 ^ fmt.maxExp ≤ v) := by
  have hpos : 0 < q := lt_of_lt_of_le (zpow_pos (by norm_num) _) hq
  obtain ⟨hulp, hulp_le⟩ := ulp_le hq
  refine ⟨roundEven (q / fmt.ulp q) * fmt.ulp q, ?_, ?_⟩
  · have hsplit : roundEven (q / fmt.ulp q) * fmt.ulp q - q =
        (roundEven (q / fmt.ulp q) - q / fmt.ulp q) * fmt.ulp q := by
      rw [sub_mul, div_mul_cancel₀ _ hulp.ne']
    have hround := mul_le_mul_of_nonneg_right (abs_roundEven_sub_le (q / fmt.ulp q)) hulp.le
    rw [hsplit, abs_mul, abs_of_pos hulp]
    linarith
  · unfold round
    rw [if_neg hpos.ne', abs_of_pos hpos]
    dsimp only
    split
    · next hlarge => exact .inr ⟨by simp [not_lt.mpr hpos.le], hlarge⟩
    · exact .inl (by rw [if_neg (not_lt.mpr hpos.le)])

theorem div_finite (p : ℚ) {q : ℚ} (h : q ≠ 0) :
    fmt.div (.finite p) (.finite q) = fmt.round (p / q) := if_neg h

/-- Rounding does not see the sign. -/
theorem round_neg {q v : ℚ} (h : fmt.round q = .finite v) : fmt.round (-q) = .finite (-v) := by
  have hulp : fmt.ulp (-q) = fmt.ulp q := by rw [ulp, ulp, abs_neg]
  unfold round at h ⊢
  rw [abs_neg, hulp]
  by_cases hzero : q = 0
  · rw [if_pos hzero] at h
    rw [if_pos (by rw [hzero, neg_zero]), ← FloatValue.finite.inj h, neg_zero]
  · rw [if_neg hzero] at h
    rw [if_neg (neg_ne_zero.mpr hzero)]
    dsimp only at h ⊢
    split at h
    · cases h
    · next hfits =>
      rw [if_neg hfits, ← FloatValue.finite.inj h]
      rcases lt_or_gt_of_ne hzero with hneg | hpos
      · rw [if_neg (by linarith), if_pos hneg, neg_neg]
      · rw [if_pos (by linarith), if_neg (by linarith)]

/-- The error of rounding as a factor, for values of either sign that are normal and not near the
end of the format. -/
theorem round_factor {q : ℚ} (hlow : 2 ^ (fmt.minExp + (fmt.precision - 1)) ≤ |q|)
    (hhigh : |q| < 2 ^ (fmt.maxExp - 1)) :
    ∃ δ : ℚ, |δ| ≤ 2 ^ (-(fmt.precision : Int)) ∧ fmt.round q = .finite (q * (1 + δ)) := by
  have hpos : 0 < |q| := lt_of_lt_of_le (zpow_pos (by norm_num) _) hlow
  have hle : (2 : ℚ) ^ (-(fmt.precision : Int)) ≤ 1 :=
    zpow_le_one_of_nonpos₀ (by norm_num) (by omega)
  obtain ⟨v, hv, hround⟩ := round_normal hlow
  rcases hround with hfinite | ⟨-, hlarge⟩
  swap
  · have htwice : |q| * 2 < 2 ^ fmt.maxExp := by
      calc |q| * 2 < 2 ^ (fmt.maxExp - 1) * 2 := by linarith
        _ = 2 ^ fmt.maxExp := by
          rw [← zpow_add_one₀ (by norm_num)]
          congr 1
          ring
    have hbound := (abs_le.mp hv).2
    have hmul : |q| * 2 ^ (-(fmt.precision : Int)) ≤ |q| := mul_le_of_le_one_right hpos.le hle
    linarith
  -- the same factor serves both signs
  refine ⟨(v - |q|) / |q|, ?_, ?_⟩
  · rw [abs_div, abs_abs, div_le_iff₀ hpos, mul_comm]
    exact hv
  · have hv' : |q| * (1 + (v - |q|) / |q|) = v := by
      field_simp
      ring
    rcases le_total 0 q with hq | hq
    · rw [abs_of_nonneg hq] at hv' hfinite ⊢
      rw [hv', hfinite]
    · rw [abs_of_nonpos hq] at hv' hfinite ⊢
      have hneg := round_neg hfinite
      rw [neg_neg] at hneg
      rw [hneg]
      congr 1
      rw [neg_mul] at hv'
      linarith

/-- **Integers that the significand has room for are values.** -/
theorem round_intCast (hexp : fmt.minExp ≤ 0) (hmax : (fmt.precision : Int) < fmt.maxExp) {n : ℤ}
    (h : |n| < 2 ^ fmt.precision) : fmt.round n = .finite n := by
  by_cases hzero : n = 0
  · rw [hzero, Int.cast_zero, round, if_pos rfl]
  have hne : (n : ℚ) ≠ 0 := Int.cast_ne_zero.mpr hzero
  have hcast : |(n : ℚ)| = ((|n| : ℤ) : ℚ) := by rw [Int.cast_abs]
  have hpos : 0 < |(n : ℚ)| := abs_pos.mpr hne
  have hlt : |(n : ℚ)| < 2 ^ (fmt.precision : Int) := by
    rw [hcast, zpow_natCast]
    exact_mod_cast h
  -- the distance between values there is a power of two that is not above one
  have hlog : Int.log 2 |(n : ℚ)| < fmt.precision := by
    rw [← Int.lt_zpow_iff_log_lt (by norm_num) hpos]
    exact_mod_cast hlt
  obtain ⟨k, hk⟩ : ∃ k : ℕ,
      max (Int.log 2 |(n : ℚ)| - (fmt.precision - 1)) fmt.minExp = -(k : Int) :=
    ⟨(-max (Int.log 2 |(n : ℚ)| - (fmt.precision - 1)) fmt.minExp).toNat, by omega⟩
  have hulp : fmt.ulp n = (2 ^ k)⁻¹ := by rw [ulp, hk, zpow_neg, zpow_natCast]
  have hmagnitude : (roundEven (|(n : ℚ)| / fmt.ulp n) : ℚ) * fmt.ulp n = |(n : ℚ)| := by
    have hint : |(n : ℚ)| / fmt.ulp n = ((|n| * 2 ^ k : ℤ) : ℚ) := by
      rw [hulp, div_inv_eq_mul, hcast]
      push_cast
      rfl
    rw [hint, roundEven_intCast, ← hint, div_mul_cancel₀ _ (ulp_pos _).ne']
  rw [round, if_neg hne]
  dsimp only
  rw [hmagnitude, if_neg]
  · congr 1
    split
    · next hneg => rw [abs_of_neg hneg, neg_neg]
    · next hneg => rw [abs_of_nonneg (not_lt.mp hneg)]
  · have hle : (2 : ℚ) ^ (fmt.precision : Int) ≤ 2 ^ fmt.maxExp :=
      zpow_le_zpow_right₀ (by norm_num) hmax.le
    linarith

/-- **Rounding does not leave a range with integer ends.** -/
theorem abs_round_le (hprecision : 1 ≤ fmt.precision) (hexp : fmt.minExp ≤ 0)
    (hmax : (fmt.precision : Int) < fmt.maxExp) {n : ℕ} (hn : n < 2 ^ fmt.precision) {q : ℚ}
    (h : |q| ≤ n) : ∃ v, fmt.round q = .finite v ∧ |v| ≤ n := by
  have hpositive : ∀ {x : ℚ}, 0 < x → x ≤ n → ∃ v, fmt.round x = .finite v ∧ |v| ≤ n := by
    intro x hx hle
    have hround : fmt.round (n : ℚ) = .finite n := by
      have := round_intCast hexp hmax (n := (n : ℤ)) (by exact_mod_cast hn)
      exact_mod_cast this
    have hmono := round_mono hprecision hx hle
    rw [hround] at hmono
    rcases hv : fmt.round x with _ | negative | v
    · rw [hv] at hmono
      exact absurd hmono (by simp [FloatValue.key, Prod.Lex.toLex_le_toLex])
    · rw [hv] at hmono
      cases negative with
      | false => exact absurd hmono (by simp [FloatValue.key, Prod.Lex.toLex_le_toLex])
      | true =>
        rw [round, if_neg hx.ne'] at hv
        dsimp only at hv
        split at hv
        · simp [not_lt.mpr hx.le] at hv
        · cases hv
    · rw [hv] at hmono
      refine ⟨v, rfl, ?_⟩
      have hle : v ≤ n := by simpa [FloatValue.key, Prod.Lex.toLex_le_toLex] using hmono
      have hnonneg : 0 ≤ v := by
        rw [round, if_neg hx.ne'] at hv
        dsimp only at hv
        split at hv
        · cases hv
        · rw [← FloatValue.finite.inj hv, if_neg (not_lt.mpr hx.le), abs_of_pos hx]
          have hulp : 0 < fmt.ulp x := ulp_pos x
          refine mul_nonneg ?_ hulp.le
          have hzero := roundEven_mono (div_pos hx hulp).le
          have hcast : roundEven (0 : ℚ) = 0 := by exact_mod_cast roundEven_intCast 0
          rw [hcast] at hzero
          exact_mod_cast hzero
      rw [abs_of_nonneg hnonneg]
      exact hle
  rcases lt_trichotomy q 0 with hneg | rfl | hpos
  · rw [abs_of_neg hneg] at h
    obtain ⟨v, hv, hle⟩ := hpositive (neg_pos.mpr hneg) h
    have hround := round_neg hv
    rw [neg_neg] at hround
    exact ⟨-v, hround, by rwa [abs_neg]⟩
  · exact ⟨0, if_pos rfl, by simp⟩
  · rw [abs_of_pos hpos] at h
    exact hpositive hpos h

/-! ## Ranges -/

/-- The value is finite, and of absolute value `n` at most. -/
def Within (n : ℕ) (v : FloatValue) : Prop := ∃ q : ℚ, v = .finite q ∧ |q| ≤ n

theorem Within.finite {n : ℕ} {v : FloatValue} (h : Within n v) : ∃ q, v = .finite q := by
  obtain ⟨q, hv, _⟩ := h
  exact ⟨q, hv⟩

theorem Within.mono {m n : ℕ} {v : FloatValue} (h : Within m v) (hle : m ≤ n) : Within n v := by
  obtain ⟨q, rfl, hq⟩ := h
  exact ⟨q, rfl, hq.trans (by exact_mod_cast hle)⟩

section

variable (hprecision : 1 ≤ fmt.precision) (hexp : fmt.minExp ≤ 0)
  (hmax : (fmt.precision : Int) < fmt.maxExp)
include hprecision hexp hmax

theorem Within.add {m n : ℕ} {v w : FloatValue} (hv : Within m v) (hw : Within n w)
    (hfits : m + n < 2 ^ fmt.precision) : Within (m + n) (fmt.add v w) := by
  obtain ⟨p, rfl, hp⟩ := hv
  obtain ⟨q, rfl, hq⟩ := hw
  refine abs_round_le hprecision hexp hmax hfits ?_
  push_cast
  exact (abs_add_le p q).trans (add_le_add hp hq)

theorem Within.mul {m n : ℕ} {v w : FloatValue} (hv : Within m v) (hw : Within n w)
    (hfits : m * n < 2 ^ fmt.precision) : Within (m * n) (fmt.mul v w) := by
  obtain ⟨p, rfl, hp⟩ := hv
  obtain ⟨q, rfl, hq⟩ := hw
  refine abs_round_le hprecision hexp hmax hfits ?_
  rw [abs_mul]
  push_cast
  exact mul_le_mul hp hq (abs_nonneg q) (Nat.cast_nonneg m)

end

/-- A value that is rounded to an integer and converted stays in its range. -/
theorem Within.abs_toI64_le {n : ℕ} {v : FloatValue} (h : Within n v) (hn : n < 2 ^ 63) :
    |v.round.toI64| ≤ n := by
  obtain ⟨q, rfl, hq⟩ := h
  obtain ⟨k, hk, hle⟩ : ∃ k : ℤ, (FloatValue.finite q).round = .finite k ∧ |k| ≤ n := by
    rw [abs_le] at hq
    rw [FloatValue.round]
    rcases le_or_gt 0 q with hpos | hneg
    · rw [if_pos hpos]
      refine ⟨_, rfl, ?_⟩
      have hlow : 0 ≤ ⌊q + 1 / 2⌋ := Int.floor_nonneg.mpr (by linarith)
      have hhigh : ⌊q + 1 / 2⌋ < (n : ℤ) + 1 := by
        rw [Int.floor_lt]
        push_cast
        linarith
      rw [abs_of_nonneg hlow]
      omega
    · rw [if_neg (not_le.mpr hneg)]
      refine ⟨-⌊-q + 1 / 2⌋, by push_cast; rfl, ?_⟩
      have hlow : 0 ≤ ⌊-q + 1 / 2⌋ := Int.floor_nonneg.mpr (by linarith)
      have hhigh : ⌊-q + 1 / 2⌋ < (n : ℤ) + 1 := by
        rw [Int.floor_lt]
        push_cast
        linarith
      rw [abs_neg, abs_of_nonneg hlow]
      omega
  have hfits : |k| < 2 ^ 63 := lt_of_le_of_lt hle (by exact_mod_cast hn)
  have hvalue : (FloatValue.finite (k : ℚ)).toI64 = k := by
    have hfloor : (if 0 ≤ (k : ℚ) then ⌊(k : ℚ)⌋ else -⌊-(k : ℚ)⌋) = k := by
      split
      · exact Int.floor_intCast k
      · rw [← Int.cast_neg, Int.floor_intCast, neg_neg]
    rw [abs_lt] at hfits
    rw [FloatValue.toI64, hfloor]
    omega
  rw [hk, hvalue]
  exact hle

end FloatFormat

end Foundation
