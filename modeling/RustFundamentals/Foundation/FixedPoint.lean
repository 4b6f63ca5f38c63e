import RustFundamentals.Foundation.Decimal
import RustFundamentals.Foundation.FloatFormat
import RustFundamentals.Foundation.ParseInt
import RustFundamentals.Foundation.TextLines

/-!
# One decimal

How `{v:.1}` prints a float: the exact value is rounded to tenths, half to even. Tenths are read
back as they are printed (`parse_tenthsText`).
-/

namespace Foundation

/-- Tenths with a sign, as `d.d`. -/
def tenthsText (negative : Bool) (n : Nat) : Bytes :=
  (if negative then [45] else []) ++ decimal (n / 10) ++ [46, digitByte (n % 10)]

/-- The tenths nearest to a value, the even one of two. -/
def nearestTenths (q : ℚ) : Nat := (roundEven (|q| * 10)).toNat

/-- `{v:.1}`, of a zero without a sign. -/
def oneDecimal : FloatValue → Bytes
  | .nan => ascii "NaN"
  | .infinite negative => (if negative then [45] else []) ++ ascii "inf"
  | .finite q => tenthsText (q < 0) (nearestTenths q)

/-- Rounding to tenths is off by half a tenth at most. -/
theorem abs_nearestTenths_sub_le (q : ℚ) : |(nearestTenths q : ℚ) / 10 - abs q| ≤ 1 / 20 := by
  have hnonneg : 0 ≤ roundEven (|q| * 10) := by
    rw [← roundEven_intCast 0]
    exact roundEven_mono (by push_cast; positivity)
  have hcast : (nearestTenths q : ℚ) = roundEven (|q| * 10) := by
    rw [nearestTenths, ← Int.cast_natCast, Int.toNat_of_nonneg hnonneg]
  have herror := abs_roundEven_sub_le (|q| * 10)
  rw [hcast, abs_le] at *
  constructor <;> linarith

/-- A value nearer to `n` tenths than to any others is printed as `n` tenths. -/
theorem nearestTenths_eq {q : ℚ} {n : Nat} (h : |abs q - n / 10| ≤ 1 / 40) :
    nearestTenths q = n := by
  have herror := abs_nearestTenths_sub_le q
  rw [abs_le] at h herror
  have hlow : (n : ℚ) < nearestTenths q + 1 := by linarith
  have hhigh : (nearestTenths q : ℚ) < n + 1 := by linarith
  norm_cast at hlow hhigh
  omega

/-! ## Read back -/

theorem asciiChar_digitByte {d : Nat} (h : d < 10) :
    Text.asciiChar (digitByte d) = digitChar d := by
  rw [Text.asciiChar, digitByte_toNat h, digitChar]

theorem decimal_text (n : Nat) : (decimal n).map Text.asciiChar = decimalText n := by
  rw [decimal_eq, List.map_map, decimalText]
  exact List.map_congr_left fun d hd => asciiChar_digitByte (decimalDigits_lt n d hd)

theorem toNat_digitChar {d : Nat} (h : d < 10) : (digitChar d).toNat = 48 + d := by
  interval_cases d <;> rfl

theorem digitsValue_digits {ds : List Nat} (h : ∀ d ∈ ds, d < 10) :
    digitsValue (ds.map digitChar) = Nat.ofDigits 10 ds.reverse := by
  induction ds using List.reverseRecOn with
  | nil => rfl
  | append_singleton ds d ih =>
    have hd := h d (by simp)
    have hds := ih fun d' hd' => h d' (List.mem_append_left _ hd')
    rw [digitsValue] at hds
    rw [List.map_append, digitsValue, List.foldl_append, hds, List.reverse_append]
    simp only [List.map_cons, List.map_nil, List.foldl_cons, List.foldl_nil, toNat_digitChar hd,
      List.reverse_singleton, List.singleton_append, Nat.ofDigits_cons]
    omega

/-- **Tenths are read back** as they are written. -/
theorem parse_tenthsText (n : Nat) :
    f32.parse ((tenthsText false n).map Text.asciiChar) = some (f32.round (n / 10)) := by
  have hlast : n % 10 < 10 := Nat.mod_lt n (by norm_num)
  have htext : (tenthsText false n).map Text.asciiChar =
      decimalText (n / 10) ++ '.' :: [digitChar (n % 10)] := by
    rw [tenthsText, if_neg Bool.false_ne_true, List.nil_append, List.map_append, decimal_text,
      ← asciiChar_digitByte hlast]
    rfl
  have hdigit : ∀ c ∈ [digitChar (n % 10)], c.isDigit = true := by
    intro c hc
    rw [List.mem_singleton.mp hc]
    exact (toDigit_eq_some (toDigit_digitChar hlast)).1
  have hne : decimalText (n / 10) ≠ [] :=
    fun hnil => decimalDigits_ne_nil _ (List.map_eq_nil_iff.mp hnil)
  have hvalue : digitsValue (decimalText (n / 10) ++ [digitChar (n % 10)]) = n := by
    have hall : ∀ d ∈ decimalDigits (n / 10) ++ [n % 10], d < 10 := by
      intro d hd
      rcases List.mem_append.mp hd with hd | hd
      · exact decimalDigits_lt _ d hd
      · rw [List.mem_singleton.mp hd]
        exact hlast
    have hdigits := digitsValue_digits hall
    rw [List.map_append, List.reverse_append, Nat.ofDigits_append,
      ofDigits_decimalDigits] at hdigits
    refine hdigits.trans ?_
    simp only [List.reverse_singleton, Nat.ofDigits_singleton, List.length_singleton, pow_one]
    omega
  have hparse := f32.parse_decimal (fun c hc => isDigit_of_mem_decimalText hc) hdigit hne false
  rw [if_neg Bool.false_ne_true, List.nil_append, ← htext] at hparse
  rw [hparse, hvalue]
  simp

theorem printable_decimal (n : Nat) : Text.Printable (decimal n) := by
  refine ⟨decimal_ne_nil n, fun b hb => ?_⟩
  have := decimal_digit hb
  omega

theorem printable_tenthsText (n : Nat) : Text.Printable (tenthsText false n) := by
  have hlast : n % 10 < 10 := Nat.mod_lt n (by norm_num)
  refine ⟨by simp [tenthsText], fun b hb => ?_⟩
  rw [tenthsText, if_neg Bool.false_ne_true, List.nil_append] at hb
  rcases List.mem_append.mp hb with hb | hb
  · exact (printable_decimal _).2 b hb
  · rcases List.mem_cons.mp hb with rfl | hb
    · decide
    · rw [List.mem_singleton.mp hb, digitByte_toNat hlast]
      omega

end Foundation
