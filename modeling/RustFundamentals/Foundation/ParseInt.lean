import Mathlib.Algebra.Order.Ring.Int
import RustFundamentals.Foundation.Decimal
import RustFundamentals.Foundation.Text

/-!
# Parsing integers

`str::parse` into an integer type with the bounds `lo` and `hi`: an optional sign, then digits
that are taken from the left until one of them is none, or takes the value out of the type. A
type without negative values does not take a `-` for a sign.
-/

namespace Foundation

/-- `std::num::IntErrorKind`, as far as `parse` returns it. -/
inductive IntErrorKind
  | empty
  | invalidDigit
  | posOverflow
  | negOverflow
  deriving DecidableEq, Repr

/-- `char::to_digit(10)`. -/
def toDigit (c : Char) : Option Int := if c.isDigit then some (c.toNat - 48) else none

/-- The digits of a non-negative number, the ones before them being worth `acc`. -/
def addDigits (hi : Int) : Text → Int → Except IntErrorKind Int
  | [], acc => .ok acc
  | c :: cs, acc =>
    match toDigit c with
    | none => .error .invalidDigit
    | some d => if hi < acc * 10 + d then .error .posOverflow else addDigits hi cs (acc * 10 + d)

/-- The digits of a negative number. -/
def subDigits (lo : Int) : Text → Int → Except IntErrorKind Int
  | [], acc => .ok acc
  | c :: cs, acc =>
    match toDigit c with
    | none => .error .invalidDigit
    | some d => if acc * 10 - d < lo then .error .negOverflow else subDigits lo cs (acc * 10 - d)

/-- `str::parse`. -/
def parseInt (lo hi : Int) (s : Text) : Except IntErrorKind Int :=
  match s with
  | [] => .error .empty
  | ['+'] | ['-'] => .error .invalidDigit
  | '+' :: digits => addDigits hi digits 0
  | '-' :: digits => if lo < 0 then subDigits lo digits 0 else .error .invalidDigit
  | digits => addDigits hi digits 0

/-! ## Unsigned integers -/

theorem toDigit_eq_some {c : Char} {d : Int} (h : toDigit c = some d) :
    c.isDigit = true ∧ 0 ≤ d := by
  unfold toDigit at h
  split at h
  · next hdigit =>
    refine ⟨hdigit, ?_⟩
    rw [← Option.some.inj h]
    simp only [Char.isDigit, Bool.and_eq_true, decide_eq_true_eq, ge_iff_le,
      UInt32.le_iff_toNat_le] at hdigit
    have hlow : 48 ≤ c.toNat := hdigit.1
    omega
  · cases h

/-- Only digits are added, and they do not make a number smaller. -/
theorem addDigits_ok {hi acc n : Int} {cs : Text} (h : addDigits hi cs acc = .ok n)
    (hacc : 0 ≤ acc) (hhi : acc ≤ hi) : 0 ≤ n ∧ n ≤ hi ∧ ∀ c ∈ cs, c.isDigit = true := by
  induction cs generalizing acc with
  | nil =>
    obtain rfl := Except.ok.inj h
    exact ⟨hacc, hhi, nofun⟩
  | cons c cs ih =>
    rw [addDigits] at h
    cases hdigit : toDigit c with
    | none =>
      rw [hdigit] at h
      cases h
    | some d =>
      obtain ⟨hc, hd⟩ := toDigit_eq_some hdigit
      rw [hdigit] at h
      dsimp only at h
      split at h
      · cases h
      · next hle =>
        obtain ⟨hn, hle', hcs⟩ := ih h (by omega) (by omega)
        exact ⟨hn, hle', List.forall_mem_cons.mpr ⟨hc, hcs⟩⟩

/-- **The text of an unsigned integer** is digits, behind a plus or not. -/
theorem parseInt_unsigned {hi n : Int} {s : Text} (h : parseInt 0 hi s = .ok n) (hhi : 0 ≤ hi) :
    0 ≤ n ∧ n ≤ hi ∧ s ≠ [] ∧ ∀ c ∈ s, c.isDigit = true ∨ c = '+' := by
  unfold parseInt at h
  split at h
  · cases h
  · cases h
  · cases h
  · next digits hne =>
    obtain ⟨hn, hle, hdigits⟩ := addDigits_ok h le_rfl hhi
    refine ⟨hn, hle, List.cons_ne_nil _ _, ?_⟩
    intro c hc
    rcases List.mem_cons.mp hc with rfl | hc
    · exact .inr rfl
    · exact .inl (hdigits c hc)
  · rw [if_neg (lt_irrefl 0)] at h
    cases h
  · next hne _ _ _ _ =>
    obtain ⟨hn, hle, hdigits⟩ := addDigits_ok h le_rfl hhi
    exact ⟨hn, hle, hne, fun c hc => .inl (hdigits c hc)⟩

example : parseInt 0 65535 "+8080".toList = .ok 8080 := by decide
example : parseInt 0 65535 "65536".toList = .error .posOverflow := by decide

/-! ## Printed integers -/

/-- An ASCII digit. -/
def digitChar (d : Nat) : Char := Char.ofNat (48 + d)

/-- `to_string`. -/
def decimalText (n : Nat) : Text := (decimalDigits n).map digitChar

theorem toDigit_digitChar {d : Nat} (h : d < 10) : toDigit (digitChar d) = some (d : Int) := by
  interval_cases d <;> rfl

theorem addDigits_digits {hi : Int} {ds : List Nat} (hds : ∀ d ∈ ds, d < 10) {acc : Nat}
    (hhi : ((acc * 10 ^ ds.length + Nat.ofDigits 10 ds.reverse : Nat) : Int) ≤ hi) :
    addDigits hi (ds.map digitChar) acc =
      .ok ((acc * 10 ^ ds.length + Nat.ofDigits 10 ds.reverse : Nat) : Int) := by
  induction ds generalizing acc with
  | nil => simp [addDigits]
  | cons d ds ih =>
    have hvalue : acc * 10 ^ (d :: ds).length + Nat.ofDigits 10 (d :: ds).reverse =
        (acc * 10 + d) * 10 ^ ds.length + Nat.ofDigits 10 ds.reverse := by
      rw [List.reverse_cons, Nat.ofDigits_append, List.length_reverse, Nat.ofDigits_singleton,
        List.length_cons, pow_succ]
      ring
    rw [hvalue] at hhi ⊢
    have hle : ((acc * 10 + d : Nat) : Int) ≤ hi := by
      refine le_trans ?_ hhi
      have := Nat.le_mul_of_pos_right (acc * 10 + d) (pow_pos (by norm_num : 0 < 10) ds.length)
      exact_mod_cast this.trans (Nat.le_add_right _ _)
    rw [List.map_cons, addDigits, toDigit_digitChar (hds d List.mem_cons_self)]
    dsimp only
    have hcast : (acc : Int) * 10 + d = ((acc * 10 + d : Nat) : Int) := by push_cast; ring
    rw [hcast, if_neg (not_lt.mpr hle)]
    exact ih (fun d' hd => hds d' (List.mem_cons_of_mem _ hd)) hhi

theorem isDigit_of_mem_decimalText {n : Nat} {c : Char} (h : c ∈ decimalText n) :
    c.isDigit = true := by
  obtain ⟨d, hd, rfl⟩ := List.mem_map.mp h
  exact (toDigit_eq_some (toDigit_digitChar (decimalDigits_lt n d hd))).1

/-- **What is printed is read back**, if the type has it. -/
theorem parseInt_decimalText {lo hi : Int} {n : Nat} (h : (n : Int) ≤ hi) :
    parseInt lo hi (decimalText n) = .ok n := by
  have hsum : addDigits hi (decimalText n) 0 = .ok n := by
    have hadd := @addDigits_digits hi _ (decimalDigits_lt n) 0
    rw [zero_mul, zero_add, ofDigits_decimalDigits] at hadd
    exact hadd h
  have hplus : '+' ∉ decimalText n := fun hc => absurd (isDigit_of_mem_decimalText hc) (by decide)
  have hminus : '-' ∉ decimalText n := fun hc => absurd (isDigit_of_mem_decimalText hc) (by decide)
  unfold parseInt
  split
  · next hnil => exact absurd (List.map_eq_nil_iff.mp hnil) (decimalDigits_ne_nil n)
  · next heq => exact absurd List.mem_cons_self (heq ▸ hplus)
  · next heq => exact absurd List.mem_cons_self (heq ▸ hminus)
  · next heq => exact absurd List.mem_cons_self (heq ▸ hplus)
  · next heq => exact absurd List.mem_cons_self (heq ▸ hminus)
  · exact hsum

end Foundation
