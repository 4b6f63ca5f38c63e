import Mathlib.Data.Nat.Digits.Lemmas
import RustFundamentals.Foundation.Bytes

/-!
# Decimal text

How `to_string` prints an integer and how `str::parse` reads one back. Parsing follows the
standard library: one optional sign, at least one digit, nothing else, and a value inside the
type's range; leading zeros are accepted.
-/

namespace Foundation

/-- The ASCII digit `d`. -/
def digitByte (d : Nat) : UInt8 := UInt8.ofNat (48 + d)

/-- A hexadecimal digit, in lower case. -/
def hexDigit (d : Nat) : UInt8 := if d < 10 then digitByte d else UInt8.ofNat (87 + d)

theorem hexDigit_lt : ∀ d < 16, hexDigit d < 0x80 := by decide

/-- `n.to_string()` for an unsigned integer. -/
def decimal (n : Nat) : Bytes :=
  if n = 0 then [digitByte 0] else (Nat.digits 10 n).reverse.map digitByte

/-- `i.to_string()` for a signed integer. -/
def decimalInt (i : Int) : Bytes :=
  if i < 0 then 45 :: decimal i.natAbs else decimal i.natAbs

/-- The value of an ASCII digit. -/
def digit? (b : UInt8) : Option Nat :=
  if 48 ≤ b.toNat ∧ b.toNat ≤ 57 then some (b.toNat - 48) else none

/-- The value of a string of one or more digits. -/
def parseDigits (bs : Bytes) : Option Nat :=
  if bs = [] then none
  else (bs.mapM digit?).map fun ds => Nat.ofDigits 10 ds.reverse

/-- `str::parse` into a `w`-bit unsigned integer; a leading `+` is accepted. -/
def parseUnsigned (w : Nat) (bs : Bytes) : Option Nat :=
  let digits := match bs with
    | 43 :: rest => rest
    | _ => bs
  (parseDigits digits).filter fun v => v < 2 ^ w

/-- `str::parse` into a `w`-bit signed integer; a leading `+` or `-` is accepted. -/
def parseSigned (w : Nat) (bs : Bytes) : Option Int :=
  match bs with
  | 45 :: rest =>
    ((parseDigits rest).filter fun v => v ≤ 2 ^ (w - 1)).map fun (v : Nat) => -(v : Int)
  | 43 :: rest =>
    ((parseDigits rest).filter fun v => v < 2 ^ (w - 1)).map fun (v : Nat) => (v : Int)
  | _ => ((parseDigits bs).filter fun v => v < 2 ^ (w - 1)).map fun (v : Nat) => (v : Int)

theorem parseUnsigned_lt {w : Nat} {bs : Bytes} {n : Nat} (h : parseUnsigned w bs = some n) :
    n < 2 ^ w := by
  unfold parseUnsigned at h
  have := (Option.filter_eq_some_iff.mp h).2
  simpa using this

theorem parseSigned_lt {w : Nat} {bs : Bytes} {n : Nat}
    (h : parseSigned w bs = some (Int.ofNat n)) : n < 2 ^ (w - 1) := by
  have hfilter : ∀ digits : Option Nat,
      ((digits.filter fun v => v < 2 ^ (w - 1)).map fun v : Nat => (v : Int)) =
        some (Int.ofNat n) → n < 2 ^ (w - 1) := by
    intro digits hdigits
    obtain ⟨v, hv, hvn⟩ := Option.map_eq_some_iff.mp hdigits
    obtain rfl := Int.ofNat.inj hvn
    simpa using (Option.filter_eq_some_iff.mp hv).2
  unfold parseSigned at h
  split at h
  · -- behind a minus only zero is not negative
    obtain ⟨v, -, hvn⟩ := Option.map_eq_some_iff.mp h
    have hzero : n = 0 := by
      have hn : -(v : Int) = (n : Int) := hvn
      omega
    rw [hzero]
    exact Nat.two_pow_pos _
  · exact hfilter _ h
  · exact hfilter _ h

/-! ## Printing then parsing -/

theorem digitByte_toNat {d : Nat} (h : d < 10) : (digitByte d).toNat = 48 + d := by
  rw [digitByte, UInt8.toNat_ofNat']
  omega

@[simp] theorem digit?_digitByte {d : Nat} (h : d < 10) : digit? (digitByte d) = some d := by
  rw [digit?, digitByte_toNat h, if_pos (by omega)]
  simp

/-- A string of digits is read back digit by digit. -/
theorem mapM_digit? {ds : List Nat} (h : ∀ d ∈ ds, d < 10) :
    (ds.map digitByte).mapM digit? = some ds := by
  induction ds with
  | nil => rfl
  | cons d ds ih =>
    have hd : digit? (digitByte d) = some d := digit?_digitByte (h d (by simp))
    have hds := ih fun x hx => h x (by simp [hx])
    simp [List.mapM_cons, hd, hds]

theorem digit?_eq_some {b : UInt8} {d : Nat} (h : digit? b = some d) :
    d < 10 ∧ b = digitByte d := by
  unfold digit? at h
  split at h
  · next hrange =>
    obtain rfl := Option.some.inj h
    refine ⟨by omega, UInt8.toNat_inj.mp ?_⟩
    rw [digitByte_toNat (by omega)]
    omega
  · cases h

/-- What is read digit by digit is a string of digits. -/
theorem mapM_digit?_eq_some {bs : Bytes} {ds : List Nat} (h : bs.mapM digit? = some ds) :
    (∀ d ∈ ds, d < 10) ∧ bs = ds.map digitByte := by
  induction bs generalizing ds with
  | nil =>
    obtain rfl := Option.some.inj h
    exact ⟨nofun, rfl⟩
  | cons b bs ih =>
    rw [List.mapM_cons] at h
    obtain ⟨d, hd, h⟩ := Option.bind_eq_some_iff.mp h
    obtain ⟨ds, hds, h⟩ := Option.bind_eq_some_iff.mp h
    obtain rfl := Option.some.inj h
    obtain ⟨hlt, rfl⟩ := digit?_eq_some hd
    obtain ⟨hall, rfl⟩ := ih hds
    exact ⟨List.forall_mem_cons.mpr ⟨hlt, hall⟩, rfl⟩

theorem parseDigits_map {ds : List Nat} (hne : ds ≠ []) (h : ∀ d ∈ ds, d < 10) :
    parseDigits (ds.map digitByte) = some (Nat.ofDigits 10 ds.reverse) := by
  rw [parseDigits, if_neg (by simpa using hne), mapM_digit? h]
  rfl

/-- The digits `decimal` prints. -/
def decimalDigits (n : Nat) : List Nat := if n = 0 then [0] else (Nat.digits 10 n).reverse

theorem decimal_eq (n : Nat) : decimal n = (decimalDigits n).map digitByte := by
  unfold decimal decimalDigits
  split <;> rfl

theorem decimalDigits_lt (n : Nat) : ∀ d ∈ decimalDigits n, d < 10 := by
  intro d hd
  unfold decimalDigits at hd
  split at hd
  · simp at hd; omega
  · exact Nat.digits_lt_base (by omega) (List.mem_reverse.mp hd)

theorem decimalDigits_ne_nil (n : Nat) : decimalDigits n ≠ [] := by
  unfold decimalDigits
  split
  · simp
  · rename_i h
    simpa [Nat.digits_ne_nil_iff_ne_zero] using h

theorem ofDigits_decimalDigits (n : Nat) : Nat.ofDigits 10 (decimalDigits n).reverse = n := by
  unfold decimalDigits
  split
  · rename_i h
    simp [h]
  · rw [List.reverse_reverse, Nat.ofDigits_digits]

/-- Zero-padded decimal text is read back, whatever the padding. -/
theorem parseDigits_padded (k n : Nat) :
    parseDigits (List.replicate k (digitByte 0) ++ decimal n) = some n := by
  have hmap : List.replicate k (digitByte 0) ++ decimal n =
      (List.replicate k 0 ++ decimalDigits n).map digitByte := by
    rw [decimal_eq, List.map_append, List.map_replicate]
  rw [hmap, parseDigits_map (by simp [decimalDigits_ne_nil])]
  · rw [List.reverse_append, Nat.ofDigits_append, ofDigits_decimalDigits,
      List.reverse_replicate, Nat.ofDigits_replicate_zero]
    simp
  · intro d hd
    rcases List.mem_append.mp hd with h | h
    · rw [(List.mem_replicate.mp h).2]; omega
    · exact decimalDigits_lt n d h

theorem parseDigits_decimal (n : Nat) : parseDigits (decimal n) = some n := by
  simpa using parseDigits_padded 0 n

/-- Every byte of decimal text is an ASCII digit. -/
theorem decimal_digit {n : Nat} {b : UInt8} (h : b ∈ decimal n) : 48 ≤ b.toNat ∧ b.toNat ≤ 57 := by
  rw [decimal_eq] at h
  obtain ⟨d, hd, rfl⟩ := List.mem_map.mp h
  have := decimalDigits_lt n d hd
  rw [digitByte_toNat this]
  omega

theorem decimal_of_lt_ten {n : Nat} (h : n < 10) : decimal n = [digitByte n] := by
  by_cases hzero : n = 0
  · rw [decimal, if_pos hzero, hzero]
  · rw [decimal, if_neg hzero, Nat.digits_of_lt 10 n hzero h]
    rfl

theorem decimal_of_lt_hundred {n : Nat} (hlo : 10 ≤ n) (h : n < 100) :
    decimal n = [digitByte (n / 10), digitByte (n % 10)] := by
  rw [decimal, if_neg (by omega), Nat.digits_def' (by norm_num) (by omega),
    Nat.digits_of_lt 10 (n / 10) (by omega) (by omega)]
  rfl

theorem decimal_ne_nil (n : Nat) : decimal n ≠ [] := by
  rw [decimal_eq]
  simpa using decimalDigits_ne_nil n

/-- `decimal n` starts with a digit, so with neither sign. -/
theorem decimal_cons (n : Nat) : ∃ b bs, decimal n = b :: bs ∧ b ≠ 43 ∧ b ≠ 45 := by
  obtain ⟨b, bs, h⟩ := List.exists_cons_of_ne_nil (decimal_ne_nil n)
  have hb : 48 ≤ b.toNat ∧ b.toNat ≤ 57 := decimal_digit (n := n) (by simp [h])
  refine ⟨b, bs, h, ?_, ?_⟩ <;> rintro rfl <;> exact absurd hb.1 (by decide)

theorem parseSigned_decimal {w n : Nat} (h : n < 2 ^ (w - 1)) :
    parseSigned w (decimal n) = some (n : Int) := by
  have hp := parseDigits_decimal n
  obtain ⟨b, bs, hbs, hplus, hminus⟩ := decimal_cons n
  rw [hbs] at hp ⊢
  rw [parseSigned, hp, Option.filter_some, if_pos (by simpa using h), Option.map_some]
  · intro rest hrest
    cases hrest
    exact hminus rfl
  · intro rest hrest
    cases hrest
    exact hplus rfl

/-- A signed integer in range is read back. -/
theorem parseSigned_decimalInt {w : Nat} {i : Int} (hlo : -2 ^ (w - 1) ≤ i)
    (hhi : i < 2 ^ (w - 1)) : parseSigned w (decimalInt i) = some i := by
  have hpow : ((2 ^ (w - 1) : Nat) : Int) = 2 ^ (w - 1) := by push_cast; rfl
  unfold decimalInt
  split
  · rename_i hneg
    have habs : i.natAbs ≤ 2 ^ (w - 1) := by omega
    rw [parseSigned, parseDigits_decimal, Option.filter_some, if_pos (by simpa using habs),
      Option.map_some]
    congr 1
    omega
  · rename_i hpos
    have habs : i.natAbs < 2 ^ (w - 1) := by omega
    rw [parseSigned_decimal habs]
    congr 1
    omega

/-- The text of an integer is ASCII and has no control characters. -/
theorem decimalInt_byte {i : Int} {b : UInt8} (h : b ∈ decimalInt i) : 45 ≤ b ∧ b < 0x80 := by
  have hdigit : ∀ b ∈ decimal i.natAbs, 45 ≤ b ∧ b < 0x80 := by
    intro b hb
    have := decimal_digit hb
    refine ⟨?_, ?_⟩
    · show 45 ≤ b.toNat
      omega
    · show b.toNat < 128
      omega
  unfold decimalInt at h
  split at h
  · rcases List.mem_cons.mp h with rfl | h
    · decide
    · exact hdigit b h
  · exact hdigit b h

/-- A number below `10 ^ k` has at most `k` digits, and at least one. -/
theorem decimal_length_le {k n : Nat} (hk : 0 < k) (h : n < 10 ^ k) : (decimal n).length ≤ k := by
  rw [decimal_eq, List.length_map, decimalDigits]
  split
  · exact hk
  · rw [List.length_reverse]
    exact (Nat.digits_length_le_iff (by decide) n).mpr h

theorem decimalInt_length_le {k : Nat} {i : Int} (hk : 0 < k) (h : i.natAbs < 10 ^ k) :
    (decimalInt i).length ≤ k + 1 := by
  have hlen := decimal_length_le hk h
  unfold decimalInt
  split
  · rw [List.length_cons]
    omega
  · omega

/-! ## Texts that denote an integer -/

/-- Digits denote an integer, behind a sign or without one. -/
inductive DenotesInt : Bytes → Int → Prop
  | plain (digits : Bytes) (n : Nat) (h : parseDigits digits = some n) : DenotesInt digits n
  | plus (digits : Bytes) (n : Nat) (h : parseDigits digits = some n) :
    DenotesInt (43 :: digits) n
  | minus (digits : Bytes) (n : Nat) (h : parseDigits digits = some n) :
    DenotesInt (45 :: digits) (-n)

theorem parseDigits_of_sign {b : UInt8} (h : digit? b = none) (bs : Bytes) :
    parseDigits (b :: bs) = none := by
  rw [parseDigits, if_neg (List.cons_ne_nil b bs), List.mapM_cons, h]
  rfl

/-- Only digits are read as digits. -/
theorem parseDigits_digit {bs : Bytes} {n : Nat} (h : parseDigits bs = some n) {b : UInt8}
    (hb : b ∈ bs) : 48 ≤ b.toNat ∧ b.toNat ≤ 57 := by
  unfold parseDigits at h
  split at h
  · cases h
  · obtain ⟨ds, hds, -⟩ := Option.map_eq_some_iff.mp h
    obtain ⟨hlt, rfl⟩ := mapM_digit?_eq_some hds
    obtain ⟨d, hd, rfl⟩ := List.mem_map.mp hb
    have hdigit := hlt d hd
    rw [digitByte_toNat hdigit]
    omega

theorem DenotesInt.ascii {bs : Bytes} {i : Int} (h : DenotesInt bs i) : ∀ b ∈ bs, b < 0x80 := by
  have hdigits : ∀ {digits : Bytes} {n : Nat}, parseDigits digits = some n →
      ∀ b ∈ digits, b < 0x80 := by
    intro digits n hn b hb
    have := parseDigits_digit hn hb
    show b.toNat < 128
    omega
  cases h with
  | plain _ n hn => exact hdigits hn
  | plus _ n hn => exact List.forall_mem_cons.mpr ⟨by decide, hdigits hn⟩
  | minus _ n hn => exact List.forall_mem_cons.mpr ⟨by decide, hdigits hn⟩

/-- A text denotes one integer. -/
theorem DenotesInt.unique {bs : Bytes} {i j : Int} (hi : DenotesInt bs i) (hj : DenotesInt bs j) :
    i = j := by
  have hsign : ∀ {b : UInt8} {digits : Bytes} {n : Nat}, digit? b = none →
      parseDigits (b :: digits) ≠ some n := by
    intro b digits n hb hn
    rw [parseDigits_of_sign hb] at hn
    cases hn
  cases hi with
  | plain _ n hn =>
    cases hj with
    | plain _ m hm =>
      rw [hn] at hm
      rw [Option.some.inj hm]
    | plus => exact absurd hn (hsign (by decide))
    | minus => exact absurd hn (hsign (by decide))
  | plus _ n hn =>
    cases hj with
    | plain _ m hm => exact absurd hm (hsign (by decide))
    | plus _ m hm =>
      rw [hn] at hm
      rw [Option.some.inj hm]
  | minus _ n hn =>
    cases hj with
    | plain _ m hm => exact absurd hm (hsign (by decide))
    | minus _ m hm =>
      rw [hn] at hm
      rw [Option.some.inj hm]

/-- **What parses as a signed integer**: the text of one that is in range. -/
theorem parseSigned_eq_some {w : Nat} {bs : Bytes} {i : Int} :
    parseSigned w bs = some i ↔ DenotesInt bs i ∧ -2 ^ (w - 1) ≤ i ∧ i < 2 ^ (w - 1) := by
  have hpow : ((2 ^ (w - 1) : Nat) : Int) = 2 ^ (w - 1) := by push_cast; rfl
  have hpos : (0 : Int) < 2 ^ (w - 1) := by positivity
  -- a number without a minus
  have hnat : ∀ digits : Bytes,
      ((parseDigits digits).filter fun v => v < 2 ^ (w - 1)).map (fun v : Nat => (v : Int)) =
        some i ↔ ∃ n, parseDigits digits = some n ∧ i = n ∧ i < 2 ^ (w - 1) := by
    intro digits
    rw [Option.map_eq_some_iff]
    refine ⟨?_, ?_⟩
    · rintro ⟨n, hn, hi⟩
      obtain ⟨hn, hlt⟩ := Option.filter_eq_some_iff.mp hn
      have hlt : n < 2 ^ (w - 1) := by simpa using hlt
      exact ⟨n, hn, hi.symm, by omega⟩
    · rintro ⟨n, hn, hi, hlt⟩
      refine ⟨n, Option.filter_eq_some_iff.mpr ⟨hn, ?_⟩, hi.symm⟩
      rw [decide_eq_true_eq]
      omega
  unfold parseSigned
  split
  · next digits =>
    rw [Option.map_eq_some_iff]
    refine ⟨?_, ?_⟩
    · rintro ⟨n, hn, hi⟩
      obtain ⟨hn, hle⟩ := Option.filter_eq_some_iff.mp hn
      have hle : n ≤ 2 ^ (w - 1) := by simpa using hle
      subst hi
      exact ⟨.minus digits n hn, by omega, by omega⟩
    · rintro ⟨hden, hlo, hhi⟩
      cases hden with
      | plain _ n hn =>
        rw [parseDigits_of_sign (by decide)] at hn
        cases hn
      | minus _ n hn =>
        refine ⟨n, Option.filter_eq_some_iff.mpr ⟨hn, ?_⟩, rfl⟩
        rw [decide_eq_true_eq]
        omega
  · next digits =>
    rw [hnat]
    refine ⟨?_, ?_⟩
    · rintro ⟨n, hn, hi, hlt⟩
      subst hi
      exact ⟨.plus digits n hn, by omega, hlt⟩
    · rintro ⟨hden, hlo, hhi⟩
      cases hden with
      | plain _ n hn =>
        rw [parseDigits_of_sign (by decide)] at hn
        cases hn
      | plus _ n hn => exact ⟨n, hn, rfl, hhi⟩
  · next hminus hplus =>
    rw [hnat]
    refine ⟨?_, ?_⟩
    · rintro ⟨n, hn, hi, hlt⟩
      subst hi
      exact ⟨.plain bs n hn, by omega, hlt⟩
    · rintro ⟨hden, hlo, hhi⟩
      cases hden with
      | plain _ n hn => exact ⟨n, hn, rfl, hhi⟩
      | plus digits n hn => exact absurd rfl (hplus digits)
      | minus digits n hn => exact absurd rfl (hminus digits)

/-! ## Parsing then printing -/

/-- Digits are those of their value, behind some zeros. -/
theorem digits_padded {ds : List Nat} (hne : ds ≠ []) (h : ∀ d ∈ ds, d < 10) :
    ∃ k, ds = List.replicate k 0 ++ decimalDigits (Nat.ofDigits 10 ds.reverse) := by
  induction ds with
  | nil => exact absurd rfl hne
  | cons d ds ih =>
    by_cases hd : d = 0
    · subst hd
      by_cases hds : ds = []
      · subst hds
        exact ⟨0, rfl⟩
      · obtain ⟨k, hk⟩ := ih hds fun x hx => h x (List.mem_cons_of_mem _ hx)
        refine ⟨k + 1, ?_⟩
        have hvalue : Nat.ofDigits 10 (0 :: ds).reverse = Nat.ofDigits 10 ds.reverse := by
          rw [List.reverse_cons, Nat.ofDigits_append]
          simp
        rw [hvalue, List.replicate_succ, List.cons_append, ← hk]
    · -- a leading digit other than zero is the value's own
      have hdigits : Nat.digits 10 (Nat.ofDigits 10 (d :: ds).reverse) = (d :: ds).reverse := by
        refine Nat.digits_ofDigits 10 (by omega) _ ?_ ?_
        · intro x hx
          exact h x (List.mem_reverse.mp hx)
        · intro hnil
          simpa using hd
      refine ⟨0, ?_⟩
      rw [List.replicate_zero, List.nil_append, decimalDigits, if_neg, hdigits,
        List.reverse_reverse]
      intro hzero
      rw [hzero, Nat.digits_zero] at hdigits
      simp at hdigits

/-- **What parses as digits**: the text of the value, behind any number of zeros. -/
theorem parseDigits_eq_some {bs : Bytes} {n : Nat} :
    parseDigits bs = some n ↔ ∃ k, bs = List.replicate k (digitByte 0) ++ decimal n := by
  refine ⟨?_, ?_⟩
  · intro h
    unfold parseDigits at h
    split at h
    · cases h
    · next hne =>
      obtain ⟨ds, hds, rfl⟩ := Option.map_eq_some_iff.mp h
      obtain ⟨hall, rfl⟩ := mapM_digit?_eq_some hds
      obtain ⟨k, hk⟩ := digits_padded (fun hnil => hne (by rw [hnil]; rfl)) hall
      refine ⟨k, ?_⟩
      rw [decimal_eq, ← List.map_replicate, ← List.map_append, ← hk]
  · rintro ⟨k, rfl⟩
    exact parseDigits_padded k n

/-- **What parses as an unsigned integer**: digits whose value is in range, behind a plus or not. -/
theorem parseUnsigned_eq_some {w : Nat} {bs : Bytes} {n : Nat} : parseUnsigned w bs = some n ↔
    n < 2 ^ w ∧ ∃ digits, parseDigits digits = some n ∧ (bs = digits ∨ bs = 43 :: digits) := by
  have hsigned : ∀ digits, parseDigits (43 :: digits) ≠ some n := by
    intro digits h
    rw [parseDigits_of_sign (by decide)] at h
    cases h
  unfold parseUnsigned
  rw [Option.filter_eq_some_iff, decide_eq_true_eq, and_comm]
  refine and_congr_right fun _ => ?_
  split
  · next rest =>
    refine ⟨fun h => ⟨rest, h, .inr rfl⟩, ?_⟩
    rintro ⟨digits, h, rfl | heq⟩
    · exact absurd h (hsigned rest)
    · rwa [(List.cons.inj heq).2]
  · next hplus =>
    refine ⟨fun h => ⟨bs, h, .inl rfl⟩, ?_⟩
    rintro ⟨digits, h, rfl | rfl⟩
    · exact h
    · exact absurd rfl (hplus digits)

/-- The text of a number starts with a zero only if it is that of zero. -/
theorem decimal_head_ne {n : Nat} (hn : n ≠ 0) : (decimal n).head? ≠ some (digitByte 0) := by
  rw [decimal_eq, decimalDigits, if_neg hn, List.head?_map, List.head?_reverse,
    List.getLast?_eq_some_getLast (Nat.digits_ne_nil_iff_ne_zero.mpr hn)]
  intro h
  have hlast := Nat.getLast_digit_ne_zero 10 hn
  have hlt : (Nat.digits 10 n).getLast (Nat.digits_ne_nil_iff_ne_zero.mpr hn) < 10 :=
    Nat.digits_lt_base (by omega) (List.getLast_mem _)
  have hvalue := congrArg UInt8.toNat (Option.some.inj h)
  rw [digitByte_toNat hlt, digitByte_toNat (by omega)] at hvalue
  omega

end Foundation
