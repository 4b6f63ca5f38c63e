import Mathlib.Data.List.Basic
import Mathlib.Tactic.Ring

/-!
# Byte strings and fixed-width integers

Byte strings are lists of `UInt8`. A machine integer is a `Nat` together with the
width it is stored in: `leBytes w n` is the `w`-byte little-endian image of `n`
(so `n` is cut to `w` bytes, as a Rust `as` cast cuts it), and `ofLe` reads one back.
`Overflow` is the build profile of a Rust program: what its `+` does when the sum does
not fit.
-/

namespace Foundation

/-- A byte string. -/
abbrev Bytes := List UInt8

/-- The ASCII bytes of a string literal. -/
def ascii (s : String) : Bytes := s.toList.map fun c => UInt8.ofNat c.toNat

/-! ## Little-endian integers -/

/-- The low `w` bytes of `n`, least significant first. -/
def leBytes : Nat → Nat → Bytes
  | 0, _ => []
  | w + 1, n => UInt8.ofNat n :: leBytes w (n / 256)

/-- The number a little-endian byte string denotes. -/
def ofLe : Bytes → Nat
  | [] => 0
  | b :: bs => b.toNat + 256 * ofLe bs

@[simp] theorem leBytes_length (w n : Nat) : (leBytes w n).length = w := by
  induction w generalizing n with
  | zero => rfl
  | succ w ih => simp [leBytes, ih]

theorem ofLe_leBytes (w n : Nat) : ofLe (leBytes w n) = n % 256 ^ w := by
  induction w generalizing n with
  | zero => simp [leBytes, ofLe, Nat.mod_one]
  | succ w ih =>
    have hb : (UInt8.ofNat n).toNat = n % 256 := by simp
    rw [leBytes, ofLe, ih, hb, Nat.pow_succ', Nat.mod_mul]

/-- A number that fits is read back unchanged. -/
theorem ofLe_leBytes_of_lt {w n : Nat} (h : n < 256 ^ w) : ofLe (leBytes w n) = n := by
  rw [ofLe_leBytes, Nat.mod_eq_of_lt h]

theorem ofLe_lt (bs : Bytes) : ofLe bs < 256 ^ bs.length := by
  induction bs with
  | nil => simp [ofLe]
  | cons b bs ih =>
    have hb : b.toNat < 256 := b.toNat_lt
    rw [ofLe, List.length_cons, Nat.pow_succ']
    omega

/-- Bytes are the image of the number they denote. -/
theorem leBytes_ofLe (bs : Bytes) : leBytes bs.length (ofLe bs) = bs := by
  induction bs with
  | nil => rfl
  | cons b bs ih =>
    have hb : b.toNat < 256 := b.toNat_lt
    have hlow : UInt8.ofNat (b.toNat + 256 * ofLe bs) = b := by
      apply UInt8.toNat_inj.mp
      simp only [UInt8.toNat_ofNat']
      omega
    have hhigh : (b.toNat + 256 * ofLe bs) / 256 = ofLe bs := by omega
    rw [ofLe, List.length_cons, leBytes, hlow, hhigh, ih]

/-! ## Slices -/

/-- `buf.get(from..to)`: the bytes of a range, or `none` when it leaves the buffer. -/
def slice? (buf : Bytes) (start stop : Nat) : Option Bytes :=
  if start ≤ stop ∧ stop ≤ buf.length then some ((buf.drop start).take (stop - start))
  else none

theorem slice?_eq_some {buf : Bytes} {start stop : Nat} {out : Bytes}
    (h : slice? buf start stop = some out) :
    start ≤ stop ∧ stop ≤ buf.length ∧ out = (buf.drop start).take (stop - start) := by
  unfold slice? at h
  split at h
  · rename_i hb
    exact ⟨hb.1, hb.2, by simpa using h.symm⟩
  · cases h

/-- What is behind a piece of a buffer. -/
theorem drop_behind {buf mid rest : Bytes} {pos : Nat} (h : buf.drop pos = mid ++ rest) :
    buf.drop (pos + mid.length) = rest := by
  rw [← List.drop_drop, h, List.drop_left]

/-- What is left of a buffer from a place inside it. -/
theorem slice?_to_end {buf : Bytes} {start : Nat} (h : start ≤ buf.length) :
    slice? buf start buf.length = some (buf.drop start) := by
  rw [slice?, if_pos ⟨h, le_rfl⟩, List.take_of_length_le (by simp)]

/-- The middle of a concatenation, addressed by the lengths around it. -/
theorem slice?_append (pre mid post : Bytes) :
    slice? (pre ++ mid ++ post) pre.length (pre.length + mid.length) = some mid := by
  unfold slice?
  rw [if_pos ⟨by omega, by simp⟩]
  simp [List.append_assoc]

/-- `slice?_append` with the offsets as given rather than as lengths. -/
theorem slice?_append_of_eq {buf mid : Bytes} (pre post : Bytes) {start stop : Nat}
    (hbuf : buf = pre ++ mid ++ post) (hstart : start = pre.length)
    (hstop : stop = pre.length + mid.length) : slice? buf start stop = some mid := by
  subst hbuf hstart hstop
  exact slice?_append pre mid post

/-- A slice and what is behind it. -/
theorem drop_of_slice? {buf : Bytes} {start stop : Nat} {out : Bytes}
    (h : slice? buf start stop = some out) :
    out.length = stop - start ∧ buf.drop start = out ++ buf.drop stop := by
  obtain ⟨hle, hin, rfl⟩ := slice?_eq_some h
  refine ⟨by rw [List.length_take, List.length_drop]; omega, ?_⟩
  have hdrop : buf.drop stop = (buf.drop start).drop (stop - start) := by
    rw [List.drop_drop, Nat.add_sub_cancel' hle]
  rw [hdrop, List.take_append_drop]

theorem slice?_eq_none_of_lt {buf : Bytes} {start stop : Nat} (h : buf.length < stop) :
    slice? buf start stop = none := by
  unfold slice?
  rw [if_neg (by omega)]

/-! ## Integer overflow -/

/-- The build profile: `checked` builds panic on overflow, `wrapping` builds wrap. -/
inductive Overflow
  | checked
  | wrapping
  deriving DecidableEq, Repr

/-- The value of an unsigned `w`-bit operation whose exact result is `n`; `none` is the
overflow panic. -/
def Overflow.fit (ov : Overflow) (w n : Nat) : Option Nat :=
  if n < 2 ^ w then some n
  else match ov with
    | .checked => none
    | .wrapping => some (n % 2 ^ w)

theorem Overflow.fit_of_lt (ov : Overflow) {w n : Nat} (h : n < 2 ^ w) :
    ov.fit w n = some n := by
  simp [Overflow.fit, h]

/-- The value of an operation is one of the type. -/
theorem Overflow.fit_lt {ov : Overflow} {w n v : Nat} (h : ov.fit w n = some v) : v < 2 ^ w := by
  unfold Overflow.fit at h
  split at h
  · next hlt => exact Option.some.inj h ▸ hlt
  · cases ov with
    | checked => cases h
    | wrapping => exact Option.some.inj h ▸ Nat.mod_lt _ (Nat.two_pow_pos w)

theorem Overflow.fit_checked (w n : Nat) :
    Overflow.checked.fit w n = if n < 2 ^ w then some n else none := rfl

theorem Overflow.fit_wrapping (w n : Nat) : Overflow.wrapping.fit w n = some (n % 2 ^ w) := by
  unfold Overflow.fit
  split
  · next h => rw [Nat.mod_eq_of_lt h]
  · rfl

/-- When an operation returns. -/
theorem Overflow.fit_isSome_iff {ov : Overflow} {w n : Nat} :
    (∃ v, ov.fit w n = some v) ↔ ov = .wrapping ∨ n < 2 ^ w := by
  constructor
  · rintro ⟨v, hv⟩
    by_contra hnot
    obtain ⟨hov, hn⟩ := not_or.mp hnot
    cases ov with
    | checked =>
      rw [fit_checked, if_neg hn] at hv
      cases hv
    | wrapping => exact hov rfl
  · rintro (rfl | hn)
    · exact ⟨_, fit_wrapping w n⟩
    · exact ⟨n, ov.fit_of_lt hn⟩

/-- **Adding in two steps** overflows as adding at once does. -/
theorem Overflow.fit_bind_add (ov : Overflow) (w a b : Nat) :
    ((ov.fit w a).bind fun x => ov.fit w (x + b)) = ov.fit w (a + b) := by
  cases ov with
  | checked =>
    simp only [fit_checked]
    by_cases ha : a < 2 ^ w
    · rw [if_pos ha, Option.bind_some]
    · rw [if_neg ha, Option.bind_none, if_neg (by omega)]
  | wrapping =>
    simp only [fit_wrapping, Option.bind_some]
    rw [Nat.mod_add_mod]

/-- So does adding two that are sums themselves. -/
theorem Overflow.fit_bind_bind_add (ov : Overflow) (w a b : Nat) :
    ((ov.fit w a).bind fun x => (ov.fit w b).bind fun y => ov.fit w (x + y)) =
      ov.fit w (a + b) := by
  rw [← ov.fit_bind_add w a b]
  refine Option.bind_congr fun x _ => ?_
  rw [Nat.add_comm x b, ← ov.fit_bind_add w b x]
  simp only [Nat.add_comm x]

/-- Away from the wrap-around, an operation that returns is exact. -/
theorem Overflow.fit_eq_some {ov : Overflow} {w n v : Nat} (h : ov.fit w n = some v)
    (hsafe : ov = .checked ∨ n < 2 ^ w) : v = n ∧ n < 2 ^ w := by
  unfold Overflow.fit at h
  split at h
  · rename_i hlt
    exact ⟨by simpa using h.symm, hlt⟩
  · rename_i hge
    rcases hsafe with rfl | hlt
    · cases h
    · exact absurd hlt hge

/-- The value of a signed `w`-bit operation whose exact result is `i`. -/
def Overflow.fitInt (ov : Overflow) (w : Nat) (i : Int) : Option Int :=
  if -2 ^ (w - 1) ≤ i ∧ i < 2 ^ (w - 1) then some i
  else match ov with
    | .checked => none
    | .wrapping => some (i.bmod (2 ^ w))

/-- The unsigned `w`-bit `a - b`. -/
def Overflow.sub (ov : Overflow) (w a b : Nat) : Option Nat :=
  if b ≤ a then some (a - b)
  else match ov with
    | .checked => none
    | .wrapping => some ((a + 2 ^ w - b) % 2 ^ w)

theorem Overflow.sub_of_le (ov : Overflow) (w : Nat) {a b : Nat} (h : b ≤ a) :
    ov.sub w a b = some (a - b) := by
  simp [Overflow.sub, h]

/-- A signed integer of 64 bits. -/
def IsI64 (i : Int) : Prop := -2 ^ 63 ≤ i ∧ i < 2 ^ 63

instance (i : Int) : Decidable (IsI64 i) := inferInstanceAs (Decidable (-2 ^ 63 ≤ i ∧ i < 2 ^ 63))

/-- `n as i64`. -/
def castI64 (n : Nat) : Int := (n : Int).bmod (2 ^ 64)

theorem isI64_bmod (i : Int) : IsI64 (i.bmod (2 ^ 64)) := by
  have hlo := Int.le_bmod (x := i) (m := 2 ^ 64) (by decide)
  have hhi := Int.bmod_lt (x := i) (m := 2 ^ 64) (by decide)
  unfold IsI64
  omega

theorem isI64_castI64 (n : Nat) : IsI64 (castI64 n) := isI64_bmod n

theorem castI64_of_lt {n : Nat} (h : n < 2 ^ 63) : castI64 n = n := by
  apply Int.bmod_eq_of_le_mul_two
  · omega
  · omega

theorem Overflow.isI64_fitInt {ov : Overflow} {i j : Int} (h : ov.fitInt 64 i = some j) :
    IsI64 j := by
  unfold Overflow.fitInt at h
  split at h
  · rename_i hi
    obtain rfl := Option.some.inj h
    exact hi
  · cases ov with
    | checked => cases h
    | wrapping =>
      obtain rfl := Option.some.inj h
      exact isI64_bmod i

/-- The largest number of bytes one allocation may ask for (`isize::MAX`); a `Vec` that
would exceed it panics. -/
def isizeMax : Nat := 2 ^ 63 - 1

end Foundation
