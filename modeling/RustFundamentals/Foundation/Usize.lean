import RustFundamentals.Foundation.Bytes
import RustFundamentals.Foundation.Io

/-!
# Positions in a buffer

`usize` additions under either build profile, and the slices taken with them. A buffer in memory
has at most `isizeMax` bytes, so a position inside it plus a length of 32 bits is exact.
-/

namespace Foundation

open Fs

variable {ε : Type}

/-- `a + b` on `usize`. -/
def usizeAdd (ov : Overflow) (a b : Nat) : Except (Stop ε) Nat :=
  match ov.fit 64 (a + b) with
  | some n => .ok n
  | none => .error .panicked

theorem usizeAdd_of_lt (ov : Overflow) {a b : Nat} (h : a + b < 2 ^ 64) :
    (usizeAdd ov a b : Except (Stop ε) Nat) = .ok (a + b) := by
  rw [usizeAdd, ov.fit_of_lt h]

/-- `a.checked_add(b)`. -/
def checkedAdd (a b : Nat) : Option Nat := if a + b < 2 ^ 64 then some (a + b) else none

theorem checkedAdd_eq_some {a b n : Nat} :
    checkedAdd a b = some n ↔ n = a + b ∧ a + b < 2 ^ 64 := by
  unfold checkedAdd
  split
  · next h => exact ⟨fun heq => ⟨(Option.some.inj heq).symm, h⟩, fun heq => heq.1 ▸ rfl⟩
  · next h => exact ⟨(fun heq => by cases heq), fun heq => absurd heq.2 h⟩

/-- `buf.get(start..start + len)`. -/
def getRange (ov : Overflow) (buf : Bytes) (start len : Nat) :
    Except (Stop ε) (Option Bytes) := do
  let stop ← usizeAdd ov start len
  return slice? buf start stop

/-- Inside a buffer, a range of less than `2 ^ 32` bytes is what it seems. -/
theorem getRange_of_le (ov : Overflow) {buf : Bytes} {start len : Nat} (h : buf.length ≤ isizeMax)
    (hstart : start ≤ buf.length) (hlen : len < 2 ^ 32) :
    (getRange ov buf start len : Except (Stop ε) _) = .ok (slice? buf start (start + len)) := by
  have hsum : start + len < 2 ^ 64 := by
    unfold isizeMax at h
    omega
  rw [getRange, usizeAdd_of_lt ov hsum]
  rfl

/-- A slice of what is left of a buffer. -/
theorem slice?_drop {buf : Bytes} {pos : Nat} (h : pos ≤ buf.length) (start stop : Nat) :
    slice? (buf.drop pos) start stop = slice? buf (pos + start) (pos + stop) := by
  unfold slice?
  by_cases hin : start ≤ stop ∧ stop ≤ (buf.drop pos).length
  · have hin' : pos + start ≤ pos + stop ∧ pos + stop ≤ buf.length := by
      rw [List.length_drop] at hin
      omega
    rw [if_pos hin, if_pos hin', List.drop_drop, Nat.add_sub_add_left]
  · have hin' : ¬ (pos + start ≤ pos + stop ∧ pos + stop ≤ buf.length) := by
      rw [List.length_drop] at hin
      omega
    rw [if_neg hin, if_neg hin']

end Foundation
