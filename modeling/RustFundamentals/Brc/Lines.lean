import RustFundamentals.Brc.Aggregate

/-!
# brc: lines

The format of a line, and what it measures: a station and a temperature, which is the number its
digits denote, read without the point. `split_line` and `parse_temp` read just that (`rowOf_eq`).
-/

namespace RustFundamentals.Brc

open Foundation

/-! ## The format -/

/-- An ASCII digit. -/
def isDigit (b : UInt8) : Bool := 48 ≤ b.toNat && b.toNat ≤ 57

/-- One or two digits, a point, a digit. -/
def isUnsignedTemp : Bytes → Bool
  | [d1, 46, d2] => isDigit d1 && isDigit d2
  | [d1, d2, 46, d3] => isDigit d1 && isDigit d2 && isDigit d3
  | _ => false

/-- A temperature in the fixed format. -/
def isTemp : Bytes → Bool
  | 45 :: rest => isUnsignedTemp rest
  | bytes => isUnsignedTemp bytes

/-- `name;temperature`. -/
def WellFormedLine (line : Bytes) : Prop :=
  ∃ name temp, line = name ++ 59 :: temp ∧ 59 ∉ name ∧ isTemp temp = true

/-- Every line that is ended by a newline is well formed. -/
def WellFormed (data : Bytes) : Prop := ∀ line ∈ Lines.records isNewline data, WellFormedLine line

/-- The row of a line. -/
def rowOf (ov : Overflow) (line : Bytes) : Option (Bytes × Int) := do
  let (name, temp) ← splitLine line
  return (name, ← parseTemp ov temp)

/-! ## Measurements -/

/-- The number that the digits denote. -/
def magnitude (temp : Bytes) : Nat :=
  (temp.filter isDigit).foldl (fun n d => n * 10 + (d.toNat - 48)) 0

/-- A temperature in tenths of a degree. -/
def tenths (temp : Bytes) : Int :=
  if temp.head? = some 45 then -(magnitude temp : Int) else magnitude temp

/-- The station of a line, and its temperature. -/
def measurement (line : Bytes) : Bytes × Int :=
  (line.takeWhile fun b => b != 59, tenths ((line.dropWhile fun b => b != 59).drop 1))

theorem digitValue_eq (ov : Overflow) {d : UInt8} (h : isDigit d = true) :
    digitValue ov d = some ((d.toNat - 48 : Nat) : Int) := by
  have hle : 48 ≤ d.toNat := by
    simp only [isDigit, Bool.and_eq_true, decide_eq_true_eq] at h
    exact h.1
  rw [digitValue, ov.sub_of_le 8 hle, Option.map_some]

theorem digit_le {d : UInt8} (h : isDigit d = true) : d.toNat - 48 ≤ 9 := by
  simp only [isDigit, Bool.and_eq_true, decide_eq_true_eq] at h
  omega

theorem parseTenths_eq (ov : Overflow) {bytes : Bytes} (h : isUnsignedTemp bytes = true) :
    parseTenths ov bytes = some (magnitude bytes : Int) ∧ magnitude bytes ≤ 999 := by
  unfold isUnsignedTemp at h
  split at h
  · next d1 d2 =>
    simp only [Bool.and_eq_true] at h
    have h1 := digit_le h.1
    have h2 := digit_le h.2
    have hmagnitude : magnitude [d1, 46, d2] = (d1.toNat - 48) * 10 + (d2.toNat - 48) := by
      have hpoint : isDigit 46 = false := rfl
      simp [magnitude, h.1, h.2, hpoint]
    rw [hmagnitude]
    refine ⟨?_, ?_⟩
    · simp only [parseTenths, digitValue_eq ov h.1, digitValue_eq ov h.2]
      rfl
    · omega
  · next d1 d2 d3 =>
    simp only [Bool.and_eq_true] at h
    have h1 := digit_le h.1.1
    have h2 := digit_le h.1.2
    have h3 := digit_le h.2
    have hmagnitude : magnitude [d1, d2, 46, d3] =
        ((d1.toNat - 48) * 10 + (d2.toNat - 48)) * 10 + (d3.toNat - 48) := by
      have hpoint : isDigit 46 = false := rfl
      simp [magnitude, h.1.1, h.1.2, h.2, hpoint]
    rw [hmagnitude]
    refine ⟨?_, ?_⟩
    · simp only [parseTenths, digitValue_eq ov h.1.1, digitValue_eq ov h.1.2, digitValue_eq ov h.2]
      show some _ = some _
      congr 1
      push_cast
      ring
    · omega
  · cases h

/-- **`parse_temp` reads the temperature**, and it is one of a thermometer. -/
theorem parseTemp_eq (ov : Overflow) {bytes : Bytes} (h : isTemp bytes = true) :
    parseTemp ov bytes = some (tenths bytes) ∧ -999 ≤ tenths bytes ∧ tenths bytes ≤ 999 := by
  unfold isTemp at h
  split at h
  · next rest =>
    obtain ⟨hparse, hle⟩ := parseTenths_eq ov h
    have htenths : tenths (45 :: rest) = -(magnitude rest : Int) := if_pos rfl
    rw [parseTemp, hparse, htenths]
    exact ⟨rfl, by omega, by omega⟩
  · next hneg =>
    obtain ⟨hparse, hle⟩ := parseTenths_eq ov h
    have hhead : bytes.head? ≠ some 45 := by
      intro heq
      obtain ⟨rest, rfl⟩ := List.head?_eq_some_iff.mp heq
      exact hneg rest rfl
    rw [tenths, if_neg hhead]
    refine ⟨?_, by omega, by omega⟩
    rw [parseTemp]
    · exact hparse
    · exact hneg

theorem splitLine_append {name temp : Bytes} (h : 59 ∉ name) :
    splitLine (name ++ 59 :: temp) = some (name, temp) := by
  have hnone : name.findIdx? (· == 59) = none := by
    rw [List.findIdx?_eq_none_iff]
    intro b hb
    rw [beq_eq_false_iff_ne]
    intro heq
    subst heq
    exact h hb
  have hindex : (name ++ 59 :: temp).findIdx? (· == 59) = some name.length := by
    rw [List.findIdx?_append, hnone]
    simp [List.findIdx?_cons]
  rw [splitLine, hindex, Option.map_some, List.take_left, List.drop_append]
  simp

theorem measurement_append {name temp : Bytes} (h : 59 ∉ name) :
    measurement (name ++ 59 :: temp) = (name, tenths temp) := by
  have hname : ∀ b ∈ name, (b != 59) = true := by
    intro b hb
    rw [bne_iff_ne]
    rintro rfl
    exact h hb
  rw [measurement, List.takeWhile_append_of_pos hname, List.dropWhile_append_of_pos hname]
  simp

/-- **A well-formed line is read** as what it measures. -/
theorem rowOf_eq (ov : Overflow) {line : Bytes} (h : WellFormedLine line) :
    rowOf ov line = some (measurement line) := by
  obtain ⟨name, temp, rfl, hname, htemp⟩ := h
  rw [rowOf, splitLine_append hname, measurement_append hname]
  simp [(parseTemp_eq ov htemp).1]

end RustFundamentals.Brc
