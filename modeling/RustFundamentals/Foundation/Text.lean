import Mathlib.Data.List.DropRight

/-!
# Text

A Rust `str` by its characters. `Char` is a Unicode scalar value here as there, so any list of
characters is a `str`. (`Str` has the bytes, for code that looks at them.)
-/

namespace Foundation

/-- A `str`. -/
abbrev Text := List Char

namespace Text

/-- `char::is_whitespace`: the characters with the property `White_Space`. -/
def isWhitespace (c : Char) : Bool :=
  let n := c.toNat
  (9 ≤ n && n ≤ 13) || n == 0x20 || n == 0x85 || n == 0xA0 || n == 0x1680 ||
    (0x2000 ≤ n && n ≤ 0x200A) || n == 0x2028 || n == 0x2029 || n == 0x202F || n == 0x205F ||
    n == 0x3000

/-- `str::trim`. -/
def trim (s : Text) : Text := (s.dropWhile isWhitespace).rdropWhile isWhitespace

theorem trim_trim (s : Text) : s.trim.trim = s.trim := by
  have hfront : s.trim.dropWhile isWhitespace = s.trim := by
    obtain ⟨behind, hprefix⟩ := List.rdropWhile_prefix isWhitespace (s.dropWhile isWhitespace)
    have hhead := List.head?_dropWhile_not isWhitespace s
    rw [← hprefix, ← trim] at hhead
    cases htrim : s.trim with
    | nil => rfl
    | cons c cs =>
      rw [htrim] at hhead
      have hc : isWhitespace c = false := hhead
      exact List.dropWhile_cons_of_neg (by simp [hc])
  rw [trim, hfront]
  exact List.rdropWhile_idempotent isWhitespace _

end Text

end Foundation
