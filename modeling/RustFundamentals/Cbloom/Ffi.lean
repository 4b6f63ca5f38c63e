import RustFundamentals.Cbloom.Bloom

/-!
# cbloom: the C functions

`ffi.rs`, as far as filters are concerned. A pointer is `none` when it is null and otherwise
what it points at. A panic does not get out: it is caught, and the caller is given the value
that stands for nothing.
-/

namespace RustFundamentals.Cbloom

open Foundation

/-- `cbloom_add`: the handle afterwards. -/
def cbloomAdd (ov : Overflow) (bf : Option Bloom) (data : Option Bytes) : Option Bloom :=
  match bf, data with
  | some b, some item => some (b.add ov item).2
  | bf, _ => bf

/-- `cbloom_contains`. -/
def cbloomContains (bf : Option Bloom) (data : Option Bytes) : Bool :=
  match bf, data with
  | some b, some item =>
    match b.contains item with
    | .ok present => present
    | .error _ => false
  | _, _ => false

/-- `cbloom_deserialize`. -/
def cbloomDeserialize (data : Option Bytes) : Option Bloom :=
  data.bind Bloom.fromBytes

end RustFundamentals.Cbloom
