import RustFundamentals.Foundation.Io
import RustFundamentals.Foundation.Utf8

/-!
# rudis: errors

`error.rs`: the error type the protocol and the store share, and what it displays as.
-/

namespace RustFundamentals.Rudis

open Foundation

/-- The crate's error type. An I/O error is kept as the text it displays as. -/
inductive Error
  | protocol (msg : Str)
  | snapshot (msg : Str)
  | io (text : Str)
  deriving DecidableEq

/-- The `Display` of an error. -/
def Error.display : Error → Str
  | .protocol msg => Str.lit "protocol error: " ++ msg
  | .snapshot msg => Str.lit "corrupt snapshot: " ++ msg
  | .io text => Str.lit "io error: " ++ text

end RustFundamentals.Rudis
