import RustFundamentals.Foundation.Ascending
import RustFundamentals.Foundation.ParseInt
import RustFundamentals.Foundation.Splitting

/-!
# aprobe: targets

`parse_target`. A port is a `u16`, and is kept as the number it is.
-/

namespace RustFundamentals.Aprobe

open Foundation

/-- `Target`. -/
structure Target where
  host : Text
  ports : List Nat
  deriving DecidableEq

/-- `TargetError`. -/
inductive TargetError
  | missingHostOrPorts
  | badPort (token : Text)
  | emptyRange (start stop : Nat)
  deriving DecidableEq

/-- `s.parse::<u16>()`, with the error of the token. -/
def parsePort (token s : Text) : Except TargetError Nat :=
  match parseInt 0 65535 s with
  | .ok port => .ok port.toNat
  | .error _ => .error (.badPort token)

/-- What the loop adds for a token. -/
def tokenPorts (token : Text) : Except TargetError (List Nat) :=
  match Text.splitOnce '-' token with
  | some (start, stop) => do
    let start ← parsePort token start
    let stop ← parsePort token stop
    if stop < start then throw (.emptyRange start stop)
    else return List.range' start (stop - start + 1)
  | none => do return [← parsePort token token]

/-- The body of the loop. -/
def addPorts (ports : List Nat) (token : Text) : Except TargetError (List Nat) := do
  return ports ++ (← tokenPorts token)

/-- The loop over the tokens. -/
def tokensPorts (tokens : List Text) : Except TargetError (List Nat) := tokens.foldlM addPorts []

/-- `parse_target`. -/
def parseTarget (spec : Text) : Except TargetError Target :=
  match Text.rsplitOnce ':' spec with
  | none => throw .missingHostOrPorts
  | some (host, portSpec) =>
    if host.isEmpty ∨ portSpec.isEmpty then throw .missingHostOrPorts
    else do return ⟨host, sortDedup (← tokensPorts (portSpec.splitOn ','))⟩

end RustFundamentals.Aprobe
