import RustFundamentals.Foundation.ParseInt

/-!
# envtyped: names, types and errors

`error.rs`, `var_name.rs` and `from_env.rs`. `FromEnv` is sealed, so the types a variable can be
declared with are those of `Ty`.
-/

namespace RustFundamentals.Envtyped

open Foundation

/-! ## Errors -/

/-- `ParseFailure`: the error of an integer's `parse`, or a message. -/
inductive ParseFailure
  | int (kind : IntErrorKind)
  | message (msg : Text)
  deriving DecidableEq

/-- `Error`. -/
inductive Error
  | missing (var : Text)
  | parse (var : Text) (source : ParseFailure)
  | invalidName (name reason : Text)
  | notRequested (var : Text)
  deriving DecidableEq

/-! ## Names -/

/-- `char::is_ascii_uppercase`. -/
def isAsciiUppercase (c : Char) : Bool := 'A' ≤ c && c ≤ 'Z'

/-- `char::is_ascii_digit`. -/
def isAsciiDigit (c : Char) : Bool := '0' ≤ c && c ≤ '9'

/-- What may follow the first character. -/
def isNameChar (c : Char) : Bool := isAsciiUppercase c || isAsciiDigit c || c == '_'

/-- `[A-Z][A-Z0-9_]*`. -/
def ValidName (s : Text) : Prop :=
  ∃ first rest, s = first :: rest ∧ isAsciiUppercase first = true ∧ rest.all isNameChar = true

instance : (s : Text) → Decidable (ValidName s)
  | [] => isFalse nofun
  | first :: rest =>
    decidable_of_iff (isAsciiUppercase first = true ∧ rest.all isNameChar = true)
      ⟨fun h => ⟨first, rest, rfl, h⟩, fun ⟨_, _, hs, h⟩ => by cases hs; exact h⟩

/-- `VarName`: text that is a valid name. -/
structure VarName where
  text : Text
  valid : ValidName text

/-- `VarName::parse`. -/
def VarName.parse : Text → Except Error VarName
  | [] => .error (.invalidName [] "empty".toList)
  | first :: rest =>
    if hfirst : isAsciiUppercase first = true then
      if hrest : rest.all isNameChar = true then
        .ok ⟨first :: rest, first, rest, rfl, hfirst, hrest⟩
      else .error (.invalidName (first :: rest)
        "only A-Z, 0-9, and _ allowed after first char".toList)
    else .error (.invalidName (first :: rest) "first char must be A-Z".toList)

theorem VarName.parse_ok {s : Text} {name : VarName} (h : VarName.parse s = .ok name) :
    name.text = s := by
  cases s with
  | nil => cases h
  | cons first rest =>
    rw [VarName.parse] at h
    split at h
    · split at h
      · cases h
        rfl
      · cases h
    · cases h

theorem VarName.parse_error {s : Text} {e : Error} (h : VarName.parse s = .error e) :
    ¬ ValidName s ∧ ∃ reason, e = .invalidName s reason := by
  cases s with
  | nil =>
    cases h
    refine ⟨fun hvalid => ?_, _, rfl⟩
    obtain ⟨_, _, hs, -⟩ := hvalid
    cases hs
  | cons first rest =>
    rw [VarName.parse] at h
    split at h
    · split at h
      · cases h
      · next hrest =>
        cases h
        refine ⟨fun hvalid => ?_, _, rfl⟩
        obtain ⟨_, _, hs, -, hall⟩ := hvalid
        cases hs
        exact hrest hall
    · next hfirst =>
      cases h
      refine ⟨fun hvalid => ?_, _, rfl⟩
      obtain ⟨_, _, hs, hupper, -⟩ := hvalid
      cases hs
      exact hfirst hupper

/-! ## Types -/

/-- The types with a `FromEnv`. -/
inductive Ty
  | u16
  | u32
  | u64
  | i32
  | i64
  | usize
  | string
  | bool
  deriving DecidableEq, Repr

/-- The values of a type. `usize` has 64 bits. -/
def Ty.Value : Ty → Type
  | u16 => UInt16
  | u32 => UInt32
  | u64 => UInt64
  | i32 => Int32
  | i64 => Int64
  | usize => UInt64
  | string => Text
  | bool => Bool

instance Ty.decEqValue : (T : Ty) → DecidableEq T.Value
  | u16 => inferInstanceAs (DecidableEq UInt16)
  | u32 => inferInstanceAs (DecidableEq UInt32)
  | u64 => inferInstanceAs (DecidableEq UInt64)
  | i32 => inferInstanceAs (DecidableEq Int32)
  | i64 => inferInstanceAs (DecidableEq Int64)
  | usize => inferInstanceAs (DecidableEq UInt64)
  | string => inferInstanceAs (DecidableEq Text)
  | bool => inferInstanceAs (DecidableEq Bool)

/-- `raw.parse::<T>().map_err(…)` for an unsigned type of that many bits. -/
def unsignedFromStr {α : Type} (bits : Nat) (ofNat : Nat → α) (raw : Text) :
    Except ParseFailure α :=
  match parseInt 0 (2 ^ bits - 1) raw with
  | .ok i => .ok (ofNat i.toNat)
  | .error kind => .error (.int kind)

/-- `raw.parse::<T>().map_err(…)` for a signed type of that many bits. -/
def signedFromStr {α : Type} (bits : Nat) (ofInt : Int → α) (raw : Text) : Except ParseFailure α :=
  match parseInt (-2 ^ (bits - 1)) (2 ^ (bits - 1) - 1) raw with
  | .ok i => .ok (ofInt i)
  | .error kind => .error (.int kind)

/-- `FromEnv for bool`. -/
def parseBool (raw : Text) : Except ParseFailure Bool :=
  let normalized := raw.trim.map Char.toLower
  if normalized = "true".toList ∨ normalized = "1".toList then .ok true
  else if normalized = "false".toList ∨ normalized = "0".toList then .ok false
  else .error (.message ("expected one of true/false/1/0, got `".toList ++ raw ++ "`".toList))

/-- `T::from_env_str`. -/
def Ty.fromEnvStr : (T : Ty) → Text → Except ParseFailure T.Value
  | u16, raw => unsignedFromStr 16 UInt16.ofNat raw
  | u32, raw => unsignedFromStr 32 UInt32.ofNat raw
  | u64, raw => unsignedFromStr 64 UInt64.ofNat raw
  | i32, raw => signedFromStr 32 Int32.ofInt raw
  | i64, raw => signedFromStr 64 Int64.ofInt raw
  | usize, raw => unsignedFromStr 64 UInt64.ofNat raw
  | string, raw => .ok raw
  | bool, raw => parseBool raw

end RustFundamentals.Envtyped
