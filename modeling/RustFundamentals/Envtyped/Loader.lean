import RustFundamentals.Envtyped.FromEnv
import RustFundamentals.Foundation.Expiry

/-!
# envtyped: the loader

`loader.rs`. A value that is stored keeps its type, and is read back at that type only.
-/

namespace RustFundamentals.Envtyped

open Foundation

/-! ## The process environment -/

/-- The value of a variable: text, or bytes that are not Unicode. -/
inductive OsString
  | unicode (s : Text)
  | notUnicode (bytes : List UInt8)
  deriving DecidableEq

/-- The process environment. -/
abbrev Environment := Text → Option OsString

/-- `std::env::VarError`. -/
inductive VarError
  | notPresent
  | notUnicode (bytes : List UInt8)
  deriving DecidableEq

/-- `std::env::var`. -/
def Environment.var (environment : Environment) (name : Text) : Except VarError Text :=
  match environment name with
  | none => .error .notPresent
  | some (.unicode s) => .ok s
  | some (.notUnicode bytes) => .error (.notUnicode bytes)

/-! ## Boxes -/

/-- `Box<dyn Any>`: a value with its type. -/
structure Boxed where
  type : Ty
  value : type.Value

/-- `downcast_ref`. -/
def Boxed.downcast (T : Ty) (b : Boxed) : Option T.Value :=
  if h : b.type = T then some (h ▸ b.value) else none

/-- `ValueBag`. -/
abbrev ValueBag := HashMap Text Boxed

/-! ## The loader -/

/-- `Loader`. -/
structure Loader where
  values : ValueBag
  errors : List Error

namespace Loader

/-- `Loader::new`. -/
def new : Loader := ⟨∅, []⟩

/-- `self.errors.push`. -/
def push (l : Loader) (e : Error) : Loader := { l with errors := l.errors ++ [e] }

/-- `self.values.insert`. -/
def insert (l : Loader) (name : VarName) (b : Boxed) : Loader :=
  { l with values := l.values.insert name.text b }

/-- `Loader::require`. -/
def require (environment : Environment) (l : Loader) (T : Ty) (name : Text) : Loader :=
  match VarName.parse name with
  | .error e => l.push e
  | .ok varName =>
    match environment.var name with
    | .error _ => l.push (.missing name)
    | .ok raw =>
      match T.fromEnvStr raw with
      | .error source => l.push (.parse name source)
      | .ok parsed => l.insert varName ⟨T, parsed⟩

/-- `Loader::optional`. -/
def optional (environment : Environment) (l : Loader) (T : Ty) (name : Text) : Loader :=
  match VarName.parse name with
  | .error e => l.push e
  | .ok varName =>
    match environment.var name with
    | .error _ => l
    | .ok raw =>
      match T.fromEnvStr raw with
      | .error source => l.push (.parse name source)
      | .ok parsed => l.insert varName ⟨T, parsed⟩

/-- `Loader::optional_or`. -/
def optionalOr (environment : Environment) (l : Loader) (T : Ty) (name : Text) (default : T.Value) :
    Loader :=
  match VarName.parse name with
  | .error e => l.push e
  | .ok varName =>
    match environment.var name with
    | .error _ => l.insert varName ⟨T, default⟩
    | .ok raw =>
      match T.fromEnvStr raw with
      | .error source => l.push (.parse name source)
      | .ok v => l.insert varName ⟨T, v⟩

end Loader

/-- `Env`. -/
structure Env where
  values : ValueBag

/-- `Loader::load`. -/
def Loader.load (l : Loader) : Except (List Error) Env :=
  if l.errors.isEmpty then .ok ⟨l.values⟩ else .error l.errors

/-- `Env::get`. -/
def Env.get (env : Env) (T : Ty) (name : Text) : Except Error T.Value :=
  match env.values.lookup name with
  | none => .error (.notRequested name)
  | some b =>
    match b.downcast T with
    | none => .error (.notRequested name)
    | some value => .ok value

/-! ## Schemas -/

/-- A declaration of a schema. -/
inductive Declaration
  | require (T : Ty) (name : Text)
  | optional (T : Ty) (name : Text)
  | optionalOr (T : Ty) (name : Text) (default : T.Value)

/-- The builder call of a declaration. -/
def Loader.declare (environment : Environment) (l : Loader) : Declaration → Loader
  | .require T name => l.require environment T name
  | .optional T name => l.optional environment T name
  | .optionalOr T name default => l.optionalOr environment T name default

/-- A schema is declared, then loaded. -/
def loadSchema (environment : Environment) (schema : List Declaration) : Except (List Error) Env :=
  (schema.foldl (Loader.declare environment) Loader.new).load

end RustFundamentals.Envtyped
