import Mathlib.Algebra.Order.Ring.Nat
import RustFundamentals.Foundation.Text

/-!
# taskline: rows, bodies, validation and errors

`models.rs`, `validation.rs` and `error.rs`: what crosses the HTTP boundary, the checks made on
it, and how a failed request is answered.
-/

namespace RustFundamentals.Taskline

open Foundation

/-- A row id. Ids are only compared. -/
abbrev Uuid := Nat

/-- A `timestamptz`, in microseconds. -/
abbrev Timestamp := Int

/-! ## Rows -/

/-- A row of `users`. -/
structure User where
  id : Uuid
  email : Text
  passwordHash : Text
  createdAt : Timestamp
  deriving DecidableEq

/-- A row of `tasks`. -/
structure Task where
  id : Uuid
  userId : Uuid
  title : Text
  done : Bool
  createdAt : Timestamp
  deriving DecidableEq

/-! ## Requests -/

/-- `RegisterRequest`. -/
structure RegisterRequest where
  email : Text
  password : Text
  deriving DecidableEq

/-- `LoginRequest`. -/
abbrev LoginRequest := RegisterRequest

/-- `CreateTask`. -/
structure CreateTask where
  title : Text
  deriving DecidableEq

/-- `UpdateTask`: what is absent is not updated. -/
structure UpdateTask where
  title : Option Text
  done : Option Bool
  deriving DecidableEq

/-! ## Validation -/

/-- `FieldError`. -/
structure FieldError where
  field : Text
  message : Text
  deriving DecidableEq

/-- `ValidationErrors`. -/
abbrev ValidationErrors := List FieldError

/-- `ValidationErrors::into_result`. -/
def intoResult (errors : ValidationErrors) : Except ValidationErrors Unit :=
  if errors.isEmpty then .ok () else .error errors

/-- The errors of a title, as `CreateTask` and `UpdateTask` check it. -/
def titleErrors (title : Text) : ValidationErrors :=
  let trimmed := title.trim
  (if trimmed.isEmpty then [⟨"title".toList, "must not be empty".toList⟩] else []) ++
    if 200 < trimmed.length then [⟨"title".toList, "must be at most 200 characters".toList⟩]
    else []

/-- The length of a `str` is that of its UTF-8. -/
def utf8Length (s : Text) : Nat := (s.map Char.utf8Size).sum

/-- `Validate for RegisterRequest`. -/
def RegisterRequest.validate (body : RegisterRequest) : Except ValidationErrors Unit :=
  intoResult <|
    (if body.email.contains '@' then [] else [⟨"email".toList, "must contain '@'".toList⟩]) ++
      if utf8Length body.password < 8 then
        [⟨"password".toList, "must be at least 8 characters".toList⟩]
      else []

/-- `Validate for CreateTask`. -/
def CreateTask.validate (body : CreateTask) : Except ValidationErrors Unit :=
  intoResult (titleErrors body.title)

/-- `Validate for UpdateTask`. No handler calls it. -/
def UpdateTask.validate (body : UpdateTask) : Except ValidationErrors Unit :=
  match body.title with
  | some title => intoResult (titleErrors title)
  | none => intoResult []

/-- A title the checks let through. -/
def ValidTitle (title : Text) : Prop := title.trim ≠ [] ∧ title.trim.length ≤ 200

instance (title : Text) : Decidable (ValidTitle title) :=
  inferInstanceAs (Decidable (title.trim ≠ [] ∧ title.trim.length ≤ 200))

theorem intoResult_eq_ok {errors : ValidationErrors} :
    intoResult errors = .ok () ↔ errors = [] := by
  cases errors <;> simp [intoResult]

theorem titleErrors_eq_nil {title : Text} : titleErrors title = [] ↔ ValidTitle title := by
  unfold titleErrors ValidTitle
  dsimp only
  rw [List.append_eq_nil_iff, ite_eq_right_iff, ite_eq_right_iff, List.isEmpty_iff]
  simp only [List.cons_ne_nil, imp_false, not_lt, ne_eq]

/-- `CreateTask` passes its check exactly with a valid title. -/
theorem createTask_validate {body : CreateTask} :
    body.validate = .ok () ↔ ValidTitle body.title := by
  rw [CreateTask.validate, intoResult_eq_ok, titleErrors_eq_nil]

/-! ## Errors -/

/-- `AppError`. -/
inductive AppError
  | validation (errors : ValidationErrors)
  | unauthorized
  | forbidden
  | notFound
  | conflict (msg : Text)
  | badRequest (msg : Text)
  | internal
  deriving DecidableEq

/-- `sqlx::Error`, as far as it is told apart. -/
inductive SqlxError
  | rowNotFound
  | database (uniqueViolation : Bool)
  | other
  deriving DecidableEq

/-- `From<sqlx::Error> for AppError`. -/
def AppError.ofSqlx : SqlxError → AppError
  | .rowNotFound => .notFound
  | .database true => .conflict "resource already exists".toList
  | .database false => .internal
  | .other => .internal

/-! ## Responses -/

/-- A `Task` as it is serialized: without its owner. -/
structure TaskView where
  id : Uuid
  title : Text
  done : Bool
  createdAt : Timestamp
  deriving DecidableEq

def Task.view (t : Task) : TaskView := ⟨t.id, t.title, t.done, t.createdAt⟩

/-- The body of a response. -/
inductive Body
  | empty
  | user (id : Uuid) (email : Text)
  | token (token tokenType : Text)
  | task (task : TaskView)
  | tasks (tasks : List TaskView)
  | error (error : Text)
  | invalid (error : Text) (fields : ValidationErrors)
  | rejection (text : Text)
  deriving DecidableEq

/-- A response. -/
structure Response where
  status : Nat
  body : Body
  deriving DecidableEq

/-- `IntoResponse for AppError`. -/
def AppError.intoResponse : AppError → Response
  | .validation errors => ⟨422, .invalid "validation failed".toList errors⟩
  | .unauthorized => ⟨401, .error "unauthorized".toList⟩
  | .forbidden => ⟨403, .error "forbidden".toList⟩
  | .notFound => ⟨404, .error "not found".toList⟩
  | .conflict msg => ⟨409, .error msg⟩
  | .badRequest msg => ⟨400, .error msg⟩
  | .internal => ⟨500, .error "internal error".toList⟩

end RustFundamentals.Taskline
