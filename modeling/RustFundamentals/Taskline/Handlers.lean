import RustFundamentals.Taskline.Models
import RustFundamentals.Foundation.Runs
import Mathlib.Data.List.Sort

/-!
# taskline: the handlers

`handlers.rs`, the extractor of `auth.rs` and the routes of `app.rs`. Each handler runs one SQL
statement. A table is the list of its rows; what the database and the crates around it decide
for a request (the id and time a row gets, the salt, whether the statement fails instead of
being executed) comes with the request.
-/

namespace RustFundamentals.Taskline

open Foundation

/-! ## The database -/

/-- The two tables. -/
structure Db where
  users : List User
  tasks : List Task
  deriving DecidableEq

def Db.empty : Db := ⟨[], []⟩

/-- What is decided for a request outside the handler. -/
structure Fate where
  freshId : Uuid
  now : Timestamp
  salt : Text
  dbError : Option SqlxError
  deriving DecidableEq

namespace Db

/-- `INSERT INTO users (email, password_hash) VALUES ($1, $2) RETURNING *`; `email` is unique. -/
def insertUser (db : Db) (fate : Fate) (email passwordHash : Text) : Except SqlxError User × Db :=
  if db.users.any fun u => u.email = email || u.id = fate.freshId then (.error (.database true), db)
  else
    let user : User := ⟨fate.freshId, email, passwordHash, fate.now⟩
    (.ok user, { db with users := db.users ++ [user] })

/-- `SELECT * FROM users WHERE email = $1`. -/
def userByEmail (db : Db) (email : Text) : Option User := db.users.find? fun u => u.email = email

/-- The rows `WHERE user_id = $1`. -/
def tasksOf (db : Db) (user : Uuid) : List Task := db.tasks.filter fun t => t.userId = user

/-- `SELECT * FROM tasks WHERE user_id = $1 ORDER BY created_at`. -/
def selectTasks (db : Db) (user : Uuid) : List Task :=
  (db.tasksOf user).mergeSort fun s t => s.createdAt ≤ t.createdAt

/-- `INSERT INTO tasks (user_id, title) VALUES ($1, $2) RETURNING *`; `id` is the key. -/
def insertTask (db : Db) (fate : Fate) (user : Uuid) (title : Text) : Except SqlxError Task × Db :=
  if db.tasks.any fun t => t.id = fate.freshId then (.error (.database true), db)
  else
    let task : Task := ⟨fate.freshId, user, title, false, fate.now⟩
    (.ok task, { db with tasks := db.tasks ++ [task] })

/-- `WHERE id = $1 AND user_id = $2`. -/
def matching (id user : Uuid) (t : Task) : Bool := t.id = id && t.userId = user

/-- `SELECT * FROM tasks WHERE id = $1 AND user_id = $2`. -/
def selectTask (db : Db) (id user : Uuid) : Except SqlxError Task :=
  match db.tasks.find? (matching id user) with
  | some t => .ok t
  | none => .error .rowNotFound

/-- `SET title = COALESCE($1, title), done = COALESCE($2, done)`. -/
def assign (title : Option Text) (done : Option Bool) (t : Task) : Task :=
  { t with title := title.getD t.title, done := done.getD t.done }

/-- `UPDATE tasks SET … WHERE id = $3 AND user_id = $4 RETURNING *`. -/
def updateTask (db : Db) (title : Option Text) (done : Option Bool) (id user : Uuid) :
    Except SqlxError Task × Db :=
  (match db.tasks.find? (matching id user) with
    | some t => .ok (assign title done t)
    | none => .error .rowNotFound,
    { db with tasks := db.tasks.map fun t =>
        if matching id user t then assign title done t else t })

/-- `DELETE FROM tasks WHERE id = $1 AND user_id = $2`: the number of rows affected. -/
def deleteTask (db : Db) (id user : Uuid) : Nat × Db :=
  (db.tasks.countP (matching id user),
    { db with tasks := db.tasks.filter fun t => !matching id user t })

end Db

/-! ## Authentication -/

/-- The crates behind `auth.rs`: argon2 and the JWT library. `hash` and `verify` fail on a
corrupt input, `issue` and `claims` on a key or token that is not right. -/
structure Services where
  hash : Text → Text → Option Text
  verify : Text → Text → Option Bool
  issue : Uuid → Timestamp → Option Text
  claims : Text → Timestamp → Option Uuid

/-- `strip_prefix`. -/
def stripPrefix (pre s : Text) : Option Text :=
  if pre.isPrefixOf s then some (s.drop pre.length) else none

/-- `AuthUser::from_request_parts`: the user id, from the text of the `Authorization` header. -/
def authUser (sv : Services) (now : Timestamp) (header : Option Text) : Except AppError Uuid :=
  match header.bind (stripPrefix "Bearer ".toList) with
  | none => .error .unauthorized
  | some token =>
    match sv.claims token now with
    | some user => .ok user
    | none => .error .unauthorized

/-! ## Handlers -/

/-- What an extractor makes of a part of the request: a value, or the response that rejects it. -/
abbrev Extracted (α : Type) := Except Response α

/-- A request to one of the routes that reach the database. -/
inductive Request
  | register (body : Extracted RegisterRequest)
  | login (body : Extracted LoginRequest)
  | listTasks (auth : Option Text)
  | createTask (auth : Option Text) (body : Extracted CreateTask)
  | getTask (auth : Option Text) (id : Extracted Uuid)
  | updateTask (auth : Option Text) (id : Extracted Uuid) (body : Extracted UpdateTask)
  | deleteTask (auth : Option Text) (id : Extracted Uuid)

/-- A request, and what is decided for it outside. -/
structure Event where
  request : Request
  fate : Fate

/-- A statement, unless the database fails it. -/
def query {α : Type} (fate : Fate) (db : Db) (statement : Except SqlxError α × Db) :
    Except AppError α × Db :=
  match fate.dbError with
  | some e => (.error (.ofSqlx e), db)
  | none => (statement.1.mapError .ofSqlx, statement.2)

/-- `register`. -/
def register (sv : Services) (fate : Fate) (body : RegisterRequest) (db : Db) :
    Except AppError Response × Db :=
  match body.validate with
  | .error errors => (.error (.validation errors), db)
  | .ok () =>
    match sv.hash body.password fate.salt with
    | none => (.error .internal, db)
    | some passwordHash =>
      let (r, db) := query fate db (db.insertUser fate body.email passwordHash)
      (r.map fun user => ⟨201, .user user.id user.email⟩, db)

/-- `login`. -/
def login (sv : Services) (fate : Fate) (body : LoginRequest) (db : Db) :
    Except AppError Response × Db :=
  let (r, db) := query fate db (.ok (db.userByEmail body.email), db)
  (do
    match ← r with
    | none => .error .unauthorized
    | some user =>
      match sv.verify body.password user.passwordHash with
      | none => .error .internal
      | some false => .error .unauthorized
      | some true =>
        match sv.issue user.id fate.now with
        | some token => .ok ⟨200, .token token "Bearer".toList⟩
        | none => .error .unauthorized, db)

/-- `list_tasks`. -/
def listTasks (fate : Fate) (user : Uuid) (db : Db) : Except AppError Response × Db :=
  let (r, db) := query fate db (.ok (db.selectTasks user), db)
  (r.map fun tasks => ⟨200, .tasks (tasks.map Task.view)⟩, db)

/-- `create_task`. -/
def createTask (fate : Fate) (user : Uuid) (body : CreateTask) (db : Db) :
    Except AppError Response × Db :=
  match body.validate with
  | .error errors => (.error (.validation errors), db)
  | .ok () =>
    let (r, db) := query fate db (db.insertTask fate user body.title)
    (r.map fun task => ⟨201, .task task.view⟩, db)

/-- `get_task`. -/
def getTask (fate : Fate) (user id : Uuid) (db : Db) : Except AppError Response × Db :=
  let (r, db) := query fate db (db.selectTask id user, db)
  (r.map fun task => ⟨200, .task task.view⟩, db)

/-- `update_task`. It does not validate its body. -/
def updateTask (fate : Fate) (user id : Uuid) (body : UpdateTask) (db : Db) :
    Except AppError Response × Db :=
  let (r, db) := query fate db (db.updateTask body.title body.done id user)
  (r.map fun task => ⟨200, .task task.view⟩, db)

/-- `delete_task`. -/
def deleteTask (fate : Fate) (user id : Uuid) (db : Db) : Except AppError Response × Db :=
  let (r, db) := query fate db (let (n, db) := db.deleteTask id user; (.ok n, db))
  (do
    if (← r) = 0 then .error .notFound else .ok ⟨204, .empty⟩, db)

/-- The handler's result as a response. -/
def respond (r : Except AppError Response × Db) : Response × Db :=
  (match r.1 with
    | .ok response => response
    | .error e => e.intoResponse, r.2)

/-- The extractors of a route run in order; the first that rejects answers the request. -/
def extracted {α : Type} (db : Db) (x : Extracted α) (handler : α → Response × Db) :
    Response × Db :=
  match x with
  | .ok a => handler a
  | .error response => (response, db)

/-- The extractor of the caller in front of a handler. -/
def authenticated (sv : Services) (fate : Fate) (db : Db) (auth : Option Text)
    (handler : Uuid → Response × Db) : Response × Db :=
  extracted db ((authUser sv fate.now auth).mapError AppError.intoResponse) handler

/-- The router: the response to a request, and the database afterwards. -/
def exec (sv : Services) (db : Db) (e : Event) : Response × Db :=
  match e.request with
  | .register body => extracted db body fun body => respond (register sv e.fate body db)
  | .login body => extracted db body fun body => respond (login sv e.fate body db)
  | .listTasks auth =>
    authenticated sv e.fate db auth fun user => respond (listTasks e.fate user db)
  | .createTask auth body =>
    authenticated sv e.fate db auth fun user =>
      extracted db body fun body => respond (createTask e.fate user body db)
  | .getTask auth id =>
    authenticated sv e.fate db auth fun user =>
      extracted db id fun id => respond (getTask e.fate user id db)
  | .updateTask auth id body =>
    authenticated sv e.fate db auth fun user =>
      extracted db id fun id =>
        extracted db body fun body => respond (updateTask e.fate user id body db)
  | .deleteTask auth id =>
    authenticated sv e.fate db auth fun user =>
      extracted db id fun id => respond (deleteTask e.fate user id db)

end RustFundamentals.Taskline
