import RustFundamentals.Taskline.Handlers

/-!
# taskline: stored titles

Every way a request can change the tasks is one of four (`exec_writes`). `create_task` checks
the title it stores and `update_task` does not, so the titles stay valid in a run exactly when
no update in it stores an invalid one (`titles_valid_iff`).
-/

namespace RustFundamentals.Taskline

open Foundation

/-! ## What a request writes -/

/-- The tasks after a request: as they were, or with one row more, rows updated, rows gone. -/
inductive TaskWrite (sv : Services) (e : Event) (db : Db) : Db → Prop
  | none {db' : Db} : db'.tasks = db.tasks → TaskWrite sv e db db'
  | created {auth : Option Text} {body : CreateTask} {user : Uuid} :
      e.request = .createTask auth (.ok body) → authUser sv e.fate.now auth = .ok user →
      ValidTitle body.title → (∀ t ∈ db.tasks, t.id ≠ e.fate.freshId) →
      TaskWrite sv e db { db with
        tasks := db.tasks ++ [⟨e.fate.freshId, user, body.title, false, e.fate.now⟩] }
  | updated {auth : Option Text} {id : Uuid} {body : UpdateTask} {user : Uuid} :
      e.request = .updateTask auth (.ok id) (.ok body) →
      authUser sv e.fate.now auth = .ok user → e.fate.dbError = none →
      TaskWrite sv e db (db.updateTask body.title body.done id user).2
  | deleted {auth : Option Text} {id user : Uuid} :
      e.request = .deleteTask auth (.ok id) → authUser sv e.fate.now auth = .ok user →
      TaskWrite sv e db (db.deleteTask id user).2

theorem query_error {α : Type} {fate : Fate} {e : SqlxError} (h : fate.dbError = some e) (db : Db)
    (statement : Except SqlxError α × Db) : query fate db statement = (.error (.ofSqlx e), db) := by
  rw [query, h]

theorem query_none {α : Type} {fate : Fate} (h : fate.dbError = none) (db : Db)
    (statement : Except SqlxError α × Db) :
    query fate db statement = (statement.1.mapError .ofSqlx, statement.2) := by
  rw [query, h]

/-- A statement leaves the database as it was or as it says. -/
theorem query_db {α : Type} (fate : Fate) (db : Db) (statement : Except SqlxError α × Db) :
    (query fate db statement).2 = db ∨
      fate.dbError = none ∧ (query fate db statement).2 = statement.2 := by
  cases h : fate.dbError with
  | none => exact .inr ⟨rfl, by rw [query_none h]⟩
  | some e => exact .inl (by rw [query_error h])

/-- The caller's id, once the extractor has let the request pass. -/
theorem authenticated_cases (sv : Services) (fate : Fate) (db : Db) (auth : Option Text)
    (handler : Uuid → Response × Db) :
    (∃ user, authUser sv fate.now auth = .ok user ∧
        authenticated sv fate db auth handler = handler user) ∨
      ∃ e, authUser sv fate.now auth = .error e ∧
        authenticated sv fate db auth handler = (e.intoResponse, db) := by
  unfold authenticated
  cases authUser sv fate.now auth with
  | ok user => exact .inl ⟨user, rfl, rfl⟩
  | error e => exact .inr ⟨e, rfl, rfl⟩

theorem insertTask_eq {db : Db} {fate : Fate} (h : ∀ t ∈ db.tasks, t.id ≠ fate.freshId)
    (user : Uuid) (title : Text) :
    db.insertTask fate user title =
      (.ok ⟨fate.freshId, user, title, false, fate.now⟩,
        { db with tasks := db.tasks ++ [⟨fate.freshId, user, title, false, fate.now⟩] }) := by
  have hany : ¬ (db.tasks.any fun t => t.id = fate.freshId) = true := by
    rw [List.any_eq_true]
    intro hex
    obtain ⟨t, ht, hid⟩ := hex
    exact h t ht (of_decide_eq_true hid)
  rw [Db.insertTask, if_neg hany]

theorem insertTask_taken {db : Db} {fate : Fate} (h : ¬ ∀ t ∈ db.tasks, t.id ≠ fate.freshId)
    (user : Uuid) (title : Text) :
    db.insertTask fate user title = (.error (.database true), db) := by
  have hany : (db.tasks.any fun t => t.id = fate.freshId) = true := by
    rw [List.any_eq_true]
    obtain ⟨t, ht, hid⟩ : ∃ t ∈ db.tasks, t.id = fate.freshId := by simpa using h
    exact ⟨t, ht, decide_eq_true hid⟩
  rw [Db.insertTask, if_pos hany]

theorem register_tasks (sv : Services) (fate : Fate) (body : RegisterRequest) (db : Db) :
    (register sv fate body db).2.tasks = db.tasks := by
  unfold register
  split
  · rfl
  split
  · rfl
  rename_i passwordHash _
  show (query fate db (db.insertUser fate body.email passwordHash)).2.tasks = db.tasks
  rcases query_db fate db (db.insertUser fate body.email passwordHash) with h | ⟨-, h⟩
  · rw [h]
  · rw [h, Db.insertUser]
    split <;> rfl

/-- A query that only reads leaves the database as it was. -/
theorem query_read {α : Type} (fate : Fate) (db : Db) (r : Except SqlxError α) :
    (query fate db (r, db)).2 = db := by
  rcases query_db fate db (r, db) with h | ⟨-, h⟩ <;> exact h

theorem createTask_db (fate : Fate) (user : Uuid) (body : CreateTask) (db : Db) :
    (createTask fate user body db).2 = db ∨
      ValidTitle body.title ∧ (∀ t ∈ db.tasks, t.id ≠ fate.freshId) ∧
        (createTask fate user body db).2 =
          { db with tasks := db.tasks ++ [⟨fate.freshId, user, body.title, false, fate.now⟩] } := by
  unfold createTask
  split
  · exact .inl rfl
  rename_i hvalid
  rcases query_db fate db (db.insertTask fate user body.title) with h | ⟨-, h⟩
  · exact .inl h
  by_cases hfresh : ∀ t ∈ db.tasks, t.id ≠ fate.freshId
  · refine .inr ⟨createTask_validate.mp hvalid, hfresh, ?_⟩
    show (query fate db (db.insertTask fate user body.title)).2 = _
    rw [h, insertTask_eq hfresh]
  · refine .inl ?_
    show (query fate db (db.insertTask fate user body.title)).2 = _
    rw [h, insertTask_taken hfresh]

/-- **What a request writes to the tasks.** -/
theorem exec_writes (sv : Services) (db : Db) (e : Event) : TaskWrite sv e db (exec sv db e).2 := by
  have hsame : ∀ {r : Response × Db}, r.2 = db → TaskWrite sv e db r.2 := by
    intro r h
    exact .none (by rw [h])
  cases hreq : e.request with
  | register body =>
    simp only [exec, hreq]
    cases body with
    | error response => exact hsame rfl
    | ok body => exact .none (register_tasks sv e.fate body db)
  | login body =>
    simp only [exec, hreq]
    cases body with
    | error response => exact hsame rfl
    | ok body => exact hsame (query_read e.fate db (.ok (db.userByEmail body.email)))
  | listTasks auth =>
    simp only [exec, hreq]
    obtain ⟨user, -, h⟩ | ⟨err, -, h⟩ := authenticated_cases sv e.fate db auth
      fun user => respond (listTasks e.fate user db)
    · exact hsame (by rw [h]; exact query_read e.fate db (.ok (db.selectTasks user)))
    · exact hsame (by rw [h])
  | createTask auth body =>
    simp only [exec, hreq]
    obtain ⟨user, hauth, h⟩ | ⟨err, -, h⟩ := authenticated_cases sv e.fate db auth
      fun user => extracted db body fun body => respond (createTask e.fate user body db)
    · cases body with
      | error response => exact hsame (by rw [h]; rfl)
      | ok body =>
        -- refused, or inserted under an id that is free
        rcases createTask_db e.fate user body db with hdb | ⟨hvalid, hfresh, hdb⟩
        · exact hsame (by rw [h]; exact hdb)
        · have hcreated := TaskWrite.created hreq hauth hvalid hfresh
          rw [← hdb] at hcreated
          simp only [h]
          exact hcreated
    · exact hsame (by rw [h])
  | getTask auth id =>
    simp only [exec, hreq]
    obtain ⟨user, -, h⟩ | ⟨err, -, h⟩ := authenticated_cases sv e.fate db auth
      fun user => extracted db id fun id => respond (getTask e.fate user id db)
    · cases id with
      | error response => exact hsame (by rw [h]; rfl)
      | ok id => exact hsame (by rw [h]; exact query_read e.fate db (db.selectTask id user))
    · exact hsame (by rw [h])
  | updateTask auth id body =>
    simp only [exec, hreq]
    obtain ⟨user, hauth, h⟩ | ⟨err, -, h⟩ := authenticated_cases sv e.fate db auth
      fun user => extracted db id fun id =>
        extracted db body fun body => respond (updateTask e.fate user id body db)
    · cases id with
      | error response => exact hsame (by rw [h]; rfl)
      | ok id =>
        cases body with
        | error response => exact hsame (by rw [h]; rfl)
        | ok body =>
          rcases query_db e.fate db (db.updateTask body.title body.done id user) with hdb | hdb
          · exact hsame (by rw [h]; exact hdb)
          · have hupdated := @TaskWrite.updated sv e db auth id body user hreq hauth hdb.1
            rw [← hdb.2] at hupdated
            simp only [h]
            exact hupdated
    · exact hsame (by rw [h])
  | deleteTask auth id =>
    simp only [exec, hreq]
    obtain ⟨user, hauth, h⟩ | ⟨err, -, h⟩ := authenticated_cases sv e.fate db auth
      fun user => extracted db id fun id => respond (deleteTask e.fate user id db)
    · cases id with
      | error response => exact hsame (by rw [h]; rfl)
      | ok id =>
        have hdeleted := @TaskWrite.deleted sv e db auth id user hreq hauth
        rcases query_db e.fate db (.ok (db.deleteTask id user).1, (db.deleteTask id user).2)
          with hdb | hdb
        · exact hsame (by rw [h]; exact hdb)
        · rw [← show _ = (db.deleteTask id user).2 from hdb.2] at hdeleted
          simp only [h]
          exact hdeleted
    · exact hsame (by rw [h])

/-! ## The titles -/

/-- Every stored title is valid. -/
def TitlesValid (db : Db) : Prop := ∀ t ∈ db.tasks, ValidTitle t.title

/-- An update that is let through to a row of its caller with an invalid title. -/
def StoresUnchecked (sv : Services) (db : Db) (e : Event) : Prop :=
  ∃ auth id body user title, e.request = .updateTask auth (.ok id) (.ok body) ∧
    authUser sv e.fate.now auth = .ok user ∧ e.fate.dbError = none ∧
    (∃ t ∈ db.tasks, Db.matching id user t = true) ∧
    body.title = some title ∧ ¬ ValidTitle title

/-- A request that would store an invalid title: an update as above, or a creation. -/
def WouldBreak (sv : Services) (db : Db) (e : Event) : Prop :=
  StoresUnchecked sv db e ∨
    ∃ auth body user, e.request = .createTask auth (.ok body) ∧
      authUser sv e.fate.now auth = .ok user ∧ ¬ ValidTitle body.title

/-- The titles are valid after the request, and one that would break this is answered 422 and
changes nothing. -/
def TitlesKept (sv : Services) (db : Db) (e : Event) : Prop :=
  TitlesValid (exec sv db e).2 ∧
    (WouldBreak sv db e → (exec sv db e).1.status = 422 ∧ (exec sv db e).2 = db)

/-- A creation with an invalid title is refused. -/
theorem create_refused {sv : Services} {db : Db} {e : Event} {auth : Option Text}
    {body : CreateTask} {user : Uuid} (hreq : e.request = .createTask auth (.ok body))
    (hauth : authUser sv e.fate.now auth = .ok user) (h : ¬ ValidTitle body.title) :
    (exec sv db e).1.status = 422 ∧ (exec sv db e).2 = db := by
  have hcheck : ∃ errors, body.validate = .error errors := by
    cases hcheck : body.validate with
    | ok _ => exact absurd (createTask_validate.mp hcheck) h
    | error errors => exact ⟨errors, rfl⟩
  obtain ⟨errors, hcheck⟩ := hcheck
  have hrun : createTask e.fate user body db = (.error (.validation errors), db) := by
    rw [createTask, hcheck]
  simp only [exec, hreq, authenticated, hauth]
  show (respond (createTask e.fate user body db)).1.status = 422 ∧
    (respond (createTask e.fate user body db)).2 = db
  rw [hrun]
  exact ⟨rfl, rfl⟩

/-- The rows of an update: those it matches are assigned, the others stay. -/
theorem mem_updateTask {db : Db} {title : Option Text} {done : Option Bool} {id user : Uuid}
    {t : Task} (h : t ∈ (db.updateTask title done id user).2.tasks) :
    ∃ t₀ ∈ db.tasks, (Db.matching id user t₀ = true ∧ t = Db.assign title done t₀) ∨ t = t₀ := by
  obtain ⟨t₀, ht₀, rfl⟩ := List.mem_map.mp h
  refine ⟨t₀, ht₀, ?_⟩
  cases hm : Db.matching id user t₀ with
  | true => exact .inl ⟨rfl, if_pos rfl⟩
  | false => exact .inr (if_neg (by simp))

/-- A request that is not such an update keeps the titles valid. -/
theorem titles_step {sv : Services} {db : Db} {e : Event} (hdb : TitlesValid db)
    (h : ¬ StoresUnchecked sv db e) : TitlesValid (exec sv db e).2 := by
  suffices hall : ∀ db', TaskWrite sv e db db' → TitlesValid db' from
    hall _ (exec_writes sv db e)
  intro db' hwrite
  cases hwrite with
  | none hsame =>
    intro t ht
    rw [hsame] at ht
    exact hdb t ht
  | created hreq hauth hvalid hfresh =>
    intro t ht
    rcases List.mem_append.mp ht with ht | ht
    · exact hdb t ht
    · rw [List.mem_singleton.mp ht]
      exact hvalid
  | @updated auth id body user hreq hauth hfate =>
    intro t ht
    obtain ⟨t₀, ht₀, ⟨hm, rfl⟩ | rfl⟩ := mem_updateTask ht
    · show ValidTitle (body.title.getD t₀.title)
      cases htitle : body.title with
      | none => exact hdb t₀ ht₀
      | some title =>
        by_contra hbad
        exact h ⟨auth, id, body, user, title, hreq, hauth, hfate, ⟨t₀, ht₀, hm⟩, htitle, hbad⟩
    · exact hdb t ht₀
  | deleted hreq hauth =>
    intro t ht
    exact hdb t (List.mem_filter.mp ht).1

/-- Such an update goes through. -/
theorem unchecked_stored {sv : Services} {db : Db} {e : Event} (h : StoresUnchecked sv db e) :
    ¬ TitlesValid (exec sv db e).2 := by
  obtain ⟨auth, id, body, user, title, hreq, hauth, hfate, ⟨t, ht, hm⟩, htitle, hbad⟩ := h
  have hrun : (exec sv db e).2 = (db.updateTask body.title body.done id user).2 := by
    simp only [exec, hreq, authenticated, hauth]
    show (query e.fate db (db.updateTask body.title body.done id user)).2 = _
    rw [query_none hfate]
  intro hvalid
  rw [hrun] at hvalid
  have hrow := hvalid (Db.assign body.title body.done t)
    (List.mem_map.mpr ⟨t, ht, by rw [if_pos hm]⟩)
  change ValidTitle (body.title.getD t.title) at hrow
  rw [htitle] at hrow
  exact hbad hrow

theorem titlesKept_iff {sv : Services} {db : Db} (hdb : TitlesValid db) (e : Event) :
    TitlesKept sv db e ↔ ¬ StoresUnchecked sv db e := by
  constructor
  · intro h hstores
    exact unchecked_stored hstores h.1
  · intro h
    refine ⟨titles_step hdb h, ?_⟩
    intro hbreak
    rcases hbreak with hstores | ⟨auth, body, user, hreq, hauth, hbad⟩
    · exact absurd hstores h
    · exact create_refused hreq hauth hbad

/-- **The stored titles stay valid exactly in the runs without an unchecked update.** -/
theorem titles_valid_iff (sv : Services) (es : List Event) :
    Along (exec sv) (TitlesKept sv) Db.empty es ↔
      Along (exec sv) (fun db e => ¬ StoresUnchecked sv db e) Db.empty es := by
  have hempty : TitlesValid Db.empty := by
    intro t ht
    cases ht
  exact Along.iff_of_invariant TitlesValid (fun _ e hdb => titlesKept_iff hdb e)
    (fun _ _ hdb hok => titles_step hdb hok) hempty es

/-! ## An update that is not checked -/

/-- Services that hash by doing nothing, with the user's id as the length of the token. -/
def plainServices : Services where
  hash := fun password _ => some password
  verify := fun password passwordHash => some (password = passwordHash)
  issue := fun user _ => some (List.replicate user 'x')
  claims := fun token _ => some token.length

/-- What the database decides when nothing fails. -/
def calm (freshId : Uuid) : Fate := ⟨freshId, 0, [], none⟩

def bearer : Option Text := some "Bearer x".toList

/-- A task is created, and its title updated to two blanks. -/
def blankedTitle : List Event :=
  [⟨.createTask bearer (.ok ⟨"ship it".toList⟩), calm 7⟩,
    ⟨.updateTask bearer (.ok 7) (.ok ⟨some "  ".toList, none⟩), calm 8⟩]

theorem blankedTitle_stored :
    (runFrom (exec plainServices) Db.empty blankedTitle).tasks = [⟨7, 1, "  ".toList, false, 0⟩] ∧
      ¬ ValidTitle "  ".toList ∧
      ¬ Along (exec plainServices) (TitlesKept plainServices) Db.empty blankedTitle := by
  have hrow : (runFrom (exec plainServices) Db.empty blankedTitle).tasks =
      [⟨7, 1, "  ".toList, false, 0⟩] := by decide
  have hbad : ¬ ValidTitle "  ".toList := by decide
  refine ⟨hrow, hbad, ?_⟩
  intro hkept
  have hvalid : TitlesValid (runFrom (exec plainServices) Db.empty blankedTitle) := hkept.2.1.1
  exact hbad (hvalid _ (by rw [hrow]; exact List.mem_singleton.mpr rfl))

end RustFundamentals.Taskline
