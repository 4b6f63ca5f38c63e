import RustFundamentals.Taskline.Titles
import RustFundamentals.Foundation.Unwinding

/-!
# taskline: owner isolation

A request of one user leaves the rows of the others alone, and is answered from that user's
rows only (`others_unchanged`, `answered_from_own_rows`). Over a run a user's answers are those
of the run without the task requests of the other users (`owner_isolation`).
-/

namespace RustFundamentals.Taskline

open Foundation

/-! ## The rows of one user -/

theorem matching_eq (id user : Uuid) (t : Task) :
    Db.matching id user t = (decide (t.userId = user) && decide (t.id = id)) := Bool.and_comm _ _

/-- The row a user asks for is looked for among the user's. -/
theorem find_matching (db : Db) (id user : Uuid) :
    db.tasks.find? (Db.matching id user) = (db.tasksOf user).find? fun t => t.id = id := by
  rw [Db.tasksOf, List.find?_filter]
  congr 1
  funext t
  rw [matching_eq, Bool.decide_and, Bool.decide_eq_true, Bool.decide_eq_true]

theorem countP_matching (db : Db) (id user : Uuid) :
    db.tasks.countP (Db.matching id user) = (db.tasksOf user).countP fun t => t.id = id := by
  rw [Db.tasksOf, List.countP_filter]
  rfl

theorem tasksOf_append (db : Db) (t : Task) (user : Uuid) :
    ({ db with tasks := db.tasks ++ [t] } : Db).tasksOf user =
      db.tasksOf user ++ if t.userId = user then [t] else [] := by
  rw [Db.tasksOf, List.filter_append, Db.tasksOf]
  by_cases h : t.userId = user <;> simp [h]

/-- An update reaches the rows of its user only. -/
theorem tasksOf_updateTask (db : Db) (title : Option Text) (done : Option Bool) (id user v : Uuid) :
    (db.updateTask title done id user).2.tasksOf v =
      (db.tasksOf v).map fun t =>
        if v = user ∧ t.id = id then Db.assign title done t else t := by
  rw [Db.tasksOf, Db.tasksOf]
  show List.filter _ (db.tasks.map _) = _
  induction db.tasks with
  | nil => rfl
  | cons t ts ih =>
    rw [List.map_cons, List.filter_cons, List.filter_cons]
    have howner : (if Db.matching id user t = true then Db.assign title done t else t).userId =
        t.userId := by
      split <;> rfl
    rw [howner, ih]
    by_cases hv : t.userId = v
    · have hm : Db.matching id user t = true ↔ v = user ∧ t.id = id := by
        rw [matching_eq, Bool.and_eq_true, decide_eq_true_eq, decide_eq_true_eq, hv]
      simp only [hv, decide_true, if_true, List.map_cons, hm]
    · simp only [hv, decide_false, Bool.false_eq_true, if_false]

theorem tasksOf_deleteTask (db : Db) (id user v : Uuid) :
    (db.deleteTask id user).2.tasksOf v =
      (db.tasksOf v).filter fun t => !(decide (v = user) && decide (t.id = id)) := by
  rw [Db.tasksOf, Db.tasksOf]
  show List.filter _ (db.tasks.filter _) = _
  rw [List.filter_filter, List.filter_filter]
  apply List.filter_congr
  intro t _
  rw [matching_eq]
  by_cases hv : t.userId = v
  · rw [hv, Bool.and_comm]
  · simp [hv]

/-! ## One request -/

/-- The user a task request is made by, once it is authenticated. -/
def callerOf (sv : Services) (e : Event) : Option Uuid :=
  match e.request with
  | .register _ | .login _ => none
  | .listTasks auth | .createTask auth _ | .getTask auth _ | .updateTask auth _ _
  | .deleteTask auth _ => (authUser sv e.fate.now auth).toOption

/-- The id a creation is given is not taken. -/
def FreshFor (db : Db) (e : Event) : Prop :=
  ∀ auth body, e.request = .createTask auth body → ∀ t ∈ db.tasks, t.id ≠ e.fate.freshId

/-- A request leaves the rows of every user but its caller alone. -/
theorem others_unchanged {sv : Services} {db : Db} {e : Event} {user v : Uuid}
    (hcaller : callerOf sv e = some user) (hv : v ≠ user) :
    (exec sv db e).2.tasksOf v = db.tasksOf v := by
  suffices hall : ∀ db', TaskWrite sv e db db' → db'.tasksOf v = db.tasksOf v from
    hall _ (exec_writes sv db e)
  intro db' hwrite
  cases hwrite with
  | none hsame => rw [Db.tasksOf, hsame, Db.tasksOf]
  | created hreq hauth =>
    rw [callerOf, hreq] at hcaller
    simp only [hauth, Except.toOption, Option.some.injEq] at hcaller
    rw [tasksOf_append, if_neg (by rw [hcaller]; exact hv.symm), List.append_nil]
  | updated hreq hauth =>
    rw [callerOf, hreq] at hcaller
    simp only [hauth, Except.toOption, Option.some.injEq] at hcaller
    rw [tasksOf_updateTask]
    simp [hcaller, hv]
  | deleted hreq hauth =>
    rw [callerOf, hreq] at hcaller
    simp only [hauth, Except.toOption, Option.some.injEq] at hcaller
    rw [tasksOf_deleteTask]
    simp [hcaller, hv]

/-- Two databases in which a user has the same rows. -/
def AlikeFor (user : Uuid) (db db' : Db) : Prop := db.tasksOf user = db'.tasksOf user

theorem AlikeFor.selectTask {user : Uuid} {db db' : Db} (h : AlikeFor user db db') (id : Uuid) :
    db.selectTask id user = db'.selectTask id user := by
  rw [Db.selectTask, Db.selectTask, find_matching, find_matching, h]

theorem AlikeFor.selectTasks {user : Uuid} {db db' : Db} (h : AlikeFor user db db') :
    db.selectTasks user = db'.selectTasks user := by
  rw [Db.selectTasks, Db.selectTasks, h]

theorem AlikeFor.insertTask {user : Uuid} {db db' : Db} (h : AlikeFor user db db') {fate : Fate}
    (hdb : ∀ t ∈ db.tasks, t.id ≠ fate.freshId) (hdb' : ∀ t ∈ db'.tasks, t.id ≠ fate.freshId)
    (title : Text) :
    (db.insertTask fate user title).1 = (db'.insertTask fate user title).1 ∧
      AlikeFor user (db.insertTask fate user title).2 (db'.insertTask fate user title).2 := by
  rw [insertTask_eq hdb, insertTask_eq hdb']
  refine ⟨rfl, ?_⟩
  rw [AlikeFor, tasksOf_append, tasksOf_append, h]

theorem AlikeFor.updateTask {user : Uuid} {db db' : Db} (h : AlikeFor user db db')
    (title : Option Text) (done : Option Bool) (id : Uuid) :
    (db.updateTask title done id user).1 = (db'.updateTask title done id user).1 ∧
      AlikeFor user (db.updateTask title done id user).2 (db'.updateTask title done id user).2 := by
  refine ⟨?_, ?_⟩
  · have hfind : db.tasks.find? (Db.matching id user) = db'.tasks.find? (Db.matching id user) := by
      rw [find_matching, find_matching, h]
    simp only [Db.updateTask, hfind]
  · rw [AlikeFor, tasksOf_updateTask, tasksOf_updateTask, h]

theorem AlikeFor.deleteTask {user : Uuid} {db db' : Db} (h : AlikeFor user db db') (id : Uuid) :
    (db.deleteTask id user).1 = (db'.deleteTask id user).1 ∧
      AlikeFor user (db.deleteTask id user).2 (db'.deleteTask id user).2 := by
  refine ⟨?_, ?_⟩
  · rw [Db.deleteTask, Db.deleteTask, countP_matching, countP_matching, h]
  · rw [AlikeFor, tasksOf_deleteTask, tasksOf_deleteTask, h]

/-- The same answer, from databases that stay alike. -/
def AnswersAlike {ρ : Type} (user : Uuid) (r r' : ρ × Db) : Prop :=
  r.1 = r'.1 ∧ AlikeFor user r.2 r'.2

/-- A statement that is answered alike is so whether or not the database fails it. -/
theorem AlikeFor.query {α : Type} {user : Uuid} {db db' : Db} (h : AlikeFor user db db')
    (fate : Fate) {statement statement' : Except SqlxError α × Db}
    (hs : AnswersAlike user statement statement') :
    AnswersAlike user (query fate db statement) (query fate db' statement') := by
  cases hfate : fate.dbError with
  | some e =>
    rw [query_error hfate, query_error hfate]
    exact ⟨rfl, h⟩
  | none =>
    rw [query_none hfate, query_none hfate]
    exact ⟨by rw [hs.1], hs.2⟩

/-- What a handler makes of the rows it gets. -/
theorem AnswersAlike.respond {α : Type} {user : Uuid} {r r' : Except AppError α × Db}
    (h : AnswersAlike user r r') (f : Except AppError α → Except AppError Response) :
    AnswersAlike user (respond (f r.1, r.2)) (respond (f r'.1, r'.2)) :=
  ⟨by rw [Taskline.respond, Taskline.respond, h.1], h.2⟩

theorem createTask_alike {user : Uuid} {db db' : Db} (h : AlikeFor user db db') {fate : Fate}
    (hdb : ∀ t ∈ db.tasks, t.id ≠ fate.freshId) (hdb' : ∀ t ∈ db'.tasks, t.id ≠ fate.freshId)
    (body : CreateTask) :
    AnswersAlike user (respond (createTask fate user body db))
      (respond (createTask fate user body db')) := by
  unfold createTask
  cases body.validate with
  | error errors => exact ⟨rfl, h⟩
  | ok _ =>
    exact (h.query fate (h.insertTask hdb hdb' body.title)).respond
      fun r => r.map fun task => ⟨201, .task task.view⟩

/-- **A caller is answered from its own rows**, and what becomes of them depends on nothing
else either. -/
theorem answered_from_own_rows {sv : Services} {db db' : Db} {e : Event} {user : Uuid}
    (hcaller : callerOf sv e = some user) (hdb : FreshFor db e) (hdb' : FreshFor db' e)
    (h : AlikeFor user db db') : AnswersAlike user (exec sv db e) (exec sv db' e) := by
  have hpass : ∀ {auth : Option Text} {handler handler' : Uuid → Response × Db},
      (authUser sv e.fate.now auth).toOption = some user →
      AnswersAlike user (handler user) (handler' user) →
      AnswersAlike user (authenticated sv e.fate db auth handler)
        (authenticated sv e.fate db' auth handler') := by
    intro auth handler handler' hauth hh
    unfold authenticated
    cases hres : authUser sv e.fate.now auth with
    | error err => rw [hres] at hauth; cases hauth
    | ok v =>
      rw [hres] at hauth
      obtain rfl : v = user := Option.some.inj hauth
      exact hh
  have hread : ∀ {α : Type} {x : Extracted α} {handler handler' : α → Response × Db},
      (∀ a, AnswersAlike user (handler a) (handler' a)) →
      AnswersAlike user (extracted db x handler) (extracted db' x handler') := by
    intro α x handler handler' hh
    cases x with
    | ok a => exact hh a
    | error response => exact ⟨rfl, h⟩
  cases hreq : e.request with
  | register body => rw [callerOf, hreq] at hcaller; cases hcaller
  | login body => rw [callerOf, hreq] at hcaller; cases hcaller
  | listTasks auth =>
    simp only [callerOf, hreq] at hcaller
    simp only [exec, hreq]
    refine hpass hcaller ?_
    have hrows : AnswersAlike user ((.ok (db.selectTasks user), db) : Except SqlxError _ × Db)
        (.ok (db'.selectTasks user), db') := ⟨congrArg Except.ok h.selectTasks, h⟩
    exact (h.query e.fate hrows).respond
      fun r => r.map fun tasks => ⟨200, .tasks (tasks.map Task.view)⟩
  | createTask auth body =>
    simp only [callerOf, hreq] at hcaller
    simp only [exec, hreq]
    refine hpass hcaller (hread fun body' => ?_)
    exact createTask_alike h (hdb auth body hreq) (hdb' auth body hreq) body'
  | getTask auth id =>
    simp only [callerOf, hreq] at hcaller
    simp only [exec, hreq]
    refine hpass hcaller (hread fun id => ?_)
    have hrow : AnswersAlike user (db.selectTask id user, db) (db'.selectTask id user, db') :=
      ⟨h.selectTask id, h⟩
    exact (h.query e.fate hrow).respond fun r => r.map fun task => ⟨200, .task task.view⟩
  | updateTask auth id body =>
    simp only [callerOf, hreq] at hcaller
    simp only [exec, hreq]
    refine hpass hcaller (hread fun id => hread fun body => ?_)
    exact (h.query e.fate (h.updateTask body.title body.done id)).respond
      fun r => r.map fun task => ⟨200, .task task.view⟩
  | deleteTask auth id =>
    simp only [callerOf, hreq] at hcaller
    simp only [exec, hreq]
    refine hpass hcaller (hread fun id => ?_)
    have hdelete := h.deleteTask id
    have hcount : AnswersAlike user
        ((.ok (db.deleteTask id user).1, (db.deleteTask id user).2) : Except SqlxError Nat × Db)
        (.ok (db'.deleteTask id user).1, (db'.deleteTask id user).2) :=
      ⟨congrArg Except.ok hdelete.1, hdelete.2⟩
    exact (h.query e.fate hcount).respond
      fun r => do if (← r) = 0 then .error .notFound else .ok ⟨204, .empty⟩

/-! ## The users -/

/-- A task request leaves the users alone. -/
theorem taskRequest_users {sv : Services} {db : Db} {e : Event} {user : Uuid}
    (hcaller : callerOf sv e = some user) : (exec sv db e).2.users = db.users := by
  have hpass : ∀ {auth : Option Text} {handler : Uuid → Response × Db},
      (∀ v, (handler v).2.users = db.users) →
      (authenticated sv e.fate db auth handler).2.users = db.users := by
    intro auth handler hh
    obtain ⟨v, -, h⟩ | ⟨err, -, h⟩ := authenticated_cases sv e.fate db auth handler
    · rw [h]
      exact hh v
    · rw [h]
  have hread : ∀ {α : Type} {x : Extracted α} {handler : α → Response × Db},
      (∀ a, (handler a).2.users = db.users) → (extracted db x handler).2.users = db.users := by
    intro α x handler hh
    cases x with
    | ok a => exact hh a
    | error response => rfl
  cases hreq : e.request with
  | register body => rw [callerOf, hreq] at hcaller; cases hcaller
  | login body => rw [callerOf, hreq] at hcaller; cases hcaller
  | listTasks auth =>
    simp only [exec, hreq]
    exact hpass fun v => congrArg Db.users (query_read e.fate db (.ok (db.selectTasks v)))
  | createTask auth body =>
    simp only [exec, hreq]
    refine hpass fun v => hread fun body => ?_
    rcases createTask_db e.fate v body db with h | ⟨-, -, h⟩
    · exact congrArg Db.users h
    · exact (congrArg Db.users h :)
  | getTask auth id =>
    simp only [exec, hreq]
    exact hpass fun v => hread fun id =>
      congrArg Db.users (query_read e.fate db (db.selectTask id v))
  | updateTask auth id body =>
    simp only [exec, hreq]
    refine hpass fun v => hread fun id => hread fun body => ?_
    rcases query_db e.fate db (db.updateTask body.title body.done id v) with h | ⟨-, h⟩
    · exact congrArg Db.users h
    · exact (congrArg Db.users h :)
  | deleteTask auth id =>
    simp only [exec, hreq]
    refine hpass fun v => hread fun id => ?_
    rcases query_db e.fate db (.ok (db.deleteTask id v).1, (db.deleteTask id v).2) with h | ⟨-, h⟩
    · exact congrArg Db.users h
    · exact (congrArg Db.users h :)

theorem insertUser_alike {db db' : Db} (h : db.users = db'.users) (fate : Fate)
    (email passwordHash : Text) :
    (db.insertUser fate email passwordHash).1 = (db'.insertUser fate email passwordHash).1 ∧
      (db.insertUser fate email passwordHash).2.users =
        (db'.insertUser fate email passwordHash).2.users := by
  unfold Db.insertUser
  rw [h]
  split
  · exact ⟨rfl, h⟩
  · exact ⟨rfl, rfl⟩

theorem register_alike {db db' : Db} (h : db.users = db'.users) (sv : Services) (fate : Fate)
    (body : RegisterRequest) :
    (register sv fate body db).1 = (register sv fate body db').1 ∧
      (register sv fate body db).2.users = (register sv fate body db').2.users := by
  unfold register
  cases body.validate with
  | error errors => exact ⟨rfl, h⟩
  | ok _ =>
    cases sv.hash body.password fate.salt with
    | none => exact ⟨rfl, h⟩
    | some passwordHash =>
      have hinsert := insertUser_alike h fate body.email passwordHash
      dsimp only
      cases hfate : fate.dbError with
      | some e =>
        rw [query_error hfate, query_error hfate]
        exact ⟨rfl, h⟩
      | none =>
        rw [query_none hfate, query_none hfate, hinsert.1]
        exact ⟨rfl, hinsert.2⟩

theorem login_alike {db db' : Db} (h : db.users = db'.users) (sv : Services) (fate : Fate)
    (body : LoginRequest) : (login sv fate body db).1 = (login sv fate body db').1 := by
  have hrow : db.userByEmail body.email = db'.userByEmail body.email := by
    rw [Db.userByEmail, Db.userByEmail, h]
  unfold login
  rw [hrow]
  cases hfate : fate.dbError with
  | some e => rw [query_error hfate, query_error hfate]
  | none => rw [query_none hfate, query_none hfate]

/-- A request that nobody is authenticated for is answered from the users, and leaves the tasks
alone. -/
theorem anonymous_answered {sv : Services} {db db' : Db} {e : Event}
    (hcaller : callerOf sv e = none) (h : db.users = db'.users) :
    (exec sv db e).1 = (exec sv db' e).1 ∧
      (exec sv db e).2.users = (exec sv db' e).2.users ∧
      (exec sv db e).2.tasks = db.tasks := by
  have hrefused : ∀ {auth : Option Text} {handler handler' : Uuid → Response × Db},
      (authUser sv e.fate.now auth).toOption = none →
      (authenticated sv e.fate db auth handler).1 = (authenticated sv e.fate db' auth handler').1 ∧
        (authenticated sv e.fate db auth handler).2.users =
          (authenticated sv e.fate db' auth handler').2.users ∧
        (authenticated sv e.fate db auth handler).2.tasks = db.tasks := by
    intro auth handler handler' hauth
    unfold authenticated
    cases hres : authUser sv e.fate.now auth with
    | ok v => rw [hres] at hauth; cases hauth
    | error err => exact ⟨rfl, h, rfl⟩
  cases hreq : e.request with
  | register body =>
    simp only [exec, hreq]
    cases body with
    | error response => exact ⟨rfl, h, rfl⟩
    | ok body =>
      have halike := register_alike h sv e.fate body
      exact ⟨congrArg (fun r => (respond (r, db)).1) halike.1, halike.2,
        register_tasks sv e.fate body db⟩
  | login body =>
    simp only [exec, hreq]
    cases body with
    | error response => exact ⟨rfl, h, rfl⟩
    | ok body =>
      have halike := login_alike h sv e.fate body
      have hdb : ∀ db : Db, (login sv e.fate body db).2 = db := fun db =>
        query_read e.fate db (.ok (db.userByEmail body.email))
      refine ⟨congrArg (fun r => (respond (r, db)).1) halike, ?_, congrArg Db.tasks (hdb db)⟩
      show (login sv e.fate body db).2.users = (login sv e.fate body db').2.users
      rw [hdb, hdb, h]
  -- the task requests: refused before any handler runs
  | listTasks | createTask | getTask | updateTask | deleteTask =>
    simp only [callerOf, hreq] at hcaller
    simp only [exec, hreq]
    exact hrefused hcaller

/-! ## The run -/

/-- The ids that creations are given. -/
def createdIds (es : List Event) : List Uuid :=
  es.filterMap fun e =>
    match e.request with
    | .createTask _ _ => some e.fate.freshId
    | _ => none

/-- The ids given to creations are new. -/
def FreshIds (db : Db) (es : List Event) : Prop :=
  (createdIds es).Nodup ∧ ∀ id ∈ createdIds es, ∀ t ∈ db.tasks, t.id ≠ id

/-- The rows after a request have old ids, or the one it was given as a creation. -/
theorem exec_ids {sv : Services} {db : Db} {e : Event} {t : Task}
    (ht : t ∈ (exec sv db e).2.tasks) :
    (∃ t₀ ∈ db.tasks, t.id = t₀.id) ∨ t.id ∈ createdIds [e] := by
  suffices hall : ∀ db', TaskWrite sv e db db' → t ∈ db'.tasks →
      (∃ t₀ ∈ db.tasks, t.id = t₀.id) ∨ t.id ∈ createdIds [e] from
    hall _ (exec_writes sv db e) ht
  intro db' hwrite ht
  cases hwrite with
  | none hsame => exact .inl ⟨t, hsame ▸ ht, rfl⟩
  | created hreq hauth =>
    rcases List.mem_append.mp ht with ht | ht
    · exact .inl ⟨t, ht, rfl⟩
    · rw [List.mem_singleton.mp ht]
      exact .inr (by simp [createdIds, hreq])
  | updated hreq hauth =>
    obtain ⟨t₀, ht₀, ⟨-, rfl⟩ | rfl⟩ := mem_updateTask ht
    · exact .inl ⟨t₀, ht₀, rfl⟩
    · exact .inl ⟨t, ht₀, rfl⟩
  | deleted hreq hauth => exact .inl ⟨t, (List.mem_filter.mp ht).1, rfl⟩

theorem createdIds_cons (e : Event) (es : List Event) :
    createdIds (e :: es) = createdIds [e] ++ createdIds es := by
  rw [createdIds, createdIds, createdIds, ← List.filterMap_append, List.singleton_append]

theorem FreshIds.tail {db : Db} {e : Event} {es : List Event} (h : FreshIds db (e :: es)) :
    FreshIds db es := by
  rw [FreshIds, createdIds_cons] at h
  exact ⟨h.1.of_append_right, fun id hid => h.2 id (List.mem_append_right _ hid)⟩

theorem FreshIds.step {sv : Services} {db : Db} {e : Event} {es : List Event}
    (h : FreshIds db (e :: es)) : FreshIds (exec sv db e).2 es := by
  refine ⟨h.tail.1, ?_⟩
  intro id hid t ht heq
  rw [FreshIds, createdIds_cons] at h
  rcases exec_ids ht with ⟨t₀, ht₀, hold⟩ | hnew
  · exact h.2 id (List.mem_append_right _ hid) t₀ ht₀ (hold ▸ heq)
  · exact List.disjoint_of_nodup_append h.1 hnew (heq ▸ hid)

theorem FreshIds.head {db : Db} {e : Event} {es : List Event} (h : FreshIds db (e :: es)) :
    FreshFor db e := by
  intro auth body hreq
  rw [FreshIds, createdIds_cons] at h
  exact h.2 _ (List.mem_append_left _ (by simp [createdIds, hreq]))

/-- A task request of `user`. -/
def ofUser (sv : Services) (user : Uuid) (e : Event) : Bool := callerOf sv e = some user

/-- Not a task request of another user than `user`. -/
def notOfOthers (sv : Services) (user : Uuid) (e : Event) : Bool :=
  (callerOf sv e).all fun v => v = user

/-- What is the same in two runs as far as `user` can tell. -/
def Indistinct (user : Uuid) (es : List Event) (db db' : Db) : Prop :=
  AlikeFor user db db' ∧ db.users = db'.users ∧ FreshIds db es ∧ FreshIds db' es

theorem ofUser_notOfOthers {sv : Services} {user : Uuid} {e : Event}
    (h : ofUser sv user e = true) : notOfOthers sv user e = true := by
  rw [ofUser, decide_eq_true_eq] at h
  simp [notOfOthers, h]

/-- A user sees everything but the task requests of the others. -/
theorem indistinct_unwinds (sv : Services) (user : Uuid) {mine : Event → Bool}
    (hmine : ∀ e, mine e = true → notOfOthers sv user e = true) :
    Unwinds (exec sv) (Indistinct user) (notOfOthers sv user) mine where
  mine_seen := hmine
  answer := by
    intro e es db db' h hasked
    obtain ⟨hrows, husers, hdb, hdb'⟩ := h
    have hseen := hmine e hasked
    cases hcaller : callerOf sv e with
    | none => exact (anonymous_answered hcaller husers).1
    | some v =>
      obtain rfl : v = user := by simpa [notOfOthers, hcaller] using hseen
      exact (answered_from_own_rows hcaller hdb.head hdb'.head hrows).1
  step := by
    intro e es db db' h hseen
    obtain ⟨hrows, husers, hdb, hdb'⟩ := h
    refine ⟨?_, ?_, hdb.step, hdb'.step⟩
    · cases hcaller : callerOf sv e with
      -- nobody's rows change, so the user's stay alike
      | none =>
        have htasks := (anonymous_answered hcaller husers).2.2
        have htasks' := (anonymous_answered hcaller husers.symm).2.2
        rw [AlikeFor, Db.tasksOf, Db.tasksOf, htasks, htasks']
        exact hrows
      | some v =>
        obtain rfl : v = user := by simpa [notOfOthers, hcaller] using hseen
        exact (answered_from_own_rows hcaller hdb.head hdb'.head hrows).2
    · cases hcaller : callerOf sv e with
      | none => exact (anonymous_answered hcaller husers).2.1
      | some v => rw [taskRequest_users hcaller, taskRequest_users hcaller, husers]
  hidden := by
    intro e es db db' h hseen
    obtain ⟨hrows, husers, hdb, hdb'⟩ := h
    cases hcaller : callerOf sv e with
    | none => simp [notOfOthers, hcaller] at hseen
    | some v =>
      have hv : user ≠ v := by
        intro hv
        simp [notOfOthers, hcaller, hv] at hseen
      refine ⟨?_, ?_, hdb.step, hdb'.tail⟩
      · rw [AlikeFor, others_unchanged hcaller hv]
        exact hrows
      · rw [taskRequest_users hcaller, husers]

theorem answers_without_others {sv : Services} {user : Uuid} {mine : Event → Bool}
    (hmine : ∀ e, mine e = true → notOfOthers sv user e = true) {db : Db} {es : List Event}
    (hfresh : FreshIds db es) :
    answersTo (exec sv) mine db es =
      answersTo (exec sv) mine db (es.filter (notOfOthers sv user)) :=
  (indistinct_unwinds sv user hmine).answers_eq ⟨rfl, rfl, hfresh, hfresh⟩

/-- **Owner isolation.** A task request leaves the rows of the other users alone. Its response
and its caller's rows afterwards depend on its caller's rows alone. Over a run, the responses to
a user's task requests, and to those nobody is authenticated for, are those of the run without
the task requests of the others. -/
theorem owner_isolation (sv : Services) (user : Uuid) :
    (∀ db e v, callerOf sv e = some user → v ≠ user →
      (exec sv db e).2.tasksOf v = db.tasksOf v) ∧
    (∀ db db' e, callerOf sv e = some user → FreshFor db e → FreshFor db' e →
      db.tasksOf user = db'.tasksOf user →
      (exec sv db e).1 = (exec sv db' e).1 ∧
        (exec sv db e).2.tasksOf user = (exec sv db' e).2.tasksOf user) ∧
    ∀ db es, FreshIds db es →
      answersTo (exec sv) (ofUser sv user) db es =
          answersTo (exec sv) (ofUser sv user) db (es.filter (notOfOthers sv user)) ∧
        answersTo (exec sv) (notOfOthers sv user) db es =
          answersTo (exec sv) (notOfOthers sv user) db (es.filter (notOfOthers sv user)) := by
  refine ⟨?_, ?_, ?_⟩
  · intro db e v hcaller hv
    exact others_unchanged hcaller hv
  · intro db db' e hcaller hdb hdb' hrows
    exact answered_from_own_rows hcaller hdb hdb' hrows
  · intro db es hfresh
    exact ⟨answers_without_others (fun e => ofUser_notOfOthers) hfresh,
      answers_without_others (fun e => id) hfresh⟩

/-- The token of a user. -/
def tokenOf (user : Uuid) : Option Text := some ("Bearer ".toList ++ List.replicate user 'x')

/-- User 1 stores a task, which user 2 asks for and tries to delete. -/
def foreignDelete : List Event :=
  [⟨.createTask (tokenOf 1) (.ok ⟨"plan".toList⟩), calm 7⟩,
    ⟨.getTask (tokenOf 2) (.ok 7), calm 8⟩,
    ⟨.deleteTask (tokenOf 2) (.ok 7), calm 9⟩,
    ⟨.listTasks (tokenOf 1), calm 10⟩]

theorem foreignDelete_isolated :
    FreshIds Db.empty foreignDelete ∧
      answersTo (exec plainServices) (ofUser plainServices 1) Db.empty foreignDelete =
        answersTo (exec plainServices) (ofUser plainServices 1) Db.empty
          (foreignDelete.filter (notOfOthers plainServices 1)) ∧
      (foreignDelete.filter (notOfOthers plainServices 1)).length = 2 := by
  have hfresh : FreshIds Db.empty foreignDelete :=
    ⟨by decide, fun id _ t ht => by cases ht⟩
  exact ⟨hfresh, ((owner_isolation plainServices 1).2.2 Db.empty foreignDelete hfresh).1,
    by decide⟩

end RustFundamentals.Taskline
