import RustFundamentals.Taskline.Access

/-!
# taskline: to-do lists

To its users the service is one to-do list for each of them, a map from ids to tasks: whatever is
requested by whom and in whatever order, every response is that of the caller's own list
(`todo_lists`). Where the database fails a statement, the list stays as it is.
-/

namespace RustFundamentals.Taskline

open Foundation

/-! ## Lists -/

/-- A user's tasks, as they are shown, by id. -/
abbrev TodoList := Uuid → Option TaskView

/-- What a request asks of its caller's list, or how it is rejected before that. -/
inductive Ask
  | list
  | create (body : CreateTask)
  | get (id : Uuid)
  | update (id : Uuid) (body : UpdateTask)
  | delete (id : Uuid)
  | rejected (response : Response)

namespace Ask

/-- The task that is asked for. -/
def id? : Ask → Option Uuid
  | get id | update id _ | delete id => some id
  | list | create _ | rejected _ => none

/-- The database is asked at all. -/
def Reaches : Ask → Prop
  | create body => ValidTitle body.title
  | rejected _ => False
  | list | get _ | update _ _ | delete _ => True

end Ask

/-- What a request to a task route asks. The id is read before the body. -/
def askOf : Request → Option Ask
  | .register _ | .login _ => none
  | .listTasks _ => some .list
  | .createTask _ (.ok body) => some (.create body)
  | .getTask _ (.ok id) => some (.get id)
  | .updateTask _ (.ok id) (.ok body) => some (.update id body)
  | .deleteTask _ (.ok id) => some (.delete id)
  | .createTask _ (.error r) | .getTask _ (.error r) | .updateTask _ (.error r) _
  | .updateTask _ (.ok _) (.error r) | .deleteTask _ (.error r) => some (.rejected r)

/-- The task with what the body has in place of what it had. -/
def TaskView.assign (v : TaskView) (body : UpdateTask) : TaskView :=
  { v with title := body.title.getD v.title, done := body.done.getD v.done }

/-- The tasks of a list, each once, the oldest first. -/
structure Lists (m : TodoList) (tasks : List TaskView) : Prop where
  mem : ∀ v, v ∈ tasks ↔ m v.id = some v
  once : (tasks.map TaskView.id).Nodup
  oldest : tasks.Pairwise fun v w => v.createdAt ≤ w.createdAt

section Semantics

variable (fate : Fate) (m : TodoList)

/-- What a list answers that is asked, and what becomes of it. -/
inductive Executes : Ask → Response → TodoList → Prop
  | listed {tasks} : Lists m tasks → Executes .list ⟨200, .tasks tasks⟩ m
  | created {body v} : m fate.freshId = none →
      v = TaskView.mk fate.freshId body.title false fate.now →
      Executes (.create body) ⟨201, .task v⟩ (Function.update m fate.freshId (some v))
  | got {id v} : m id = some v → Executes (.get id) ⟨200, .task v⟩ m
  | updated {id body v} : m id = some v →
      Executes (.update id body) ⟨200, .task (v.assign body)⟩
        (Function.update m id (some (v.assign body)))
  | deleted {id v} : m id = some v →
      Executes (.delete id) ⟨204, .empty⟩ (Function.update m id none)
  | missing {ask id} : ask.id? = some id → m id = none →
      Executes ask AppError.notFound.intoResponse m

/-- What a caller is answered, and what becomes of its list. -/
inductive Serves : Ask → Response → TodoList → Prop
  | rejected {r} : Serves (.rejected r) r m
  | invalid {body} : ¬ ValidTitle body.title →
      Serves (.create body) (AppError.validation (titleErrors body.title)).intoResponse m
  | failed {ask e} : ask.Reaches → fate.dbError = some e →
      Serves ask (AppError.ofSqlx e).intoResponse m
  | executed {ask r m'} : ask.Reaches → fate.dbError = none → Executes fate m ask r m' →
      Serves ask r m'

end Semantics

/-- A step of the lists of all users: a request reaches its caller's list and no other. -/
inductive TodoStep (sv : Services) (lists : Uuid → TodoList) (e : Event) :
    Response → (Uuid → TodoList) → Prop
  | account {r} : askOf e.request = none → TodoStep sv lists e r lists
  | refused : askOf e.request ≠ none → callerOf sv e = none →
      TodoStep sv lists e AppError.unauthorized.intoResponse lists
  | served {user ask r m'} : callerOf sv e = some user → askOf e.request = some ask →
      Serves e.fate (lists user) ask r m' →
      TodoStep sv lists e r (Function.update lists user m')

/-! ## The rows -/

/-- The rows are the tasks of the lists. -/
structure Holds (db : Db) (lists : Uuid → TodoList) : Prop where
  row : ∀ user id v, lists user id = some v ↔
    ∃ t ∈ db.tasks, t.userId = user ∧ t.id = id ∧ t.view = v
  ids : (db.tasks.map Task.id).Nodup

theorem Holds.empty : Holds Db.empty fun _ _ => none where
  row := by
    intro user id v
    simp [Db.empty]
  ids := List.nodup_nil

theorem matching_iff {id user : Uuid} {t : Task} :
    Db.matching id user t = true ↔ t.userId = user ∧ t.id = id := by
  rw [matching_eq, Bool.and_eq_true, decide_eq_true_eq, decide_eq_true_eq]

section Rows

variable {db : Db} {lists : Uuid → TodoList} {user : Uuid}

/-- The row that is looked for is the task. -/
theorem Holds.find (h : Holds db lists) (user id : Uuid) :
    (db.tasks.find? (Db.matching id user)).map Task.view = lists user id := by
  cases hfind : db.tasks.find? (Db.matching id user) with
  | none =>
    symm
    rw [Option.map_none, Option.eq_none_iff_forall_not_mem]
    intro v hv
    obtain ⟨t, ht, howner, hid, -⟩ := (h.row user id v).mp hv
    exact List.find?_eq_none.mp hfind t ht (matching_iff.mpr ⟨howner, hid⟩)
  | some t =>
    obtain ⟨howner, hid⟩ := matching_iff.mp (List.find?_some hfind)
    rw [Option.map_some]
    exact ((h.row user id t.view).mpr ⟨t, List.mem_of_find?_eq_some hfind, howner, hid, rfl⟩).symm

theorem Holds.listed (h : Holds db lists) :
    Lists (lists user) ((db.selectTasks user).map Task.view) := by
  have hmem : ∀ t, t ∈ db.selectTasks user ↔ t ∈ db.tasks ∧ t.userId = user := by
    intro t
    rw [Db.selectTasks, List.mem_mergeSort, Db.tasksOf, List.mem_filter, decide_eq_true_eq]
  refine ⟨?_, ?_, ?_⟩
  · intro v
    rw [List.mem_map, h.row]
    constructor
    · rintro ⟨t, ht, rfl⟩
      obtain ⟨htask, howner⟩ := (hmem t).mp ht
      exact ⟨t, htask, howner, rfl, rfl⟩
    · rintro ⟨t, htask, howner, -, rfl⟩
      exact ⟨t, (hmem t).mpr ⟨htask, howner⟩, rfl⟩
  · rw [List.map_map]
    have hperm : (db.selectTasks user).Perm (db.tasksOf user) := List.mergeSort_perm _ _
    refine (hperm.map _).nodup_iff.mpr ?_
    exact h.ids.sublist ((List.filter_sublist).map _)
  · rw [List.pairwise_map]
    have hsorted := @List.pairwise_mergeSort Task (fun s t => decide (s.createdAt ≤ t.createdAt))
      (by simpa using fun a b c => le_trans) (by simpa using fun a b => le_total _ _)
      (db.tasksOf user)
    exact hsorted.imp fun hle => of_decide_eq_true hle

/-- One task of one user is another. -/
theorem update_task (lists : Uuid → TodoList) (user id : Uuid) (x : Option TaskView)
    (user' id' : Uuid) :
    Function.update lists user (Function.update (lists user) id x) user' id' =
      if user' = user ∧ id' = id then x else lists user' id' := by
  by_cases huser : user' = user
  · subst huser
    rw [Function.update_self, Function.update_apply]
    simp
  · rw [Function.update_of_ne huser, if_neg fun h => huser h.1]

theorem Holds.insert (h : Holds db lists) {t : Task} (hfresh : ∀ t' ∈ db.tasks, t'.id ≠ t.id) :
    Holds { db with tasks := db.tasks ++ [t] }
      (Function.update lists t.userId (Function.update (lists t.userId) t.id (some t.view))) where
  row := by
    intro user id v
    simp only [update_task, List.mem_append, List.mem_singleton]
    by_cases hnew : user = t.userId ∧ id = t.id
    · obtain ⟨rfl, rfl⟩ := hnew
      rw [if_pos ⟨rfl, rfl⟩, Option.some.injEq]
      constructor
      · rintro rfl
        exact ⟨t, .inr rfl, rfl, rfl, rfl⟩
      · rintro ⟨t', ht' | rfl, -, hid, hview⟩
        · exact absurd hid (hfresh t' ht')
        · exact hview
    · rw [if_neg hnew, h.row]
      constructor
      · rintro ⟨t', ht', hrow⟩
        exact ⟨t', .inl ht', hrow⟩
      · rintro ⟨t', ht' | rfl, howner, hid, hview⟩
        · exact ⟨t', ht', howner, hid, hview⟩
        · exact absurd ⟨howner.symm, hid.symm⟩ hnew
  ids := by
    rw [List.map_append, List.map_singleton, List.nodup_append_comm, List.singleton_append,
      List.nodup_cons]
    refine ⟨?_, h.ids⟩
    intro hmem
    obtain ⟨t', ht', hid⟩ := List.mem_map.mp hmem
    exact hfresh t' ht' hid

/-- An update shows in the row it is about. -/
theorem updateTask_row (db : Db) (body : UpdateTask) (user id user' id' : Uuid) (w : TaskView) :
    (∃ t ∈ (db.updateTask body.title body.done id user).2.tasks,
        t.userId = user' ∧ t.id = id' ∧ t.view = w) ↔
      ∃ t ∈ db.tasks, t.userId = user' ∧ t.id = id' ∧
        (if user' = user ∧ id' = id then t.view.assign body else t.view) = w := by
  have hrow : ∀ t : Task,
      ((if Db.matching id user t then Db.assign body.title body.done t else t).userId = user' ∧
        (if Db.matching id user t then Db.assign body.title body.done t else t).id = id' ∧
        (if Db.matching id user t then Db.assign body.title body.done t else t).view = w) ↔
      (t.userId = user' ∧ t.id = id' ∧
        (if user' = user ∧ id' = id then t.view.assign body else t.view) = w) := by
    intro t
    by_cases hmatch : t.userId = user ∧ t.id = id
    · rw [if_pos (matching_iff.mpr hmatch)]
      refine and_congr_right fun (howner : t.userId = user') =>
        and_congr_right fun (hid : t.id = id') => ?_
      rw [if_pos ⟨howner ▸ hmatch.1, hid ▸ hmatch.2⟩]
      rfl
    · rw [if_neg (mt matching_iff.mp hmatch)]
      refine and_congr_right fun howner => and_congr_right fun hid => ?_
      rw [if_neg fun h => hmatch ⟨howner.trans h.1, hid.trans h.2⟩]
  constructor
  · rintro ⟨t', ht', hw⟩
    obtain ⟨t, ht, rfl⟩ := List.mem_map.mp ht'
    exact ⟨t, ht, (hrow t).mp hw⟩
  · rintro ⟨t, ht, hw⟩
    exact ⟨_, List.mem_map.mpr ⟨t, ht, rfl⟩, (hrow t).mpr hw⟩

theorem Holds.update (h : Holds db lists) {id : Uuid} {v : TaskView} (hv : lists user id = some v)
    (body : UpdateTask) :
    Holds (db.updateTask body.title body.done id user).2
      (Function.update lists user (Function.update (lists user) id (some (v.assign body)))) where
  row := by
    intro user' id' w
    rw [update_task, updateTask_row]
    by_cases hthis : user' = user ∧ id' = id
    · obtain ⟨rfl, rfl⟩ := hthis
      simp only [and_self, if_true, Option.some.injEq]
      obtain ⟨t, ht, howner, hid, hview⟩ := (h.row user' id' v).mp hv
      constructor
      · rintro rfl
        exact ⟨t, ht, howner, hid, by rw [hview]⟩
      · rintro ⟨t', ht', howner', hid', rfl⟩
        have hsame := (h.row user' id' t'.view).mpr ⟨t', ht', howner', hid', rfl⟩
        rw [hv] at hsame
        rw [Option.some.inj hsame]
    · simp only [if_neg hthis]
      exact h.row user' id' w
  ids := by
    have hids : (db.updateTask body.title body.done id user).2.tasks.map Task.id =
        db.tasks.map Task.id := by
      show (db.tasks.map _).map Task.id = _
      rw [List.map_map]
      refine List.map_congr_left fun t _ => ?_
      show (if Db.matching id user t then Db.assign body.title body.done t else t).id = t.id
      split <;> rfl
    rw [hids]
    exact h.ids

theorem Holds.delete (h : Holds db lists) (id : Uuid) :
    Holds (db.deleteTask id user).2
      (Function.update lists user (Function.update (lists user) id none)) where
  row := by
    intro user' id' v
    have hmem : ∀ t, t ∈ (db.deleteTask id user).2.tasks ↔
        t ∈ db.tasks ∧ ¬ (t.userId = user ∧ t.id = id) := by
      intro t
      rw [← matching_iff]
      show t ∈ db.tasks.filter _ ↔ _
      rw [List.mem_filter, Bool.not_eq_true', Bool.not_eq_true]
    rw [update_task]
    by_cases hthis : user' = user ∧ id' = id
    · obtain ⟨rfl, rfl⟩ := hthis
      rw [if_pos ⟨rfl, rfl⟩]
      constructor
      · intro hsome
        cases hsome
      · rintro ⟨t, ht, howner, hid, -⟩
        exact absurd ⟨howner, hid⟩ ((hmem t).mp ht).2
    · rw [if_neg hthis, h.row]
      constructor
      · rintro ⟨t, ht, rfl, rfl, hview⟩
        exact ⟨t, (hmem t).mpr ⟨ht, hthis⟩, rfl, rfl, hview⟩
      · rintro ⟨t, ht, hrow⟩
        exact ⟨t, ((hmem t).mp ht).1, hrow⟩
  ids := h.ids.sublist ((List.filter_sublist).map _)

end Rows

/-! ## The handlers -/

section Handlers

variable {db : Db} {lists : Uuid → TodoList} {user : Uuid} {fate : Fate}

/-- A caller is answered from its list, and the rows are those of the list afterwards. -/
def Served (fate : Fate) (lists : Uuid → TodoList) (user : Uuid) (ask : Ask)
    (r : Response × Db) : Prop :=
  ∃ m', Serves fate (lists user) ask r.1 m' ∧ Holds r.2 (Function.update lists user m')

/-- What leaves the rows alone serves a list that stays as it is. -/
theorem Holds.stays (h : Holds db lists) {ask : Ask} {r : Response}
    (hserves : Serves fate (lists user) ask r (lists user)) :
    Served fate lists user ask (r, db) :=
  ⟨lists user, hserves, by rwa [Function.update_eq_self]⟩

/-- A handler whose statement fails or is executed. -/
theorem Holds.query {α : Type} (h : Holds db lists) (ask : Ask) (hreaches : ask.Reaches)
    (statement : Except SqlxError α × Db) (f : Except AppError α → Except AppError Response)
    (hf : ∀ e, f (.error e) = .error e)
    (hdone : fate.dbError = none → ∃ m',
      Executes fate (lists user) ask
        (respond (f (statement.1.mapError .ofSqlx), statement.2)).1 m' ∧
        Holds statement.2 (Function.update lists user m')) :
    Served fate lists user ask
      (respond (f (query fate db statement).1, (query fate db statement).2)) := by
  cases hfate : fate.dbError with
  | some e =>
    rw [query_error hfate, hf]
    exact h.stays (.failed hreaches hfate)
  | none =>
    obtain ⟨m', hexec, hholds⟩ := hdone hfate
    rw [query_none hfate]
    exact ⟨m', .executed hreaches hfate hexec, hholds⟩

theorem listTasks_served (h : Holds db lists) :
    Served fate lists user .list (respond (listTasks fate user db)) := by
  refine h.query .list trivial (.ok (db.selectTasks user), db)
    (fun r => r.map fun tasks => ⟨200, .tasks (tasks.map Task.view)⟩) (fun _ => rfl) fun _ => ?_
  exact ⟨lists user, .listed h.listed, by rwa [Function.update_eq_self]⟩

theorem createTask_served (h : Holds db lists) (hfresh : ∀ t ∈ db.tasks, t.id ≠ fate.freshId)
    (body : CreateTask) :
    Served fate lists user (.create body) (respond (createTask fate user body db)) := by
  by_cases hvalid : ValidTitle body.title
  · rw [createTask, createTask_validate.mpr hvalid]
    refine h.query (.create body) hvalid (db.insertTask fate user body.title)
      (fun r => r.map fun task => ⟨201, .task task.view⟩) (fun _ => rfl) fun _ => ?_
    rw [insertTask_eq hfresh]
    have hnone : lists user fate.freshId = none := by
      rw [Option.eq_none_iff_forall_not_mem]
      intro v hv
      obtain ⟨t, ht, -, hid, -⟩ := (h.row _ _ _).mp hv
      exact hfresh t ht hid
    exact ⟨_, .created hnone rfl,
      h.insert (t := ⟨fate.freshId, user, body.title, false, fate.now⟩) hfresh⟩
  · have hinvalid : body.validate = .error (titleErrors body.title) := by
      rw [CreateTask.validate, intoResult, if_neg]
      rw [List.isEmpty_iff, titleErrors_eq_nil]
      exact hvalid
    rw [createTask, hinvalid]
    exact h.stays (.invalid hvalid)

theorem getTask_served (h : Holds db lists) (id : Uuid) :
    Served fate lists user (.get id) (respond (getTask fate user id db)) := by
  refine h.query (.get id) trivial (db.selectTask id user, db)
    (fun r => r.map fun task => ⟨200, .task task.view⟩) (fun _ => rfl) fun _ => ?_
  have hfind := h.find user id
  refine ⟨lists user, ?_, by rwa [Function.update_eq_self]⟩
  cases hrow : db.tasks.find? (Db.matching id user) with
  | none =>
    rw [hrow] at hfind
    have hselect : db.selectTask id user = .error .rowNotFound := by rw [Db.selectTask, hrow]
    rw [hselect]
    exact .missing rfl hfind.symm
  | some t =>
    rw [hrow] at hfind
    have hselect : db.selectTask id user = .ok t := by rw [Db.selectTask, hrow]
    rw [hselect]
    exact .got hfind.symm

theorem updateTask_served (h : Holds db lists) (id : Uuid) (body : UpdateTask) :
    Served fate lists user (.update id body) (respond (updateTask fate user id body db)) := by
  refine h.query (.update id body) trivial (db.updateTask body.title body.done id user)
    (fun r => r.map fun task => ⟨200, .task task.view⟩) (fun _ => rfl) fun _ => ?_
  have hfind := h.find user id
  cases hrow : db.tasks.find? (Db.matching id user) with
  | none =>
    rw [hrow] at hfind
    have hnone : ∀ t ∈ db.tasks, ¬ Db.matching id user t = true := List.find?_eq_none.mp hrow
    have hsame : (db.tasks.map fun t =>
        if Db.matching id user t then Db.assign body.title body.done t else t) = db.tasks := by
      conv_rhs => rw [← List.map_id db.tasks]
      exact List.map_congr_left fun t ht => if_neg (hnone t ht)
    have hupdate : db.updateTask body.title body.done id user = (.error .rowNotFound, db) := by
      rw [Db.updateTask, hrow, hsame]
    rw [hupdate]
    exact ⟨lists user, .missing rfl hfind.symm, by rwa [Function.update_eq_self]⟩
  | some t =>
    rw [hrow] at hfind
    have hfirst : (db.updateTask body.title body.done id user).1 =
        .ok (Db.assign body.title body.done t) := by rw [Db.updateTask, hrow]
    refine ⟨_, ?_, h.update hfind.symm body⟩
    rw [hfirst]
    exact .updated hfind.symm

theorem deleteTask_served (h : Holds db lists) (id : Uuid) :
    Served fate lists user (.delete id) (respond (deleteTask fate user id db)) := by
  refine h.query (.delete id) trivial (.ok (db.deleteTask id user).1, (db.deleteTask id user).2)
    (fun r => do if (← r) = 0 then .error .notFound else .ok ⟨204, .empty⟩) (fun _ => rfl)
    fun _ => ?_
  have hfind := h.find user id
  cases hrow : db.tasks.find? (Db.matching id user) with
  | none =>
    rw [hrow] at hfind
    have hnone : ∀ t ∈ db.tasks, ¬ Db.matching id user t = true := List.find?_eq_none.mp hrow
    have hdelete : db.deleteTask id user = (0, db) := by
      rw [Db.deleteTask, List.countP_eq_zero.mpr hnone,
        List.filter_eq_self.mpr fun t ht => by simp [hnone t ht]]
    rw [hdelete]
    exact ⟨lists user, .missing rfl hfind.symm, by rwa [Function.update_eq_self]⟩
  | some t =>
    rw [hrow] at hfind
    have hcount : ¬ (db.deleteTask id user).1 = 0 := by
      rw [Db.deleteTask, List.countP_eq_zero]
      exact fun hnone => hnone t (List.mem_of_find?_eq_some hrow) (List.find?_some hrow)
    refine ⟨_, ?_, h.delete id⟩
    show Executes fate (lists user) (.delete id)
      (respond (if (db.deleteTask id user).1 = 0 then .error .notFound else .ok ⟨204, .empty⟩,
        (db.deleteTask id user).2)).1 _
    rw [if_neg hcount]
    exact .deleted hfind.symm

end Handlers

/-! ## The run -/

theorem authenticated_of_caller {sv : Services} {fate : Fate} {auth : Option Text} {user : Uuid}
    (h : (authUser sv fate.now auth).toOption = some user) (db : Db)
    (handler : Uuid → Response × Db) : authenticated sv fate db auth handler = handler user := by
  obtain ⟨v, hauth, hpass⟩ | ⟨e, hauth, -⟩ := authenticated_cases sv fate db auth handler
  · rw [hauth] at h
    rw [hpass, Option.some.inj h]
  · rw [hauth] at h
    cases h

/-- **A caller is served from its own list.** -/
theorem exec_served {sv : Services} {db : Db} {lists : Uuid → TodoList} {e : Event} {user : Uuid}
    {ask : Ask} (h : Holds db lists) (hfresh : FreshFor db e) (hcaller : callerOf sv e = some user)
    (hask : askOf e.request = some ask) : Served e.fate lists user ask (exec sv db e) := by
  have hrejected : ∀ {r : Response}, Served e.fate lists user (.rejected r) (r, db) :=
    h.stays .rejected
  cases hreq : e.request with
  | register body => rw [callerOf, hreq] at hcaller; cases hcaller
  | login body => rw [callerOf, hreq] at hcaller; cases hcaller
  | listTasks auth =>
    simp only [callerOf, hreq] at hcaller
    rw [hreq] at hask
    obtain rfl := Option.some.inj hask
    simp only [exec, hreq, authenticated_of_caller hcaller]
    exact listTasks_served h
  | createTask auth body =>
    simp only [callerOf, hreq] at hcaller
    rw [hreq] at hask
    simp only [exec, hreq, authenticated_of_caller hcaller]
    cases body with
    | error r =>
      obtain rfl := Option.some.inj hask
      exact hrejected
    | ok body =>
      obtain rfl := Option.some.inj hask
      exact createTask_served h (hfresh auth _ hreq) body
  | getTask auth id =>
    simp only [callerOf, hreq] at hcaller
    rw [hreq] at hask
    simp only [exec, hreq, authenticated_of_caller hcaller]
    cases id with
    | error r =>
      obtain rfl := Option.some.inj hask
      exact hrejected
    | ok id =>
      obtain rfl := Option.some.inj hask
      exact getTask_served h id
  | updateTask auth id body =>
    simp only [callerOf, hreq] at hcaller
    rw [hreq] at hask
    simp only [exec, hreq, authenticated_of_caller hcaller]
    cases id with
    | error r =>
      obtain rfl := Option.some.inj hask
      exact hrejected
    | ok id =>
      cases body with
      | error r =>
        obtain rfl := Option.some.inj hask
        exact hrejected
      | ok body =>
        obtain rfl := Option.some.inj hask
        exact updateTask_served h id body
  | deleteTask auth id =>
    simp only [callerOf, hreq] at hcaller
    rw [hreq] at hask
    simp only [exec, hreq, authenticated_of_caller hcaller]
    cases id with
    | error r =>
      obtain rfl := Option.some.inj hask
      exact hrejected
    | ok id =>
      obtain rfl := Option.some.inj hask
      exact deleteTask_served h id

/-- A request to a task route asks something. -/
theorem askOf_eq_none {request : Request} (h : askOf request = none) : request.auth = none := by
  cases request with
  | register body => rfl
  | login body => rfl
  | listTasks auth => cases h
  | createTask auth body => cases body <;> cases h
  | getTask auth id => cases id <;> cases h
  | updateTask auth id body => cases id <;> cases body <;> cases h
  | deleteTask auth id => cases id <;> cases h

theorem auth_eq_none {request : Request} (h : request.auth = none) : askOf request = none := by
  cases request with
  | register body => rfl
  | login body => rfl
  | listTasks | createTask | getTask | updateTask | deleteTask => cases h

theorem Holds.of_tasks {db db' : Db} {lists : Uuid → TodoList} (h : Holds db lists)
    (htasks : db'.tasks = db.tasks) : Holds db' lists :=
  ⟨by rw [htasks]; exact h.row, by rw [htasks]; exact h.ids⟩

/-- Every request is a step of the lists. -/
theorem exec_steps {sv : Services} {db : Db} {lists : Uuid → TodoList} {e : Event}
    (h : Holds db lists) (hfresh : FreshFor db e) :
    ∃ lists', TodoStep sv lists e (exec sv db e).1 lists' ∧ Holds (exec sv db e).2 lists' := by
  cases hcaller : callerOf sv e with
  | none =>
    have htasks := (anonymous_answered hcaller (rfl : db.users = db.users)).2.2
    by_cases hask : askOf e.request = none
    · exact ⟨lists, .account hask, h.of_tasks htasks⟩
    · have hauth : e.request.auth.isSome := by
        rw [Option.isSome_iff_ne_none]
        exact mt auth_eq_none hask
      rw [exec_refused hauth hcaller]
      exact ⟨lists, .refused hask hcaller, h⟩
  | some user =>
    obtain ⟨ask, hask⟩ : ∃ ask, askOf e.request = some ask := by
      rw [← Option.ne_none_iff_exists', ne_eq]
      intro hnone
      rw [callerOf_eq, Request.bearer, askOf_eq_none hnone] at hcaller
      cases hcaller
    obtain ⟨m', hserves, hholds⟩ := exec_served h hfresh hcaller hask
    exact ⟨_, .served hcaller hask hserves, hholds⟩

/-- **The service is a to-do list for each user**: in every run from an empty database in which
creations are given new ids, the responses are those of lists that are empty at first and that
nobody but their users reach. -/
theorem todo_lists (sv : Services) {es : List Event} (hfresh : FreshIds Db.empty es) :
    Takes (TodoStep sv) (fun _ _ => none) (outcomes (exec sv) Db.empty es) := by
  refine takes_of_simulation (R := fun es db lists => Holds db lists ∧ FreshIds db es) ?_
    ⟨Holds.empty, hfresh⟩
  intro e es db lists hrel
  obtain ⟨lists', hstep, hholds⟩ := exec_steps hrel.1 hrel.2.head
  exact ⟨lists', hstep, hholds, hrel.2.step⟩

theorem foreignDelete_listed :
    Takes (TodoStep plainServices) (fun _ _ => none)
      (outcomes (exec plainServices) Db.empty foreignDelete) :=
  todo_lists plainServices ⟨by decide, fun id _ t ht => by cases ht⟩

end RustFundamentals.Taskline
