import RustFundamentals.Envtyped.Loader

/-!
# envtyped: what a load reports

What a schema asks of an environment, declaration by declaration: the problem it has, the value
it stores. `env::var` folds a variable that is not set and one that is not Unicode into one
error, so the loader sees the environment without the latter (`loadSchema_seen`), and reports as
declared exactly when no declared variable is one (`reports_iff`).
-/

namespace RustFundamentals.Envtyped

open Foundation

/-! ## What is asked -/

/-- What is wrong with a declaration of that name. -/
inductive Problem
  | invalidName (name : Text)
  | missing (name : Text)
  | parse (name : Text)
  deriving DecidableEq

/-- The problem an error of the loader reports. -/
def Error.problem : Error → Option Problem
  | .missing var => some (.missing var)
  | .parse var _ => some (.parse var)
  | .invalidName name _ => some (.invalidName name)
  | .notRequested _ => none

/-- The value a variable that is set has at a type, if it is usable. -/
def OsString.valueAt (T : Ty) : OsString → Option T.Value
  | .unicode s => (T.fromEnvStr s).toOption
  | .notUnicode _ => none

namespace Declaration

def name : Declaration → Text
  | require _ name | optional _ name | optionalOr _ name _ => name

def type : Declaration → Ty
  | require T _ | optional T _ | optionalOr T _ _ => T

def required : Declaration → Bool
  | require _ _ => true
  | optional _ _ | optionalOr _ _ _ => false

/-- The default, when the declaration has one. -/
def default : Declaration → Option Boxed
  | require _ _ | optional _ _ => none
  | optionalOr T _ v => some ⟨T, v⟩

/-- The problem of a declaration. -/
def problem (environment : Environment) (d : Declaration) : Option Problem :=
  if ¬ ValidName d.name then some (.invalidName d.name)
  else
    match environment d.name with
    | none => if d.required then some (.missing d.name) else none
    | some v => if (v.valueAt d.type).isNone then some (.parse d.name) else none

/-- The value a declaration stores. -/
def stored (environment : Environment) (d : Declaration) : Option Boxed :=
  match environment d.name with
  | none => d.default
  | some v => (v.valueAt d.type).map (Boxed.mk d.type)

end Declaration

/-- The problems of a schema, in declaration order. -/
def problems (environment : Environment) (schema : List Declaration) : List Problem :=
  schema.filterMap (Declaration.problem environment)

/-- The value stored last under a name. -/
def lastStored (environment : Environment) (name : Text) : List Declaration → Option Boxed
  | [] => none
  | d :: schema =>
    (lastStored environment name schema).or
      (if d.name = name then d.stored environment else none)

/-- A load reports the problems of the schema; without any, it returns what was stored. -/
def LoadsAsDeclared (environment : Environment) (schema : List Declaration) : Prop :=
  match loadSchema environment schema with
  | .error errors =>
    errors ≠ [] ∧ errors.map Error.problem = (problems environment schema).map some
  | .ok env =>
    problems environment schema = [] ∧
      ∀ T name,
        (∀ v, env.get T name = .ok v ↔ lastStored environment name schema = some ⟨T, v⟩) ∧
        ((∀ v, lastStored environment name schema ≠ some ⟨T, v⟩) →
          env.get T name = .error (.notRequested name))

/-! ## Reading back -/

theorem downcast_eq_some {T : Ty} {b : Boxed} {v : T.Value} :
    b.downcast T = some v ↔ b = ⟨T, v⟩ := by
  obtain ⟨T', v'⟩ := b
  unfold Boxed.downcast
  constructor
  · intro h
    split at h
    · next heq =>
      obtain rfl : T' = T := heq
      cases h
      rfl
    · cases h
  · intro h
    cases h
    exact dif_pos rfl

theorem get_eq_ok {env : Env} {T : Ty} {name : Text} {v : T.Value} :
    env.get T name = .ok v ↔ env.values.lookup name = some ⟨T, v⟩ := by
  unfold Env.get
  cases env.values.lookup name with
  | none =>
    constructor
    · intro h
      cases h
    · intro h
      cases h
  | some b =>
    dsimp only
    rw [Option.some_inj, ← downcast_eq_some]
    cases b.downcast T with
    | none =>
      constructor
      · intro h
        cases h
      · intro h
        cases h
    | some v' =>
      dsimp only
      rw [Except.ok.injEq, Option.some_inj]

/-- A value is read back, or it was not requested. -/
theorem get_cases (env : Env) (T : Ty) (name : Text) :
    (∃ v, env.get T name = .ok v) ∨ env.get T name = .error (.notRequested name) := by
  unfold Env.get
  cases env.values.lookup name with
  | none => exact .inr rfl
  | some b =>
    dsimp only
    cases b.downcast T with
    | none => exact .inr rfl
    | some v => exact .inl ⟨v, rfl⟩

/-! ## One declaration -/

/-- Every variable that is set is Unicode. -/
def AllUnicode (environment : Environment) : Prop :=
  ∀ name bytes, environment name ≠ some (.notUnicode bytes)

theorem push_problems (l : Loader) (e : Error) :
    (l.push e).errors.map Error.problem = l.errors.map Error.problem ++ [e.problem] := by
  rw [Loader.push, List.map_append, List.map_singleton]

theorem lookup_insert (l : Loader) (varName : VarName) (b : Boxed) (name : Text) :
    (l.insert varName b).values.lookup name =
      if varName.text = name then some b else l.values.lookup name := by
  unfold Loader.insert
  by_cases h : varName.text = name
  · rw [if_pos h, ← h]
    exact AList.lookup_insert _
  · rw [if_neg h]
    exact AList.lookup_insert_ne (Ne.symm h)

/-- What a declaration does to the loader: it pushes the error of its problem, or stores what it
stores. -/
structure Declares (environment : Environment) (d : Declaration) (l l' : Loader) : Prop where
  problems : l'.errors.map Error.problem =
    l.errors.map Error.problem ++ (d.problem environment).toList.map some
  values : d.problem environment = none → ∀ name, l'.values.lookup name =
    (if d.name = name then d.stored environment else none).or (l.values.lookup name)

theorem Declares.pushed {environment : Environment} {d : Declaration} {l : Loader} {e : Error}
    {p : Problem} (hd : d.problem environment = some p) (he : e.problem = some p) :
    Declares environment d l (l.push e) where
  problems := by rw [push_problems, hd, he]; rfl
  values := by
    intro hnone
    rw [hd] at hnone
    cases hnone

theorem Declares.inserted {environment : Environment} {d : Declaration} {l : Loader}
    {varName : VarName} {b : Boxed} (hd : d.problem environment = none)
    (hname : varName.text = d.name) (hb : d.stored environment = some b) :
    Declares environment d l (l.insert varName b) where
  problems := by rw [hd]; simp [Loader.insert]
  values := by
    intro _ name
    rw [lookup_insert, hname, hb]
    by_cases h : d.name = name <;> simp [h]

theorem Declares.skipped {environment : Environment} {d : Declaration} {l : Loader}
    (hd : d.problem environment = none) (hb : d.stored environment = none) :
    Declares environment d l l where
  problems := by rw [hd]; simp
  values := by
    intro _ name
    rw [hb, ite_self, Option.none_or]

/-- What the three methods share; they differ in what they do when the variable is not set. -/
def Loader.declareOr (environment : Environment) (l : Loader) (T : Ty) (name : Text)
    (missing : VarName → Loader) : Loader :=
  match VarName.parse name with
  | .error e => l.push e
  | .ok varName =>
    match environment.var name with
    | .error _ => missing varName
    | .ok raw =>
      match T.fromEnvStr raw with
      | .error source => l.push (.parse name source)
      | .ok v => l.insert varName ⟨T, v⟩

theorem declareOr_spec {environment : Environment} (hunicode : AllUnicode environment)
    (l : Loader) (d : Declaration) {missing : VarName → Loader}
    (hmissing : ∀ varName, varName.text = d.name → environment d.name = none →
      Declares environment d l (missing varName)) :
    Declares environment d l (l.declareOr environment d.type d.name missing) := by
  unfold Loader.declareOr
  cases hparse : VarName.parse d.name with
  | error e =>
    obtain ⟨hbad, reason, rfl⟩ := VarName.parse_error hparse
    exact .pushed (by rw [Declaration.problem, if_pos hbad]) rfl
  | ok varName =>
    have hname := VarName.parse_ok hparse
    have hvalid : ValidName d.name := hname ▸ varName.valid
    unfold Environment.var
    cases henv : environment d.name with
    | none => exact hmissing varName hname henv
    | some v =>
      cases v with
      | notUnicode bytes => exact absurd henv (hunicode d.name bytes)
      | unicode raw =>
        dsimp only
        cases hraw : d.type.fromEnvStr raw with
        | error source =>
          refine .pushed ?_ rfl
          simp [Declaration.problem, hvalid, henv, OsString.valueAt, hraw, Except.toOption]
        | ok v =>
          refine .inserted ?_ hname ?_
          · simp [Declaration.problem, hvalid, henv, OsString.valueAt, hraw, Except.toOption]
          · simp [Declaration.stored, henv, OsString.valueAt, hraw, Except.toOption]

/-- **A declaration does what it is to do**, when the environment is Unicode. -/
theorem declare_spec {environment : Environment} (hunicode : AllUnicode environment)
    (l : Loader) (d : Declaration) : Declares environment d l (l.declare environment d) := by
  have hproblem : ∀ varName : VarName, varName.text = d.name → environment d.name = none →
      d.problem environment = if d.required then some (.missing d.name) else none := by
    intro varName hname henv
    have hvalid : ValidName d.name := hname ▸ varName.valid
    rw [Declaration.problem, if_neg (not_not_intro hvalid), henv]
  have hstored : environment d.name = none → d.stored environment = d.default := by
    intro henv
    rw [Declaration.stored, henv]
  cases d with
  | require T name =>
    exact declareOr_spec hunicode l (.require T name)
      fun varName hname henv => .pushed (hproblem varName hname henv) rfl
  | optional T name =>
    exact declareOr_spec hunicode l (.optional T name)
      fun varName hname henv => .skipped (hproblem varName hname henv) (hstored henv)
  | optionalOr T name default =>
    exact declareOr_spec hunicode l (.optionalOr T name default)
      fun varName hname henv => .inserted (hproblem varName hname henv) hname (hstored henv)

/-! ## A schema -/

theorem declare_all_problems {environment : Environment} (hunicode : AllUnicode environment)
    (l : Loader) (schema : List Declaration) :
    (schema.foldl (Loader.declare environment) l).errors.map Error.problem =
      l.errors.map Error.problem ++ (problems environment schema).map some := by
  induction schema generalizing l with
  | nil => simp [problems]
  | cons d schema ih =>
    rw [List.foldl_cons, ih, (declare_spec hunicode l d).problems]
    unfold problems
    rw [List.filterMap_cons]
    cases d.problem environment <;> simp

theorem declare_all_values {environment : Environment} (hunicode : AllUnicode environment)
    (l : Loader) {schema : List Declaration} (hnone : problems environment schema = [])
    (name : Text) :
    (schema.foldl (Loader.declare environment) l).values.lookup name =
      (lastStored environment name schema).or (l.values.lookup name) := by
  induction schema generalizing l with
  | nil => rfl
  | cons d schema ih =>
    rw [problems, List.filterMap_eq_nil_iff] at hnone
    have hd := hnone d List.mem_cons_self
    have hrest := List.filterMap_eq_nil_iff.mpr fun x hx => hnone x (List.mem_cons_of_mem _ hx)
    rw [List.foldl_cons, ih _ hrest, (declare_spec hunicode l d).values hd, lastStored,
      Option.or_assoc]

/-- **A load reports as declared** when the environment is Unicode. -/
theorem loads_of_unicode {environment : Environment} (hunicode : AllUnicode environment)
    (schema : List Declaration) : LoadsAsDeclared environment schema := by
  have hproblems := declare_all_problems hunicode Loader.new schema
  have hvalues := @declare_all_values environment hunicode Loader.new schema
  unfold LoadsAsDeclared loadSchema Loader.load
  generalize schema.foldl (Loader.declare environment) Loader.new = l at hproblems hvalues
  rw [show Loader.new.errors = [] from rfl, List.map_nil, List.nil_append] at hproblems
  cases herrors : l.errors with
  | cons e errors =>
    rw [herrors] at hproblems
    exact ⟨List.cons_ne_nil _ _, hproblems⟩
  | nil =>
    rw [herrors, List.map_nil] at hproblems
    have hnone := List.map_eq_nil_iff.mp hproblems.symm
    refine ⟨hnone, ?_⟩
    intro T name
    have hget : ∀ v, (Env.mk l.values).get T name = .ok v ↔
        lastStored environment name schema = some ⟨T, v⟩ := by
      intro v
      rw [get_eq_ok, hvalues hnone name]
      have hempty : Loader.new.values.lookup name = none := rfl
      rw [hempty, Option.or_none]
    refine ⟨hget, ?_⟩
    intro hother
    rcases get_cases ⟨l.values⟩ T name with ⟨v, hv⟩ | hnot
    · exact absurd ((hget v).mp hv) (hother v)
    · exact hnot

/-! ## Variables that are not Unicode -/

/-- The environment as `env::var` shows it to the loader. -/
def seen (environment : Environment) : Environment := fun name =>
  match environment name with
  | some (.unicode s) => some (.unicode s)
  | _ => none

theorem seen_unicode (environment : Environment) : AllUnicode (seen environment) := by
  intro name bytes h
  unfold seen at h
  split at h <;> cases h

theorem seen_eq {environment : Environment} {name : Text}
    (h : ∀ bytes, environment name ≠ some (.notUnicode bytes)) :
    seen environment name = environment name := by
  unfold seen
  cases henv : environment name with
  | none => rfl
  | some v =>
    cases v with
    | unicode s => rfl
    | notUnicode bytes => exact absurd henv (h bytes)

theorem seen_of_notUnicode {environment : Environment} {name : Text} {bytes : List UInt8}
    (h : environment name = some (.notUnicode bytes)) : seen environment name = none := by
  rw [seen, h]

theorem declare_seen (environment : Environment) :
    Loader.declare environment = Loader.declare (seen environment) := by
  funext l d
  by_cases h : ∃ bytes, environment d.name = some (.notUnicode bytes)
  · obtain ⟨bytes, h⟩ := h
    have hseen := seen_of_notUnicode h
    cases d <;> simp only [Declaration.name] at h hseen <;>
      simp only [Loader.declare, Loader.require, Loader.optional, Loader.optionalOr,
        Environment.var, h, hseen]
  · have hseen := seen_eq fun bytes hbytes => h ⟨bytes, hbytes⟩
    cases d <;> simp only [Declaration.name] at hseen <;>
      simp only [Loader.declare, Loader.require, Loader.optional, Loader.optionalOr,
        Environment.var, hseen]

/-- **The loader cannot tell** a variable that is not Unicode from one that is not set. -/
theorem loadSchema_seen (environment : Environment) (schema : List Declaration) :
    loadSchema environment schema = loadSchema (seen environment) schema := by
  rw [loadSchema, loadSchema, declare_seen]

/-- The variable of a declaration is set to something that is not Unicode. -/
def Unreadable (environment : Environment) (d : Declaration) : Prop :=
  ValidName d.name ∧ ∃ bytes, environment d.name = some (.notUnicode bytes)

theorem problem_unreadable {environment : Environment} {d : Declaration}
    (h : Unreadable environment d) : d.problem environment = some (.parse d.name) := by
  obtain ⟨hvalid, bytes, henv⟩ := h
  rw [Declaration.problem, if_neg (not_not_intro hvalid), henv]
  rfl

theorem problem_seen {environment : Environment} {d : Declaration}
    (h : ¬ Unreadable environment d) :
    d.problem (seen environment) = d.problem environment := by
  unfold Declaration.problem
  by_cases hvalid : ValidName d.name
  · rw [seen_eq fun bytes hbytes => h ⟨hvalid, bytes, hbytes⟩]
  · rw [if_pos hvalid, if_pos hvalid]

/-- The problem is with a value. -/
def Problem.isParse : Problem → Bool
  | parse _ => true
  | invalidName _ | missing _ => false

theorem problems_cons (environment : Environment) (d : Declaration) (schema : List Declaration) :
    problems environment (d :: schema) =
      (d.problem environment).toList ++ problems environment schema := by
  unfold problems
  rw [List.filterMap_cons]
  cases d.problem environment <;> rfl

/-- Seen as not set, a variable is no problem, or is missing. -/
theorem seen_not_parse {environment : Environment} {d : Declaration}
    (h : Unreadable environment d) :
    (d.problem (seen environment)).toList.countP Problem.isParse = 0 := by
  obtain ⟨hvalid, bytes, henv⟩ := h
  rw [Declaration.problem, if_neg (not_not_intro hvalid), seen_of_notUnicode henv]
  cases d.required <;> rfl

theorem seen_parse_le (environment : Environment) (schema : List Declaration) :
    (problems (seen environment) schema).countP Problem.isParse ≤
      (problems environment schema).countP Problem.isParse := by
  induction schema with
  | nil => exact Nat.le_refl _
  | cons d schema ih =>
    rw [problems_cons, problems_cons, List.countP_append, List.countP_append]
    by_cases h : Unreadable environment d
    · rw [seen_not_parse h]
      omega
    · rw [problem_seen h]
      omega

/-- What is not seen is missed in the count. -/
theorem seen_parse_lt {environment : Environment} {schema : List Declaration} {d : Declaration}
    (hd : d ∈ schema) (h : Unreadable environment d) :
    (problems (seen environment) schema).countP Problem.isParse <
      (problems environment schema).countP Problem.isParse := by
  obtain ⟨before, after, rfl⟩ := List.append_of_mem hd
  have hsplit : ∀ e, problems e (before ++ d :: after) =
      problems e before ++ ((d.problem e).toList ++ problems e after) := by
    intro e
    rw [← problems_cons, problems, List.filterMap_append]
    rfl
  have hbefore := seen_parse_le environment before
  have hafter := seen_parse_le environment after
  have hmissed := seen_not_parse h
  have hreal : (d.problem environment).toList.countP Problem.isParse = 1 := by
    rw [problem_unreadable h]
    rfl
  rw [hsplit, hsplit, List.countP_append, List.countP_append, List.countP_append,
    List.countP_append]
  omega

theorem lastStored_seen {environment : Environment} {schema : List Declaration}
    (h : ∀ d ∈ schema, seen environment d.name = environment d.name) (name : Text) :
    lastStored (seen environment) name schema = lastStored environment name schema := by
  induction schema with
  | nil => rfl
  | cons d schema ih =>
    have hd : d.stored (seen environment) = d.stored environment := by
      rw [Declaration.stored, Declaration.stored, h d List.mem_cons_self]
    rw [lastStored, lastStored, ih fun x hx => h x (List.mem_cons_of_mem _ hx), hd]

/-- The names of a schema without problems are valid. -/
theorem valid_of_problems_nil {environment : Environment} {schema : List Declaration}
    (h : problems environment schema = []) {d : Declaration} (hd : d ∈ schema) :
    ValidName d.name := by
  have hnone := List.filterMap_eq_nil_iff.mp h d hd
  by_contra hbad
  rw [Declaration.problem, if_pos hbad] at hnone
  cases hnone

theorem loads_of_readable {environment : Environment} {schema : List Declaration}
    (h : ∀ d ∈ schema, ¬ Unreadable environment d) : LoadsAsDeclared environment schema := by
  have hproblems : problems (seen environment) schema = problems environment schema :=
    List.filterMap_congr fun d hd => problem_seen (h d hd)
  have hseen := loads_of_unicode (seen_unicode environment) schema
  unfold LoadsAsDeclared at hseen ⊢
  rw [loadSchema_seen environment, ← hproblems]
  generalize loadSchema (seen environment) schema = r at hseen
  cases r with
  | error errors => exact hseen
  | ok env =>
    refine ⟨hseen.1, ?_⟩
    intro T name
    rw [← lastStored_seen]
    · exact hseen.2 T name
    intro d hd
    have hvalid := valid_of_problems_nil hseen.1 hd
    exact seen_eq fun bytes hbytes => h d hd ⟨hvalid, bytes, hbytes⟩

/-- **A load reports as declared exactly when no declared variable is set to a value that is
not Unicode.** -/
theorem reports_iff (environment : Environment) (schema : List Declaration) :
    LoadsAsDeclared environment schema ↔ ∀ d ∈ schema, ¬ Unreadable environment d := by
  refine ⟨?_, loads_of_readable⟩
  intro hload d hd hbad
  have hlt := seen_parse_lt hd hbad
  have hseen := loads_of_unicode (seen_unicode environment) schema
  unfold LoadsAsDeclared at hload hseen
  rw [loadSchema_seen environment] at hload
  generalize loadSchema (seen environment) schema = r at hload hseen
  cases r with
  | error errors =>
    have hsame := List.map_injective_iff.mpr (Option.some_injective _)
      (hload.2.symm.trans hseen.2)
    rw [hsame] at hlt
    exact lt_irrefl _ hlt
  | ok env =>
    rw [hload.1] at hlt
    exact absurd hlt (Nat.not_lt_zero _)

/-- An environment in which `PORT` is a byte that is no UTF-8. -/
def garbledPort : Environment := fun name =>
  if name = "PORT".toList then some (.notUnicode [0xFF]) else none

theorem garbledPort_misreported :
    loadSchema garbledPort [.require .u16 "PORT".toList] = .error [.missing "PORT".toList] ∧
      (∃ env, loadSchema garbledPort [.optionalOr .u16 "PORT".toList (8080 : UInt16)] = .ok env ∧
        env.get .u16 "PORT".toList = .ok (8080 : UInt16)) ∧
      ¬ LoadsAsDeclared garbledPort [.require .u16 "PORT".toList] := by
  have hmissing : loadSchema garbledPort [.require .u16 "PORT".toList] =
      .error [.missing "PORT".toList] := rfl
  refine ⟨hmissing, ⟨_, rfl, rfl⟩, ?_⟩
  intro hload
  unfold LoadsAsDeclared at hload
  rw [hmissing] at hload
  have hreported : problems garbledPort [.require .u16 "PORT".toList] =
      [.parse "PORT".toList] := by decide
  have hsame := hload.2
  rw [hreported] at hsame
  cases hsame

end RustFundamentals.Envtyped
