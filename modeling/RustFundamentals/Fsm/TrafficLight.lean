import RustFundamentals.Foundation.Runs
import RustFundamentals.Foundation.Text
import Mathlib.Logic.Function.Iterate

/-!
# fsm: the traffic light

Any number of lights and of observers in `Rc<RefCell<…>>`, which the lights share with the code
that reads them. What is notified depends on the borrows outstanding at that moment; what holds of
every run is said by the history alone (`lights_observed`).
-/

namespace RustFundamentals.Fsm

open Foundation

/-! ## The source -/

/-- The implementations of `State`. -/
inductive State
  | red
  | green
  | yellow
  deriving DecidableEq

/-- `State::name`. -/
def State.name : State → Text
  | .red => "Red".toList
  | .green => "Green".toList
  | .yellow => "Yellow".toList

/-- `State::next`. -/
def State.next : State → State
  | .red => .green
  | .green => .yellow
  | .yellow => .red

/-- `RefCell`: a positive flag counts shared borrows, a negative one is an exclusive borrow. -/
structure RefCell (ω : Type) where
  value : ω
  flag : Int
  deriving DecidableEq

/-- `RefCell::borrow`, which panics at an exclusive borrow. -/
def RefCell.borrow {ω : Type} (c : RefCell ω) : Option (RefCell ω) :=
  if c.flag < 0 then none else some { c with flag := c.flag + 1 }

/-- `RefCell::borrow_mut`, which panics at any borrow. -/
def RefCell.borrowMut {ω : Type} (c : RefCell ω) : Option (RefCell ω) :=
  if c.flag = 0 then some { c with flag := -1 } else none

/-- The end of a borrow. -/
def RefCell.release {ω : Type} (c : RefCell ω) : RefCell ω :=
  { c with flag := c.flag - c.flag.sign }

/-- The cells of the `Rc`s. -/
abbrev Cells (ω : Type) := Nat → RefCell ω

/-- The trait `Observer`. A call that panics has an error, with what it leaves behind. -/
structure Observer (ω : Type) where
  onTransition : ω → Text → Text → Except ω ω

/-- `LogObserver`. -/
structure LogObserver where
  entries : List Text
  deriving DecidableEq

/-- `LogObserver::new`. -/
def LogObserver.new : LogObserver := ⟨[]⟩

/-- `LogObserver::log`. -/
def LogObserver.log (o : LogObserver) : List Text := o.entries

/-- `format!("{from}->{to}")`. -/
def transition (fromName toName : Text) : Text := fromName ++ "->".toList ++ toName

/-- `impl Observer for LogObserver`. -/
def logObserver : Observer LogObserver where
  onTransition o fromName toName :=
    .ok { o with entries := o.entries ++ [transition fromName toName] }

/-- `TrafficLight`. The observers are `Rc`s. -/
structure TrafficLight where
  state : Option State
  observers : List Nat
  deriving DecidableEq

namespace TrafficLight

/-- `TrafficLight::new`. -/
def new : TrafficLight := ⟨some .red, []⟩

/-- `current`, which panics without a state. -/
def current (l : TrafficLight) : Option Text := l.state.map State.name

/-- `subscribe`. -/
def subscribe (l : TrafficLight) (observer : Nat) : TrafficLight :=
  { l with observers := l.observers ++ [observer] }

end TrafficLight

section Tick

variable {ω : Type}

/-- `observer.borrow_mut().on_transition(from, to)`, and whether it returns. A panic drops the
borrow as well. -/
def onTransition (obs : Observer ω) (cells : Cells ω) (observer : Nat) (fromName toName : Text) :
    Bool × Cells ω :=
  match (cells observer).borrowMut with
  | none => (false, cells)
  | some lent =>
    match obs.onTransition lent.value fromName toName with
    | .ok v => (true, Function.update cells observer { lent with value := v }.release)
    | .error v => (false, Function.update cells observer { lent with value := v }.release)

/-- `for observer in &self.observers { observer.borrow_mut().on_transition(&from, &to); }` -/
def notify (obs : Observer ω) (fromName toName : Text) : List Nat → Cells ω → Bool × Cells ω
  | [], cells => (true, cells)
  | o :: os, cells =>
    match onTransition obs cells o fromName toName with
    | (true, cells) => notify obs fromName toName os cells
    | (false, cells) => (false, cells)

/-- `tick`, and whether it returns. -/
def TrafficLight.tick (obs : Observer ω) (l : TrafficLight) (cells : Cells ω) :
    Bool × TrafficLight × Cells ω :=
  match l.state with
  | none => (false, l, cells)
  | some current =>
    let next := current.next
    let (returned, cells) := notify obs current.name next.name l.observers cells
    (returned, { l with state := some next }, cells)

end Tick

/-! ## Runs -/

/-- What the code around the lights does. It may keep borrows, and catch panics. -/
inductive Act
  | current (light : Nat)
  | subscribe (light observer : Nat)
  | tick (light : Nat)
  | onTransition (observer : Nat) (fromName toName : Text)
  | log (observer : Nat)
  | borrow (observer : Nat)
  | borrowMut (observer : Nat)
  | release (observer : Nat)
  deriving DecidableEq

/-- What it gets. -/
inductive Reply (ω : Type)
  | done
  | panicked
  | name (t : Text)
  | value (v : ω)
  deriving DecidableEq

/-- Whether a call returns. -/
def Reply.ofReturned {ω : Type} : Bool → Reply ω
  | true => .done
  | false => .panicked

/-- The lights, each new until it is used, and the observers. -/
structure System (ω : Type) where
  lights : Nat → TrafficLight
  cells : Cells ω

/-- Nothing has happened to these observers. -/
def start {ω : Type} (observers : Nat → ω) : System ω :=
  ⟨fun _ => .new, fun o => ⟨observers o, 0⟩⟩

section Exec

variable {ω : Type}

/-- A borrow that is kept, if it is had. -/
def keep (s : System ω) (o : Nat) : Option (RefCell ω) → Reply ω × System ω
  | some lent => (.done, { s with cells := Function.update s.cells o lent })
  | none => (.panicked, s)

/-- An act. A light is named by the code that owns it, an observer by an `Rc` of it. -/
def exec (obs : Observer ω) (s : System ω) : Act → Reply ω × System ω
  | .current l =>
    match (s.lights l).current with
    | some t => (.name t, s)
    | none => (.panicked, s)
  | .subscribe l o =>
    (.done, { s with lights := Function.update s.lights l ((s.lights l).subscribe o) })
  | .tick l =>
    let (returned, light, cells) := (s.lights l).tick obs s.cells
    (.ofReturned returned, ⟨Function.update s.lights l light, cells⟩)
  | .onTransition o fromName toName =>
    let (returned, cells) := onTransition obs s.cells o fromName toName
    (.ofReturned returned, { s with cells })
  | .log o =>
    match (s.cells o).borrow with
    | some lent => (.value lent.value, s)
    | none => (.panicked, s)
  | .borrow o => keep s o (s.cells o).borrow
  | .borrowMut o => keep s o (s.cells o).borrowMut
  | .release o =>
    (.done, { s with cells := Function.update s.cells o (s.cells o).release })

end Exec

/-! ## What the history says -/

/-- The state a light is in. -/
def showing (past : List Act) (l : Nat) : State := State.next^[past.count (.tick l)] .red

/-- The observers of a light, in the order of their subscriptions. -/
def subscribers (past : List Act) (l : Nat) : List Nat :=
  past.filterMap fun
    | .subscribe l' o => if l' = l then some o else none
    | _ => none

/-- What an act does to the borrows of an observer that are kept. -/
def keptAfter (o : Nat) (n : Int) : Act → Int
  | .borrow o' => if o' = o ∧ 0 ≤ n then n + 1 else n
  | .borrowMut o' => if o' = o ∧ n = 0 then -1 else n
  | .release o' => if o' = o then n - n.sign else n
  | _ => n

/-- The borrows of an observer that are kept, counted as in its flag. -/
def kept (past : List Act) (o : Nat) : Int := past.foldl (keptAfter o) 0

/-- The subscribers that a tick gets to: those before the first that is borrowed. -/
def notified (past : List Act) (l : Nat) : List Nat :=
  (subscribers past l).takeWhile fun o => kept past o = 0

/-- What an act adds to an observer's log. -/
def added (o : Nat) : List Act × Act → List Text
  | (past, .tick l) =>
    List.replicate ((notified past l).count o)
      (transition (showing past l).name (showing past l).next.name)
  | (past, .onTransition o' fromName toName) =>
    if o' = o ∧ kept past o = 0 then [transition fromName toName] else []
  | _ => []

/-- An observer's log. -/
def logged (past : List Act) (o : Nat) : List Text := (withPast past).flatMap (added o)

/-- What the code gets that acts on lights and observers with this history. -/
def answer (past : List Act) : Act → Reply LogObserver
  | .current l => .name (showing past l).name
  | .subscribe _ _ | .release _ => .done
  | .tick l => .ofReturned ((subscribers past l).all fun o => kept past o = 0)
  | .onTransition o _ _ | .borrowMut o => .ofReturned (kept past o = 0)
  | .log o => if kept past o < 0 then .panicked else .value ⟨logged past o⟩
  | .borrow o => .ofReturned (0 ≤ kept past o)

@[simp] theorem showing_concat (past : List Act) (act : Act) (l : Nat) :
    showing (past ++ [act]) l =
      if act = .tick l then (showing past l).next else showing past l := by
  rw [showing, List.count_append, List.count_singleton]
  by_cases hact : act = .tick l
  · rw [if_pos hact, if_pos (by simp [hact]), Function.iterate_succ_apply']
    rfl
  · rw [if_neg hact, if_neg (by simp [hact])]
    rfl

@[simp] theorem subscribers_concat (past : List Act) (act : Act) (l : Nat) :
    subscribers (past ++ [act]) l = subscribers past l ++ subscribers [act] l :=
  List.filterMap_append

@[simp] theorem kept_concat (past : List Act) (act : Act) (o : Nat) :
    kept (past ++ [act]) o = keptAfter o (kept past o) act := by
  rw [kept, List.foldl_append]
  rfl

@[simp] theorem logged_concat (past : List Act) (act : Act) (o : Nat) :
    logged (past ++ [act]) o = logged past o ++ added o (past, act) := by
  rw [logged, withPast_concat, List.flatMap_append]
  simp [logged]

/-- The light as the history says, between calls. -/
def lightOf (past : List Act) (l : Nat) : TrafficLight :=
  ⟨some (showing past l), subscribers past l⟩

/-- Nothing but ticks writes to the log `o`, and no borrow is kept. -/
def Calm (o : Nat) : Act → Prop
  | .current _ | .tick _ | .log _ => True
  | .subscribe _ o' => o' ≠ o
  | _ => False

theorem foldl_keptAfter {o : Nat} {acts : List Act} (h : ∀ act ∈ acts, Calm o act) (o' : Nat)
    (n : Int) : acts.foldl (keptAfter o') n = n := by
  induction acts with
  | nil => rfl
  | cons act acts ih =>
    have hone : keptAfter o' n act = n := by
      have hcalm := h act List.mem_cons_self
      cases act <;> first | rfl | exact hcalm.elim
    rw [List.foldl_cons, hone]
    exact ih fun act' hact => h act' (List.mem_cons_of_mem _ hact)

theorem subscribers_of_calm {o : Nat} {acts : List Act} (h : ∀ act ∈ acts, Calm o act) (l : Nat) :
    o ∉ subscribers acts l := by
  intro ho
  obtain ⟨act, hact, hsub⟩ := List.mem_filterMap.mp ho
  have hcalm := h act hact
  cases act with
  | subscribe l' o' =>
    dsimp only at hsub
    split at hsub
    · exact hcalm (Option.some.inj hsub)
    · cases hsub
  | _ => cases hsub

/-- A log that nobody has subscribed is empty. -/
theorem logged_of_calm {o : Nat} {acts : List Act} (h : ∀ act ∈ acts, Calm o act) :
    logged acts o = [] := by
  induction acts using List.reverseRecOn with
  | nil => rfl
  | append_singleton past act ih =>
    have hpast : ∀ act' ∈ past, Calm o act' := fun act' hact => h act' (List.mem_append_left _ hact)
    have hcalm := h act (by simp)
    rw [logged_concat, ih hpast, List.nil_append]
    cases act with
    | tick l =>
      have hnot : o ∉ notified past l := fun ho =>
        subscribers_of_calm hpast l ((List.takeWhile_prefix _).subset ho)
      rw [added, List.count_eq_zero_of_not_mem hnot]
      rfl
    | onTransition => exact hcalm.elim
    | _ => rfl

/-- **What a log is for**: one that is subscribed to a light once, and left alone, has that light's
transitions since then. -/
theorem logged_since {l o : Nat} {before after : List Act} (hbefore : ∀ act ∈ before, Calm o act)
    (hafter : ∀ act ∈ after, Calm o act) :
    logged (before ++ .subscribe l o :: after) o =
      (List.range (after.count (.tick l))).map fun i =>
        let state := State.next^[before.count (.tick l) + i] .red
        transition state.name state.next.name := by
  induction after using List.reverseRecOn with
  | nil =>
    rw [logged_concat, logged_of_calm hbefore]
    rfl
  | append_singleton past act ih =>
    have hpast : ∀ act' ∈ past, Calm o act' := fun act' hact =>
      hafter act' (List.mem_append_left _ hact)
    have hcalm := hafter act (by simp)
    rw [← List.cons_append, ← List.append_assoc, logged_concat, ih hpast, List.count_append]
    cases act with
    | tick l' =>
      have hkept : ∀ o', kept (before ++ .subscribe l o :: past) o' = 0 := by
        intro o'
        rw [kept, List.foldl_append, foldl_keptAfter hbefore, List.foldl_cons]
        exact foldl_keptAfter hpast o' 0
      have hnotified : notified (before ++ .subscribe l o :: past) l' =
          subscribers before l' ++ ((if l = l' then [o] else []) ++ subscribers past l') := by
        rw [notified, List.takeWhile_eq_self_iff.mpr (by simp [hkept])]
        refine List.filterMap_append.trans (congrArg _ ?_)
        by_cases hl : l = l' <;> simp [subscribers, hl]
      have hcount : (notified (before ++ .subscribe l o :: past) l').count o =
          if l = l' then 1 else 0 := by
        rw [hnotified, List.count_append, List.count_append,
          List.count_eq_zero_of_not_mem (subscribers_of_calm hbefore l'),
          List.count_eq_zero_of_not_mem (subscribers_of_calm hpast l')]
        by_cases hl : l = l' <;> simp [hl]
      rw [added, hcount]
      by_cases hl : l = l'
      · subst hl
        have hticks : (before ++ .subscribe l o :: past).count (.tick l) =
            before.count (.tick l) + past.count (.tick l) := by simp
        rw [if_pos rfl, showing, hticks, List.count_singleton_self, List.range_succ,
          List.map_append]
        rfl
      · have hne : Act.tick l' ≠ .tick l := fun heq => hl (Act.tick.inj heq).symm
        rw [if_neg hl, List.count_singleton, if_neg (by simpa using hne), Nat.add_zero]
        exact List.append_nil _
    | onTransition => exact hcalm.elim
    | _ => simp [added]

/-! ## Any observers -/

section AnyObservers

variable {ω : Type} {obs : Observer ω}

/-- A borrow for a call is over after it, also when the call panics. -/
theorem onTransition_flag (cells : Cells ω) (o : Nat) (fromName toName : Text) (o' : Nat) :
    ((onTransition obs cells o fromName toName).2 o').flag = (cells o').flag := by
  unfold onTransition RefCell.borrowMut
  by_cases hflag : (cells o).flag = 0
  · rw [if_pos hflag]
    dsimp only
    by_cases ho : o' = o
    · subst ho
      cases obs.onTransition (cells o').value fromName toName <;>
        simp [RefCell.release, hflag]
    · cases obs.onTransition (cells o).value fromName toName <;>
        simp [Function.update_of_ne ho]
  · rw [if_neg hflag]

theorem notify_flag (fromName toName : Text) (os : List Nat) (cells : Cells ω) (o' : Nat) :
    ((notify obs fromName toName os cells).2 o').flag = (cells o').flag := by
  induction os generalizing cells with
  | nil => rfl
  | cons o os ih =>
    have hone : ((onTransition obs cells o fromName toName).2 o').flag = (cells o').flag :=
      onTransition_flag cells o fromName toName o'
    rw [notify]
    cases hcall : onTransition obs cells o fromName toName with
    | mk returned after =>
      rw [hcall] at hone
      cases returned with
      | true => exact (ih after).trans hone
      | false => exact hone

/-- A tick takes the state out and puts the next one back before anybody is notified. -/
theorem tick_eq {l : TrafficLight} {current : State} (h : l.state = some current)
    (cells : Cells ω) :
    l.tick obs cells =
      let told := notify obs current.name current.next.name l.observers cells
      (told.1, { l with state := some current.next }, told.2) := by
  rw [TrafficLight.tick, h]

theorem borrow_value {c lent : RefCell ω} (h : c.borrow = some lent) : lent.value = c.value := by
  unfold RefCell.borrow at h
  split at h
  · cases h
  · cases h
    rfl

theorem borrowMut_value {c lent : RefCell ω} (h : c.borrowMut = some lent) :
    lent.value = c.value := by
  unfold RefCell.borrowMut at h
  split at h
  · cases h
    rfl
  · cases h

theorem keep_lights (s : System ω) (o : Nat) (lent : Option (RefCell ω)) (l : Nat) :
    (keep s o lent).2.lights l = s.lights l := by
  cases lent <;> rfl

theorem keep_cells_self (s : System ω) (o : Nat) (c : RefCell ω) :
    (keep s o (some c)).2.cells o = c := by
  show Function.update s.cells o c o = c
  exact Function.update_self ..

theorem keep_cells_of_ne (s : System ω) {o o' : Nat} (lent : Option (RefCell ω)) (h : o' ≠ o) :
    (keep s o lent).2.cells o' = s.cells o' := by
  cases lent with
  | none => rfl
  | some c => exact Function.update_of_ne h _ _

theorem keep_value (s : System ω) (o o' : Nat) (lent : Option (RefCell ω))
    (h : ∀ c, lent = some c → c.value = (s.cells o).value) :
    ((keep s o lent).2.cells o').value = (s.cells o').value := by
  cases lent with
  | none => rfl
  | some c =>
    by_cases ho : o' = o
    · subst ho
      rw [keep_cells_self, h c rfl]
    · rw [keep_cells_of_ne s _ ho]

/-- What the history says of a system, whatever its observers do. -/
structure Shaped (past : List Act) (s : System ω) : Prop where
  light : ∀ l, s.lights l = lightOf past l
  flag : ∀ o, (s.cells o).flag = kept past o

theorem Shaped.start (observers : Nat → ω) : Shaped [] (start observers) where
  light _ := rfl
  flag _ := rfl

/-- What leaves the cells' flags and the light as they are. -/
theorem Shaped.of_eq {past : List Act} {act : Act} {s s' : System ω} (h : Shaped past s)
    (hlight : ∀ l, s'.lights l = s.lights l ∧ lightOf (past ++ [act]) l = lightOf past l)
    (hflag : ∀ o, (s'.cells o).flag = keptAfter o (s.cells o).flag act) :
    Shaped (past ++ [act]) s' where
  light l := by rw [(hlight l).1, (hlight l).2, h.light]
  flag o := by rw [hflag, h.flag, kept_concat]

/-- **One act**, also one that panics, leaves what its history says. -/
theorem Shaped.exec {past : List Act} {s : System ω} (h : Shaped past s) (act : Act) :
    Shaped (past ++ [act]) (exec obs s act).2 := by
  cases act with
  | current l =>
    have hcurrent : (s.lights l).current = some (showing past l).name := by rw [h.light]; rfl
    rw [Fsm.exec, hcurrent]
    exact h.of_eq (fun l' => ⟨rfl, by simp [lightOf, subscribers]⟩) fun o => rfl
  | subscribe l o =>
    refine ⟨fun l' => ?_, fun o' => ?_⟩
    · show Function.update s.lights l _ l' = _
      by_cases hl : l' = l
      · subst hl
        rw [Function.update_self, h.light]
        simp [TrafficLight.subscribe, lightOf, subscribers]
      · rw [Function.update_of_ne hl, h.light]
        simp [lightOf, subscribers, Ne.symm hl]
    · rw [kept_concat]
      exact h.flag o'
  | tick l =>
    have hstate : (s.lights l).state = some (showing past l) := by rw [h.light]; rfl
    refine ⟨fun l' => ?_, fun o' => ?_⟩
    · show Function.update s.lights l ((s.lights l).tick obs s.cells).2.1 l' = _
      rw [tick_eq hstate]
      by_cases hl : l' = l
      · subst hl
        rw [Function.update_self, h.light]
        simp [lightOf, subscribers]
      · rw [Function.update_of_ne hl, h.light]
        simp [lightOf, subscribers, Ne.symm hl]
    · show (((s.lights l).tick obs s.cells).2.2 o').flag = _
      rw [tick_eq hstate, kept_concat]
      exact (notify_flag _ _ _ _ o').trans (h.flag o')
  | onTransition o fromName toName =>
    refine h.of_eq (fun l => ⟨rfl, by simp [lightOf, subscribers]⟩) fun o' => ?_
    exact onTransition_flag _ _ _ _ o'
  | log o =>
    refine h.of_eq (fun l => ?_) fun o' => ?_
    · refine ⟨?_, by simp [lightOf, subscribers]⟩
      rw [Fsm.exec]
      cases (s.cells o).borrow <;> rfl
    · rw [Fsm.exec]
      cases (s.cells o).borrow <;> rfl
  | borrow o =>
    refine h.of_eq (fun l => ⟨keep_lights s o _ l, by simp [lightOf, subscribers]⟩) fun o' => ?_
    rw [Fsm.exec, RefCell.borrow]
    by_cases ho : o' = o
    · subst ho
      by_cases hflag : (s.cells o').flag < 0
      · rw [if_pos hflag, keptAfter, if_neg (by omega)]
        rfl
      · rw [if_neg hflag, keptAfter, if_pos ⟨rfl, by omega⟩, keep_cells_self]
    · rw [keep_cells_of_ne s _ ho, keptAfter, if_neg fun hand => ho hand.1.symm]
  | borrowMut o =>
    refine h.of_eq (fun l => ⟨keep_lights s o _ l, by simp [lightOf, subscribers]⟩) fun o' => ?_
    rw [Fsm.exec, RefCell.borrowMut]
    by_cases ho : o' = o
    · subst ho
      by_cases hflag : (s.cells o').flag = 0
      · rw [if_pos hflag, keptAfter, if_pos ⟨rfl, hflag⟩, keep_cells_self]
      · rw [if_neg hflag, keptAfter, if_neg fun hand => hflag hand.2]
        rfl
    · rw [keep_cells_of_ne s _ ho, keptAfter, if_neg fun hand => ho hand.1.symm]
  | release o =>
    refine h.of_eq (fun l => ⟨rfl, by simp [lightOf, subscribers]⟩) fun o' => ?_
    show (Function.update s.cells o (s.cells o).release o').flag = _
    by_cases ho : o' = o
    · subst ho
      rw [Function.update_self, keptAfter, if_pos rfl]
      rfl
    · rw [Function.update_of_ne ho, keptAfter, if_neg (Ne.symm ho)]

end AnyObservers

/-! ## Logs -/

/-- A system of logs with this history. -/
def systemOf (past : List Act) : System LogObserver :=
  ⟨lightOf past, fun o => ⟨⟨logged past o⟩, kept past o⟩⟩

/-- A call to a log: an entry if it can be borrowed. -/
theorem onTransition_logObserver (cells : Cells LogObserver) (o : Nat) (fromName toName : Text) :
    onTransition logObserver cells o fromName toName =
      if (cells o).flag = 0 then
        (true, Function.update cells o
          ⟨⟨(cells o).value.entries ++ [transition fromName toName]⟩, (cells o).flag⟩)
      else (false, cells) := by
  unfold onTransition RefCell.borrowMut
  by_cases hflag : (cells o).flag = 0
  · rw [if_pos hflag, if_pos hflag, hflag]
    rfl
  · rw [if_neg hflag, if_neg hflag]

/-- **A tick writes** to the logs of the subscribers before the first that is borrowed, an entry
for each of their subscriptions. -/
theorem notify_logObserver (fromName toName : Text) (os : List Nat) (cells : Cells LogObserver) :
    notify logObserver fromName toName os cells =
      (os.all fun o => (cells o).flag = 0,
        fun o => ⟨⟨(cells o).value.entries ++
          List.replicate ((os.takeWhile fun o => (cells o).flag = 0).count o)
            (transition fromName toName)⟩, (cells o).flag⟩) := by
  induction os generalizing cells with
  | nil => simp [notify]
  | cons o os ih =>
    rw [notify, onTransition_logObserver]
    by_cases hflag : (cells o).flag = 0
    · rw [if_pos hflag]
      dsimp only
      rw [ih]
      have hflags : ∀ o', (Function.update cells o
          ⟨⟨(cells o).value.entries ++ [transition fromName toName]⟩, (cells o).flag⟩ o').flag =
          (cells o').flag := by
        intro o'
        by_cases ho : o' = o
        · subst ho
          rw [Function.update_self]
        · rw [Function.update_of_ne ho]
      simp only [hflags]
      refine Prod.ext (by simp [hflag]) (funext fun o' => ?_)
      rw [List.takeWhile_cons_of_pos (by simpa using hflag)]
      by_cases ho : o' = o
      · subst ho
        simp [List.replicate_succ]
      · simp [Function.update_of_ne ho, List.count_cons_of_ne (Ne.symm ho)]
    · rw [if_neg hflag, List.takeWhile_cons_of_neg (by simpa using hflag)]
      simp [hflag]

theorem Shaped.eq_systemOf {past : List Act} {s : System LogObserver} (h : Shaped past s)
    (hvalue : ∀ o, (s.cells o).value = ⟨logged past o⟩) : s = systemOf past := by
  have hlights : s.lights = lightOf past := funext h.light
  have hcells : s.cells = fun o => ⟨⟨logged past o⟩, kept past o⟩ := by
    funext o
    show RefCell.mk (s.cells o).value (s.cells o).flag = _
    rw [hvalue, h.flag]
  cases s
  cases hlights
  cases hcells
  rfl

theorem shaped_systemOf (past : List Act) : Shaped past (systemOf past) :=
  ⟨fun _ => rfl, fun _ => rfl⟩

/-- What an act leaves in the logs. -/
theorem exec_value (past : List Act) (act : Act) (o : Nat) :
    ((exec logObserver (systemOf past) act).2.cells o).value =
      ⟨logged past o ++ added o (past, act)⟩ := by
  -- most acts write nothing
  have hnothing : ((systemOf past).cells o).value = ⟨logged past o ++ []⟩ := by
    rw [List.append_nil]
    rfl
  cases act with
  | tick l =>
    show ((((systemOf past).lights l).tick logObserver (systemOf past).cells).2.2 o).value = _
    rw [tick_eq rfl, notify_logObserver]
    rfl
  | onTransition o' fromName toName =>
    show ((onTransition logObserver (systemOf past).cells o' fromName toName).2 o).value = _
    rw [onTransition_logObserver, added]
    by_cases hflag : ((systemOf past).cells o').flag = 0
    · rw [if_pos hflag]
      show (Function.update (systemOf past).cells o' _ o).value = _
      by_cases ho : o = o'
      · subst ho
        rw [Function.update_self, if_pos ⟨rfl, hflag⟩]
        rfl
      · rw [Function.update_of_ne ho, if_neg fun hand => ho hand.1.symm]
        exact hnothing
    · have hno : ¬ (o' = o ∧ kept past o = 0) := by
        rintro ⟨rfl, hzero⟩
        exact hflag hzero
      rw [if_neg hflag, if_neg hno]
      exact hnothing
  | current l => exact hnothing
  | subscribe l o' => exact hnothing
  | log o' =>
    rw [exec]
    cases ((systemOf past).cells o').borrow <;> exact hnothing
  | borrow o' =>
    exact (keep_value _ _ _ _ fun lent hlent => borrow_value hlent).trans hnothing
  | borrowMut o' =>
    exact (keep_value _ _ _ _ fun lent hlent => borrowMut_value hlent).trans hnothing
  | release o' =>
    show (Function.update (systemOf past).cells o' _ o).value = _
    by_cases ho : o = o'
    · subst ho
      rw [Function.update_self]
      exact hnothing
    · rw [Function.update_of_ne ho]
      exact hnothing

/-- What an act on logs gets. -/
theorem exec_answer (past : List Act) (act : Act) :
    (exec logObserver (systemOf past) act).1 = answer past act := by
  cases act with
  | tick l =>
    show Reply.ofReturned (((systemOf past).lights l).tick logObserver (systemOf past).cells).1 = _
    rw [tick_eq rfl, notify_logObserver]
    rfl
  | onTransition o fromName toName =>
    show Reply.ofReturned (onTransition logObserver (systemOf past).cells o fromName toName).1 = _
    rw [onTransition_logObserver, answer]
    by_cases hflag : ((systemOf past).cells o).flag = 0
    · rw [if_pos hflag, decide_eq_true (show kept past o = 0 from hflag)]
    · rw [if_neg hflag, decide_eq_false (show kept past o ≠ 0 from hflag)]
  | current l => rfl
  | subscribe l o => rfl
  | log o =>
    rw [exec, RefCell.borrow, answer]
    by_cases hflag : ((systemOf past).cells o).flag < 0
    · rw [if_pos hflag, if_pos (show kept past o < 0 from hflag)]
    · rw [if_neg hflag, if_neg (show ¬ kept past o < 0 from hflag)]
      rfl
  | borrow o =>
    rw [exec, RefCell.borrow, answer]
    by_cases hflag : ((systemOf past).cells o).flag < 0
    · rw [if_pos hflag, decide_eq_false (show ¬ 0 ≤ kept past o from Int.not_le.mpr hflag)]
      rfl
    · rw [if_neg hflag, decide_eq_true (show 0 ≤ kept past o from Int.not_lt.mp hflag)]
      rfl
  | borrowMut o =>
    rw [exec, RefCell.borrowMut, answer]
    by_cases hflag : ((systemOf past).cells o).flag = 0
    · rw [if_pos hflag, decide_eq_true (show kept past o = 0 from hflag)]
      rfl
    · rw [if_neg hflag, decide_eq_false (show kept past o ≠ 0 from hflag)]
      rfl
  | release o => rfl

/-- **One act on logs**: what it gets, and the history after it. -/
theorem exec_systemOf (past : List Act) (act : Act) :
    exec logObserver (systemOf past) act = (answer past act, systemOf (past ++ [act])) := by
  have hafter : (exec logObserver (systemOf past) act).2 = systemOf (past ++ [act]) := by
    refine ((shaped_systemOf past).exec act).eq_systemOf fun o => ?_
    rw [exec_value, logged_concat]
  exact Prod.ext (exec_answer past act) hafter

/-- The invariant over a run, for any observers. -/
theorem shaped_run {ω : Type} (obs : Observer ω) (observers : Nat → ω) (acts : List Act) :
    Shaped acts (runFrom (exec obs) (start observers) acts) := by
  induction acts using List.reverseRecOn with
  | nil => exact .start observers
  | append_singleton past act ih =>
    rw [runFrom_append]
    exact ih.exec act

theorem systemOf_run (acts : List Act) :
    runFrom (exec logObserver) (start fun _ => .new) acts = systemOf acts := by
  induction acts using List.reverseRecOn with
  | nil => rfl
  | append_singleton past act ih =>
    rw [runFrom_append, ih, runFrom_cons, exec_systemOf]
    rfl

/-- **Lights and their logs, in every run.** Whatever the observers do, panic included, a light has
a state between calls, the one its ticks lead to, and only the borrows kept outside are
outstanding. With logs for observers, everything that calls return, and whether they panic, is
what the history says. -/
theorem lights_observed :
    (∀ (ω : Type) (obs : Observer ω) (observers : Nat → ω) (acts : List Act),
      let s := runFrom (exec obs) (start observers) acts
      (∀ l, s.lights l = ⟨some (showing acts l), subscribers acts l⟩) ∧
        ∀ o, (s.cells o).flag = kept acts o) ∧
    ∀ acts : List Act,
      outcomes (exec logObserver) (start fun _ => .new) acts =
        (withPast acts).map fun e => (e.2, answer e.1 e.2) := by
  refine ⟨fun ω obs observers acts => ?_, fun acts => ?_⟩
  · have hshaped := shaped_run obs observers acts
    exact ⟨hshaped.light, hshaped.flag⟩
  · induction acts using List.reverseRecOn with
    | nil => rfl
    | append_singleton past act ih =>
      rw [outcomes_concat, ih, withPast_concat, List.map_append, systemOf_run, exec_systemOf]
      rfl

/-- A log that is being read when the light changes misses that change. -/
example : (outcomes (exec logObserver) (start fun _ => .new)
      [.subscribe 0 7, .borrow 7, .tick 0, .release 7, .current 0, .tick 0, .log 7]).map Prod.snd =
    [.done, .done, .panicked, .done, .name "Green".toList, .done,
      .value ⟨["Green->Yellow".toList]⟩] := by
  decide

end RustFundamentals.Fsm
