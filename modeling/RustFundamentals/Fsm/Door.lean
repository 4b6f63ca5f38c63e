import RustFundamentals.Foundation.Text

/-!
# fsm: the door

The typestate `Door`. Code that owns one is a tree whose shape follows the types; what it can do at
run time follows the key (`opened_after_key`).
-/

namespace RustFundamentals.Fsm

open Foundation

/-- The markers `Locked` and `Unlocked`. -/
inductive Marker
  | locked
  | unlocked
  deriving DecidableEq

/-- `Door<State>`. -/
structure Door (state : Marker) where
  key : Text
  deriving DecidableEq

namespace Door

/-- `KEY`. -/
def KEY : Text := "skeleton".toList

/-- `Door::new`. -/
def new : Door .locked := ⟨KEY⟩

/-- `unlock`, which gives the door back with a wrong key. -/
def unlock (d : Door .locked) (key : Text) : Except (Door .locked) (Door .unlocked) :=
  if key = d.key then .ok ⟨d.key⟩ else .error d

/-- `open`, with what it prints. -/
def «open» (_ : Door .unlocked) : Text := "creak…\n".toList

/-- `lock`. -/
def lock (d : Door .unlocked) : Door .locked := ⟨d.key⟩

end Door

/-- The code that owns a door: what the types let it do. -/
inductive Owner : Marker → Type
  | drop {state : Marker} : Owner state
  | unlock (key : Text) (ok : Owner .unlocked) (err : Owner .locked) : Owner .locked
  | «open» (rest : Owner .unlocked) : Owner .unlocked
  | lock (rest : Owner .locked) : Owner .unlocked

/-- What happens to a door. -/
inductive DoorEvent
  | tried (key : Text)
  | printed (text : Text)
  | locked
  deriving DecidableEq

/-- The code runs. -/
def Owner.run : {state : Marker} → Owner state → Door state → List DoorEvent
  | _, .drop, _ => []
  | _, .unlock key ok err, d =>
    .tried key :: match d.unlock key with
      | .ok d => ok.run d
      | .error d => err.run d
  | _, .open rest, d => .printed d.open :: rest.run d
  | _, .lock rest, d => .locked :: rest.run d.lock

/-- What an event makes of a door's state. -/
def stateAfter (state : Marker) : DoorEvent → Marker
  | .tried key => if key = Door.KEY then .unlocked else state
  | .printed _ => state
  | .locked => .locked

theorem Owner.run_open {state : Marker} (code : Owner state) {d : Door state}
    (hkey : d.key = Door.KEY) {before after : List DoorEvent} {text : Text}
    (h : code.run d = before ++ .printed text :: after) :
    before.foldl stateAfter state = .unlocked := by
  induction code generalizing before with
  | drop =>
    rw [run] at h
    simp at h
  | unlock key ok err ihok iherr =>
    rw [run, Door.unlock, hkey] at h
    cases before with
    | nil => simp at h
    | cons e before =>
      obtain ⟨rfl, hrest⟩ := List.cons.inj h
      rw [List.foldl_cons, stateAfter]
      by_cases hk : key = Door.KEY
      · rw [if_pos hk] at hrest ⊢
        exact ihok rfl hrest
      · rw [if_neg hk] at hrest ⊢
        exact iherr hkey hrest
  | «open» rest ih =>
    rw [run] at h
    cases before with
    | nil => rfl
    | cons e before =>
      obtain ⟨rfl, hrest⟩ := List.cons.inj h
      show before.foldl stateAfter .unlocked = .unlocked
      exact ih hkey hrest
  | lock rest ih =>
    rw [run] at h
    cases before with
    | nil => simp at h
    | cons e before =>
      obtain ⟨rfl, hrest⟩ := List.cons.inj h
      show before.foldl stateAfter .locked = .unlocked
      exact ih (show d.lock.key = Door.KEY from hkey) hrest

/-- **A door that creaks was unlocked**: whatever code owns a new door, it opens only after the key
was tried, and not after it was locked again. -/
theorem opened_after_key (code : Owner .locked) {before after : List DoorEvent} {text : Text}
    (h : code.run .new = before ++ .printed text :: after) :
    before.foldl stateAfter .locked = .unlocked :=
  code.run_open rfl h

end RustFundamentals.Fsm
