import Mathlib.Init

/-!
# Programs that may stop short

Programs over a state that return a value, return an error, die or panic. `Post` is the
weakest precondition of this monad.
-/

namespace Foundation.Fs

/-- How a program stops short of its result: an error value it returns, the death of the
process, or a panic. -/
inductive Stop (ε : Type)
  | err (e : ε)
  | died
  | panicked
  deriving DecidableEq, Repr

/-- `Ok` or `Err`: the process goes on. -/
def Answers {ε α : Type} (r : Except (Stop ε) α) : Prop :=
  (∃ a, r = .ok a) ∨ ∃ e, r = .error (.err e)

theorem not_answers_panicked {ε α : Type} : ¬ Answers (.error .panicked : Except (Stop ε) α) := by
  intro h
  rcases h with ⟨a, ha⟩ | ⟨e, he⟩
  · cases ha
  · cases he

/-- Programs over a state `σ` that may stop short. The state survives an error, as the
fields behind `&mut self` do. -/
abbrev Io (σ ε α : Type) := ExceptT (Stop ε) (StateM σ) α

section Post

variable {σ ε δ α β : Type}

/-- `x`, started in `s`, ends with an outcome and a state in `Q`. -/
def Post (x : Io σ ε α) (s : σ) (Q : Except (Stop ε) α → σ → Prop) : Prop :=
  Q (x.run s).1 (x.run s).2

@[simp] theorem Post_pure (a : α) (s : σ) (Q : Except (Stop ε) α → σ → Prop) :
    Post (pure a) s Q ↔ Q (.ok a) s := Iff.rfl

/-- Running one program after the other. -/
theorem run_bind (x : Io σ ε α) (f : α → Io σ ε β) (s : σ) :
    (x >>= f).run s =
      match x.run s with
      | (.ok a, s') => (f a).run s'
      | (.error e, s') => (.error e, s') := by
  simp only [ExceptT.run, bind, ExceptT.bind, ExceptT.mk, StateT.bind, ExceptT.bindCont]
  rcases h : x s with ⟨r, s'⟩
  cases r <;> rfl

/-- A program that has come to its end has come through its first part. -/
theorem run_bind_ok {x : Io σ ε α} {f : α → Io σ ε β} {s s' : σ} {b : β}
    (h : (x >>= f).run s = (.ok b, s')) :
    ∃ a s₁, x.run s = (.ok a, s₁) ∧ (f a).run s₁ = (.ok b, s') := by
  rw [run_bind] at h
  rcases hx : x.run s with ⟨stop | a, s₁⟩
  · rw [hx] at h
    cases h
  · rw [hx] at h
    exact ⟨a, s₁, rfl, h⟩

@[simp] theorem run_get_bind (f : σ → Io σ ε β) (s : σ) : (get >>= f).run s = (f s).run s := rfl

@[simp] theorem run_set_bind (t : σ) (f : PUnit → Io σ ε β) (s : σ) :
    (set t >>= f).run s = (f ⟨⟩).run t := rfl

@[simp] theorem run_modify_bind (g : σ → σ) (f : PUnit → Io σ ε β) (s : σ) :
    (modify g >>= f).run s = (f ⟨⟩).run (g s) := rfl

theorem ofExcept_ok_bind (a : α) (f : α → Io σ ε β) :
    ((ofExcept (.ok a : Except (Stop ε) α) : Io σ ε α) >>= f) = f a := rfl

@[simp] theorem run_ofExcept_ok_bind (a : α) (f : α → Io σ ε β) (s : σ) :
    ((ofExcept (.ok a : Except (Stop ε) α) : Io σ ε α) >>= f).run s = (f a).run s := rfl

@[simp] theorem run_ofExcept_error_bind (stop : Stop ε) (f : α → Io σ ε β) (s : σ) :
    ((ofExcept (.error stop : Except (Stop ε) α) : Io σ ε α) >>= f).run s = (.error stop, s) := rfl

theorem Post_bind (x : Io σ ε α) (f : α → Io σ ε β) (s : σ)
    (Q : Except (Stop ε) β → σ → Prop) :
    Post (x >>= f) s Q ↔ Post x s fun r s' =>
      match r with
      | .ok a => Post (f a) s' Q
      | .error e => Q (.error e) s' := by
  simp only [Post, run_bind]
  rcases h : x.run s with ⟨r, s'⟩
  cases r <;> rfl

/-- Two steps of a longer computation, taken together. -/
theorem Post_of_bind {x : Io σ ε α} {f : α → Io σ ε β} {s : σ}
    {Q : Except (Stop ε) β → σ → Prop} (h : Post (x >>= f) s Q) :
    Post x s fun r s' =>
      match r with
      | .ok a => Post (f a) s' Q
      | .error e => Q (.error e) s' :=
  (Post_bind x f s Q).mp h

@[simp] theorem Post_throw (e : Stop ε) (s : σ) (Q : Except (Stop ε) α → σ → Prop) :
    Post (throw e) s Q ↔ Q (.error e) s := Iff.rfl

@[simp] theorem Post_get (s : σ) (Q : Except (Stop ε) σ → σ → Prop) :
    Post get s Q ↔ Q (.ok s) s := Iff.rfl

@[simp] theorem Post_set (s t : σ) (Q : Except (Stop ε) PUnit → σ → Prop) :
    Post (set t) s Q ↔ Q (.ok ⟨⟩) t := Iff.rfl

@[simp] theorem Post_modify (f : σ → σ) (s : σ) (Q : Except (Stop ε) PUnit → σ → Prop) :
    Post (modify f) s Q ↔ Q (.ok ⟨⟩) (f s) := Iff.rfl

/-- Both branches. -/
theorem Post_ite {c : Prop} [Decidable c] {x y : Io σ ε α} {s : σ}
    {Q : Except (Stop ε) α → σ → Prop} (hx : c → Post x s Q) (hy : ¬ c → Post y s Q) :
    Post (if c then x else y) s Q := by
  by_cases h : c
  · rw [if_pos h]
    exact hx h
  · rw [if_neg h]
    exact hy h

/-- Consequence. -/
theorem Post.mono {x : Io σ ε α} {s : σ} {P Q : Except (Stop ε) α → σ → Prop}
    (h : Post x s P) (hPQ : ∀ r s', P r s' → Q r s') : Post x s Q := hPQ _ _ h

/-- Whatever the program does. -/
theorem Post_of_forall {x : Io σ ε α} {s : σ} {Q : Except (Stop ε) α → σ → Prop}
    (h : ∀ r s', Q r s') : Post x s Q := h _ _

/-- A program whose run is known. -/
theorem Post_of_run {x : Io σ ε α} {s s' : σ} {r : Except (Stop ε) α}
    {Q : Except (Stop ε) α → σ → Prop} (h : x.run s = (r, s')) (hQ : Q r s') : Post x s Q := by
  unfold Post
  rw [h]
  exact hQ

/-- An optional value, `none` being a panic of the program. -/
def orPanic (v : Option α) : Io σ ε α :=
  match v with
  | some a => pure a
  | none => throw .panicked

@[simp] theorem Post_orPanic_some (a : α) (s : σ) (Q : Except (Stop ε) α → σ → Prop) :
    Post (orPanic (some a)) s Q ↔ Q (.ok a) s := Iff.rfl

@[simp] theorem Post_orPanic_none (s : σ) (Q : Except (Stop ε) α → σ → Prop) :
    Post (orPanic (none : Option α)) s Q ↔ Q (.error .panicked) s := Iff.rfl

@[simp] theorem Post_ofExcept (v : Except (Stop ε) α) (s : σ)
    (Q : Except (Stop ε) α → σ → Prop) : Post (ofExcept v) s Q ↔ Q v s := by
  cases v <;> exact Iff.rfl

/-- `map_err`: another error value in place of the one returned. -/
def mapErr (f : ε → ε) (x : Io σ ε α) : Io σ ε α := fun s =>
  match x.run s with
  | (.error (.err e), s') => (.error (.err (f e)), s')
  | other => other

/-- `r` with its error value, if any, replaced. -/
def mapStop (f : ε → ε) : Except (Stop ε) α → Except (Stop ε) α
  | .error (.err e) => .error (.err (f e))
  | r => r

@[simp] theorem Post_mapErr (f : ε → ε) (x : Io σ ε α) (s : σ)
    (Q : Except (Stop ε) α → σ → Prop) :
    Post (mapErr f x) s Q ↔ Post x s fun r s' => Q (mapStop f r) s' := by
  simp only [Post, mapErr, ExceptT.run]
  rcases h : x s with ⟨r, s'⟩
  rcases r with (e | _ | _) | a <;> rfl

/-- The result of `x` as a value, an error included: what a `match` on a `Result` looks at. -/
def attempt (x : Io σ ε α) : Io σ δ (Except ε α) := fun s =>
  match x.run s with
  | (.ok a, s') => (.ok (.ok a), s')
  | (.error (.err e), s') => (.ok (.error e), s')
  | (.error .died, s') => (.error .died, s')
  | (.error .panicked, s') => (.error .panicked, s')

/-- `r` with its error, if it returned one, made a value. -/
def attempted : Except (Stop ε) α → Except (Stop δ) (Except ε α)
  | .ok a => .ok (.ok a)
  | .error (.err e) => .ok (.error e)
  | .error .died => .error .died
  | .error .panicked => .error .panicked

theorem run_attempt (x : Io σ ε α) (s : σ) :
    (attempt x : Io σ δ (Except ε α)).run s = (attempted (x.run s).1, (x.run s).2) := by
  simp only [attempt, ExceptT.run]
  rcases h : x s with ⟨r, s'⟩
  rcases r with (e | _ | _) | a <;> rfl

@[simp] theorem Post_attempt (x : Io σ ε α) (s : σ)
    (Q : Except (Stop δ) (Except ε α) → σ → Prop) :
    Post (attempt x) s Q ↔ Post x s fun r s' => Q (attempted r) s' := by
  simp only [Post, run_attempt]

end Post

/-! ## Invariants -/

section Keeps

variable {σ ε δ α β : Type} {I : σ → Prop} {P : α → Prop} {E : ε → Prop}

/-- `x` keeps the invariant `I`, its result is in `P` and its error, if any, in `E`. -/
def Keeps (I : σ → Prop) (x : Io σ ε α) (P : α → Prop) (E : ε → Prop) : Prop :=
  ∀ s, I s → Post x s fun r s' => I s' ∧
    match r with
    | .ok a => P a
    | .error (.err e) => E e
    | .error _ => True

namespace Keeps

theorem pure {a : α} (h : P a) : Keeps I (pure a : Io σ ε α) P E := fun _ hs => ⟨hs, h⟩

theorem mono {P' : α → Prop} {E' : ε → Prop} {x : Io σ ε α} (h : Keeps I x P E)
    (hP : ∀ a, P a → P' a) (hE : ∀ e, E e → E' e) : Keeps I x P' E' := by
  intro s hs
  apply (h s hs).mono
  intro r s' ⟨hs', hr⟩
  rcases r with (e | _ | _) | a
  · exact ⟨hs', hE e hr⟩
  · exact ⟨hs', trivial⟩
  · exact ⟨hs', trivial⟩
  · exact ⟨hs', hP a hr⟩

theorem bind {R : β → Prop} {x : Io σ ε α} {f : α → Io σ ε β} (hx : Keeps I x P E)
    (hf : ∀ a, P a → Keeps I (f a) R E) : Keeps I (x >>= f) R E := by
  intro s hs
  rw [Post_bind]
  apply (hx s hs).mono
  intro r s' ⟨hs', hr⟩
  rcases r with (e | _ | _) | a
  · exact ⟨hs', hr⟩
  · exact ⟨hs', trivial⟩
  · exact ⟨hs', trivial⟩
  · exact hf a hr s' hs'

/-- An attempt returns what `x` returns, and no error of its own. -/
theorem attempt {D : δ → Prop} {x : Io σ ε α} (h : Keeps I x P E) :
    Keeps I (attempt x : Io σ δ (Except ε α))
      (fun r => match r with
        | .ok a => P a
        | .error e => E e) D := by
  intro s hs
  rw [Post_attempt]
  apply (h s hs).mono
  intro r s' ⟨hs', hr⟩
  rcases r with (e | _ | _) | a
  · exact ⟨hs', hr⟩
  · exact ⟨hs', trivial⟩
  · exact ⟨hs', trivial⟩
  · exact ⟨hs', hr⟩

end Keeps

end Keeps

/-! ## Simulation -/

section Sim

variable {σ τ ε α β : Type} {R : σ → τ → Prop}

/-- From related states, `x` and `y` end alike and in related states. -/
def Sim (R : σ → τ → Prop) (x : Io σ ε α) (y : Io τ ε α) : Prop :=
  ∀ s t, R s t → (x.run s).1 = (y.run t).1 ∧ R (x.run s).2 (y.run t).2

theorem Sim.pure (a : α) : Sim R (pure a : Io σ ε α) (pure a) := fun _ _ h => ⟨rfl, h⟩

/-- One program after the other. -/
theorem Sim.bind {x : Io σ ε α} {y : Io τ ε α} {f : α → Io σ ε β} {g : α → Io τ ε β}
    (hxy : Sim R x y) (hfg : ∀ a, Sim R (f a) (g a)) : Sim R (x >>= f) (y >>= g) := by
  intro s t h
  have hstep := hxy s t h
  rw [run_bind, run_bind]
  rcases hx : x.run s with ⟨r, s'⟩
  rcases hy : y.run t with ⟨r', t'⟩
  rw [hx, hy] at hstep
  obtain ⟨rfl, hR⟩ : r = r' ∧ R s' t' := hstep
  cases r with
  | error e => exact ⟨rfl, hR⟩
  | ok a => exact hfg a s' t' hR

end Sim

end Foundation.Fs
