import Mathlib.Data.List.Basic

/-!
# Runs of a deterministic system

A system takes steps one after the other, each with an observable outcome. `Along P` says
that every step of a run is taken where `P` allows it; what `P`-steps preserve holds at the
end of every such run, and so, every prefix being one, in every state it passes.
-/

namespace Foundation

section Runs

variable {σ τ ο : Type}

/-- The state after a run. -/
def runFrom (exec : σ → τ → ο × σ) (s : σ) (steps : List τ) : σ :=
  steps.foldl (fun s t => (exec s t).2) s

/-- Every step of the run is taken in a state where `P` holds of it. -/
def Along (exec : σ → τ → ο × σ) (P : σ → τ → Prop) : σ → List τ → Prop
  | _, [] => True
  | s, t :: ts => P s t ∧ Along exec P (exec s t).2 ts

instance Along.decidable (exec : σ → τ → ο × σ) (P : σ → τ → Prop)
    [∀ s t, Decidable (P s t)] : ∀ s ts, Decidable (Along exec P s ts)
  | _, [] => isTrue trivial
  | s, t :: ts =>
    have := Along.decidable exec P (exec s t).2 ts
    inferInstanceAs (Decidable (P s t ∧ Along exec P (exec s t).2 ts))

variable {exec : σ → τ → ο × σ} {P Q : σ → τ → Prop}

@[simp] theorem runFrom_nil (s : σ) : runFrom exec s [] = s := rfl

@[simp] theorem runFrom_cons (s : σ) (t : τ) (ts : List τ) :
    runFrom exec s (t :: ts) = runFrom exec (exec s t).2 ts := rfl

theorem runFrom_append (s : σ) (ts ts' : List τ) :
    runFrom exec s (ts ++ ts') = runFrom exec (runFrom exec s ts) ts' := by
  simp [runFrom]

/-- **Invariants of runs**: what the allowed steps preserve holds at the end. -/
theorem runFrom_invariant {Inv : σ → Prop} (hstep : ∀ s t, Inv s → P s t → Inv (exec s t).2)
    {s : σ} (hs : Inv s) {ts : List τ} (ha : Along exec P s ts) : Inv (runFrom exec s ts) := by
  induction ts generalizing s with
  | nil => exact hs
  | cons t ts ih => exact ih (hstep s t hs ha.1) ha.2

theorem Along.append {s : σ} {ts ts' : List τ} :
    Along exec P s (ts ++ ts') ↔ Along exec P s ts ∧ Along exec P (runFrom exec s ts) ts' := by
  induction ts generalizing s with
  | nil => simp [Along]
  | cons t ts ih => simp [Along, ih, and_assoc]

/-- Two conditions that agree in the states of an invariant, and keep it, allow the same runs. -/
theorem Along.iff_of_invariant (Inv : σ → Prop) (hiff : ∀ s t, Inv s → (P s t ↔ Q s t))
    (hstep : ∀ s t, Inv s → Q s t → Inv (exec s t).2) {s : σ} (hs : Inv s) (ts : List τ) :
    Along exec P s ts ↔ Along exec Q s ts := by
  induction ts generalizing s with
  | nil => exact Iff.rfl
  | cons t ts ih =>
    rw [Along, Along, hiff s t hs]
    exact and_congr_right fun hq => ih (hstep s t hs hq)

/-- What the steps of a run are in the states of an invariant, they are all along. -/
theorem Along.imp_of_invariant (Inv : σ → Prop) (himp : ∀ s t, Inv s → P s t → Q s t)
    (hstep : ∀ s t, Inv s → P s t → Inv (exec s t).2) {s : σ} (hs : Inv s) {ts : List τ}
    (h : Along exec P s ts) : Along exec Q s ts := by
  induction ts generalizing s with
  | nil => trivial
  | cons t ts ih => exact ⟨himp s t hs h.1, ih (hstep s t hs h.1) h.2⟩

/-- The steps of a run, each with its outcome. -/
def outcomes (exec : σ → τ → ο × σ) : σ → List τ → List (τ × ο)
  | _, [] => []
  | s, t :: ts => (t, (exec s t).1) :: outcomes exec (exec s t).2 ts

theorem outcomes_concat (s : σ) (ts : List τ) (t : τ) :
    outcomes exec s (ts ++ [t]) = outcomes exec s ts ++ [(t, (exec (runFrom exec s ts) t).1)] := by
  induction ts generalizing s with
  | nil => rfl
  | cons u ts ih =>
    rw [List.cons_append, outcomes, ih]
    rfl

/-- The steps, each with those before it. -/
def withPast : List τ → List (List τ × τ)
  | [] => []
  | t :: ts => ([], t) :: (withPast ts).map fun e => (t :: e.1, e.2)

@[simp] theorem withPast_nil : withPast ([] : List τ) = [] := rfl

@[simp] theorem withPast_concat (ts : List τ) (t : τ) :
    withPast (ts ++ [t]) = withPast ts ++ [(ts, t)] := by
  induction ts with
  | nil => rfl
  | cons u ts ih =>
    rw [List.cons_append, withPast, ih, List.map_append]
    rfl

end Runs

section Simulation

variable {σ τ ο α : Type} {exec : σ → τ → ο × σ} {step : α → τ → ο → α → Prop}

/-- A system that may have a choice can take these steps with these outcomes. -/
inductive Takes (step : α → τ → ο → α → Prop) : α → List (τ × ο) → Prop
  | nil {a} : Takes step a []
  | cons {a t o a' log} : step a t o a' → Takes step a' log → Takes step a ((t, o) :: log)

/-- **Simulation.** What holds between the two states may depend on the steps still to come. -/
theorem takes_of_simulation {R : List τ → σ → α → Prop}
    (hstep : ∀ t ts s a, R (t :: ts) s a →
      ∃ a', step a t (exec s t).1 a' ∧ R ts (exec s t).2 a')
    {ts : List τ} {s : σ} {a : α} (h : R ts s a) : Takes step a (outcomes exec s ts) := by
  induction ts generalizing s a with
  | nil => exact .nil
  | cons t ts ih =>
    obtain ⟨a', htake, hrest⟩ := hstep t ts s a h
    exact .cons htake (ih hrest)

end Simulation

end Foundation
