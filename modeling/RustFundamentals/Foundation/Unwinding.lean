import RustFundamentals.Foundation.Runs

/-!
# What an observer can tell

Some of the steps of a system are an observer's own, and some it can see. When from states
that look alike its own steps are answered alike, the steps it sees lead to states that look
alike again, and the others change nothing it sees, its answers over a whole run are those of
the run without the steps it does not see. Whether states look alike may depend on the steps
still to come.
-/

namespace Foundation

section Unwinding

variable {σ τ ο : Type}

/-- The answers to the steps that are `mine`, over a run. -/
def answersTo (exec : σ → τ → ο × σ) (mine : τ → Bool) : σ → List τ → List ο
  | _, [] => []
  | s, t :: ts =>
    (if mine t then [(exec s t).1] else []) ++ answersTo exec mine (exec s t).2 ts

/-- `R ts s r`: the states `s` and `r` look alike to the observer, with the steps `ts` to come
from `s`. -/
structure Unwinds (exec : σ → τ → ο × σ) (R : List τ → σ → σ → Prop) (seen mine : τ → Bool) :
    Prop where
  mine_seen : ∀ t, mine t = true → seen t = true
  answer : ∀ t ts s r, R (t :: ts) s r → mine t = true → (exec s t).1 = (exec r t).1
  step : ∀ t ts s r, R (t :: ts) s r → seen t = true → R ts (exec s t).2 (exec r t).2
  hidden : ∀ t ts s r, R (t :: ts) s r → seen t = false → R ts (exec s t).2 r

/-- **The observer cannot tell** whether the steps it does not see were taken. -/
theorem Unwinds.answers_eq {exec : σ → τ → ο × σ} {R : List τ → σ → σ → Prop}
    {seen mine : τ → Bool} (h : Unwinds exec R seen mine) {ts : List τ} {s r : σ}
    (hr : R ts s r) : answersTo exec mine s ts = answersTo exec mine r (ts.filter seen) := by
  induction ts generalizing s r with
  | nil => rfl
  | cons t ts ih =>
    cases hseen : seen t with
    | true =>
      have hnext := ih (h.step t ts s r hr hseen)
      rw [List.filter_cons_of_pos hseen, answersTo, answersTo, hnext]
      cases hmine : mine t with
      | false => rfl
      | true => rw [h.answer t ts s r hr hmine]
    | false =>
      have hmine : mine t ≠ true := by
        intro hmine
        have := h.mine_seen t hmine
        rw [hseen] at this
        cases this
      rw [List.filter_cons_of_neg (by rw [hseen]; simp), answersTo, if_neg hmine, List.nil_append]
      exact ih (h.hidden t ts s r hr hseen)

end Unwinding

end Foundation
