/-!
# Loops

A loop whose body breaks with a result, goes on from another state, or fails. `runLoop` runs it
for a number of rounds, and says so when that was not enough. The rule for it is
`runLoop_eq`: an invariant, a measure that each round makes smaller, and the result that the
loop is on its way to. A loop that always goes on never comes to one (`runLoop_eq_none`).

A recursion that is bounded by fuel does not depend on the bound (`fuel_irrelevant`).
-/

namespace Foundation

variable {σ ε α : Type}

/-- The loop for at most so many rounds; `none` is a loop that is still running. -/
def runLoop (body : σ → Except ε (α ⊕ σ)) : Nat → σ → Option (Except ε α)
  | 0, _ => none
  | fuel + 1, s =>
    match body s with
    | .error e => some (.error e)
    | .ok (.inl a) => some (.ok a)
    | .ok (.inr s') => runLoop body fuel s'

/-- From `s`, a round fails with the result, breaks with it, or comes closer to it. -/
def Approaches (body : σ → Except ε (α ⊕ σ)) (I : σ → Prop) (measure : σ → Nat)
    (result : σ → Except ε α) (s : σ) : Prop :=
  (∃ e, body s = .error e ∧ result s = .error e) ∨
    (∃ a, body s = .ok (.inl a) ∧ result s = .ok a) ∨
    ∃ s', body s = .ok (.inr s') ∧ I s' ∧ measure s' < measure s ∧ result s = result s'

/-- **The rule for loops.** -/
theorem runLoop_eq {body : σ → Except ε (α ⊕ σ)} {I : σ → Prop} {measure : σ → Nat}
    {result : σ → Except ε α} (h : ∀ s, I s → Approaches body I measure result s) {s : σ}
    (hs : I s) {fuel : Nat} (hfuel : measure s < fuel) :
    runLoop body fuel s = some (result s) := by
  induction fuel generalizing s with
  | zero => exact absurd hfuel (Nat.not_lt_zero _)
  | succ fuel ih =>
    rw [runLoop]
    rcases h s hs with ⟨e, hbody, hresult⟩ | ⟨a, hbody, hresult⟩ | ⟨s', hbody, hs', hless, hresult⟩
    · rw [hbody, hresult]
    · rw [hbody, hresult]
    · rw [hbody, hresult]
      exact ih hs' (by omega)

/-- **A loop that never ends**: where the invariant holds, a round goes on and keeps it. -/
theorem runLoop_eq_none {body : σ → Except ε (α ⊕ σ)} {I : σ → Prop}
    (h : ∀ s, I s → ∃ s', body s = .ok (.inr s') ∧ I s') {s : σ} (hs : I s) (fuel : Nat) :
    runLoop body fuel s = none := by
  induction fuel generalizing s with
  | zero => rfl
  | succ fuel ih =>
    obtain ⟨s', hbody, hs'⟩ := h s hs
    rw [runLoop, hbody]
    exact ih hs'

/-! ## Fuel -/

section Fuel

variable {β : Type} (loop : Nat → α → β) (size : α → Nat)

/-- **Enough fuel is enough**: where a round only asks for the loop at smaller arguments, two
bounds on the size of an argument come to the same. -/
theorem fuel_irrelevant (hzero : ∀ m n a, size a = 0 → loop m a = loop n a)
    (hround : ∀ m n a, (∀ b, size b < size a → loop m b = loop n b) → 0 < size a →
      loop (m + 1) a = loop (n + 1) a)
    {m n : Nat} {a : α} (hm : size a ≤ m) (hn : size a ≤ n) : loop m a = loop n a := by
  induction m generalizing n a with
  | zero => exact hzero 0 n a (Nat.le_zero.mp hm)
  | succ m ih =>
    cases n with
    | zero => exact hzero (m + 1) 0 a (Nat.le_zero.mp hn)
    | succ n =>
      rcases Nat.eq_zero_or_pos (size a) with hempty | hpos
      · exact hzero (m + 1) (n + 1) a hempty
      · exact hround m n a (fun b hb => ih (by omega) (by omega)) hpos

/-- For a loop that takes a round on the smallest arguments too. -/
theorem fuel_irrelevant_lt
    (hround : ∀ m n a, (∀ b, size b < size a → loop m b = loop n b) →
      loop (m + 1) a = loop (n + 1) a)
    {m n : Nat} {a : α} (hm : size a < m) (hn : size a < n) : loop m a = loop n a := by
  induction m generalizing n a with
  | zero => exact absurd hm (Nat.not_lt_zero _)
  | succ m ih =>
    cases n with
    | zero => exact absurd hn (Nat.not_lt_zero _)
    | succ n => exact hround m n a fun b hb => ih (by omega) (by omega)

end Fuel

end Foundation
