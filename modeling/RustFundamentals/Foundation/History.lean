import Mathlib.Data.List.Basic
import Mathlib.Logic.Function.Basic

/-!
# Histories of acknowledged writes

A durable map may lose a write only while it is unacknowledged. `Explains h m`: the map `m`
is what the writes of `h` leave, in order, some unacknowledged ones left out. `Allowed h k v`
says the same of one key, as a client would: `v` is the effect of a write of `k` that no
acknowledged write of `k` follows.
-/

namespace Foundation

section History

variable {κ ν : Type}

/-- A write of `key` (a deletion if `value` is `none`), and whether the client was told it
succeeded. -/
structure Entry (κ ν : Type) where
  key : κ
  value : Option ν
  acked : Bool
  deriving DecidableEq, Repr

/-- What a client that saw `h` may read at `k`. -/
def Allowed (h : List (Entry κ ν)) (k : κ) (v : Option ν) : Prop :=
  (∃ pre e post, h = pre ++ e :: post ∧ e.key = k ∧ e.value = v ∧
    ∀ x ∈ post, x.key = k → x.acked = false) ∨
  (v = none ∧ ∀ x ∈ h, x.key = k → x.acked = false)

/-- `m` is the outcome of `h`, some unacknowledged writes left out. -/
inductive Explains [DecidableEq κ] : List (Entry κ ν) → (κ → Option ν) → Prop
  | nil : Explains [] fun _ => none
  | done {h m} (hm : Explains h m) (e : Entry κ ν) :
      Explains (h ++ [e]) (Function.update m e.key e.value)
  | lost {h m} (hm : Explains h m) {e : Entry κ ν} (he : e.acked = false) : Explains (h ++ [e]) m

/-- Later writes of other keys, and unacknowledged ones, take nothing away. -/
theorem Allowed.snoc {h : List (Entry κ ν)} {k : κ} {v : Option ν} (ha : Allowed h k v)
    {e : Entry κ ν} (he : e.key = k → e.acked = false) : Allowed (h ++ [e]) k v := by
  rcases ha with ⟨pre, x, post, rfl, hk, hv, hpost⟩ | ⟨hv, hall⟩
  · refine .inl ⟨pre, x, post ++ [e], by simp, hk, hv, ?_⟩
    intro y hy hyk
    rcases List.mem_append.mp hy with hy | hy
    · exact hpost y hy hyk
    · rw [List.mem_singleton.mp hy] at hyk ⊢
      exact he hyk
  · refine .inr ⟨hv, ?_⟩
    intro y hy hyk
    rcases List.mem_append.mp hy with hy | hy
    · exact hall y hy hyk
    · rw [List.mem_singleton.mp hy] at hyk ⊢
      exact he hyk

/-- **What an explained map shows is allowed.** -/
theorem Explains.allowed [DecidableEq κ] {h : List (Entry κ ν)} {m : κ → Option ν}
    (he : Explains h m) (k : κ) : Allowed h k (m k) := by
  induction he with
  | nil => exact .inr ⟨rfl, by simp⟩
  | done _ e ih =>
    by_cases hk : k = e.key
    · subst hk
      rw [Function.update_self]
      exact .inl ⟨_, e, [], rfl, rfl, rfl, by simp⟩
    · rw [Function.update_of_ne hk]
      exact ih.snoc fun heq => absurd heq.symm hk
  | lost _ he ih => exact ih.snoc fun _ => he

/-- After an acknowledged write of `k` that nothing follows, only its effect is allowed. -/
theorem Allowed.of_last {h : List (Entry κ ν)} {e : Entry κ ν} (he : e.acked = true) {v : Option ν}
    (ha : Allowed (h ++ [e]) e.key v) : v = e.value := by
  rcases ha with ⟨pre, x, post, heq, _, hv, hpost⟩ | ⟨_, hall⟩
  · rcases List.eq_nil_or_concat post with rfl | ⟨post', y, rfl⟩
    · have := List.append_inj_right' heq (by simp)
      rw [List.singleton_inj.mp this, hv]
    · have hy : y = e := by
        have hlast := congrArg List.getLast? heq
        rw [List.concat_eq_append, ← List.cons_append, ← List.append_assoc, List.getLast?_concat,
          List.getLast?_concat] at hlast
        exact (Option.some.inj hlast).symm
      have := hpost e (by simp [hy]) rfl
      rw [he] at this
      exact absurd this (by simp)
  · have := hall e (by simp) rfl
    rw [he] at this
    exact absurd this (by simp)

/-- After an acknowledged write of a value, its key is not allowed to be absent. -/
theorem not_allowed_none {h : List (Entry κ ν)} {e : Entry κ ν} (he : e.acked = true)
    (hv : e.value ≠ none) : ¬ Allowed (h ++ [e]) e.key none := by
  intro hallowed
  exact hv (Allowed.of_last he hallowed).symm

end History

end Foundation
