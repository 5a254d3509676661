import Mathlib.Data.List.Basic

/-!
# Runs of a machine

A machine is a partial function `next` from a state to the one after it. `advance next n` makes
`n` steps, and `visited next n` lists the states in which they are made. Runs compose, and if
their length is bounded, one of them is the last.
-/

namespace Transitions

variable {σ β : Type} {next : σ → Option σ} {n m : Nat} {s t u : σ}

/-- The state after `n` steps, if the machine makes that many. -/
def advance (next : σ → Option σ) : Nat → σ → Option σ
  | 0, s => some s
  | n + 1, s => (next s).bind (advance next n)

/-- The states in which the first `n` steps are made. -/
def visited (next : σ → Option σ) : Nat → σ → List σ
  | 0, _ => []
  | n + 1, s => s :: (next s).elim [] (visited next n)

@[simp] theorem advance_zero (s : σ) : advance next 0 s = some s := rfl

@[simp] theorem visited_zero (s : σ) : visited next 0 s = [] := rfl

theorem advance_succ_of (first : next s = some t) : advance next (n + 1) s = advance next n t := by
  rw [advance, first, Option.bind_some]

theorem visited_succ_of (first : next s = some t) :
    visited next (n + 1) s = s :: visited next n t := by
  rw [visited, first, Option.elim_some]

theorem advance_succ_eq_some :
    advance next (n + 1) s = some u ↔ ∃ t, next s = some t ∧ advance next n t = some u := by
  rw [advance, Option.bind_eq_some_iff]

/-- Runs compose. -/
theorem advance_add (m n : Nat) (s : σ) :
    advance next (m + n) s = (advance next m s).bind (advance next n) := by
  induction m generalizing s with
  | zero => rw [Nat.zero_add, advance_zero, Option.bind_some]
  | succ m ih =>
      rw [Nat.succ_add, advance, advance, Option.bind_assoc]
      congr 1
      funext t
      exact ih t

/-- The last step of a run. -/
theorem advance_succ_last (n : Nat) (s : σ) :
    advance next (n + 1) s = (advance next n s).bind next := by
  rw [advance_add n 1 s]
  congr 1
  funext t
  exact Option.bind_fun_some (next t)

/-- If no run from `s` is longer than `k`, one of them cannot go on. -/
theorem exists_last {k : Nat} (bound : ∀ n t, advance next n s = some t → n ≤ k) :
    ∃ n ≤ k, ∃ t, advance next n s = some t ∧ next t = none := by
  by_contra absent
  have longer (n : Nat) : ∃ t, advance next n s = some t := by
    induction n with
    | zero => exact ⟨s, rfl⟩
    | succ n ih =>
        obtain ⟨t, run⟩ := ih
        cases last : next t with
        | none => exact absurd ⟨n, bound n t run, t, run, last⟩ absent
        | some u => exact ⟨u, by rw [advance_succ_last, run, Option.bind_some, last]⟩
  obtain ⟨t, run⟩ := longer (k + 1)
  exact absurd (bound (k + 1) t run) (Nat.not_succ_le_self k)

end Transitions
