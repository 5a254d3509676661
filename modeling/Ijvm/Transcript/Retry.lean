import Ijvm.Transcript.Contract

/-!
# Requests that are repeated after a recovery

`retry` repeats a request as long as the recovery before it has achieved something. No
counter bounds the repetitions. If a recovery leaves nothing to do for the next one, there
is one repetition at most: `retry_cases` splits every run into a first attempt and, where
that one fails, a last one.
-/

namespace Transcript

namespace Program

variable {ρ σ ω ε α : Type}

/-- One attempt. If it fails, the recovery runs and the program stops. -/
def lastAttempt (attempt : Program ρ σ ω ε (Option α)) (recover : Program ρ σ ω ε Nat)
    (failure : ε) : Program ρ σ ω ε α := do
  match ← attempt with
  | some a => return a
  | none =>
      let _ ← recover
      stop failure

/-- Attempts, each after a recovery with a result other than 0. -/
def retry (attempt : Program ρ σ ω ε (Option α)) (recover : Program ρ σ ω ε Nat)
    (failure exhausted : ε) : Nat → Program ρ σ ω ε α
  | 0 => stop exhausted
  | fuel + 1 => do
      match ← attempt with
      | some a => return a
      | none =>
          if (← recover) ≠ 0 then retry attempt recover failure exhausted fuel else stop failure

/-- After a recovery, the next one has nothing to do, whatever a failed attempt does between
the two. -/
structure Settling (r : ρ) (attempt : Program ρ σ ω ε (Option α))
    (recover : Program ρ σ ω ε Nat) (settled : σ → Prop) : Prop where
  settles : ∀ {s t n es}, recover.run r s = .done n t es → settled t
  failing : ∀ {s t es}, settled s → attempt.run r s = .done none t es → settled t
  idle : ∀ {s t n es}, settled s → recover.run r s = .done n t es → n = 0

variable {r : ρ} {attempt : Program ρ σ ω ε (Option α)} {recover : Program ρ σ ω ε Nat}
variable {failure exhausted : ε} {settled : σ → Prop} {s : σ} {fuel : Nat}

/-- A settled state allows no repetition. -/
theorem retry_of_settled (h : Settling r attempt recover settled) (hs : settled s) :
    (retry attempt recover failure exhausted (fuel + 1)).run r s =
      (lastAttempt attempt recover failure).run r s := by
  simp only [retry, lastAttempt, run_bind]
  cases attempted : attempt.run r s with
  | stopped e t es => rfl
  | done result t es =>
      cases result with
      | some a => rfl
      | none =>
          have ht := h.failing hs attempted
          simp only [Outcome.andThen_done, run_bind]
          cases recovered : recover.run r t with
          | stopped e u fs => rfl
          | done n u fs =>
              rw [h.idle ht recovered]
              simp

/-- Either the first attempt is the last one, or the attempt after the first recovery is. -/
theorem retry_cases (fuel : Nat) (failure exhausted : ε) (s : σ)
    (h : Settling r attempt recover settled) :
    (retry attempt recover failure exhausted (fuel + 2)).run r s =
        (lastAttempt attempt recover failure).run r s ∨
      ∃ t u n es fs, attempt.run r s = .done none t es ∧ recover.run r t = .done n u fs ∧ n ≠ 0 ∧
        (retry attempt recover failure exhausted (fuel + 2)).run r s =
          ((lastAttempt attempt recover failure).run r u).prepend (es ++ fs) := by
  rw [retry, lastAttempt]
  simp only [run_bind]
  cases attempted : attempt.run r s with
  | stopped e t es => exact Or.inl rfl
  | done result t es =>
      cases result with
      | some a => exact Or.inl rfl
      | none =>
          simp only [Outcome.andThen_done, run_bind]
          cases recovered : recover.run r t with
          | stopped e u fs => exact Or.inl rfl
          | done n u fs =>
              by_cases idle : n = 0
              · refine Or.inl ?_
                rw [idle]
                simp
              · refine Or.inr ⟨t, u, n, es, fs, rfl, recovered, idle, ?_⟩
                rw [Outcome.andThen_done, if_pos idle, retry_of_settled h (h.settles recovered),
                  Outcome.prepend_prepend, lastAttempt, run_bind]

end Program

end Transcript
