import Ijvm.Transcript.Contract

/-!
# Programs that return

`Succeeds` is total correctness for one environment: started in a state with `P`, the program
does not stop early, and returns a value in a state with `Q`. It composes along the program
constructs.
-/

namespace Transcript.Program

variable {ρ σ ω ε α β : Type} {r : ρ} {P : σ → Prop} {Q : α → σ → Prop} {R : β → σ → Prop}

/-- From a state with `P`, the program returns, in a state with `Q`. -/
def Succeeds (r : ρ) (P : σ → Prop) (m : Program ρ σ ω ε α) (Q : α → σ → Prop) : Prop :=
  ∀ s, P s → (m.run r s).Satisfies (fun a t _ => Q a t) fun _ _ _ => False

protected theorem Succeeds.pure {a : α} (h : ∀ s, P s → Q a s) :
    Succeeds r P (pure a : Program ρ σ ω ε α) Q :=
  h

protected theorem Succeeds.modify {f : σ → σ} {Q : PUnit → σ → Prop}
    (h : ∀ s, P s → Q ⟨⟩ (f s)) : Succeeds r P (modify f : Program ρ σ ω ε PUnit) Q :=
  h

protected theorem Succeeds.bind {m : Program ρ σ ω ε α} {f : α → Program ρ σ ω ε β}
    (first : Succeeds r P m Q) (next : ∀ a, Succeeds r (Q a) (f a) R) :
    Succeeds r P (m >>= f) R := by
  intro s start
  rw [run_bind]
  exact (first s start).andThen fun a t _ middle => next a t middle

/-- A first part whose value is known. -/
theorem Succeeds.bind_value {m : Program ρ σ ω ε α} {f : α → Program ρ σ ω ε β} {v : α}
    {Q : σ → Prop} (first : Succeeds r P m fun a s => a = v ∧ Q s)
    (next : Succeeds r Q (f v) R) : Succeeds r P (m >>= f) R := by
  refine .bind first fun a s middle => ?_
  obtain ⟨rfl, middle⟩ := middle
  exact next s middle

protected theorem Succeeds.ask_bind {f : ρ → Program ρ σ ω ε β}
    (next : Succeeds r P (f r) R) : Succeeds r P (ask >>= f) R := by
  intro s start
  rw [run_bind, run_ask, Outcome.andThen_done, Outcome.prepend_nil]
  exact next s start

/-- The continuation of a read starts in the state that was read. -/
protected theorem Succeeds.get_bind {f : σ → Program ρ σ ω ε β}
    (next : ∀ s, P s → Succeeds r (fun t => t = s) (f s) R) : Succeeds r P (get >>= f) R := by
  intro s start
  rw [run_bind, run_get, Outcome.andThen_done, Outcome.prepend_nil]
  exact next s start s rfl

/-- Consequence. -/
theorem Succeeds.mono {P' : σ → Prop} {Q' : α → σ → Prop} {m : Program ρ σ ω ε α}
    (h : Succeeds r P m Q) (pre : ∀ s, P' s → P s) (post : ∀ a s, Q a s → Q' a s) :
    Succeeds r P' m Q' :=
  fun s start => (h s (pre s start)).mono (fun a t _ => post a t) fun _ _ _ absurd => absurd

protected theorem Succeeds.ite {c : Prop} [Decidable c] {yes no : Program ρ σ ω ε α}
    (ifTrue : c → Succeeds r P yes Q) (ifFalse : ¬ c → Succeeds r P no Q) :
    Succeeds r P (if c then yes else no) Q := by
  split
  · rename_i holds
    exact ifTrue holds
  · rename_i fails
    exact ifFalse fails

end Transcript.Program
