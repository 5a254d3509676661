import Ijvm.Transcript.Contract

/-!
# Partial correctness in fixed surroundings

`Leads` is the triple of a program that runs in one known environment: what it reads there can
be named in the postcondition. A stop satisfies every triple. What a program ensures in all
environments, `of_ensures` brings to one of them.
-/

namespace Transcript.Program

variable {ρ σ ω ε α β : Type} {r : ρ} {P : σ → Prop} {Q : α → σ → Prop} {R : β → σ → Prop}

/-- From a state with `P`, the program returns in a state with `Q`, if it returns. -/
def Leads (r : ρ) (P : σ → Prop) (m : Program ρ σ ω ε α) (Q : α → σ → Prop) : Prop :=
  ∀ s, P s → (m.run r s).Returns Q

/-- A triple about all environments whose events do not matter. -/
theorem Leads.of_ensures {m : Program ρ σ ω ε α}
    (h : Ensures (fun _ => True) P (fun _ => True) m Q) : Leads r P m Q :=
  fun s start => (h r s start fun _ _ => trivial).1

protected theorem Leads.pure {a : α} (h : ∀ s, P s → Q a s) :
    Leads r P (pure a : Program ρ σ ω ε α) Q :=
  fun s start => Outcome.returns_done.mpr (h s start)

protected theorem Leads.stop (e : ε) : Leads r P (stop e : Program ρ σ ω ε α) Q :=
  fun _ _ => Outcome.returns_stopped

protected theorem Leads.bind {m : Program ρ σ ω ε α} {f : α → Program ρ σ ω ε β}
    (first : Leads r P m Q) (next : ∀ a, Leads r (Q a) (f a) R) : Leads r P (m >>= f) R := by
  intro s start
  rw [run_bind]
  exact (first s start).andThen fun a t middle => next a t middle

/-- The continuation of a question is about these surroundings. -/
protected theorem Leads.ask_bind {f : ρ → Program ρ σ ω ε β} (next : Leads r P (f r) R) :
    Leads r P (ask >>= f) R := by
  intro s start
  rw [run_bind, run_ask, Outcome.andThen_done, Outcome.prepend_nil]
  exact next s start

/-- The continuation of a read starts in the state that was read. -/
protected theorem Leads.get_bind {f : σ → Program ρ σ ω ε β}
    (next : ∀ s, P s → Leads r (fun t => t = s) (f s) R) : Leads r P (get >>= f) R := by
  intro s start
  rw [run_bind, run_get, Outcome.andThen_done, Outcome.prepend_nil]
  exact next s start s rfl

protected theorem Leads.modify {f : σ → σ} {Q : PUnit → σ → Prop} (h : ∀ s, P s → Q ⟨⟩ (f s)) :
    Leads r P (modify f : Program ρ σ ω ε PUnit) Q :=
  fun s start => Outcome.returns_done.mpr (h s start)

protected theorem Leads.ite {c : Prop} [Decidable c] {yes no : Program ρ σ ω ε α}
    (ifTrue : c → Leads r P yes Q) (ifFalse : ¬ c → Leads r P no Q) :
    Leads r P (if c then yes else no) Q := by
  split
  · rename_i holds
    exact ifTrue holds
  · rename_i fails
    exact ifFalse fails

/-- Consequence. -/
theorem Leads.mono {P' : σ → Prop} {Q' : α → σ → Prop} {m : Program ρ σ ω ε α}
    (h : Leads r P m Q) (pre : ∀ s, P' s → P s) (post : ∀ a s, Q a s → Q' a s) :
    Leads r P' m Q' :=
  fun s start => (h s (pre s start)).mono post

end Transcript.Program
