import Ijvm.Transcript.Contract
import Mathlib.Data.List.Forall2

/-!
# Two runs of one program

`Program.Agrees` is a triple about two runs of a program in one environment: started in
related states, either both return the same value, or both stop for the same reason, and
their states and their transcripts are related again. It composes along the program
constructs. A relation that leaves a component of the state out says that the program
never lets that component show; the rule for `get` asks that the continuation is the same
for related states.

`Respects` is the triple of one relation that holds throughout.
-/

namespace Transcript

namespace Outcome

variable {σ ω ε α β : Type}

/-- The same end, with related states and transcripts. -/
def Agree (Q : α → σ → σ → Prop) (E : σ → σ → Prop) (T : ω → ω → Prop) :
    Outcome σ ω ε α → Outcome σ ω ε α → Prop
  | done a s es, done b t fs => a = b ∧ Q a s t ∧ List.Forall₂ T es fs
  | stopped e s es, stopped e' t fs => e = e' ∧ E s t ∧ List.Forall₂ T es fs
  | _, _ => False

variable {Q Q' : α → σ → σ → Prop} {E E' : σ → σ → Prop} {T T' : ω → ω → Prop}

theorem Agree.mono {o o' : Outcome σ ω ε α} (h : Agree Q E T o o')
    (post : ∀ a s t, Q a s t → Q' a s t) (halt : ∀ s t, E s t → E' s t)
    (events : ∀ e f, T e f → T' e f) : Agree Q' E' T' o o' := by
  cases o with
  | done a s es =>
      cases o' with
      | done b t fs => exact ⟨h.1, post _ _ _ h.2.1, h.2.2.imp events⟩
      | stopped e t fs => exact h.elim
  | stopped e s es =>
      cases o' with
      | done b t fs => exact h.elim
      | stopped e' t fs => exact ⟨h.1, halt _ _ h.2.1, h.2.2.imp events⟩

theorem Agree.prepend {o o' : Outcome σ ω ε α} {es fs : List ω} (h : Agree Q E T o o')
    (events : List.Forall₂ T es fs) : Agree Q E T (o.prepend es) (o'.prepend fs) := by
  cases o with
  | done a s es' =>
      cases o' with
      | done b t fs' => exact ⟨h.1, h.2.1, List.rel_append events h.2.2⟩
      | stopped e t fs' => exact h.elim
  | stopped e s es' =>
      cases o' with
      | done b t fs' => exact h.elim
      | stopped e' t fs' => exact ⟨h.1, h.2.1, List.rel_append events h.2.2⟩

theorem Agree.andThen {R : β → σ → σ → Prop} {o o' : Outcome σ ω ε α}
    {f : α → σ → Outcome σ ω ε β} (h : Agree Q E T o o')
    (next : ∀ a s t, Q a s t → Agree R E T (f a s) (f a t)) :
    Agree R E T (o.andThen f) (o'.andThen f) := by
  cases o with
  | done a s es =>
      cases o' with
      | done b t fs =>
          obtain ⟨rfl, related, events⟩ := h
          exact (next a s t related).prepend events
      | stopped e t fs => exact h.elim
  | stopped e s es =>
      cases o' with
      | done b t fs => exact h.elim
      | stopped e' t fs => exact h

/-- Where the first run returns, the second one returns the same value. -/
theorem Agree.done_left {o' : Outcome σ ω ε α} {a : α} {s : σ} {es : List ω}
    (h : Agree Q E T (done a s es) o') :
    ∃ t fs, o' = done a t fs ∧ Q a s t ∧ List.Forall₂ T es fs := by
  cases o' with
  | done b t fs =>
      obtain ⟨rfl, related, events⟩ := h
      exact ⟨t, fs, rfl, related, events⟩
  | stopped e t fs => exact h.elim

/-- The events of the two runs are related one by one. -/
theorem Agree.transcripts {o o' : Outcome σ ω ε α} (h : Agree Q E T o o') :
    List.Forall₂ T o.events o'.events := by
  cases o with
  | done a s es =>
      cases o' with
      | done b t fs => exact h.2.2
      | stopped e t fs => exact h.elim
  | stopped e s es =>
      cases o' with
      | done b t fs => exact h.elim
      | stopped e' t fs => exact h.2.2

/-- A run that agrees with itself has only events that are related to themselves. -/
theorem Agree.events {o : Outcome σ ω ε α} (h : Agree Q E T o o) : ∀ e ∈ o.events, T e e :=
  List.forall₂_same.mp h.transcripts

end Outcome

namespace Program

variable {ρ σ ω ε α β : Type}

/-- Two runs of the program from states related by `P` agree. -/
def Agrees (P : σ → σ → Prop) (T : ω → ω → Prop) (m : Program ρ σ ω ε α)
    (Q : α → σ → σ → Prop) (E : σ → σ → Prop) : Prop :=
  ∀ r s t, P s t → Outcome.Agree Q E T (m.run r s) (m.run r t)

/-- The program keeps two states related. -/
abbrev Respects (R : σ → σ → Prop) (T : ω → ω → Prop) (m : Program ρ σ ω ε α) : Prop :=
  Agrees R T m (fun _ => R) R

section Agrees

variable {P E : σ → σ → Prop} {Q : α → σ → σ → Prop} {R : β → σ → σ → Prop} {T T' : ω → ω → Prop}

protected theorem Agrees.pure {a : α} (h : ∀ s t, P s t → Q a s t) :
    Agrees P T (pure a : Program ρ σ ω ε α) Q E :=
  fun _ s t hs => ⟨rfl, h s t hs, .nil⟩

protected theorem Agrees.stop {e : ε} (h : ∀ s t, P s t → E s t) :
    Agrees P T (stop e : Program ρ σ ω ε α) Q E :=
  fun _ s t hs => ⟨rfl, h s t hs, .nil⟩

protected theorem Agrees.modify {f : σ → σ} {Q : PUnit → σ → σ → Prop}
    (h : ∀ s t, P s t → Q ⟨⟩ (f s) (f t)) :
    Agrees P T (modify f : Program ρ σ ω ε PUnit) Q E :=
  fun _ s t hs => ⟨rfl, h s t hs, .nil⟩

protected theorem Agrees.ask : Agrees P T (ask : Program ρ σ ω ε ρ) (fun _ => P) E :=
  fun _ _ _ hs => ⟨rfl, hs, .nil⟩

protected theorem Agrees.emit {es : List ω} (h : ∀ e ∈ es, T e e) :
    Agrees P T (emit es : Program ρ σ ω ε Unit) (fun _ => P) E :=
  fun _ _ _ hs => ⟨rfl, hs, List.forall₂_same.mpr h⟩

protected theorem Agrees.bind {m : Program ρ σ ω ε α} {f : α → Program ρ σ ω ε β}
    (first : Agrees P T m Q E) (next : ∀ a, Agrees (Q a) T (f a) R E) :
    Agrees P T (m >>= f) R E := by
  intro r s t hs
  rw [run_bind, run_bind]
  exact (first r s t hs).andThen fun a => next a r

/-- What the program reads must be the same for related states as far as it uses it. -/
protected theorem Agrees.get_bind {f : σ → Program ρ σ ω ε α}
    (same : ∀ s t, P s t → f s = f t) (next : ∀ s, Agrees P T (f s) Q E) :
    Agrees P T (get >>= f : Program ρ σ ω ε α) Q E := by
  intro r s t hs
  rw [run_bind, run_bind, run_get, run_get, Outcome.andThen_done, Outcome.andThen_done,
    Outcome.prepend_nil, Outcome.prepend_nil, ← same s t hs]
  exact next s r s t hs

protected theorem Agrees.map {m : Program ρ σ ω ε α} (f : α → β) (h : Agrees P T m Q E)
    (post : ∀ a s t, Q a s t → R (f a) s t) : Agrees P T (f <$> m) R E := by
  rw [map_eq_pure_bind]
  exact .bind h fun a => .pure fun s t hs => post a s t hs

protected theorem Agrees.ite {c : Prop} [Decidable c] {yes no : Program ρ σ ω ε α}
    (ifTrue : c → Agrees P T yes Q E) (ifFalse : ¬ c → Agrees P T no Q E) :
    Agrees P T (if c then yes else no) Q E := by
  split
  · exact ifTrue ‹_›
  · exact ifFalse ‹_›

/-- Consequence. -/
theorem Agrees.mono {P' E' : σ → σ → Prop} {Q' : α → σ → σ → Prop} {m : Program ρ σ ω ε α}
    (h : Agrees P T m Q E) (pre : ∀ s t, P' s t → P s t) (post : ∀ a s t, Q a s t → Q' a s t)
    (halt : ∀ s t, E s t → E' s t) (events : ∀ e f, T e f → T' e f) : Agrees P' T' m Q' E' :=
  fun r s t hs => (h r s t (pre s t hs)).mono post halt events

/-- What holds of every run also holds of the first of two. -/
theorem Agrees.and_ensures {guar : ω → Prop} {Q' : α → σ → Prop} {m : Program ρ σ ω ε α}
    (h : Agrees P T m Q E) (each : Ensures (fun _ => True) (fun _ => True) guar m Q') :
    Agrees P T m (fun a s t => Q a s t ∧ Q' a s) E := by
  intro r s t hs
  have agree := h r s t hs
  have returns := (each r s trivial fun _ _ => trivial).1
  cases run : m.run r s with
  | stopped e u es =>
      rw [run] at agree
      cases run' : m.run r t with
      | stopped e' v fs =>
          rw [run'] at agree
          exact agree
      | done b v fs =>
          rw [run'] at agree
          exact agree.elim
  | done a u es =>
      rw [run] at agree
      obtain ⟨v, fs, run', related, events⟩ := agree.done_left
      rw [run']
      exact ⟨rfl, ⟨related, returns a u es run⟩, events⟩

protected theorem Agrees.foldRange {first count : Nat} {acc : β}
    {body : Nat → β → Program ρ σ ω ε β}
    (iteration : ∀ i b, Agrees P T (body i b) (fun _ => P) E) :
    Agrees P T (foldRange first count acc body) (fun _ => P) E := by
  induction count generalizing first acc with
  | zero => exact .pure fun _ _ hs => hs
  | succ count ih => exact .bind (iteration first acc) fun b => ih

end Agrees

end Program
end Transcript
