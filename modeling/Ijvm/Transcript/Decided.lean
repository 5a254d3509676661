import Ijvm.Transcript.Contract

/-!
# Exactly when a run keeps a rule

A rule is a condition on the events of a run. `Outcome.Decided` gives the exact condition
under which a run keeps it, together with a postcondition. The rules put the condition of a
sequence together from those of its parts.
-/

namespace Transcript.Outcome

variable {ρ σ ω ε α β : Type} {rule : ω → Prop} {Q Q' : α → σ → Prop} {o : Outcome σ ω ε α}
  {p q : Prop}

/-- The run returns with `Q`, if it does, and keeps the rule exactly if `p` holds. -/
structure Decided (rule : ω → Prop) (Q : α → σ → Prop) (o : Outcome σ ω ε α) (p : Prop) :
    Prop where
  returns : o.Returns Q
  keeps : (∀ e ∈ o.events, rule e) ↔ p

namespace Decided

theorem congr (h : Decided rule Q o p) (iff : p ↔ q) : Decided rule Q o q :=
  ⟨h.returns, h.keeps.trans iff⟩

theorem mono (h : Decided rule Q o p) (post : ∀ a s, Q a s → Q' a s) : Decided rule Q' o p :=
  ⟨h.returns.mono post, h.keeps⟩

theorem of_stopped {e : ε} {s : σ} {es : List ω} (kept : ∀ e ∈ es, rule e) (hp : p) :
    Decided rule Q (.stopped e s es : Outcome σ ω ε α) p :=
  ⟨returns_stopped, iff_of_true kept hp⟩

theorem of_done {a : α} {s : σ} (post : Q a s) (hp : p) :
    Decided rule Q (.done a s [] : Outcome σ ω ε α) p :=
  ⟨returns_done.mpr post, iff_of_true (by simp) hp⟩

/-- A program that always keeps the rule. -/
theorem of_ensures {P : σ → Prop} {m : Program ρ σ ω ε α}
    (h : Program.Ensures (fun _ => True) P rule m Q) (r : ρ) {s : σ} (hs : P s) (hp : p) :
    Decided rule Q (m.run r s) p := by
  obtain ⟨final, kept⟩ := h r s hs fun _ _ => trivial
  exact ⟨final, iff_of_true kept hp⟩

theorem prepend {es : List ω} (h : Decided rule Q o p) :
    Decided rule Q (o.prepend es) ((∀ e ∈ es, rule e) ∧ p) := by
  refine ⟨returns_prepend.mpr h.returns, ?_⟩
  rw [events_prepend, ← h.keeps]
  exact List.forall_mem_append

/-- Earlier events that keep the rule do not matter. -/
theorem prepend_kept {es : List ω} (h : Decided rule Q o p) (kept : ∀ e ∈ es, rule e) :
    Decided rule Q (o.prepend es) p :=
  h.prepend.congr (and_iff_right kept)

/-- What follows keeps the rule. -/
theorem andThen {R : β → σ → Prop} {f : α → σ → Outcome σ ω ε β} (h : Decided rule Q o p)
    (next : ∀ a s, Q a s → Decided rule R (f a s) True) : Decided rule R (o.andThen f) p := by
  cases o with
  | stopped e s es => exact ⟨returns_stopped, h.keeps⟩
  | done a s es =>
      rw [andThen_done]
      refine ((next a s (returns_done.mp h.returns)).prepend).congr ?_
      exact (and_iff_left trivial).trans h.keeps

end Decided

end Transcript.Outcome
