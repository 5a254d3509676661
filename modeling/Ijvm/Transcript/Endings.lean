import Ijvm.Transcript.Basic

/-!
# How a program ends

From the states that satisfy a precondition, a program can go on with a value, stop for
good, or break the rules, which are a condition on its events. `Ends` says which of these
it does. The rules compose the three along a sequence: what stops or breaks in the first
part does so in the sequence.
-/

namespace Transcript

/-- What happens in a run: it returns, in a state as described, it stops, or it breaks the
rules. -/
inductive Ending (σ α : Type) where
  | goes (Q : α → σ → Prop)
  | exits
  | breaks

/-- What a specification says about a run: it goes on with a value, it is finished, or it breaks
the rules. -/
inductive Verdict (γ : Type) where
  | goes (value : γ)
  | finished
  | broken
  deriving DecidableEq, Repr

/-- Go on with the next part of the specification. -/
def Verdict.bind {γ δ : Type} : Verdict γ → (γ → Verdict δ) → Verdict δ
  | goes c, k => k c
  | finished, _ => finished
  | broken, _ => broken

@[simp] theorem Verdict.bind_goes {γ : Type} (v : Verdict γ) : v.bind goes = v := by
  cases v <;> rfl

/-- The endings of runs that follow the specification, from states as described. -/
def Verdict.ending {γ σ α : Type} (Q : γ → α → σ → Prop) : Verdict γ → Ending σ α
  | goes c => .goes (Q c)
  | finished => .exits
  | broken => .breaks

namespace Program

variable {ρ σ ω ε α β : Type}

/-- Every run from the precondition ends so; in the first two cases it keeps the rules. -/
def Ends (rule : ω → Prop) (P : σ → Prop) (m : Program ρ σ ω ε α) : Ending σ α → Prop
  | .goes Q => ∀ r s, P s → ∃ a t es, m.run r s = .done a t es ∧ Q a t ∧ ∀ e ∈ es, rule e
  | .exits => ∀ r s, P s → ∃ e t es, m.run r s = .stopped e t es ∧ ∀ e ∈ es, rule e
  | .breaks => ∀ r s, P s → ∃ e ∈ (m.run r s).events, ¬ rule e

variable {rule : ω → Prop} {P P' : σ → Prop} {Q : α → σ → Prop} {m : Program ρ σ ω ε α}
  {f : α → Program ρ σ ω ε β} {ending : Ending σ β}

namespace Ends

theorem pure {a : α} (h : ∀ s, P s → Q a s) :
    Ends rule P (pure a : Program ρ σ ω ε α) (.goes Q) :=
  fun _ s hs => ⟨a, s, [], rfl, h s hs, by simp⟩

theorem stop (e : ε) : Ends rule P (stop e : Program ρ σ ω ε α) .exits :=
  fun _ s _ => ⟨e, s, [], rfl, by simp⟩

theorem modify {f : σ → σ} {Q : PUnit → σ → Prop} (h : ∀ s, P s → Q ⟨⟩ (f s)) :
    Ends rule P (modify f : Program ρ σ ω ε PUnit) (.goes Q) :=
  fun _ s hs => ⟨_, f s, [], rfl, h s hs, by simp⟩

/-- The second part starts where the first one returns. -/
theorem bind (first : Ends rule P m (.goes Q)) (next : ∀ a, Ends rule (Q a) (f a) ending) :
    Ends rule P (m >>= f) ending := by
  cases ending with
  | goes R =>
      intro r s hs
      obtain ⟨a, t, es, run, reached, kept⟩ := first r s hs
      obtain ⟨b, u, fs, run', reached', kept'⟩ := next a r t reached
      refine ⟨b, u, es ++ fs, ?_, reached', List.forall_mem_append.mpr ⟨kept, kept'⟩⟩
      rw [run_bind, run, Outcome.andThen_done, run', Outcome.prepend_done]
  | exits =>
      intro r s hs
      obtain ⟨a, t, es, run, reached, kept⟩ := first r s hs
      obtain ⟨e, u, fs, run', kept'⟩ := next a r t reached
      refine ⟨e, u, es ++ fs, ?_, List.forall_mem_append.mpr ⟨kept, kept'⟩⟩
      rw [run_bind, run, Outcome.andThen_done, run', Outcome.prepend_stopped]
  | breaks =>
      intro r s hs
      obtain ⟨a, t, es, run, reached, _⟩ := first r s hs
      obtain ⟨e, member, broken⟩ := next a r t reached
      refine ⟨e, ?_, broken⟩
      rw [run_bind, run, Outcome.andThen_done, Outcome.events_prepend]
      exact List.mem_append_right _ member

/-- A first part that returns one value. -/
theorem bind_eq {a : α} {R : σ → Prop} (first : Ends rule P m (.goes fun b s => b = a ∧ R s))
    (next : Ends rule R (f a) ending) : Ends rule P (m >>= f) ending := by
  apply first.bind
  intro b
  by_cases same : b = a
  · subst same
    cases ending with
    | goes | exits | breaks => exact fun r s hs => next r s hs.2
  · cases ending with
    | goes | exits | breaks => exact fun _ _ hs => absurd hs.1 same

/-- Two parts that are described together. -/
theorem bind_pair {γ : Type} {m : Program ρ σ ω ε γ} {n : γ → Program ρ σ ω ε α}
    (first : Ends rule P (m >>= n) (.goes Q)) (next : ∀ a, Ends rule (Q a) (f a) ending) :
    Ends rule P (m >>= fun c => n c >>= f) ending := by
  rw [← bind_assoc]
  exact first.bind next

theorem exits_bind (first : Ends rule P m .exits) : Ends rule P (m >>= f) .exits := by
  intro r s hs
  obtain ⟨e, t, es, run, kept⟩ := first r s hs
  refine ⟨e, t, es, ?_, kept⟩
  rw [run_bind, run, Outcome.andThen_stopped]

theorem breaks_bind (first : Ends rule P m .breaks) : Ends rule P (m >>= f) .breaks := by
  intro r s hs
  obtain ⟨e, member, broken⟩ := first r s hs
  refine ⟨e, ?_, broken⟩
  rw [run_bind]
  cases run : m.run r s with
  | done a t es =>
      rw [run] at member
      rw [Outcome.andThen_done, Outcome.events_prepend]
      exact List.mem_append_left _ member
  | stopped e t es =>
      rw [run] at member
      exact member

/-- What the program reads is the state that it starts in. -/
theorem get_bind {f : σ → Program ρ σ ω ε β}
    (next : ∀ s, P s → Ends rule (fun t => t = s) (f s) ending) :
    Ends rule P (get >>= f) ending := by
  cases ending with
  | goes | exits | breaks =>
      intro r s hs
      rw [run_bind, run_get, Outcome.andThen_done, Outcome.prepend_nil]
      exact next s hs r s rfl

theorem weaken {ending : Ending σ α} (h : Ends rule P m ending) (pre : ∀ s, P' s → P s) :
    Ends rule P' m ending := by
  cases ending with
  | goes | exits | breaks => exact fun r s hs => h r s (pre s hs)

theorem mono {Q' : α → σ → Prop} (h : Ends rule P m (.goes Q)) (post : ∀ a s, Q a s → Q' a s) :
    Ends rule P m (.goes Q') := by
  intro r s hs
  obtain ⟨a, t, es, run, reached, kept⟩ := h r s hs
  exact ⟨a, t, es, run, post a t reached, kept⟩

/-- Consequence for every ending, by the verdict of a specification. -/
theorem bind_verdict {γ δ : Type} {v : Verdict γ} {k : γ → Verdict δ} {Q : γ → α → σ → Prop}
    {R : δ → β → σ → Prop} (first : Ends rule P m (v.ending Q))
    (next : ∀ c a, Ends rule (Q c a) (f a) ((k c).ending R)) :
    Ends rule P (m >>= f) ((v.bind k).ending R) := by
  cases v with
  | goes c => exact first.bind fun a => next c a
  | finished => exact first.exits_bind
  | broken => exact first.breaks_bind

/-- The same run, told in other terms. -/
theorem map_verdict {γ δ : Type} {v : Verdict γ} {g : γ → δ} {Q : γ → α → σ → Prop}
    {R : δ → α → σ → Prop} (h : Ends rule P m (v.ending Q))
    (post : ∀ c a s, Q c a s → R (g c) a s) :
    Ends rule P m ((v.bind fun c => .goes (g c)).ending R) := by
  cases v with
  | goes c => exact mono h (post c)
  | finished => exact h
  | broken => exact h

end Ends

/-- The rules are kept where the verdict is not that they are broken. -/
theorem keeps_iff_of_ends {γ : Type} {v : Verdict γ} {Q : γ → α → σ → Prop} {r : ρ} {s : σ}
    (h : Ends rule P m (v.ending Q)) (hs : P s) :
    (∀ e ∈ (m.run r s).events, rule e) ↔ v ≠ .broken := by
  cases v with
  | goes c =>
      obtain ⟨a, t, es, run, _, kept⟩ := h r s hs
      rw [run]
      exact iff_of_true kept (by simp)
  | finished =>
      obtain ⟨e, t, es, run, kept⟩ := h r s hs
      rw [run]
      exact iff_of_true kept (by simp)
  | broken =>
      obtain ⟨e, member, broken⟩ := h r s hs
      exact iff_of_false (fun kept => broken (kept e member)) fun same => same rfl

end Program
end Transcript
