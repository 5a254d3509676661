import Ijvm.Transcript.Contract

/-!
# One program refines another

`Refines` compares a program with a second one over another environment, another state and
other reasons to stop. Started in related states, both return the same value in related
states, with three exceptions that `Stops` names: a stop of the second program can have a
matching stop of the first; the first can give up with an excused stop at any time, for want
of a resource that the second does not know; and after a wild stop, which is where the second
program has no meaning, nothing is asked of the first.

The judgment composes along the program constructs. Events are not compared.
-/

namespace Transcript

theorem Outcome.andThen_assoc {σ ω ε α β γ : Type} (o : Outcome σ ω ε α)
    (f : α → σ → Outcome σ ω ε β) (g : β → σ → Outcome σ ω ε γ) :
    (o.andThen f).andThen g = o.andThen fun a s => (f a s).andThen g := by
  cases o with
  | done a s es => rw [andThen_done, andThen_done, prepend_andThen]
  | stopped e s es => rfl

/-- How the stops of a program are judged against those of the one that it refines. -/
structure Stops (ε ε' : Type) where
  matching : ε → ε' → Prop
  excused : ε → Prop
  wild : ε' → Prop

variable {ρ ρ' σ σ' ω ω' ε ε' α β : Type} {K : Stops ε ε'}

namespace Outcome

/-- The first run ends as the second one does, as far as `K` asks for it. -/
def Refines (K : Stops ε ε') (Q : α → σ → σ' → Prop) (o : Outcome σ ω ε α) :
    Outcome σ' ω' ε' α → Prop
  | done a s' _ => o.Satisfies (fun b s _ => b = a ∧ Q a s s') fun e _ _ => K.excused e
  | stopped e' _ _ => K.wild e' ∨
      o.Satisfies (fun _ _ _ => False) fun e _ _ => K.matching e e' ∨ K.excused e

variable {Q Q' : α → σ → σ' → Prop} {o : Outcome σ ω ε α} {o' : Outcome σ' ω' ε' α}

theorem Refines.of_done {a : α} {s : σ} {s' : σ'} {es : List ω} {es' : List ω'}
    (related : Q a s s') : (done a s es : Outcome σ ω ε α).Refines K Q (done a s' es') :=
  ⟨rfl, related⟩

/-- A run that gives up refines every run. -/
theorem Refines.of_excused {e : ε} {s : σ} {es : List ω} (excused : K.excused e) :
    (stopped e s es : Outcome σ ω ε α).Refines K Q o' := by
  cases o' with
  | done a s' es' => exact excused
  | stopped e' s' es' => exact Or.inr (Or.inr excused)

/-- Every run refines one that has no meaning. -/
theorem Refines.of_wild {e' : ε'} {s' : σ'} {es' : List ω'} (wild : K.wild e') :
    o.Refines K Q (stopped e' s' es') :=
  Or.inl wild

theorem Refines.of_matching {e : ε} {e' : ε'} {s : σ} {s' : σ'} {es : List ω} {es' : List ω'}
    (same : K.matching e e') :
    (stopped e s es : Outcome σ ω ε α).Refines K Q (stopped e' s' es') :=
  Or.inr (Or.inl same)

theorem Refines.mono (h : o.Refines K Q o') (post : ∀ a s s', Q a s s' → Q' a s s') :
    o.Refines K Q' o' := by
  cases o' with
  | done a s' es' =>
      exact Satisfies.mono h (fun _ _ _ final => ⟨final.1, post _ _ _ final.2⟩)
        fun _ _ _ excused => excused
  | stopped e' s' es' => exact h

/-- Where the first run returns, the second one does too, or has no meaning. -/
theorem Refines.done_left {a : α} {s : σ} {es : List ω}
    (h : (done a s es : Outcome σ ω ε α).Refines K Q o') :
    o'.Satisfies (fun a' s' _ => a' = a ∧ Q a s s') fun e' _ _ => K.wild e' := by
  cases o' with
  | done a' s' es' =>
      obtain ⟨rfl, related⟩ := h
      exact ⟨rfl, related⟩
  | stopped e' s' es' => exact h.resolve_right id

/-- Where the first run stops for no excuse, the second one stops with it, or has no
meaning. -/
theorem Refines.stopped_left {e : ε} {s : σ} {es : List ω}
    (h : (stopped e s es : Outcome σ ω ε α).Refines K Q o') (unexcused : ¬ K.excused e) :
    o'.Satisfies (fun _ _ _ => False) fun e' _ _ => K.wild e' ∨ K.matching e e' := by
  cases o' with
  | done a' s' es' => exact absurd h unexcused
  | stopped e' s' es' => exact h.imp id fun ends => ends.resolve_right unexcused

/-- What holds of a return of the first run holds of the states that are compared. -/
theorem Refines.and_returns {G : α → σ → Prop} (h : o.Refines K Q o') (post : o.Returns G) :
    o.Refines K (fun a s s' => Q a s s' ∧ G a s) o' := by
  cases o' with
  | done a s' es' =>
      cases o with
      | stopped e s es => exact h
      | done b s es =>
          obtain ⟨rfl, related⟩ := h
          exact ⟨rfl, related, post b s es rfl⟩
  | stopped e' s' es' => exact h

/-- The transcripts play no part. -/
@[simp] theorem refines_prepend {es : List ω} :
    (o.prepend es).Refines K Q o' ↔ o.Refines K Q o' := by
  cases o' with
  | done a s' es' => exact satisfies_prepend
  | stopped e' s' es' => exact or_congr Iff.rfl satisfies_prepend

@[simp] theorem refines_prepend_right {es : List ω'} :
    o.Refines K Q (o'.prepend es) ↔ o.Refines K Q o' := by
  cases o' <;> rfl

theorem Refines.andThen {R : β → σ → σ' → Prop} {f : α → σ → Outcome σ ω ε β}
    {f' : α → σ' → Outcome σ' ω' ε' β} (h : o.Refines K Q o')
    (next : ∀ a s s', Q a s s' → (f a s).Refines K R (f' a s')) :
    (o.andThen f).Refines K R (o'.andThen f') := by
  cases o' with
  | done a s' es' =>
      rw [andThen_done, refines_prepend_right]
      cases o with
      | done b s es =>
          obtain ⟨rfl, related⟩ := h
          rw [andThen_done, refines_prepend]
          exact next b s s' related
      | stopped e s es => exact .of_excused h
  | stopped e' s' es' =>
      obtain wild | ends := h
      · exact .of_wild wild
      · cases o with
        | done b s es => exact ends.elim
        | stopped e s es => exact Or.inr ends

end Outcome

namespace Program

/-- Started in related states, the first program refines the second. -/
def Refines (K : Stops ε ε') (r : ρ) (r' : ρ') (P : σ → σ' → Prop) (m : Program ρ σ ω ε α)
    (m' : Program ρ' σ' ω' ε' α) (Q : α → σ → σ' → Prop) : Prop :=
  ∀ s s', P s s' → (m.run r s).Refines K Q (m'.run r' s')

/-- The two programs keep their states related. -/
abbrev Simulates (K : Stops ε ε') (r : ρ) (r' : ρ') (R : σ → σ' → Prop) (m : Program ρ σ ω ε α)
    (m' : Program ρ' σ' ω' ε' α) : Prop :=
  Refines K r r' R m m' fun _ => R

section Refines

variable {r : ρ} {r' : ρ'} {P : σ → σ' → Prop} {Q Q' : α → σ → σ' → Prop} {R : β → σ → σ' → Prop}

protected theorem Refines.pure {a : α} (h : ∀ s s', P s s' → Q a s s') :
    Refines K r r' P (pure a : Program ρ σ ω ε α) (pure a : Program ρ' σ' ω' ε' α) Q :=
  fun s s' related => .of_done (h s s' related)

protected theorem Refines.stop {e : ε} {e' : ε'} (same : K.matching e e') :
    Refines K r r' P (stop e : Program ρ σ ω ε α) (stop e' : Program ρ' σ' ω' ε' α) Q :=
  fun _ _ _ => .of_matching same

protected theorem Refines.modify {f : σ → σ} {f' : σ' → σ'} {Q : PUnit → σ → σ' → Prop}
    (h : ∀ s s', P s s' → Q ⟨⟩ (f s) (f' s')) :
    Refines K r r' P (modify f : Program ρ σ ω ε PUnit)
      (modify f' : Program ρ' σ' ω' ε' PUnit) Q :=
  fun s s' related => .of_done (h s s' related)

protected theorem Refines.bind {m : Program ρ σ ω ε α} {m' : Program ρ' σ' ω' ε' α}
    {f : α → Program ρ σ ω ε β} {f' : α → Program ρ' σ' ω' ε' β}
    (first : Refines K r r' P m m' Q) (next : ∀ a, Refines K r r' (Q a) (f a) (f' a) R) :
    Refines K r r' P (m >>= f) (m' >>= f') R := by
  intro s s' related
  rw [run_bind, run_bind]
  exact (first s s' related).andThen fun a => next a

/-- Continuations that start by reading the states know what they read. -/
protected theorem Refines.get_bind {f : σ → Program ρ σ ω ε α} {f' : σ' → Program ρ' σ' ω' ε' α}
    (next : ∀ s s', P s s' → Refines K r r' (fun t t' => t = s ∧ t' = s') (f s) (f' s') Q) :
    Refines K r r' P (get >>= f) (get >>= f') Q := by
  intro s s' related
  rw [run_bind, run_bind, run_get, run_get, Outcome.andThen_done, Outcome.andThen_done,
    Outcome.prepend_nil, Outcome.prepend_nil]
  exact next s s' related s s' ⟨rfl, rfl⟩

/-- The second program reads its environment. -/
protected theorem Refines.ask_bind {m : Program ρ σ ω ε α} {f' : ρ' → Program ρ' σ' ω' ε' α}
    (next : Refines K r r' P m (f' r') Q) : Refines K r r' P m (ask >>= f') Q := by
  intro s s' related
  rw [run_bind, run_ask, Outcome.andThen_done, Outcome.prepend_nil]
  exact next s s' related

/-- Both programs read their environments. -/
protected theorem Refines.asks_bind {f : ρ → Program ρ σ ω ε α} {f' : ρ' → Program ρ' σ' ω' ε' α}
    (next : Refines K r r' P (f r) (f' r') Q) : Refines K r r' P (ask >>= f) (ask >>= f') Q := by
  intro s s' related
  rw [run_bind, run_ask, Outcome.andThen_done, Outcome.prepend_nil]
  exact Refines.ask_bind (m := f r) next s s' related

/-- What the first program emits is not compared. -/
protected theorem Refines.emit_bind {es : List ω} {m : Program ρ σ ω ε α}
    {m' : Program ρ' σ' ω' ε' α} (h : Refines K r r' P m m' Q) :
    Refines K r r' P (emit es >>= fun _ => m) m' Q := by
  intro s s' related
  rw [run_bind, run_emit, Outcome.andThen_done, Outcome.refines_prepend]
  exact h s s' related

/-- Consequence. -/
theorem Refines.mono {P' : σ → σ' → Prop} {m : Program ρ σ ω ε α} {m' : Program ρ' σ' ω' ε' α}
    (h : Refines K r r' P m m' Q) (pre : ∀ s s', P' s s' → P s s')
    (post : ∀ a s s', Q a s s' → Q' a s s') : Refines K r r' P' m m' Q' :=
  fun s s' related => (h s s' (pre s s' related)).mono post

/-- A branch of both programs under conditions that agree. -/
protected theorem Refines.ite {c c' : Prop} [Decidable c] [Decidable c']
    {yes no : Program ρ σ ω ε α} {yes' no' : Program ρ' σ' ω' ε' α} (same : c ↔ c')
    (ifTrue : c → Refines K r r' P yes yes' Q) (ifFalse : ¬ c → Refines K r r' P no no' Q) :
    Refines K r r' P (if c then yes else no) (if c' then yes' else no') Q := by
  by_cases h : c
  · rw [if_pos h, if_pos (same.mp h)]
    exact ifTrue h
  · rw [if_neg h, if_neg (h ∘ same.mpr)]
    exact ifFalse h

end Refines

end Program
end Transcript
