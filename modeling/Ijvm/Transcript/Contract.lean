import Ijvm.Transcript.Basic

/-!
# Contracts, preserved assertions and counted loops

`Outcome.Satisfies` is the two-sided postcondition of a run: one assertion for a
returned value and one for a stop, both about the final state and the transcript.
`Outcome.Returns` is its first side alone.

`Program.Ensures` is a triple for all runs of a program, relative to the transcript: as
long as the events of a run satisfy `rely`, its events satisfy `guar` and its result the
postcondition. `Keeps rely I guar` is the triple of an invariant. Both compose along
every program construct, so that what holds of a large program follows from its
primitive steps. Relational frame conditions are the instances `I := fun t => R s t` for
a fixed entry state `s`.
-/

namespace Transcript

namespace Outcome

variable {σ ω ε α β : Type}

/-- A returned value satisfies `Q`, a stop satisfies `E`. -/
def Satisfies (o : Outcome σ ω ε α) (Q : α → σ → List ω → Prop)
    (E : ε → σ → List ω → Prop) : Prop :=
  match o with
  | done a s es => Q a s es
  | stopped e s es => E e s es

variable {Q Q' : α → σ → List ω → Prop} {E E' : ε → σ → List ω → Prop}

@[simp] theorem satisfies_done {a : α} {s : σ} {es : List ω} :
    (done a s es).Satisfies Q E ↔ Q a s es := Iff.rfl

@[simp] theorem satisfies_stopped {e : ε} {s : σ} {es : List ω} :
    (stopped e s es).Satisfies Q E ↔ E e s es := Iff.rfl

theorem Satisfies.mono {o : Outcome σ ω ε α} (h : o.Satisfies Q E)
    (post : ∀ a s es, Q a s es → Q' a s es) (halt : ∀ e s es, E e s es → E' e s es) :
    o.Satisfies Q' E' := by
  cases o with
  | done a s es => exact post a s es h
  | stopped e s es => exact halt e s es h

theorem Satisfies.and {o : Outcome σ ω ε α} (h : o.Satisfies Q E) (h' : o.Satisfies Q' E') :
    o.Satisfies (fun a s es => Q a s es ∧ Q' a s es) fun e s es => E e s es ∧ E' e s es := by
  cases o <;> exact ⟨h, h'⟩

@[simp] theorem satisfies_prepend {o : Outcome σ ω ε α} {es : List ω} :
    (o.prepend es).Satisfies Q E ↔
      o.Satisfies (fun a s fs => Q a s (es ++ fs)) (fun e s fs => E e s (es ++ fs)) := by
  cases o <;> rfl

/-- Sequencing: the continuation is judged at the state where the first part
returned, with the first transcript put in front of its own. -/
theorem Satisfies.andThen {o : Outcome σ ω ε α} {f : α → σ → Outcome σ ω ε β}
    {R : β → σ → List ω → Prop} (h : o.Satisfies Q E)
    (next : ∀ a s es, Q a s es →
      (f a s).Satisfies (fun b t fs => R b t (es ++ fs)) (fun e t fs => E e t (es ++ fs))) :
    (o.andThen f).Satisfies R E := by
  cases o with
  | stopped e s es => exact h
  | done a s es =>
      rw [andThen_done, satisfies_prepend]
      exact next a s es h

/-- If the run returns, then with a value and in a state that satisfy `Q`. -/
def Returns (o : Outcome σ ω ε α) (Q : α → σ → Prop) : Prop :=
  ∀ a s es, o = done a s es → Q a s

@[simp] theorem returns_done {a : α} {s : σ} {es : List ω} {Q : α → σ → Prop} :
    (done a s es : Outcome σ ω ε α).Returns Q ↔ Q a s := by
  constructor
  · intro h
    exact h a s es rfl
  · rintro h b t fs ⟨⟩
    exact h

@[simp] theorem returns_stopped {e : ε} {s : σ} {es : List ω} {Q : α → σ → Prop} :
    (stopped e s es : Outcome σ ω ε α).Returns Q := by
  rintro a t fs ⟨⟩

@[simp] theorem returns_prepend {o : Outcome σ ω ε α} {es : List ω} {Q : α → σ → Prop} :
    (o.prepend es).Returns Q ↔ o.Returns Q := by
  cases o <;> simp

theorem Returns.mono {o : Outcome σ ω ε α} {Q Q' : α → σ → Prop} (h : o.Returns Q)
    (post : ∀ a s, Q a s → Q' a s) : o.Returns Q' :=
  fun a s es run => post a s (h a s es run)

theorem Returns.andThen {o : Outcome σ ω ε α} {f : α → σ → Outcome σ ω ε β}
    {Q : α → σ → Prop} {R : β → σ → Prop} (h : o.Returns Q)
    (next : ∀ a s, Q a s → (f a s).Returns R) : (o.andThen f).Returns R := by
  cases o with
  | stopped e s es => exact returns_stopped
  | done a s es =>
      rw [andThen_done, returns_prepend]
      exact next a s (h a s es rfl)

theorem Satisfies.returns {o : Outcome σ ω ε α} {Q : α → σ → List ω → Prop}
    {E : ε → σ → List ω → Prop} {R : α → σ → Prop} (h : o.Satisfies Q E)
    (post : ∀ a s es, Q a s es → R a s) : o.Returns R := by
  rintro a s es rfl
  exact post a s es h

theorem Satisfies.and_returns {o : Outcome σ ω ε α} {R : α → σ → Prop} (h : o.Satisfies Q E)
    (h' : o.Returns R) : o.Satisfies (fun a s es => Q a s es ∧ R a s) E := by
  cases o with
  | stopped e s es => exact h
  | done a s es => exact ⟨h, returns_done.mp h'⟩

/-- What both sides say about the transcript. -/
theorem Satisfies.events {o : Outcome σ ω ε α} {p : ω → Prop} (h : o.Satisfies Q E)
    (post : ∀ a s es, Q a s es → ∀ e ∈ es, p e) (halt : ∀ r s es, E r s es → ∀ e ∈ es, p e) :
    ∀ e ∈ o.events, p e := by
  cases o with
  | done a s es => exact post a s es h
  | stopped r s es => exact halt r s es h

end Outcome

namespace Program

variable {ρ σ ω ε α β : Type} {rely guar : ω → Prop}

/-- Started in a state that satisfies `P`, and provided that every event of the run
satisfies `rely`: every event satisfies `guar`, and if the run returns, then with a value
and in a state that satisfy `Q`. -/
def Ensures (rely : ω → Prop) (P : σ → Prop) (guar : ω → Prop) (m : Program ρ σ ω ε α)
    (Q : α → σ → Prop) : Prop :=
  ∀ r s, P s → (∀ e ∈ (m.run r s).events, rely e) →
    (m.run r s).Returns Q ∧ ∀ e ∈ (m.run r s).events, guar e

/-- The program preserves `I`. -/
abbrev Keeps (rely : ω → Prop) (I : σ → Prop) (guar : ω → Prop) (m : Program ρ σ ω ε α) : Prop :=
  Ensures rely I guar m fun _ => I

section Ensures

variable {P : σ → Prop} {Q : α → σ → Prop} {R : β → σ → Prop}

protected theorem Ensures.pure {a : α} (h : ∀ s, P s → Q a s) :
    Ensures rely P guar (pure a : Program ρ σ ω ε α) Q :=
  fun _ s hs _ => ⟨Outcome.returns_done.mpr (h s hs), by simp⟩

protected theorem Ensures.stop (e : ε) : Ensures rely P guar (stop e : Program ρ σ ω ε α) Q :=
  fun _ _ _ _ => ⟨Outcome.returns_stopped, by simp⟩

protected theorem Ensures.modify {f : σ → σ} {Q : PUnit → σ → Prop} (h : ∀ s, P s → Q ⟨⟩ (f s)) :
    Ensures rely P guar (modify f : Program ρ σ ω ε PUnit) Q :=
  fun _ s hs _ => ⟨Outcome.returns_done.mpr (h s hs), by simp⟩

protected theorem Ensures.bind {m : Program ρ σ ω ε α} {f : α → Program ρ σ ω ε β}
    (first : Ensures rely P guar m Q) (next : ∀ a, Ensures rely (Q a) guar (f a) R) :
    Ensures rely P guar (m >>= f) R := by
  intro r s hs assumed
  have head := first r s hs
  rw [run_bind] at assumed ⊢
  cases run : m.run r s with
  | stopped e t es =>
      rw [run] at head assumed
      exact ⟨Outcome.returns_stopped, (head assumed).2⟩
  | done a t es =>
      rw [run] at head assumed
      simp only [Outcome.andThen_done, Outcome.events_prepend, List.mem_append] at assumed
      obtain ⟨middle, early⟩ := head fun e member => assumed e (Or.inl member)
      obtain ⟨final, late⟩ := next a r t (middle a t es rfl) fun e member =>
        assumed e (Or.inr member)
      refine ⟨by simpa using final, ?_⟩
      intro e member
      simp only [Outcome.andThen_done, Outcome.events_prepend, List.mem_append] at member
      exact member.elim (early e) (late e)

/-- A continuation that starts by reading the state knows what it read. -/
protected theorem Ensures.get_bind {f : σ → Program ρ σ ω ε α}
    (next : ∀ s, P s → Ensures rely (fun t => t = s) guar (f s) Q) :
    Ensures rely P guar (get >>= f : Program ρ σ ω ε α) Q := by
  intro r s hs assumed
  rw [run_bind, run_get, Outcome.andThen_done, Outcome.prepend_nil] at assumed ⊢
  exact next s hs r s rfl assumed

protected theorem Ensures.ite {c : Prop} [Decidable c] {yes no : Program ρ σ ω ε α}
    (ifTrue : c → Ensures rely P guar yes Q) (ifFalse : ¬ c → Ensures rely P guar no Q) :
    Ensures rely P guar (if c then yes else no) Q := by
  split
  · exact ifTrue ‹_›
  · exact ifFalse ‹_›

/-- Consequence. -/
theorem Ensures.mono {P' : σ → Prop} {Q' : α → σ → Prop} {m : Program ρ σ ω ε α}
    (h : Ensures rely P guar m Q) (pre : ∀ s, P' s → P s) (post : ∀ a s, Q a s → Q' a s) :
    Ensures rely P' guar m Q' := by
  intro r s hs assumed
  obtain ⟨final, events⟩ := h r s (pre s hs) assumed
  exact ⟨final.mono post, events⟩

/-- A two-sided postcondition that covers the events. -/
theorem Ensures.of_satisfies {m : Program ρ σ ω ε α}
    (h : ∀ r s, P s → (m.run r s).Satisfies (fun a t es => Q a t ∧ ∀ e ∈ es, guar e)
      (fun _ _ es => ∀ e ∈ es, guar e)) : Ensures rely P guar m Q := by
  intro r s hs _
  have spec := h r s hs
  exact ⟨spec.returns fun _ _ _ final => final.1,
    spec.events (fun _ _ _ final => final.2) fun _ _ _ final => final⟩

end Ensures

section Keeps

variable {I : σ → Prop}

protected theorem Keeps.pure (a : α) : Keeps rely I guar (pure a : Program ρ σ ω ε α) :=
  Ensures.pure fun _ hs => hs

protected theorem Keeps.get : Keeps rely I guar (get : Program ρ σ ω ε σ) :=
  fun _ _ hs _ => ⟨Outcome.returns_done.mpr hs, by simp⟩

protected theorem Keeps.ask : Keeps rely I guar (ask : Program ρ σ ω ε ρ) :=
  fun _ _ hs _ => ⟨Outcome.returns_done.mpr hs, by simp⟩

protected theorem Keeps.stop (e : ε) : Keeps rely I guar (stop e : Program ρ σ ω ε α) :=
  Ensures.stop e

protected theorem Keeps.emit {es : List ω} (h : ∀ e ∈ es, rely e → guar e) :
    Keeps rely I guar (emit es : Program ρ σ ω ε Unit) :=
  fun _ _ hs assumed =>
    ⟨Outcome.returns_done.mpr hs, fun e member => h e member (assumed e member)⟩

protected theorem Keeps.modify {f : σ → σ} (h : ∀ s, I s → I (f s)) :
    Keeps rely I guar (modify f : Program ρ σ ω ε PUnit) :=
  Ensures.modify h

protected theorem Keeps.bind {m : Program ρ σ ω ε α} {f : α → Program ρ σ ω ε β}
    (first : Keeps rely I guar m) (next : ∀ a, Keeps rely I guar (f a)) :
    Keeps rely I guar (m >>= f) :=
  Ensures.bind first next

/-- A continuation that starts by reading a state that satisfies `I`. -/
protected theorem Keeps.get_bind {f : σ → Program ρ σ ω ε α}
    (next : ∀ s, I s → Keeps rely I guar (f s)) :
    Keeps rely I guar (get >>= f : Program ρ σ ω ε α) := by
  refine Ensures.get_bind fun s hs => (next s hs).mono ?_ fun _ _ h => h
  rintro _ rfl
  exact hs

protected theorem Keeps.ite {c : Prop} [Decidable c] {yes no : Program ρ σ ω ε α}
    (ifTrue : c → Keeps rely I guar yes) (ifFalse : ¬ c → Keeps rely I guar no) :
    Keeps rely I guar (if c then yes else no) :=
  Ensures.ite ifTrue ifFalse

end Keeps

section Loops

variable {I : σ → Prop}

/-- A counted loop: run the body for `first, first + 1, …`, `count` times in all,
threading an accumulator. -/
def foldRange : Nat → Nat → β → (Nat → β → Program ρ σ ω ε β) → Program ρ σ ω ε β
  | _, 0, acc, _ => pure acc
  | first, count + 1, acc, body => do
      let acc ← body first acc
      foldRange (first + 1) count acc body

/-- A counted loop that only acts on the state. -/
def forRange (first count : Nat) (body : Nat → Program ρ σ ω ε Unit) :
    Program ρ σ ω ε Unit :=
  foldRange first count () fun i _ => body i

protected theorem Keeps.foldRange {first count : Nat} {acc : β}
    {body : Nat → β → Program ρ σ ω ε β} (iteration : ∀ i b, Keeps rely I guar (body i b)) :
    Keeps rely I guar (foldRange first count acc body) := by
  induction count generalizing first acc with
  | zero => exact Keeps.pure acc
  | succ count ih =>
      apply Keeps.bind (iteration first acc)
      intro b
      exact ih

/-- Invariant rule of the counted loop. The invariant sees the loop index, the
accumulator and the state; a stop inside the body ends the loop with `E`. -/
theorem foldRange_satisfies {J : Nat → β → σ → Prop} {E : ε → σ → Prop} {r : ρ}
    {first count : Nat} {acc : β} {body : Nat → β → Program ρ σ ω ε β} {s : σ}
    (start : J first acc s)
    (iteration : ∀ i b t, first ≤ i → i < first + count → J i b t →
      ((body i b).run r t).Satisfies (fun b' t' _ => J (i + 1) b' t') (fun e t' _ => E e t')) :
    ((foldRange first count acc body).run r s).Satisfies
      (fun b t _ => J (first + count) b t) (fun e t _ => E e t) := by
  induction count generalizing first acc s with
  | zero => exact start
  | succ count ih =>
      have head := iteration first acc s (Nat.le_refl _) (by omega) start
      apply Outcome.Satisfies.andThen head
      intro b t es middle
      have tail := ih middle fun i b t hi hlt => iteration i b t (by omega) (by omega)
      rw [Nat.add_right_comm] at tail
      exact tail

/-- The invariant rule for a loop that only acts on the state. -/
theorem forRange_satisfies {J : Nat → σ → Prop} {E : ε → σ → Prop} {r : ρ} {first count : Nat}
    {body : Nat → Program ρ σ ω ε Unit} {s : σ} (start : J first s)
    (iteration : ∀ i t, first ≤ i → i < first + count → J i t →
      ((body i).run r t).Satisfies (fun _ t' _ => J (i + 1) t') (fun e t' _ => E e t')) :
    ((forRange first count body).run r s).Satisfies
      (fun _ t _ => J (first + count) t) (fun e t _ => E e t) :=
  foldRange_satisfies (J := fun i _ t => J i t) start fun i _ t => iteration i t

end Loops

section Meets

/-- Started in a state that satisfies `P`: every event satisfies `guar`, a return is one with
a value and in a state that satisfy `Q`, and a stop one that satisfies `E`. -/
def Meets (P : σ → Prop) (guar : ω → Prop) (m : Program ρ σ ω ε α) (Q : α → σ → Prop)
    (E : ε → σ → Prop) : Prop :=
  ∀ r s, P s → (m.run r s).Satisfies (fun a t es => Q a t ∧ ∀ e ∈ es, guar e)
    (fun e t es => E e t ∧ ∀ ev ∈ es, guar ev)

variable {P : σ → Prop} {Q : α → σ → Prop} {R : β → σ → Prop} {E : ε → σ → Prop}

protected theorem Meets.pure {a : α} (h : ∀ s, P s → Q a s) :
    Meets P guar (pure a : Program ρ σ ω ε α) Q E :=
  fun _ s hs => ⟨h s hs, by simp⟩

protected theorem Meets.stop {e : ε} (h : ∀ s, P s → E e s) :
    Meets P guar (stop e : Program ρ σ ω ε α) Q E :=
  fun _ s hs => ⟨h s hs, by simp⟩

protected theorem Meets.get : Meets P guar (get : Program ρ σ ω ε σ) (fun _ => P) E :=
  fun _ _ hs => ⟨hs, by simp⟩

protected theorem Meets.ask : Meets P guar (ask : Program ρ σ ω ε ρ) (fun _ => P) E :=
  fun _ _ hs => ⟨hs, by simp⟩

protected theorem Meets.modify {f : σ → σ} {Q : PUnit → σ → Prop} (h : ∀ s, P s → Q ⟨⟩ (f s)) :
    Meets P guar (modify f : Program ρ σ ω ε PUnit) Q E :=
  fun _ s hs => ⟨h s hs, by simp⟩

protected theorem Meets.emit {es : List ω} (h : ∀ e ∈ es, guar e) :
    Meets P guar (emit es : Program ρ σ ω ε Unit) (fun _ => P) E :=
  fun _ _ hs => ⟨hs, h⟩

protected theorem Meets.bind {m : Program ρ σ ω ε α} {f : α → Program ρ σ ω ε β}
    (first : Meets P guar m Q E) (next : ∀ a, Meets (Q a) guar (f a) R E) :
    Meets P guar (m >>= f) R E := by
  intro r s hs
  rw [run_bind]
  have head := first r s hs
  cases run : m.run r s with
  | stopped e t es =>
      rw [run] at head
      exact head
  | done a t es =>
      rw [run] at head
      rw [Outcome.andThen_done, Outcome.satisfies_prepend]
      refine (next a r t head.1).mono ?_ ?_
      · exact fun b u fs final => ⟨final.1, List.forall_mem_append.mpr ⟨head.2, final.2⟩⟩
      · exact fun e u fs final => ⟨final.1, List.forall_mem_append.mpr ⟨head.2, final.2⟩⟩

/-- A continuation that starts by reading the state knows what it read. -/
protected theorem Meets.read_bind {f : σ → Program ρ σ ω ε α}
    (next : ∀ s, P s → Meets (fun t => t = s) guar (f s) Q E) :
    Meets P guar (get >>= f : Program ρ σ ω ε α) Q E := by
  intro r s hs
  rw [run_bind, run_get, Outcome.andThen_done, Outcome.prepend_nil]
  exact next s hs r s rfl

/-- A continuation that starts by reading a state that satisfies `P`. -/
protected theorem Meets.get_bind {f : σ → Program ρ σ ω ε α}
    (next : ∀ s, P s → Meets P guar (f s) Q E) :
    Meets P guar (get >>= f : Program ρ σ ω ε α) Q E := by
  refine .read_bind fun s hs r t same => next s hs r t ?_
  rw [same]
  exact hs

protected theorem Meets.ite {c : Prop} [Decidable c] {yes no : Program ρ σ ω ε α}
    (ifTrue : c → Meets P guar yes Q E) (ifFalse : ¬ c → Meets P guar no Q E) :
    Meets P guar (if c then yes else no) Q E := by
  split
  · exact ifTrue ‹_›
  · exact ifFalse ‹_›

protected theorem Meets.foldRange {first count : Nat} {acc : β}
    {body : Nat → β → Program ρ σ ω ε β}
    (iteration : ∀ i b, first ≤ i → i < first + count →
      Meets P guar (body i b) (fun _ => P) E) :
    Meets P guar (foldRange first count acc body) (fun _ => P) E := by
  induction count generalizing first acc with
  | zero => exact .pure fun _ hs => hs
  | succ count ih =>
      refine .bind (iteration first acc (Nat.le_refl _) (by omega)) fun b => ih fun i b le lt => ?_
      exact iteration i b (by omega) (by omega)

protected theorem Meets.forRange {first count : Nat} {body : Nat → Program ρ σ ω ε Unit}
    (iteration : ∀ i, first ≤ i → i < first + count → Meets P guar (body i) (fun _ => P) E) :
    Meets P guar (forRange first count body) (fun _ => P) E :=
  .foldRange fun i _ => iteration i

/-- Consequence. -/
theorem Meets.mono {guar' : ω → Prop} {P' : σ → Prop} {Q' : α → σ → Prop} {E' : ε → σ → Prop}
    {m : Program ρ σ ω ε α} (h : Meets P guar m Q E) (pre : ∀ s, P' s → P s)
    (events : ∀ e, guar e → guar' e) (post : ∀ a s, Q a s → Q' a s)
    (halt : ∀ e s, E e s → E' e s) : Meets P' guar' m Q' E' := by
  intro r s hs
  refine (h r s (pre s hs)).mono ?_ ?_
  · exact fun a t es final => ⟨post a t final.1, fun e member => events e (final.2 e member)⟩
  · exact fun e t es final => ⟨halt e t final.1, fun ev member => events ev (final.2 ev member)⟩

theorem Meets.mono_pre {P' : σ → Prop} {m : Program ρ σ ω ε α} (h : Meets P guar m Q E)
    (pre : ∀ s, P' s → P s) : Meets P' guar m Q E :=
  h.mono pre (fun _ he => he) (fun _ _ hq => hq) fun _ _ he => he

/-- Without the stops, the judgment is one of `Ensures`. -/
theorem Meets.ensures {m : Program ρ σ ω ε α} (h : Meets P guar m Q E) :
    Ensures rely P guar m Q :=
  .of_satisfies fun r s hs => (h r s hs).mono (fun _ _ _ final => final) fun _ _ _ final => final.2

/-- The events of a run. -/
theorem Meets.events {m : Program ρ σ ω ε α} (h : Meets P guar m Q E) (r : ρ) {s : σ}
    (hs : P s) : ∀ e ∈ (m.run r s).events, guar e :=
  (h r s hs).events (fun _ _ _ final => final.2) fun _ _ _ final => final.2

end Meets

section Emits

/-- Whatever state the program starts in, its events satisfy `guar`. -/
abbrev Emits (guar : ω → Prop) (m : Program ρ σ ω ε α) : Prop :=
  Meets (fun _ => True) guar m (fun _ _ => True) fun _ _ => True

protected theorem Emits.pure (a : α) : Emits guar (pure a : Program ρ σ ω ε α) :=
  Meets.pure fun _ _ => trivial

protected theorem Emits.stop (e : ε) : Emits guar (stop e : Program ρ σ ω ε α) :=
  Meets.stop fun _ _ => trivial

protected theorem Emits.get : Emits guar (get : Program ρ σ ω ε σ) := Meets.get

protected theorem Emits.ask : Emits guar (ask : Program ρ σ ω ε ρ) := Meets.ask

protected theorem Emits.modify (f : σ → σ) : Emits guar (modify f : Program ρ σ ω ε PUnit) :=
  Meets.modify fun _ _ => trivial

protected theorem Emits.emit {es : List ω} (h : ∀ e ∈ es, guar e) :
    Emits guar (emit es : Program ρ σ ω ε Unit) :=
  Meets.emit h

protected theorem Emits.bind {m : Program ρ σ ω ε α} {f : α → Program ρ σ ω ε β}
    (first : Emits guar m) (next : ∀ a, Emits guar (f a)) : Emits guar (m >>= f) :=
  Meets.bind first next

protected theorem Emits.ite {c : Prop} [Decidable c] {yes no : Program ρ σ ω ε α}
    (ifTrue : Emits guar yes) (ifFalse : Emits guar no) :
    Emits guar (if c then yes else no) :=
  Meets.ite (fun _ => ifTrue) fun _ => ifFalse

protected theorem Emits.foldRange {first count : Nat} {acc : β}
    {body : Nat → β → Program ρ σ ω ε β} (iteration : ∀ i b, Emits guar (body i b)) :
    Emits guar (foldRange first count acc body) :=
  Meets.foldRange fun i b _ _ => iteration i b

protected theorem Emits.forRange {first count : Nat} {body : Nat → Program ρ σ ω ε Unit}
    (iteration : ∀ i, Emits guar (body i)) : Emits guar (forRange first count body) :=
  .foldRange fun i _ => iteration i

theorem Emits.events {m : Program ρ σ ω ε α} (h : Emits guar m) (r : ρ) (s : σ) :
    ∀ e ∈ (m.run r s).events, guar e :=
  Meets.events h r trivial

end Emits
end Program
end Transcript
