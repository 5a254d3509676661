import Mathlib.Data.List.Basic

/-!
# Programs that may stop and that keep a transcript

A `Program` reads an environment, updates a state, and either returns a value or
stops for good with a reason. Along the way it writes events into a transcript.
The transcript is an output: no program can read it, so two programs that differ
only in the events they emit compute the same values and states.

Stopping is final. `bind` never runs its continuation after a stop, and the state
and the transcript at the moment of the stop stay observable.
-/

namespace Transcript

/-- How a program ends: with a value or with a reason to stop. Both keep the last
state and the events emitted so far. -/
inductive Outcome (σ ω ε α : Type) where
  | done (value : α) (state : σ) (events : List ω)
  | stopped (reason : ε) (state : σ) (events : List ω)

namespace Outcome

variable {σ ω ε α β : Type}

def state : Outcome σ ω ε α → σ
  | done _ s _ => s
  | stopped _ s _ => s

def events : Outcome σ ω ε α → List ω
  | done _ _ es => es
  | stopped _ _ es => es

def isDone : Outcome σ ω ε α → Bool
  | done .. => true
  | stopped .. => false

/-- The returned value, if the program did not stop. -/
def value? : Outcome σ ω ε α → Option α
  | done a _ _ => some a
  | stopped .. => none

/-- The reason for a stop. -/
def reason? : Outcome σ ω ε α → Option ε
  | done .. => none
  | stopped e _ _ => some e

/-- Put earlier events in front of the transcript of an outcome. -/
def prepend (es : List ω) : Outcome σ ω ε α → Outcome σ ω ε α
  | done a s fs => done a s (es ++ fs)
  | stopped e s fs => stopped e s (es ++ fs)

/-- Continue after a returned value; a stop stays as it is. -/
def andThen (o : Outcome σ ω ε α) (f : α → σ → Outcome σ ω ε β) : Outcome σ ω ε β :=
  match o with
  | done a s es => (f a s).prepend es
  | stopped e s es => stopped e s es

/-- The same end in a larger state, with its events translated. -/
def embed {σ' ω' : Type} (put : σ → σ') (tag : ω → ω') : Outcome σ ω ε α → Outcome σ' ω' ε α
  | done a s es => done a (put s) (es.map tag)
  | stopped e s es => stopped e (put s) (es.map tag)

@[simp] theorem embed_done {σ' ω' : Type} (put : σ → σ') (tag : ω → ω') (a : α) (s : σ)
    (es : List ω) :
    (done a s es : Outcome σ ω ε α).embed put tag = done a (put s) (es.map tag) := rfl

@[simp] theorem embed_stopped {σ' ω' : Type} (put : σ → σ') (tag : ω → ω') (e : ε) (s : σ)
    (es : List ω) :
    (stopped e s es : Outcome σ ω ε α).embed put tag = stopped e (put s) (es.map tag) := rfl

@[simp] theorem state_done (a : α) (s : σ) (es : List ω) :
    (done a s es : Outcome σ ω ε α).state = s := rfl

@[simp] theorem state_stopped (e : ε) (s : σ) (es : List ω) :
    (stopped e s es : Outcome σ ω ε α).state = s := rfl

@[simp] theorem events_done (a : α) (s : σ) (es : List ω) :
    (done a s es : Outcome σ ω ε α).events = es := rfl

@[simp] theorem events_stopped (e : ε) (s : σ) (es : List ω) :
    (stopped e s es : Outcome σ ω ε α).events = es := rfl

@[simp] theorem prepend_done (es : List ω) (a : α) (s : σ) (fs : List ω) :
    (done a s fs : Outcome σ ω ε α).prepend es = done a s (es ++ fs) := rfl

@[simp] theorem prepend_stopped (es : List ω) (e : ε) (s : σ) (fs : List ω) :
    (stopped e s fs : Outcome σ ω ε α).prepend es = stopped e s (es ++ fs) := rfl

@[simp] theorem state_prepend (es : List ω) (o : Outcome σ ω ε α) :
    (o.prepend es).state = o.state := by
  cases o <;> rfl

@[simp] theorem value?_prepend (es : List ω) (o : Outcome σ ω ε α) :
    (o.prepend es).value? = o.value? := by
  cases o <;> rfl

@[simp] theorem events_prepend (es : List ω) (o : Outcome σ ω ε α) :
    (o.prepend es).events = es ++ o.events := by
  cases o <;> rfl

@[simp] theorem prepend_nil (o : Outcome σ ω ε α) : o.prepend [] = o := by
  cases o <;> rfl

@[simp] theorem isDone_done (a : α) (s : σ) (es : List ω) :
    (done a s es : Outcome σ ω ε α).isDone = true := rfl

@[simp] theorem isDone_stopped (e : ε) (s : σ) (es : List ω) :
    (stopped e s es : Outcome σ ω ε α).isDone = false := rfl

@[simp] theorem isDone_prepend (es : List ω) (o : Outcome σ ω ε α) :
    (o.prepend es).isDone = o.isDone := by
  cases o <;> rfl

theorem isDone_iff {o : Outcome σ ω ε α} : o.isDone = true ↔ ∃ a s es, o = .done a s es := by
  cases o with
  | done a s es => simp
  | stopped e s es => simp

/-- An outcome with a value has returned it. -/
theorem eq_done_of_value? {o : Outcome σ ω ε α} {a : α} (h : o.value? = some a) :
    o = .done a o.state o.events := by
  cases o with
  | stopped e s es => contradiction
  | done b s es =>
      injection h with same
      rw [same, state_done, events_done]

theorem eq_stopped_of_reason? {o : Outcome σ ω ε α} {e : ε} (h : o.reason? = some e) :
    o = .stopped e o.state o.events := by
  cases o with
  | done a s es => contradiction
  | stopped e' s es =>
      injection h with same
      rw [same]
      rfl

theorem prepend_eq_done {o : Outcome σ ω ε α} {es fs : List ω} {a : α} {s : σ} :
    o.prepend es = done a s fs ↔ ∃ gs, o = done a s gs ∧ fs = es ++ gs := by
  cases o with
  | done b t gs =>
      simp only [prepend, done.injEq]
      constructor
      · rintro ⟨rfl, rfl, rfl⟩
        exact ⟨gs, ⟨rfl, rfl, rfl⟩, rfl⟩
      · rintro ⟨_, ⟨rfl, rfl, rfl⟩, rfl⟩
        exact ⟨rfl, rfl, rfl⟩
  | stopped e t gs => simp [prepend]

theorem prepend_eq_stopped {o : Outcome σ ω ε α} {es fs : List ω} {e : ε} {s : σ} :
    o.prepend es = stopped e s fs ↔ ∃ gs, o = stopped e s gs ∧ fs = es ++ gs := by
  cases o with
  | done b t gs => simp [prepend]
  | stopped e' t gs =>
      simp only [prepend, stopped.injEq]
      constructor
      · rintro ⟨rfl, rfl, rfl⟩
        exact ⟨gs, ⟨rfl, rfl, rfl⟩, rfl⟩
      · rintro ⟨_, ⟨rfl, rfl, rfl⟩, rfl⟩
        exact ⟨rfl, rfl, rfl⟩

theorem prepend_prepend (es fs : List ω) (o : Outcome σ ω ε α) :
    (o.prepend fs).prepend es = o.prepend (es ++ fs) := by
  cases o <;> simp [List.append_assoc]

@[simp] theorem andThen_done (a : α) (s : σ) (es : List ω)
    (f : α → σ → Outcome σ ω ε β) :
    (done a s es : Outcome σ ω ε α).andThen f = (f a s).prepend es := rfl

@[simp] theorem andThen_stopped (e : ε) (s : σ) (es : List ω)
    (f : α → σ → Outcome σ ω ε β) :
    (stopped e s es : Outcome σ ω ε α).andThen f = stopped e s es := rfl

theorem prepend_andThen (es : List ω) (o : Outcome σ ω ε α) (f : α → σ → Outcome σ ω ε β) :
    (o.prepend es).andThen f = (o.andThen f).prepend es := by
  cases o with
  | done a s fs => simp [prepend_prepend]
  | stopped e s fs => rfl

theorem mem_events_andThen {o : Outcome σ ω ε α} {f : α → σ → Outcome σ ω ε β} {e : ω}
    (member : e ∈ o.events) : e ∈ (o.andThen f).events := by
  cases o with
  | stopped r s es => exact member
  | done a s es =>
      rw [andThen_done, events_prepend]
      exact List.mem_append_left _ member

end Outcome

/-- A computation over an environment `ρ`, a state `σ`, events `ω` and stop
reasons `ε`. -/
structure Program (ρ σ ω ε α : Type) where
  run : ρ → σ → Outcome σ ω ε α

namespace Program

variable {ρ σ ω ε α β : Type}

instance : Monad (Program ρ σ ω ε) where
  pure a := ⟨fun _ s => .done a s []⟩
  bind m f := ⟨fun r s => (m.run r s).andThen fun a t => (f a).run r t⟩

instance : MonadStateOf σ (Program ρ σ ω ε) where
  get := ⟨fun _ s => .done s s []⟩
  set t := ⟨fun _ _ => .done ⟨⟩ t []⟩
  modifyGet f := ⟨fun _ s => .done (f s).1 (f s).2 []⟩

def ask : Program ρ σ ω ε ρ := ⟨fun r s => .done r s []⟩

def emit (es : List ω) : Program ρ σ ω ε Unit := ⟨fun _ s => .done () s es⟩

/-- Stop for good. The result type is arbitrary: nothing runs afterwards. -/
def stop (e : ε) : Program ρ σ ω ε α := ⟨fun _ s => .stopped e s []⟩

@[ext] theorem ext {m n : Program ρ σ ω ε α} (h : ∀ r s, m.run r s = n.run r s) : m = n := by
  cases m
  cases n
  congr
  funext r s
  exact h r s

@[simp] theorem run_pure (a : α) (r : ρ) (s : σ) :
    (pure a : Program ρ σ ω ε α).run r s = .done a s [] := rfl

@[simp] theorem run_bind (m : Program ρ σ ω ε α) (f : α → Program ρ σ ω ε β) (r : ρ) (s : σ) :
    (m >>= f).run r s = (m.run r s).andThen fun a t => (f a).run r t := rfl

@[simp] theorem run_map (f : α → β) (m : Program ρ σ ω ε α) (r : ρ) (s : σ) :
    (f <$> m).run r s = (m.run r s).andThen fun a t => .done (f a) t [] := rfl

@[simp] theorem run_get (r : ρ) (s : σ) :
    (get : Program ρ σ ω ε σ).run r s = .done s s [] := rfl

@[simp] theorem run_set (t : σ) (r : ρ) (s : σ) :
    (set t : Program ρ σ ω ε PUnit).run r s = .done ⟨⟩ t [] := rfl

@[simp] theorem run_modify (f : σ → σ) (r : ρ) (s : σ) :
    (modify f : Program ρ σ ω ε PUnit).run r s = .done ⟨⟩ (f s) [] := rfl

@[simp] theorem run_ask (r : ρ) (s : σ) :
    (ask : Program ρ σ ω ε ρ).run r s = .done r s [] := rfl

@[simp] theorem run_emit (es : List ω) (r : ρ) (s : σ) :
    (emit es : Program ρ σ ω ε Unit).run r s = .done () s es := rfl

@[simp] theorem run_stop (e : ε) (r : ρ) (s : σ) :
    (stop e : Program ρ σ ω ε α).run r s = .stopped e s [] := rfl

private theorem id_map_program (m : Program ρ σ ω ε α) : id <$> m = m := by
  ext r s
  change (m.run r s).andThen (fun a t => .done a t []) = m.run r s
  cases m.run r s <;> simp

private theorem pure_bind_program (a : α) (f : α → Program ρ σ ω ε β) :
    pure a >>= f = f a := by
  ext r s
  simp

private theorem bind_assoc_program {γ : Type} (m : Program ρ σ ω ε α)
    (f : α → Program ρ σ ω ε β) (g : β → Program ρ σ ω ε γ) :
    m >>= f >>= g = m >>= fun a => f a >>= g := by
  ext r s
  simp only [run_bind]
  cases m.run r s with
  | stopped e t es => rfl
  | done a t es =>
      simp only [Outcome.andThen_done]
      cases (f a).run r t with
      | stopped e u fs => rfl
      | done b u fs => simp [Outcome.prepend_prepend]

instance : LawfulMonad (Program ρ σ ω ε) :=
  LawfulMonad.mk' _ id_map_program pure_bind_program bind_assoc_program

/-- Run a program on a component of a larger state, and translate its events. The
translation can depend on the state in which the program starts. -/
def zoom {ρ' σ' ω' : Type} (env : ρ' → ρ) (view : σ' → σ) (put : σ' → σ → σ')
    (tag : σ' → ω → ω') (m : Program ρ σ ω ε α) : Program ρ' σ' ω' ε α where
  run r x := (m.run (env r) (view x)).embed (put x) (tag x)

/-- The second part starts where the first one returned. -/
theorem run_bind_of_done {m : Program ρ σ ω ε α} (f : α → Program ρ σ ω ε β) {r : ρ} {s t : σ}
    {a : α} {es : List ω} (first : m.run r s = .done a t es) :
    (m >>= f).run r s = ((f a).run r t).prepend es := by
  rw [run_bind, first, Outcome.andThen_done]

/-- A sequence returns exactly when both parts do; their transcripts are joined. -/
theorem run_bind_done {m : Program ρ σ ω ε α} {f : α → Program ρ σ ω ε β} {r : ρ} {s t : σ}
    {b : β} {es : List ω} :
    (m >>= f).run r s = .done b t es ↔
      ∃ a u es₁ es₂, m.run r s = .done a u es₁ ∧ (f a).run r u = .done b t es₂ ∧
        es = es₁ ++ es₂ := by
  rw [run_bind]
  constructor
  · intro h
    cases first : m.run r s with
    | stopped e u fs => simp [first] at h
    | done a u es₁ =>
        rw [first, Outcome.andThen_done] at h
        cases second : (f a).run r u with
        | stopped e v fs => simp [second] at h
        | done c v es₂ =>
            rw [second, Outcome.prepend_done] at h
            injection h with hb ht hes
            subst hb ht hes
            exact ⟨a, u, es₁, es₂, rfl, second, rfl⟩
  · rintro ⟨a, u, es₁, es₂, first, second, rfl⟩
    simp [first, second]

end Program
end Transcript
