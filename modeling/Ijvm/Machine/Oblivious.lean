import Ijvm.Machine.Twins

/-!
# Programs that never read old marks

The collector fills the table of marks anew before it reads any, so what an earlier
collection has left there never shows. `Oblivious` says so of a program, as a statement
about two runs, together with which events it can write; the two connections of the
interpreter to another machine are the only sources of transfers.
-/

namespace Ijvm

open Transcript Program

/-- The states differ at most in the table of marks. -/
def State.SameButMarks (s t : State) : Prop := ∃ marks, t = { s with markedArrays := marks }

/-- The same event, up to old marks at the entry of the collector. -/
inductive Event.Alike (ok : Event → Prop) : Event → Event → Prop where
  | gc {s t : State} (same : s.SameButMarks t) : Alike ok (.gc s) (.gc t)
  | same {e : Event} (h : ok e) : Alike ok e e

/-- The program does not read old marks, and its events satisfy `ok`. -/
abbrev Oblivious {α : Type} (ok : Event → Prop) (m : VM α) : Prop :=
  Respects State.SameButMarks (Event.Alike ok) m

namespace Oblivious

variable {α β : Type} {ok : Event → Prop}

protected theorem pure (a : α) : Oblivious ok (pure a : VM α) := Agrees.pure fun _ _ h => h

protected theorem stop (e : Stop) : Oblivious ok (Program.stop e : VM α) :=
  Agrees.stop fun _ _ h => h

protected theorem bind {m : VM α} {f : α → VM β} (first : Oblivious ok m)
    (next : ∀ a, Oblivious ok (f a)) : Oblivious ok (m >>= f) :=
  Agrees.bind first next

protected theorem ite {c : Prop} [Decidable c] {yes no : VM α} (ifTrue : Oblivious ok yes)
    (ifFalse : Oblivious ok no) : Oblivious ok (if c then yes else no) :=
  Agrees.ite (fun _ => ifTrue) fun _ => ifFalse

/-- The continuation of a read ignores the marks. -/
protected theorem get_bind {f : State → VM α}
    (same : ∀ s marks, f s = f { s with markedArrays := marks })
    (next : ∀ s, Oblivious ok (f s)) : Oblivious ok (get >>= f : VM α) := by
  refine Agrees.get_bind ?_ next
  rintro s _ ⟨marks, rfl⟩
  exact same s marks

protected theorem modify {f : State → State}
    (same : ∀ s marks, f { s with markedArrays := marks } = { f s with markedArrays := marks }) :
    Oblivious ok (modify f : VM PUnit) := by
  refine Agrees.modify ?_
  rintro s _ ⟨marks, rfl⟩
  exact ⟨marks, same s marks⟩

protected theorem emit {es : List Event} (h : ∀ e ∈ es, ok e) :
    Oblivious ok (Program.emit es : VM Unit) :=
  Agrees.emit fun e member => .same (h e member)

/-- Hidden marks, in two states with the same flag. -/
theorem of_unseen {m : VM α} (h : ∀ w, Unseen True w w ok m) : Oblivious ok m := by
  have marksOnly {w : Bool} {s t : State} (twins : State.Twins True w w s t) :
      s.SameButMarks t := by
    obtain ⟨marks, _, rfl, rfl⟩ := twins
    exact ⟨marks, rfl⟩
  rintro env s _ ⟨marks, rfl⟩
  refine (h s.nextOpWide env s _ ⟨marks, Or.inl trivial, rfl, rfl⟩).mono
    (fun _ _ _ twins => marksOnly twins) (fun _ _ twins => marksOnly twins) ?_
  rintro _ _ (same | allowed)
  · exact .gc (marksOnly same)
  · exact .same allowed

/-- The events of a run. -/
theorem events {m : VM α} (h : Oblivious Event.local m) (env : Env) (s : State) :
    ∀ e ∈ (m.run env s).events, e.local := by
  intro e member
  have related := (h env s s ⟨s.markedArrays, rfl⟩).events e member
  cases related with
  | gc same => trivial
  | same h => exact h

end Oblivious

section Instructions

theorem stackPush_oblivious (e : Word) : Oblivious Event.local (stackPush e) :=
  .of_unseen fun _ => stackPush_unseen e

/-- Only NETIN and NETOUT move data. -/
theorem execOp_oblivious (nested : VM Bool) {op : Op} (unprefixed : op ≠ .wide)
    (elsewhere : op ≠ .netin ∧ op ≠ .netout) : Oblivious Event.local (execOp nested op) :=
  .of_unseen fun _ => execOp_unseen nested unprefixed elsewhere fun _ => rfl

/-- No instruction reads old marks. -/
theorem execOp_oblivious_all {nested : VM Bool} (inner : Oblivious (fun _ => True) nested)
    (op : Op) : Oblivious (fun _ => True) (execOp nested op) := by
  by_cases wide : op = .wide
  · subst wide
    exact .bind (.modify fun _ _ => rfl) fun _ => .bind inner fun _ => .modify fun _ _ => rfl
  · exact .of_unseen fun _ => execOp_unseen_all nested wide fun _ => rfl

theorem step_oblivious : Oblivious (fun _ => True) step := by
  have fetch : Oblivious (fun _ => True) fetchOp :=
    .get_bind (fun _ _ => rfl) fun _ => .bind (.emit fun _ _ => trivial) fun _ =>
      .ite (.stop _) (.bind (.modify fun _ _ => rfl) fun _ => .pure _)
  have turns (fuel : Nat) : Oblivious (fun _ => True) (stepFuel fuel) := by
    induction fuel with
    | zero => exact .stop _
    | succ fuel ih =>
        refine .bind fetch fun op => ?_
        cases decoded : Op.ofByte? op with
        | none =>
            rw [dispatch_none decoded]
            exact .bind (.modify fun _ _ => rfl) fun _ => .pure _
        | some op =>
            rw [dispatch_some decoded]
            exact .bind (execOp_oblivious_all ih op) fun _ => .pure _
  exact .get_bind (fun _ _ => rfl) fun _ => turns _

/-- The instruction of a step that returns; what precedes it moves no data. -/
theorem instruction_of_step {env : Env} {s t : State} {a : Int} {op : Op} {b : Bool}
    {es : List Event} (h : s.Executes a op) (run : step.run env s = .done b t es) :
    ∃ t' fetches es', (execOp (pure true) op).run env (s.atOp a) = .done () t' es' ∧
      es = fetches ++ es' ∧ t.gCpu = t'.gCpu ∧ ∀ e ∈ fetches, e.local := by
  obtain ⟨fetches, codes, unfolded⟩ := step_run env h.found
  rw [unfolded, execAt_run h] at run
  cases exec : (execOp (pure true) op).run env (s.atOp a) with
  | stopped r u fs =>
      rw [exec] at run
      contradiction
  | done v u fs =>
      obtain ⟨flag, ending⟩ := endOfStep_done s.gCpu.pc a true u
      rw [exec, Outcome.andThen_done, Outcome.prepend_done, List.append_nil, Outcome.andThen_done,
        ending] at run
      simp only [Outcome.prepend_done, List.append_nil] at run
      injection run with _ state events
      subst state events
      refine ⟨u, fetches, fs, rfl, rfl, rfl, ?_⟩
      intro e member
      obtain ⟨i, rfl, _⟩ := codes e member
      trivial

/-- A step that executes neither NETIN nor NETOUT moves no data. -/
theorem step_local {env : Env} {s t : State} {b : Bool} {es : List Event}
    (run : step.run env s = .done b t es)
    (elsewhere : ∀ a, ¬ s.Executes a .netin ∧ ¬ s.Executes a .netout) : ∀ e ∈ es, e.local := by
  obtain ⟨a, b', t', fetches, es', found, codes, exec, rfl, _⟩ := step_done run
  have silent : ∀ e ∈ es', e.local := by
    have events : ∀ e ∈ ((execAt s.gCpu a).run env (s.atOp a)).events, e.local := by
      rw [execAt]
      cases decoded : Op.ofByte? (s.gCpu.codeMem a) with
      | none => simp [dispatch_none decoded, modifyCpu]
      | some op =>
          rw [dispatch_some decoded]
          have executes : s.Executes a op := ⟨found, decoded⟩
          apply Oblivious.events
          refine .bind (execOp_oblivious _ executes.unprefixed ⟨?_, ?_⟩) fun _ => .pure _
          · rintro rfl
            exact (elsewhere a).1 executes
          · rintro rfl
            exact (elsewhere a).2 executes
    rw [exec] at events
    exact events
  intro e member
  obtain early | late := List.mem_append.mp member
  · obtain ⟨i, rfl, _⟩ := codes e early
    trivial
  · exact silent e late

end Instructions

end Ijvm
