import Ijvm.Machine.Decode
import Ijvm.Machine.Launch
import Ijvm.Transitions.Steps

/-!
# Turns of the loop of `run`

`turn` is one turn of the loop, and `advance (turn env)` are several. A turn is the
instruction that it executes, together with the end of a step: the reset of the WIDE flag
if there was a prefix.
-/

namespace Ijvm

open Transcript Program Transitions

/-- The state that a step leaves whose instruction, with its opcode at `a`, left `t`. -/
def State.settled (s : State) (a : Int) (t : State) : State :=
  if a = s.gCpu.pc then t else { t with nextOpWide := false }

section Turn

variable {env : Env} {s t : State} {a : Int} {op : Op}

theorem endOfStep_settled (b : Bool) :
    endOfStep s.gCpu.pc a b t = .done (b || decide (a ≠ s.gCpu.pc)) (s.settled a t) [] := by
  unfold endOfStep State.settled
  split
  · rename_i here
    simp [here]
  · rename_i away
    simp [away]

/-- The end of a step changes the WIDE flag at most. -/
theorem State.settled_eq (s : State) (a : Int) (t : State) :
    s.settled a t = { t with nextOpWide := (s.settled a t).nextOpWide } := by
  unfold State.settled
  split
  · rfl
  · rfl

@[simp] theorem State.gCpu_settled : (s.settled a t).gCpu = t.gCpu := by
  rw [State.settled_eq]

theorem turn_of_running (running : finished s.gCpu = false) :
    turn env s = match step.run env s with
      | .done _ t _ => some t
      | .stopped .. => none := by
  rw [turn, running]
  rfl

/-- A turn executes one instruction. -/
theorem turn_eq_some_iff (running : finished s.gCpu = false) (executes : s.Executes a op) :
    turn env s = some t ↔ ∃ u es,
      (execOp (pure true) op).run env (s.atOp a) = .done () u es ∧ t = s.settled a u := by
  obtain ⟨fetches, _, run⟩ := step_run env executes.found
  rw [turn_of_running running, run, execAt_run executes]
  cases (execOp (pure true) op).run env (s.atOp a) with
  | stopped r u es =>
      refine iff_of_false nofun ?_
      rintro ⟨_, _, absurd, _⟩
      contradiction
  | done x u es =>
      rw [Outcome.andThen_done, Outcome.prepend_done, Outcome.andThen_done, endOfStep_settled]
      constructor
      · intro same
        exact ⟨u, es, rfl, (Option.some.inj same).symm⟩
      · rintro ⟨_, _, same, rfl⟩
        injection same with _ state
        rw [← state]
        rfl

/-- A byte that is no opcode only sets the error flag. -/
theorem turn_of_unknown (running : finished s.gCpu = false) (found : s.gCpu.opAddr? = some a)
    (unknown : Op.ofByte? (s.gCpu.codeMem a) = none) :
    turn env s = some (s.settled a { s.atOp a with
      gCpu := { (s.atOp a).gCpu with errorFlag := true } }) := by
  obtain ⟨fetches, _, run⟩ := step_run env found
  rw [turn_of_running running, run, execAt, dispatch_none unknown]
  simp only [run_bind, run_modifyCpu, Outcome.andThen_done, run_pure, endOfStep_settled,
    Outcome.prepend_done]

/-- Without an opcode behind the prefixes there is no further turn. -/
theorem turn_of_missing (missing : s.gCpu.opAddr? = none) : turn env s = none := by
  obtain ⟨u, es, run, _⟩ := step_stops env missing
  unfold turn
  split
  · rfl
  · rw [run]

/-- What a turn can be: an instruction, or a byte that is no opcode. -/
theorem turn_cases (taken : turn env s = some t) :
    ∃ a, s.gCpu.opAddr? = some a ∧ finished s.gCpu = false ∧
      ((∃ op u es, s.Executes a op ∧
          (execOp (pure true) op).run env (s.atOp a) = .done () u es ∧ t = s.settled a u) ∨
        (Op.ofByte? (s.gCpu.codeMem a) = none ∧ t = s.settled a { s.atOp a with
          gCpu := { (s.atOp a).gCpu with errorFlag := true } })) := by
  have running := (turn_eq_some taken).1
  cases found : s.gCpu.opAddr? with
  | none =>
      rw [turn_of_missing found] at taken
      contradiction
  | some a =>
      refine ⟨a, rfl, running, ?_⟩
      cases decoded : Op.ofByte? (s.gCpu.codeMem a) with
      | none =>
          rw [turn_of_unknown running found decoded] at taken
          exact Or.inr ⟨rfl, (Option.some.inj taken).symm⟩
      | some op =>
          have executes : s.Executes a op := ⟨found, decoded⟩
          obtain ⟨u, es, exec, same⟩ := (turn_eq_some_iff running executes).mp taken
          exact Or.inl ⟨op, u, es, executes, exec, same⟩

end Turn

/-- The states of `after` are those of a run from the first of them. -/
theorem after_eq_steps (env : Env) (file : List Byte) (n : Nat) :
    after env file n = (after env file 0).bind (advance (turn env) n) := by
  induction n with
  | zero => cases after env file 0 <;> rfl
  | succ n ih =>
      have last : after env file (n + 1) = (after env file n).bind (turn env) := rfl
      rw [last, ih, Option.bind_assoc]
      congr 1
      funext s
      rw [advance_succ_last]

theorem advance_of_after {env : Env} {file : List Byte} {n : Nat} {s₀ s : State}
    (started : after env file 0 = some s₀) (reached : after env file n = some s) :
    advance (turn env) n s₀ = some s := by
  rwa [after_eq_steps, started, Option.bind_some] at reached

end Ijvm
