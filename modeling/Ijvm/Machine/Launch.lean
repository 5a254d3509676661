import Ijvm.Machine.Init

/-!
# Binaries, and the states that a binary can reach

`Reachable env file` is every state that the loop of `run` passes through when the
machine was initialized with `file` in the surroundings `env`: the state after
`initIjvm`, and the state after each further `step` that returns. `after` computes the
same states by their number.

`assemble` writes the binary of a constant pool and a text, so that concrete programs
can be given by their code bytes.
-/

namespace Ijvm

open Transcript

inductive Reachable (env : Env) (file : List Byte) : State → Prop
  | start {s : State} {es : List Event}
      (init : (initIjvm (some file)).run env State.fresh = .done 0 s es) : Reachable env file s
  | step {s s' : State} {b : Bool} {es : List Event} (reached : Reachable env file s)
      (running : finished s.gCpu = false) (execution : step.run env s = .done b s' es) :
      Reachable env file s'

/-- The state after one more turn of the loop of `run`, if there is one. -/
def turn (env : Env) (s : State) : Option State :=
  if finished s.gCpu then none
  else match step.run env s with
    | .done _ s' _ => some s'
    | .stopped .. => none

/-- The state after `n` turns of the loop of `run`. -/
def after (env : Env) (file : List Byte) : Nat → Option State
  | 0 => match (initIjvm (some file)).run env State.fresh with
    | .done code s _ => if code = 0 then some s else none
    | .stopped .. => none
  | n + 1 => (after env file n).bind (turn env)

theorem turn_eq_some {env : Env} {s s' : State} (h : turn env s = some s') :
    finished s.gCpu = false ∧ ∃ b es, step.run env s = .done b s' es := by
  unfold turn at h
  split at h
  · contradiction
  · rename_i running
    refine ⟨by simpa using running, ?_⟩
    cases execution : step.run env s with
    | stopped e t es => simp [execution] at h
    | done b t es =>
        rw [execution] at h
        injection h with same
        exact ⟨b, es, by rw [same]⟩

theorem turn_of_after {env : Env} {file : List Byte} {n : Nat} {s s' : State}
    (earlier : after env file n = some s) (later : after env file (n + 1) = some s') :
    turn env s = some s' := by
  rw [after, earlier] at later
  exact later

/-- The states of `after` are those that `run` passes through: after `n` turns, it goes on
from the `n`-th of them. -/
theorem runFuel_after {env : Env} {file : List Byte} {s₀ s : State} {n : Nat} (fuel : Nat)
    (start : after env file 0 = some s₀) (reached : after env file n = some s) :
    ∃ es, (runFuel (n + fuel)).run env s₀ = ((runFuel fuel).run env s).prepend es := by
  induction n generalizing s fuel with
  | zero =>
      obtain rfl : s₀ = s := Option.some.inj (start.symm.trans reached)
      exact ⟨[], by rw [Nat.zero_add, Outcome.prepend_nil]⟩
  | succ n ih =>
      obtain ⟨t, earlier, taken⟩ := Option.bind_eq_some_iff.mp reached
      obtain ⟨running, b, es, execution⟩ := turn_eq_some taken
      obtain ⟨fs, run⟩ := ih (fuel + 1) earlier
      refine ⟨fs ++ es, ?_⟩
      rw [Nat.succ_add, ← Nat.add_succ, run, runFuel]
      simp [running, execution, Outcome.prepend_prepend]

theorem init_of_after {env : Env} {file : List Byte} {s : State} (h : after env file 0 = some s) :
    ∃ es, (initIjvm (some file)).run env State.fresh = .done 0 s es := by
  unfold after at h
  cases init : (initIjvm (some file)).run env State.fresh with
  | stopped e t es => simp [init] at h
  | done code t es =>
      rw [init] at h
      dsimp only at h
      split at h
      · rename_i success
        injection h with same
        subst same success
        exact ⟨es, rfl⟩
      · contradiction

theorem reachable_of_after {env : Env} {file : List Byte} {n : Nat} {s : State}
    (h : after env file n = some s) : Reachable env file s := by
  induction n generalizing s with
  | zero =>
      obtain ⟨es, init⟩ := init_of_after h
      exact .start init
  | succ n ih =>
      obtain ⟨t, earlier, taken⟩ := Option.bind_eq_some_iff.mp h
      obtain ⟨running, b, es, execution⟩ := turn_eq_some taken
      exact .step (ih earlier) running execution

theorem after_of_reachable {env : Env} {file : List Byte} {s : State}
    (h : Reachable env file s) : ∃ n, after env file n = some s := by
  induction h with
  | start init => exact ⟨0, by simp [after, init]⟩
  | @step s s' b es _ running execution ih =>
      obtain ⟨n, earlier⟩ := ih
      refine ⟨n + 1, ?_⟩
      simp [after, earlier, turn, running, execution]

section Turns

variable {env : Env} {file : List Byte} {n : Nat}

/-- What holds of each of the first `n + 1` turns, step by step. -/
theorem turns_iff {P Q : State → Prop}
    (each : ∀ s, Reachable env file s → finished s.gCpu = false → (P s ↔ Q s)) :
    (∀ m ≤ n, ∀ s, after env file m = some s → finished s.gCpu = false → P s) ↔
      ∀ m ≤ n, ∀ s, after env file m = some s → finished s.gCpu = false → Q s := by
  constructor
  · intro holds m le s h running
    exact (each s (reachable_of_after h) running).mp (holds m le s h running)
  · intro holds m le s h running
    exact (each s (reachable_of_after h) running).mpr (holds m le s h running)

/-- A turn with an event that fails an assertion, found by computing the run. -/
theorem exists_turn_not {ok : Event → Prop} [DecidablePred ok]
    (found : (after env file n).any (fun s => !finished s.gCpu &&
      decide (¬ ∀ e ∈ (step.run env s).events, ok e)) = true) :
    ¬ ∀ m ≤ n, ∀ s, after env file m = some s → finished s.gCpu = false →
      ∀ e ∈ (step.run env s).events, ok e := by
  intro holds
  obtain ⟨s, h, check⟩ := (Option.any_eq_true _ _).mp found
  rw [Bool.and_eq_true, decide_eq_true_eq] at check
  obtain ⟨running, fails⟩ := check
  exact fails (holds n (Nat.le_refl n) s h (by simpa using running))

end Turns

/-- The states in which the collector was entered, read off a transcript. -/
def collections (es : List Event) : List State :=
  es.filterMap fun
    | .gc entry => some entry
    | _ => none

/-- The collector is entered in the state `entry` while the machine runs `file`: by the
GC instruction, by the search for a free index or after a failed allocation. -/
def Collection (env : Env) (file : List Byte) (entry : State) : Prop :=
  ∃ s, Reachable env file s ∧ finished s.gCpu = false ∧
    entry ∈ collections (step.run env s).events

/-- A collection found by computing the run. -/
theorem exists_collection (env : Env) (file : List Byte) (n : Nat) (P : State → Bool)
    (found : ((after env file n).any fun s => !finished s.gCpu &&
      (collections (step.run env s).events).any P) = true) :
    ∃ entry, Collection env file entry ∧ P entry = true := by
  obtain ⟨s, reached, check⟩ := (Option.any_eq_true _ _).mp found
  rw [Bool.and_eq_true, List.any_eq_true] at check
  obtain ⟨running, entry, member, holds⟩ := check
  exact ⟨entry, ⟨s, reachable_of_after reached, by simpa using running, member⟩, holds⟩

/-- The bytes of a 32-bit field of the file. -/
def bigEndian (w : Word) : List Byte :=
  [(w >>> 24).setWidth 8, (w >>> 16).setWidth 8, (w >>> 8).setWidth 8, w.setWidth 8]

/-- The binary with these constants and this code. -/
def assemble (consts : List Word) (code : List Byte) : List Byte :=
  bigEndian magicNumber ++ bigEndian 0 ++ bigEndian (BitVec.ofNat 32 (4 * consts.length)) ++
    consts.flatMap bigEndian ++ bigEndian 0 ++ bigEndian (BitVec.ofNat 32 code.length) ++ code

/-- Surroundings in which every allocation succeeds, fresh memory is zero and the
standard input is empty. -/
def Env.quiet : Env where
  alloc _ := true
  sys _ := 0
  received _ := 0
  stackMemory _ := 0
  codeMemory _ := 0
  stdin := []

end Ijvm
