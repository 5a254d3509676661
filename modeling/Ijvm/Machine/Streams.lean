import Mathlib.Algebra.Ring.Nat
import Ijvm.Machine.Files
import Ijvm.Machine.Turns
import Ijvm.Machine.Started
import Ijvm.Stack.Access

/-!
# Input and output of a run

A run reads its input from the front, one byte for each IN, and appends to its output one
byte for each OUT. `Streams` is this bookkeeping for any number of turns. Since nothing else
touches the files, a run that finds a byte for each of its INs depends on no more of the
input than those bytes, and on nothing that has been written before.
-/

namespace Ijvm

open Transcript Program Transitions

/-- The bytes that the next turn takes from the input. -/
def State.consumed (s : State) : Nat := if s.gCpu.op? = some .in then 1 else 0

/-- The bytes that the next turn appends to the output: for OUT the low byte of the top word. -/
def State.emitted (s : State) : List Byte :=
  if s.gCpu.op? = some .out then [(s.gCpu.stack s.gCpu.sp).setWidth 8] else []

/-- The number of bytes that `n` turns take from the input. -/
def consumedIn (env : Env) (n : Nat) (s : State) : Nat :=
  ((visited (turn env) n s).map State.consumed).sum

/-- The bytes that `n` turns append to the output. -/
def emittedIn (env : Env) (n : Nat) (s : State) : List Byte :=
  (visited (turn env) n s).flatMap State.emitted

section Turn

variable {env : Env} {s t u : State} {a : Int} {op : Op} {g : Files} {es : List Event}

theorem State.consumed_eq (h : s.Executes a op) : s.consumed = if op = .in then 1 else 0 := by
  rw [State.consumed, h.op?]
  simp

theorem State.emitted_eq (h : s.Executes a op) :
    s.emitted = if op = .out then [(s.gCpu.stack s.gCpu.sp).setWidth 8] else [] := by
  rw [State.emitted, h.op?]
  simp

theorem State.withFiles_settled :
    (s.withFiles g).settled a (t.withFiles g) = (s.settled a t).withFiles g := by
  show s.settled a (t.withFiles g) = (s.settled a t).withFiles g
  unfold State.settled
  split
  · rfl
  · rfl

theorem getc_run (env : Env) (t : State) :
    getc.run env t = .done t.inFile.head? (t.withFiles ⟨t.inFile.tail, t.outFile⟩) [] := by
  simp only [getc, run_bind, run_get, Outcome.andThen_done, Outcome.prepend_nil]
  cases t with
  | mk gCpu arrMem markedArrays elementCreations netConn nextOpWide inFile outFile clock =>
      cases inFile with
      | nil => rfl
      | cons b rest => rfl

/-- The word that IN pushes: the byte, or 0 at the end of the input. -/
def inputWord (c : Option Byte) : Word := (c.map fun b => b.setWidth 32).getD 0

theorem execOpIn_run (env : Env) (t : State) :
    execOpIn.run env t = (do let _ ← stackPush (inputWord t.inFile.head?) : VM Unit).run env
      (t.withFiles ⟨t.inFile.tail, t.outFile⟩) := by
  rw [execOpIn, run_bind, getc_run, Outcome.andThen_done, Outcome.prepend_nil]
  cases t.inFile.head? with
  | none => rfl
  | some b => rfl

theorem execOpOut_run (env : Env) (t : State) :
    execOpOut.run env t =
      if t.gCpu.Empty then .stopped (.error .stackPopEmpty) t []
      else .done ()
        { t.withFiles ⟨t.inFile, t.outFile ++ [(t.gCpu.stack t.gCpu.sp).setWidth 8]⟩ with
          gCpu := { t.gCpu with sp := t.gCpu.sp - 1 } }
        [.stack .pop t.gCpu.sp t.gCpu.stackSize] := by
  rw [execOpOut, run_bind, stackPop_run]
  split
  · rfl
  · rfl

/-- The files after an instruction. -/
theorem execOp_files (executes : s.Executes a op)
    (exec : (execOp (pure true) op).run env (s.atOp a) = .done () u es) :
    u.files = ⟨s.inFile.drop s.consumed, s.outFile ++ s.emitted⟩ := by
  rw [State.consumed_eq executes, State.emitted_eq executes]
  by_cases input : op = .in
  · subst input
    rw [show execOp (pure true) .in = execOpIn from rfl, execOpIn_run] at exec
    have kept := (pushLast_fileless (inputWord (s.atOp a).inFile.head?)).satisfies env
      ((s.atOp a).withFiles ⟨(s.atOp a).inFile.tail, (s.atOp a).outFile⟩)
    rw [exec] at kept
    simpa [State.atOp] using kept
  by_cases output : op = .out
  · subst output
    rw [show execOp (pure true) .out = execOpOut from rfl, execOpOut_run] at exec
    split at exec
    · contradiction
    · injection exec with _ state
      subst state
      simp [State.files, State.atOp, State.withFiles]
  · have kept := (execOp_fileless (pure true) executes.unprefixed ⟨input, output⟩).satisfies env
      (s.atOp a)
    rw [exec] at kept
    rw [if_neg input, if_neg output, List.drop_zero, List.append_nil]
    exact kept

/-- The same instruction with other files, whose input starts with the same byte if it is an
IN. -/
theorem execOp_withFiles (executes : s.Executes a op) (enough : s.consumed ≤ s.inFile.length)
    (same : g.inFile.take s.consumed = s.inFile.take s.consumed)
    (exec : (execOp (pure true) op).run env (s.atOp a) = .done () u es) :
    ∃ fs, (execOp (pure true) op).run env ((s.atOp a).withFiles g) =
      .done () (u.withFiles ⟨g.inFile.drop s.consumed, g.outFile ++ s.emitted⟩) fs := by
  rw [State.consumed_eq executes] at enough same ⊢
  rw [State.emitted_eq executes]
  by_cases input : op = .in
  · subst input
    rw [if_pos rfl] at enough same
    rw [show execOp (pure true) .in = execOpIn from rfl, execOpIn_run] at exec ⊢
    obtain ⟨b, rest, content⟩ := List.exists_cons_of_length_pos enough
    have content' : (s.atOp a).inFile = b :: rest := content
    obtain ⟨rest', other⟩ : ∃ rest', g.inFile = b :: rest' := by
      rw [content, List.take_succ_cons, List.take_zero] at same
      cases found : g.inFile with
      | nil => simp [found] at same
      | cons b' rest' =>
          rw [found, List.take_succ_cons, List.take_zero] at same
          exact ⟨rest', by rw [(List.cons.inj same).1]⟩
    rw [content'] at exec
    rw [show ((s.atOp a).withFiles g).inFile = b :: rest' from other,
      show ((s.atOp a).withFiles g).outFile = g.outFile from rfl, other, State.withFiles_withFiles]
    rw [List.head?_cons, List.tail_cons] at exec ⊢
    obtain ⟨fs, run⟩ := (pushLast_fileless _).withFiles exec ⟨rest', g.outFile⟩
    exact ⟨fs, by simpa using run⟩
  by_cases output : op = .out
  · subst output
    rw [show execOp (pure true) .out = execOpOut from rfl, execOpOut_run] at exec ⊢
    split at exec
    · contradiction
    · rename_i operand
      injection exec with _ state
      subst state
      rw [if_neg (show ¬ ((s.atOp a).withFiles g).gCpu.Empty from operand)]
      exact ⟨_, rfl⟩
  · have elsewhere := execOp_fileless (pure true) executes.unprefixed ⟨input, output⟩
    rw [if_neg input, if_neg output, List.drop_zero, List.append_nil]
    exact elsewhere.withFiles exec g

/-- The files after a turn. -/
theorem turn_files (taken : turn env s = some t) :
    t.files = ⟨s.inFile.drop s.consumed, s.outFile ++ s.emitted⟩ := by
  obtain ⟨a, found, _, ⟨op, u, es, executes, exec, rfl⟩ | ⟨unknown, rfl⟩⟩ := turn_cases taken
  · rw [← execOp_files executes exec, State.settled_eq]
    rfl
  · have none : s.gCpu.op? = none := by rw [Cpu.op?, found, Option.bind_some, unknown]
    rw [State.settled_eq, State.consumed, State.emitted, none]
    simp [State.files, State.atOp]

/-- A turn depends on no more of the input than the byte that it reads, and not at all on the
output. -/
theorem turn_withFiles (taken : turn env s = some t) (enough : s.consumed ≤ s.inFile.length)
    (same : g.inFile.take s.consumed = s.inFile.take s.consumed) :
    turn env (s.withFiles g) =
      some (t.withFiles ⟨g.inFile.drop s.consumed, g.outFile ++ s.emitted⟩) := by
  obtain ⟨a, found, running, ⟨op, u, es, executes, exec, rfl⟩ | ⟨unknown, rfl⟩⟩ :=
    turn_cases taken
  · have executes' : (s.withFiles g).Executes a op := ⟨executes.found, executes.decoded⟩
    obtain ⟨fs, run⟩ := execOp_withFiles executes enough same exec
    exact (turn_eq_some_iff (s := s.withFiles g) running executes').mpr
      ⟨_, fs, run, State.withFiles_settled.symm⟩
  · have none : s.gCpu.op? = none := by rw [Cpu.op?, found, Option.bind_some, unknown]
    rw [turn_of_unknown (s := s.withFiles g) running found unknown, State.consumed, State.emitted,
      none, ← State.withFiles_settled]
    simp only [reduceCtorEq, if_false, List.drop_zero, List.append_nil]
    rfl

end Turn

section Runs

variable {env : Env} {n : Nat} {s t : State}

/-- The bytes that a run has read are gone from the front of its input, and those that it has
written stand at the end of its output. -/
theorem advance_files (run : advance (turn env) n s = some t) :
    t.inFile = s.inFile.drop (consumedIn env n s) ∧
      t.outFile = s.outFile ++ emittedIn env n s := by
  induction n generalizing s with
  | zero =>
      injection run with same
      subst same
      simp [consumedIn, emittedIn]
  | succ n ih =>
      obtain ⟨u, first, rest⟩ := advance_succ_eq_some.mp run
      obtain ⟨inFile, outFile⟩ := ih rest
      have files := turn_files first
      have inFile' : u.inFile = s.inFile.drop s.consumed := congrArg Files.inFile files
      have outFile' : u.outFile = s.outFile ++ s.emitted := congrArg Files.outFile files
      rw [consumedIn, emittedIn, visited_succ_of first, List.map_cons, List.sum_cons,
        List.flatMap_cons]
      rw [inFile, inFile', outFile, outFile', List.drop_drop, List.append_assoc]
      exact ⟨rfl, rfl⟩

end Runs

def echo : List Byte := assemble [] [Op.in.code, Op.out.code, Op.halt.code]

/-- Surroundings whose standard input holds two bytes. -/
def Env.twoBytes : Env := { Env.quiet with stdin := [65, 66] }

/-- A successful initialization opens the standard input. -/
theorem inFile_of_init {env : Env} {file : Option (List Byte)} {s₀ s : State} {es : List Event}
    (init : (initIjvm file).run env s₀ = .done 0 s es) : s.inFile = env.stdin := by
  have anyway {α : Type} (o : Outcome State Event Stop α) : o.Returns fun _ _ => True :=
    fun _ _ _ _ => trivial
  have opens : ((initIjvm file).run env s₀).Returns fun code t => code = 0 →
      t.inFile = env.stdin := by
    rw [initIjvm, run_bind]
    refine (anyway _).andThen fun loaded t _ => ?_
    split
    · rw [run_bind]
      exact (anyway _).andThen fun _ _ _ => Outcome.returns_done.mpr fun h => absurd h (by decide)
    · rw [run_bind]
      refine (anyway _).andThen fun _ t _ => ?_
      rw [run_bind]
      refine (anyway _).andThen fun _ t _ => ?_
      rw [run_bind]
      refine (anyway _).andThen fun _ t _ => Outcome.returns_done.mpr fun _ => rfl
  exact opens 0 s es init rfl

end Ijvm
