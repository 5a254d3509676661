import Ijvm.Arrays.Capacity
import Ijvm.Debugger.Commands
import Ijvm.Machine.Streams
import Ijvm.Network.Steps
import Ijvm.Sessions.Starting

/-!
# The interpreter as a process

`main` loads a binary, replaces the standard input and the standard output by files if their
paths are given, runs the program and releases everything. What a process that exits has written
is what its OUTs have written, and its exit status is 0, whether the program was finished or had
an error: only a binary or a file that cannot be opened shows in it.

Two ends have no status. A `send` to a peer that has closed kills the process with SIGPIPE, for
which no handler is set, and what is still in the buffer of the output is lost. A fetch outside
the code has no meaning. Signals from outside, and a C stack that is too small for the nested
calls of `step`, are left out.
-/

namespace Ijvm

open Transcript Program Transitions

/-- What is read at a path, which paths can be opened for writing, and the file that a path leads
to: two paths can lead to the same. -/
structure Disk where
  content : String → Option (List Byte)
  writable : String → Bool
  inode : String → Nat

def setInput (f : List Byte) : VM Unit := modify fun s => { s with inFile := f }

/-- Open the input file if there is an argument for it. -/
def openInput (disk : Disk) : List String → VM Bool
  | [] => return true
  | input :: _ =>
      match disk.content input with
      | none => return false
      | some f => do
          setInput f
          return true

/-- Open the output file if its path is the last of two arguments. It is truncated, so that
nothing is left to read if it is the input file as well. -/
def openOutput (disk : Disk) : List String → VM Bool
  | [input, output] =>
      if disk.writable output = true then do
        if disk.inode output = disk.inode input then setInput []
        setOutput
        return true
      else return false
  | _ => return true

/-- `main` with the arguments after the name of the program. -/
def main (fuel : Nat) (disk : Disk) : List String → VM Int
  | [] => return 1
  | binary :: files => do
      if (← initIjvm (disk.content binary)) < 0 then
        return 1
      else if (← openInput disk files) = false then
        return -1
      else if (← openOutput disk files) = false then
        return -1
      else
        runFuel fuel
        destroyIjvm
        return 0

/-- How a process ends: it exits with a status and has written its output, it is killed by
SIGPIPE, it has no meaning, or the turns are used up. -/
inductive Exit where
  | status (code : Int) (output : List Byte)
  | brokenPipe
  | undefined
  | unfinished
  deriving DecidableEq

/-- The end of the process. An error of the machine exits with 0; a `send` that fails because the
peer has closed, which `broken` tells, kills the process. -/
def exit (broken : Bool) : Outcome State Event Stop Int → Exit
  | .done code s _ => .status code s.outFile
  | .stopped (.error e) s _ =>
      if e = .netSendCount ∧ broken = true then .brokenPipe else .status 0 s.outFile
  | .stopped .undefined _ _ => .undefined
  | .stopped .outOfFuel _ _ => .unfinished

/-- The end that a program comes to in a state in which it has written `output`. -/
def State.exit (env : Env) (broken : Bool) (s : State) (output : List Byte) : Exit :=
  if finished s.gCpu then .status 0 output
  else match step.run env s with
    | .stopped (.error e) _ _ =>
        if e = .netSendCount ∧ broken = true then .brokenPipe else .status 0 output
    | .stopped .undefined _ _ => .undefined
    | _ => .unfinished

/-- The input of the program, if the files of these arguments can be opened, and the output file
is not the input file. -/
def Disk.input (disk : Disk) (stdin : List Byte) : List String → Option (List Byte)
  | [] => some stdin
  | [input, output] =>
      if disk.writable output = true ∧ disk.inode output ≠ disk.inode input then
        disk.content input
      else none
  | input :: _ => disk.content input

/-- How a program ends that has come to `t` in `n` turns: it is finished and `Q` holds, or the
next turn stops the machine, or the turns are used up. -/
inductive RunEnds {α : Type} (env : Env) (fuel n : Nat) (t : State) (Q : α → State → Prop) :
    Outcome State Event Stop α → Prop where
  | finished {a : α} {u : State} {es : List Event} (final : finished t.gCpu = true)
      (post : Q a u) : RunEnds env fuel n t Q (.done a u es)
  | error {r : Stop} {u : State} {es fs : List Event} (running : finished t.gCpu = false)
      (execution : step.run env t = .stopped r u es) : RunEnds env fuel n t Q (.stopped r u fs)
  | unfinished {es : List Event} (spent : n = fuel) :
      RunEnds env fuel n t Q (.stopped .outOfFuel t es)

section Loop

variable {env : Env} {s t u : State} {a : Int} {op : Op} {r : Stop} {es : List Event}

/-- An instruction that stops the machine has written nothing. -/
theorem execOp_stopped_output (executes : s.Executes a op)
    (exec : (execOp (pure true) op).run env (s.atOp a) = .stopped r u es) :
    u.outFile = s.outFile := by
  by_cases input : op = .in
  · subst input
    rw [show execOp (pure true) .in = execOpIn from rfl, execOpIn_run] at exec
    have kept := (pushLast_fileless (inputWord (s.atOp a).inFile.head?)).satisfies env
      ((s.atOp a).withFiles ⟨(s.atOp a).inFile.tail, (s.atOp a).outFile⟩)
    rw [exec] at kept
    exact congrArg Files.outFile kept
  by_cases output : op = .out
  · subst output
    rw [show execOp (pure true) .out = execOpOut from rfl, execOpOut_run] at exec
    split at exec
    · injection exec with _ state
      subst state
      rfl
    · contradiction
  · have kept := (execOp_fileless (pure true) executes.unprefixed ⟨input, output⟩).satisfies env
      (s.atOp a)
    rw [exec] at kept
    exact congrArg Files.outFile kept

/-- Prefixes without an instruction behind them write nothing. -/
theorem stepFuel_missing_output {fuel : Nat}
    (missing : opAddrFrom s.gCpu.codeMem s.gCpu.codeMemSize fuel s.gCpu.pc = none) :
    ((stepFuel fuel).run env s).state.outFile = s.outFile := by
  induction fuel generalizing s with
  | zero => rfl
  | succ fuel ih =>
      rw [opAddrFrom] at missing
      by_cases outside : s.gCpu.pc < 0 ∨ s.gCpu.pc ≥ s.gCpu.codeMemSize
      · rw [stepFuel_outside outside fuel]
        rfl
      rw [if_neg outside] at missing
      by_cases wide : s.gCpu.codeMem s.gCpu.pc = Op.wide.code
      · rw [if_pos wide] at missing
        have nested := ih (s := { s with
          gCpu := { s.gCpu with pc := s.gCpu.pc + 1 }, nextOpWide := true }) missing
        rw [stepFuel_wide outside wide]
        cases run : (stepFuel fuel).run env { s with
            gCpu := { s.gCpu with pc := s.gCpu.pc + 1 }, nextOpWide := true } with
        | done b t es =>
            rw [run] at nested
            simpa using nested
        | stopped r t es =>
            rw [run] at nested
            exact nested
      · rw [if_neg wide] at missing
        contradiction

/-- A step that stops the machine has written nothing. -/
theorem step_stopped_output (execution : step.run env s = .stopped r u es) :
    u.outFile = s.outFile := by
  cases found : s.gCpu.opAddr? with
  | none =>
      have kept : ((stepFuel _).run env s).state.outFile = s.outFile :=
        stepFuel_missing_output found
      rwa [← step_eq, execution] at kept
  | some a =>
      obtain ⟨fetches, _, run⟩ := step_run env found
      rw [run] at execution
      cases decoded : Op.ofByte? (s.gCpu.codeMem a) with
      | none =>
          rw [execAt, dispatch_none decoded] at execution
          simp [endOfStep_settled] at execution
      | some op =>
          have executes : s.Executes a op := ⟨found, decoded⟩
          rw [execAt_run executes] at execution
          cases exec : (execOp (pure true) op).run env (s.atOp a) with
          | done x t fs =>
              rw [exec] at execution
              simp [endOfStep_settled] at execution
          | stopped r' t fs =>
              rw [exec] at execution
              injection execution with _ state
              exact state ▸ execOp_stopped_output executes exec

/-- The loop of `run` takes turns until the program ends. The induction is on the turns. -/
theorem runFuel_ends (env : Env) (fuel : Nat) (s : State) : ∃ n t, n ≤ fuel ∧
    advance (turn env) n s = some t ∧
      RunEnds env fuel n t (fun _ u => u = t) ((runFuel fuel).run env s) := by
  induction fuel generalizing s with
  | zero => exact ⟨0, s, Nat.le_refl 0, rfl, .unfinished rfl⟩
  | succ fuel ih =>
      rw [runFuel, run_bind, run_get, Outcome.andThen_done, Outcome.prepend_nil]
      cases running : finished s.gCpu with
      | true =>
          rw [if_pos rfl]
          exact ⟨0, s, Nat.zero_le _, rfl, .finished running rfl⟩
      | false =>
          rw [if_neg Bool.false_ne_true, run_bind]
          cases execution : step.run env s with
          | stopped r u es => exact ⟨0, s, Nat.zero_le _, rfl, .error running execution⟩
          | done b t es =>
              have taken : turn env s = some t := by
                rw [turn_of_running running, execution]
              obtain ⟨n, u, le, run, ends⟩ := ih t
              refine ⟨n + 1, u, Nat.succ_le_succ le, by rw [advance_succ_of taken, run], ?_⟩
              rw [Outcome.andThen_done]
              cases rest : (runFuel fuel).run env t with
              | done a v fs =>
                  rw [rest] at ends
                  cases ends with
                  | finished final post => exact .finished final post
              | stopped r v fs =>
                  rw [rest] at ends
                  cases ends with
                  | error running execution => exact .error running execution
                  | unfinished spent => exact .unfinished (congrArg (· + 1) spent)

end Loop

section Destroying

variable {env : Env} {s t : State}

theorem destroyIjvm_fileless : Fileless destroyIjvm := by
  have entry (i : Nat) : Fileless (destroyEntry i) :=
    .bind (.get_bind (fun _ _ => rfl) fun _ => .ite (.stop _) (.pure _)) fun _ =>
      .ite (netClose_fileless _) (.pure _)
  have array (i : Nat) : Fileless (do if ← marrCheckMarked arrMem i then arrRemove i : VM Unit) :=
    .bind (checkArray_fileless i) fun _ => .ite
      (.bind (getArray_fileless i) fun _ => marrRemoveElement_fileless arrMem_offFiles i) (.pure _)
  have destroyNet : Fileless netDestroy :=
    .get_bind (fun _ _ => rfl) fun _ => .bind (.forRange entry) fun _ => .modify fun _ _ => rfl
  have destroyArrays : Fileless arrDestroy :=
    .get_bind (fun _ _ => rfl) fun _ => .bind (.forRange array) fun _ => .modify fun _ _ => rfl
  exact .bind destroyNet fun _ => destroyArrays

/-- Every connection that is in the table can be closed. -/
theorem netDestroy_returns (history : ConnHistory env s) :
    ((netDestroy).run env s).Satisfies (fun _ _ _ => True) fun _ _ _ => False := by
  obtain ⟨conns, holds, below⟩ := history.holds
  have loop : ((forRange 0 s.netConn.size destroyEntry).run env s).Satisfies
      (fun _ _ _ => True) fun _ _ _ => False := by
    refine (forRange_satisfies (J := fun _ t => t.netConn.size = s.netConn.size ∧
      ∃ conns : Conns, t.netConn.Holds conns ∧ conns.Below) (E := fun _ _ => False)
      ⟨rfl, conns, holds, below⟩ ?_).mono (fun _ _ _ _ => trivial) fun _ _ _ h => h
    rintro i t _ lt ⟨size, conns, holds, below⟩
    have inside : i < t.netConn.size := by omega
    cases entry : conns i with
    | none =>
        rw [destroyEntry_free env holds inside entry]
        exact ⟨size, conns, holds, below⟩
    | some sock =>
        have fits := below i (by rw [entry]; exact Option.some_ne_none sock)
        obtain ⟨u, es, run, ⟨removed, same⟩, _⟩ := destroyEntry_closes env holds entry fits
        rw [run]
        exact ⟨same.trans size, _, removed, below.update fun used => absurd rfl used⟩
  rw [netDestroy, run_bind, run_get, Outcome.andThen_done, Outcome.prepend_nil, run_bind]
  exact loop.andThen fun _ _ _ _ => trivial

theorem arrDestroy_returns (env : Env) (s : State) :
    (arrDestroy.run env s).Satisfies (fun _ _ _ => True) fun _ _ _ => False := by
  rw [arrDestroy, run_bind, run_get, Outcome.andThen_done, Outcome.prepend_nil, run_bind]
  refine (forRange_satisfies (J := fun _ t => t.arrMem.size = s.arrMem.size)
    (E := fun _ _ => False) rfl ?_).andThen fun _ _ _ _ => trivial
  intro i t _ lt size
  have inside : i < t.arrMem.size := by omega
  rw [run_bind, marrCheckMarked_inside inside, Outcome.andThen_done, Outcome.prepend_nil]
  split
  · rename_i set
    rw [arrRemove_run (MArr.mem_claimed.mpr ⟨inside, set⟩)]
    exact size
  · exact size

/-- `destroyIjvm` comes to its end, and leaves the files alone. -/
theorem destroyIjvm_returns (history : ConnHistory env s) :
    ∃ t es, destroyIjvm.run env s = .done () t es ∧ t.Released ∧ t.files = s.files := by
  have returns : (destroyIjvm.run env s).Satisfies (fun _ _ _ => True) fun _ _ _ => False := by
    rw [destroyIjvm, run_bind]
    exact (netDestroy_returns history).andThen fun _ t _ _ => arrDestroy_returns env t
  have released := destroyIjvm_releases env s trivial fun _ _ => trivial
  have files := destroyIjvm_fileless.satisfies env s
  cases run : destroyIjvm.run env s with
  | stopped r t es =>
      rw [run] at returns
      exact returns.elim
  | done a t es =>
      rw [run] at files
      exact ⟨t, es, rfl, released.1 a t es run, files⟩

theorem NetRun.connHistory {past : List NetCall} (run : NetRun env s t past)
    (empty : s.netConn = .none) : ConnHistory env t := by
  induction run with
  | start => exact .start empty
  | call _ returns ih => exact ih.operation returns
  | other _ same ih => exact ih.elsewhere same

/-- A run that returns leaves the connections of some history. -/
theorem connHistory_of_runFuel {fuel : Nat} {es : List Event} (empty : s.netConn = .none)
    (run : (runFuel fuel).run env s = .done () t es) : ConnHistory env t := by
  have traced := runFuel_traced fuel env s s [] .start
  rw [run] at traced
  obtain ⟨past, netRun, _⟩ := traced
  exact netRun.connHistory empty

end Destroying

section Main

variable {env : Env} {disk : Disk} {binary : String} {files : List String}
  {file input : List Byte} {s₀ : State}

/-- Both files are opened before the program runs. -/
theorem open_files (opens : disk.input env.stdin files = some input) {s : State}
    (stdin : s.inFile = env.stdin) (noOutput : s.outFile = []) :
    (openInput disk files).run env s = .done true (s.withFiles ⟨input, []⟩) [] ∧
      (openOutput disk files).run env (s.withFiles ⟨input, []⟩) =
        .done true (s.withFiles ⟨input, []⟩) [] := by
  match files, opens with
  | [], opens =>
      obtain rfl := Option.some.inj opens
      have same : s.withFiles ⟨env.stdin, []⟩ = s := by rw [← stdin, ← noOutput]; rfl
      rw [same]
      exact ⟨rfl, rfl⟩
  | [path], opens =>
      have content : disk.content path = some input := opens
      rw [openInput, content]
      exact ⟨by rw [← noOutput]; rfl, rfl⟩
  | [path, output], opens =>
      rw [Disk.input] at opens
      split at opens
      · rename_i other
        rw [openInput, openOutput, opens, if_pos other.1, if_neg other.2]
        exact ⟨by rw [← noOutput]; rfl, rfl⟩
      · contradiction
  | path :: _ :: _ :: _, opens =>
      have content : disk.content path = some input := opens
      rw [openInput, content]
      exact ⟨by rw [← noOutput]; rfl, rfl⟩

/-- `main` initializes the machine, opens the files and runs the program. -/
theorem main_run (fuel : Nat) (started : after env file 0 = some s₀)
    (content : disk.content binary = some file)
    (opens : disk.input env.stdin files = some input) :
    ∃ es, (main fuel disk (binary :: files)).run env State.fresh =
      ((do runFuel fuel; destroyIjvm; return 0 : VM Int).run env
        (s₀.withFiles ⟨input, []⟩)).prepend es := by
  obtain ⟨es, init⟩ := init_of_after started
  obtain ⟨inOpens, outOpens⟩ :=
    open_files opens (inFile_of_init init) (started_of_init init).noOutput
  refine ⟨es, ?_⟩
  rw [main, run_bind, content, init, Outcome.andThen_done, if_neg (by decide), run_bind, inOpens,
    Outcome.andThen_done, Outcome.prepend_nil, if_neg (by decide), run_bind, outOpens,
    Outcome.andThen_done, Outcome.prepend_nil, if_neg (by decide)]

/-- A disk with the program `echo` and an input for it. -/
def Disk.withEcho : Disk where
  content path :=
    if path = "echo" then some echo
    else if path = "input" then some [70, 71]
    else none
  writable path := path = "output"
  inode path := path.length

end Main

end Ijvm
