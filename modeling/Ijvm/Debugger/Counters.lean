import Ijvm.Debugger.Restart

/-!
# The counters of the call history

In every session, the counters of the history fit their types, and the debugger knows the size
of the memory that the history has until a growth was refused.
-/

namespace Ijvm

open Transcript Program

/-- The counters of the history fit their types, and its size is known unless the debugger is
about to quit. -/
structure DebuggerState.Counted (d : DebuggerState) : Prop where
  top_lt : d.callHistoryTop < 2 ^ 32
  bound : d.allocated < 2 ^ 32
  sized : d.quitFlag = false → d.callHistorySize = d.allocated

/-- After a word was written or a record removed. -/
theorem DebuggerState.Counted.withTop {d : DebuggerState} (counted : d.Counted)
    (callHistory : Nat → Word) (top : Int) :
    { d with callHistory, callHistoryTop := uint32 top }.Counted :=
  ⟨uint32_lt top, counted.bound, counted.sized⟩

theorem DebuggerState.Counted.phase {d : DebuggerState} (counted : d.Counted) (state : ProgState) :
    { d with progState := state }.Counted :=
  ⟨counted.top_lt, counted.bound, counted.sized⟩

theorem counted_init (r : DbgEnv) (n : Nat) :
    { DebuggerState.init r with reallocs := n }.Counted :=
  ⟨show 2 < 2 ^ 32 by decide, show 2 < 2 ^ 32 by decide, fun _ => rfl⟩

/-- The program keeps the history countable. -/
abbrev KeepsCounted {α : Type} (m : DBG α) : Prop := KeepsDebugger DebuggerState.Counted m

theorem look_keepsDebugger {α : Type} {J : DebuggerState → Prop} (m : VM α) :
    KeepsDebugger J (look m) := by
  apply Ensures.of_satisfies
  intro r x kept
  rw [look_run]
  cases m.run r.vm x.vm with
  | done a s es => exact ⟨kept, fun _ _ => trivial⟩
  | stopped e s es => exact fun _ _ => trivial

theorem appendHistory_counted (w : Word) : KeepsCounted (appendHistory w) :=
  .bind .get fun _ => .bind (.emit fun _ _ _ => trivial) fun _ =>
    .ite (fun _ => .modify fun _ counted => counted.withTop _ _) fun _ => .stop _

theorem saveArguments_counted (i n : Nat) : KeepsCounted (saveArguments i n) := by
  induction n generalizing i with
  | zero => exact .pure _
  | succ n ih =>
      exact .bind .get fun _ => .bind (.emit fun _ _ _ => trivial) fun _ =>
        .ite (fun _ => .bind (appendHistory_counted _) fun _ => ih (i + 1)) fun _ => .stop _

theorem fitHistory_counted (elements : Nat) : KeepsCounted (fitHistory elements) := by
  apply Ensures.of_satisfies
  intro r x counted
  by_cases vanishes : Vanishes x.dbg elements
  · have stops := fitHistory_vanishes (r := r) vanishes
    cases run : (fitHistory elements).run r x with
    | done a y es =>
        rw [run] at stops
        contradiction
    | stopped e y es => exact fun _ _ => trivial
  · by_cases refused : CannotGrow r x.dbg elements
    · obtain ⟨y, fit, _, quitFlag, _, top, allocated⟩ := fitHistory_refused refused
      rw [fit]
      refine ⟨⟨top ▸ counted.top_lt, allocated ▸ counted.bound, fun unset => ?_⟩, by simp⟩
      rw [quitFlag] at unset
      contradiction
    · obtain ⟨y, fit, made⟩ := fitHistory_run refused vanishes
      rw [fit]
      refine ⟨⟨made.top ▸ counted.top_lt, ?_, fun unset => ?_⟩, by simp⟩
      · rw [made.allocated]
        exact roomFor_lt counted.bound elements
      · exact made.sized (counted.sized (made.quitFlag ▸ unset))

theorem createCallHistory_counted : KeepsCounted createCallHistory := by
  have stores : KeepsCounted storeFuncCall :=
    .bind .get fun _ => .bind (look_keepsDebugger _) fun _ => .bind (look_keepsDebugger _) fun _ =>
      .bind (look_keepsDebugger _) fun _ => .bind (fitHistory_counted _) fun _ =>
      .ite (fun _ => .pure _) fun _ => .bind (saveArguments_counted _ _) fun _ =>
      .bind (appendHistory_counted _) fun _ => appendHistory_counted _
  have removes : KeepsCounted removeLastFuncCall :=
    .bind (.modify fun _ counted => counted.withTop _ _) fun _ =>
      .bind .get fun _ => .bind (readHistory_keeps _) fun _ =>
      .modify fun _ counted => counted.withTop _ _
  exact .bind codeAtPc_keeps fun _ => .ite (fun _ => stores) fun _ =>
    .bind codeAtPc_keeps fun _ => .ite (fun _ => removes) fun _ => .pure _

theorem enterStep_keepsDebugger {J : DebuggerState → Prop} : KeepsDebugger J enterStep :=
  .bind .get fun _ => .bind (.emit fun _ _ _ => trivial) fun _ =>
    .bind (onMachine_keepsDebugger _) fun _ => .pure _

theorem tellBreakpoint_keepsDebugger {J : DebuggerState → Prop} (decodes : Bool) :
    KeepsDebugger J (tellBreakpoint decodes) :=
  Looks.debugger (J := fun d _ => J d) fun kept => tellBreakpoint_looks kept decodes

theorem stepWithHistory_counted (log : Bool) : KeepsCounted (stepWithHistory log) := by
  refine .bind .get fun _ => .bind (.emit fun _ _ _ => trivial) fun _ => .bind codeAtPc_keeps
    fun _ => .bind createCallHistory_counted fun _ => .ite (fun _ => ?_) fun _ =>
    enterStep_keepsDebugger
  exact .bind .get fun _ => .bind (print_keeps _) fun _ => enterStep_keepsDebugger

theorem dbgStep_counted (log : Bool) : KeepsCounted (dbgStep log) :=
  .bind (stepWithHistory_counted log) fun _ => tellBreakpoint_keepsDebugger true

theorem dbgLoop_counted (fuel : Nat) : KeepsCounted (dbgLoop fuel) := by
  induction fuel with
  | zero => exact .stop _
  | succ fuel ih =>
      exact .bind (dbgStep_counted false) fun _ => .bind .get fun _ =>
        .bind atBreakpoint_keeps fun _ => .ite (fun _ => ih) fun _ => .pure _

theorem dbgRun_counted (fuel : Nat) (single : Bool) : KeepsCounted (dbgRun fuel single) := by
  have notes : KeepsCounted noteFinished :=
    .bind .get fun _ => .ite (fun _ => .modify fun _ counted => counted.phase _) fun _ => .pure _
  exact .ite (fun _ => .bind (dbgStep_counted true) fun _ => notes)
    fun _ => .bind (dbgLoop_counted fuel) fun _ => notes

theorem initDebugger_counted : KeepsCounted initDebugger :=
  (initDebugger_fresh counted_init).mono (fun _ _ => trivial) fun _ _ h => h

theorem restartDebugger_counted : KeepsCounted restartDebugger := by
  refine .bind (onMachine_keepsDebugger _) fun _ => .bind clearDebugData_keepsDebugger fun _ =>
    .bind .get fun _ => .bind (loadProgram_keepsDebugger _) fun _ => .ite (fun _ => ?_) fun _ => ?_
  · exact .bind (print_keeps _) fun _ => .modify fun _ counted => counted.phase _
  · exact .bind (onMachine_keepsDebugger _) fun _ => .bind clearDebugData_keepsDebugger fun _ =>
      .bind initDebugger_counted fun _ => print_keeps _

theorem execStart_counted : KeepsCounted execStart := by
  have rest : KeepsCounted (do
      let state := (← get).dbg.progState
      if state = .loaded then
        onVm setOutput
        print (.starting (← get).dbg.lastProgPath)
        tellBreakpoint false
        modifyDbg fun d => { d with progState := .started }
      else if state = .empty then
        print .notLoaded : DBG Unit) := by
    refine .bind .get fun _ => .ite (fun _ => ?_) fun _ => .ite (fun _ => print_keeps _)
      fun _ => .pure _
    exact .bind (onMachine_keepsDebugger _) fun _ => .bind .get fun _ => .bind (print_keeps _)
      fun _ => .bind (tellBreakpoint_keepsDebugger false) fun _ =>
      .modify fun _ counted => counted.phase _
  exact .bind .get fun _ => .ite (fun _ => .bind restartDebugger_counted fun _ => rest)
    fun _ => rest

theorem execWhenStarted_counted {m : DBG Unit} (runs : KeepsCounted m) :
    KeepsCounted (execWhenStarted m) := by
  refine .bind .get fun x => ?_
  cases x.dbg.progState with
  | started => exact runs
  | _ => exact print_keeps _

theorem execFile_counted (path : String) : KeepsCounted (execFile path) := by
  have saves : KeepsCounted (saveLastProg path) := by
    refine .bind (copyPath_keepsDebugger _) fun copy => ?_
    cases copy with
    | none => exact .stop _
    | some path =>
        exact .bind (copyPath_keepsDebugger _) fun _ =>
          .modify fun _ counted => ⟨counted.top_lt, counted.bound, counted.sized⟩
  have afresh {α : Type} {m : DBG α} (rest : KeepsCounted m) :
      KeepsCounted (do onVm destroyIjvm; clearDebugData; initDebugger; m) :=
    .bind (onMachine_keepsDebugger _) fun _ => .bind clearDebugData_keepsDebugger fun _ =>
      .bind initDebugger_counted fun _ => rest
  refine afresh (.bind (loadProgram_keepsDebugger _) fun _ => .ite (fun _ => ?_) fun _ => ?_)
  · exact .bind (.modify fun _ counted => counted.phase _) fun _ => saves
  · exact .bind (onMachine_keepsDebugger _) fun _ => .bind clearDebugData_keepsDebugger fun _ =>
      initDebugger_counted

/-- Every command keeps the history countable. -/
theorem exec_counted (fuel : Nat) (c : Request) : KeepsCounted (c.exec fuel) := by
  cases c with
  | step => exact execWhenStarted_counted (dbgRun_counted fuel true)
  | «continue» => exact execWhenStarted_counted (dbgRun_counted fuel false)
  | backtrace =>
      have prints : KeepsCounted (printFuncCalls 0) :=
        Looks.debugger (J := fun d _ => d.Counted) fun kept => printFuncCalls_looks kept 0
      exact .bind .get fun _ => .ite (fun _ => prints) fun _ => print_keeps _
  | run =>
      exact .bind execStart_counted fun _ => .bind .get fun _ =>
        .ite (fun _ => dbgRun_counted fuel false) fun _ => .pure _
  | start => exact execStart_counted
  | quit =>
      exact .bind (onMachine_keepsDebugger _) fun _ => .bind clearDebugData_keepsDebugger fun _ =>
        .modify fun _ counted => ⟨counted.top_lt, counted.bound, nofun⟩
  | other => exact .pure _
  | info about =>
      refine .bind .get fun _ => .ite (fun _ => print_keeps _) fun _ => .ite (fun _ =>
        .ite (fun _ => print_keeps _) fun _ => ?_) fun _ =>
        .ite (fun _ => ?_) fun _ => print_keeps _
      · exact .bind (lookUp_keepsDebugger _) fun _ => .bind (lookUp_keepsDebugger _) fun _ =>
          print_keeps _
      · exact .bind (lookUp_keepsDebugger _) fun _ => print_keeps _
  | «break» offset granted =>
      refine .bind .get fun _ => .ite (fun _ => print_keeps _) fun _ =>
        .ite (fun _ => ?_) fun _ => ?_
      · exact .modify fun _ counted => ⟨counted.top_lt, counted.bound, nofun⟩
      · exact .bind (lookUp_keepsDebugger _) fun _ =>
          .modify fun _ counted => ⟨counted.top_lt, counted.bound, counted.sized⟩
  | input path =>
      refine .bind .get fun _ => .ite (fun _ => .bind .ask fun r => ?_) fun _ => .pure _
      cases r.files path with
      | some bytes => exact onMachine_keepsDebugger _
      | none => exact .pure _
  | file path => exact execFile_counted path

theorem Driven.counted {r : DbgEnv} {x : Session} {restarts : List (Session × Session)}
    (driven : Driven r x restarts) : x.dbg.Counted := by
  induction driven with
  | main => exact counted_init r 0
  | command before _ run ih => exact (exec_counted _ _ _ _ ih fun _ _ => trivial).1 _ _ _ run
  | @repeated x y restarts line copy es before _ run ih =>
      have keeps : KeepsCounted (copyLine line) := by
        refine .bind (lookUp_keepsDebugger _) fun copy => ?_
        cases copy with
        | some _ => exact .pure _
        | none => exact .stop _
      exact (keeps r x ih fun _ _ => trivial).1 _ _ _ run

end Ijvm
