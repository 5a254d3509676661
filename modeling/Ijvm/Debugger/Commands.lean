import Ijvm.Debugger.History

/-!
# Stepping, running and the commands

The loop of `continue` ends at a breakpoint or when the machine has finished, unless the
quit flag is set: then it goes on. `fuel` bounds its turns.
-/

namespace Ijvm

open Transcript

/-- The number of the breakpoint at PC, or 0. -/
def breakpointNumber (brkpts : List Word) (pc : Int) : Nat :=
  match brkpts.findIdx? fun a => a.toNat == uint32 pc with
  | some i => i + 1
  | none => 0

def atBreakpoint : DBG Nat := do
  let x ← get
  return breakpointNumber x.dbg.brkpts x.vm.gCpu.pc

def printBreakpointMsg (id : Nat) : DBG Unit := do
  print (.breakpoint id)
  printFuncCalls 1

/-- The mnemonic of the instruction at PC, if it is asked for. -/
def opAtPc : Bool → DBG (Option String)
  | true => do return some (opDecode (← codeAtPc))
  | false => return none

/-- Tell that a breakpoint was reached, if one was; `decodes` is whether the message names the
instruction there. -/
def tellBreakpoint (decodes : Bool) : DBG Unit := do
  if (← atBreakpoint) ≠ 0 then
    let op ← opAtPc decodes
    printBreakpointMsg (← atBreakpoint)
    print (.stoppedAt (← get).vm.gCpu.pc op)

/-- The message at the end of `dbg_step`. -/
def reportBreakpoint : DBG Unit := tellBreakpoint true

/-- The part of `dbg_step` before the message about a breakpoint. -/
def stepWithHistory (stepLog : Bool) : DBG Unit := do
  Program.emit [.stepping (← get) stepLog]
  let op ← codeAtPc
  createCallHistory
  if stepLog then
    print (.traced (← get).vm.gCpu.pc (opDecode op))
  enterStep

def dbgStep (stepLog : Bool) : DBG Unit := do
  stepWithHistory stepLog
  reportBreakpoint

/-- The `do … while` loop of `dbg_run`. -/
def dbgLoop : Nat → DBG Unit
  | 0 => Program.stop .outOfFuel
  | fuel + 1 => do
      dbgStep false
      let x ← get
      if ((← atBreakpoint) = 0 ∧ finished x.vm.gCpu = false) ∨ x.dbg.quitFlag = true then
        dbgLoop fuel

def noteFinished : DBG Unit := do
  if finished (← get).vm.gCpu then
    modifyDbg fun d => { d with progState := .finished }

/-- Step through the program, taking breakpoints into account. -/
def dbgRun (fuel : Nat) (singleStep : Bool) : DBG Unit := do
  if singleStep then
    dbgStep true
    noteFinished
  else
    dbgLoop fuel
    noteFinished

def execWhenStarted (run : DBG Unit) : DBG Unit := do
  match (← get).dbg.progState with
  | .started => run
  | .loaded | .finished => print .notRunning
  | .empty => print .notLoaded

def execStep (fuel : Nat) : DBG Unit := execWhenStarted (dbgRun fuel true)

def execContinue (fuel : Nat) : DBG Unit := execWhenStarted (dbgRun fuel false)

/-- `init_call_history`: one record, of the main method. -/
def DebuggerState.initCallHistory (r : DbgEnv) (d : DebuggerState) : DebuggerState :=
  { d with
    callHistory := fun i => if i < 2 then 0 else r.historyMemory i
    callHistorySize := 2
    callHistoryTop := 2
    allocated := 2 }

def DebuggerState.init (r : DbgEnv) : DebuggerState :=
  { quitFlag := false, lastProgPath := none, progState := .empty, brkpts := []
    callHistory := r.historyMemory, callHistoryTop := 0, callHistorySize := 0, allocated := 0
    reallocs := 0 : DebuggerState }.initCallHistory r

def requestMemory : DBG Bool := do
  let r ← Program.ask
  let x ← get
  set { x with requests := x.requests + 1 }
  return r.memory x.requests

/-- `init_debugger`. Without memory for the call history, the record of main is written to the
null pointer. -/
def initDebugger : DBG Unit := do
  if ← requestMemory then
    let r ← Program.ask
    modifyDbg fun d => { DebuggerState.init r with reallocs := d.reallocs }
  else
    Program.stop .undefined

def clearDebugData : DBG Unit := modify fun x => { x with debugData := .init }

/-- The debug data as their loader finds them. -/
def Session.forLoading (x : Session) : SymbolLoader :=
  { file := [], debugData := x.debugData, clock := x.requests }

def onDebugData {α : Type} (m : Loading α) : DBG α :=
  m.zoom DbgEnv.memory Session.forLoading
    (fun x l => { x with debugData := l.debugData, requests := l.clock })
    fun _ n => .console (.symbols n)

/-- `init_ijvm(path) == 0 && load_debug_data(path)`. The null pointer leads to no file. -/
def loadProgram (path : Option String) : DBG Bool := do
  let r ← Program.ask
  if (← onVm (initIjvm (path.bind r.files))) = 0 then
    onDebugData (loadDebugData (path.bind r.files))
  else
    return false

def restartDebugger : DBG Unit := do
  onVm destroyIjvm
  clearDebugData
  if ← loadProgram (← get).dbg.lastProgPath then
    print .restarted
    modifyDbg fun d => { d with progState := .loaded }
  else
    onVm destroyIjvm
    clearDebugData
    initDebugger
    print .restartFailed

/-- `set_output` with a file that was opened for writing. -/
def setOutput : VM Unit := modify fun s => { s with outFile := [] }

def execStart : DBG Unit := do
  let state := (← get).dbg.progState
  if state = .started ∨ state = .finished then
    restartDebugger
  let state := (← get).dbg.progState
  if state = .loaded then
    onVm setOutput
    print (.starting (← get).dbg.lastProgPath)
    tellBreakpoint false
    modifyDbg fun d => { d with progState := .started }
  else if state = .empty then
    print .notLoaded

def execBacktrace : DBG Unit := do
  let state := (← get).dbg.progState
  if state = .started ∨ state = .finished then
    printFuncCalls 0
  else
    print .notRunning

/-- The commands that drive the machine, and the one that shows the call history. -/
inductive Command where
  | step | «continue» | start | backtrace
  deriving DecidableEq, Repr

def Command.exec (fuel : Nat) : Command → DBG Unit
  | .step => execStep fuel
  | .continue => execContinue fuel
  | .start => execStart
  | .backtrace => execBacktrace

/-- The loop of the debugger's `main` over the commands that are entered. -/
def commandLoop (fuel : Nat) : List Command → DBG Unit
  | [] => pure ()
  | command :: commands => do
      if (← get).dbg.quitFlag = true then
        return ()
      else
        command.exec fuel
        commandLoop fuel commands

/-- Surroundings in which nothing fails and no file can be loaded again. -/
def DbgEnv.quiet : DbgEnv where
  vm := Env.quiet
  grow _ := true
  memory _ := true
  historyMemory _ := 0
  files _ := none

/-- The debugger before its first command, with the history that `main` was granted. -/
def Session.fresh (r : DbgEnv) : Session where
  vm := State.fresh
  dbg := DebuggerState.init r
  debugData := .init
  requests := 0

/-- A session in which the file at `path` has been loaded, with these breakpoints; `s` is
the machine that `initIjvm` left, and `d` are the symbols of the file. -/
def Session.loaded (r : DbgEnv) (s : State) (d : DebugData) (path : String)
    (brkpts : List Word) : Session where
  vm := s
  dbg := { DebuggerState.init r with progState := .loaded, brkpts, lastProgPath := some path }
  debugData := d
  requests := 0

end Ijvm
