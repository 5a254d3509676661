import Ijvm.Debugger.Session
import Ijvm.Memory.Ownership

/-!
# The blocks that the debugger owns

Each function of the source with what it does to the pointers that own memory. Whatever
else it decides by is an argument: the results of the tests on a file, the answers of the
allocator, and what the instructions do. Only the copy of a command that is repeated is
taken to get memory always, so that nothing happens between two commands.

Two sizes are computed in 32 bits and can become 0: that of an array of symbols, and that of
the call history. `realloc` then frees the block.

A table of size 0 has null pointers, so reading the table of a loop that is not entered is
an access through null, which is sound.
-/

namespace Ijvm.Blocks

open Transcript Ownership

/-- The pointers: those of `CPU_t`, `marked_arrays`, the two mapped arrays, those of
`DebuggerState_t`, and the two symbol tables. -/
inductive Owner where
  | stack | codeMem | constMem
  | markedArrays
  | arrMap | arrValues | netMap | netValues
  | callHistory | lastProgPath | brkptAddrs
  | funcAddr | funcNames | funcNamesStart
  | secAddr | secNames | secNamesStart
  deriving DecidableEq, Repr

structure Flags where
  progState : ProgState
  quitFlag : Bool

/-- The process ends by `exit`, or by an access through null. -/
inductive Halt where
  | exit | crash

abbrev Desk := Tracked Owner Flags

abbrev BlockM (α : Type) := Tracker Owner Flags Halt α

def setProgState (state : ProgState) : BlockM Unit :=
  modify fun x => { x with rest := { x.rest with progState := state } }

def setQuitFlag (quit : Bool) : BlockM Unit :=
  modify fun x => { x with rest := { x.rest with quitFlag := quit } }

section Machine

def marrDestroy (map values : Owner) : BlockM Unit := do
  freeAll [map, values]
  clearAll [map, values]

/-- `marr_resize`: the old blocks are copied and freed through a temporary, or put back. -/
def marrResize (map values : Owner) (granted : Bool) : BlockM Unit := do
  if granted then
    useAll [map, values]
    marrDestroy map values
    malloc map true
    malloc values true

def netDestroy : BlockM Unit := do
  useAll [.netMap, .netValues]
  marrDestroy .netMap .netValues

def arrDestroy : BlockM Unit := do
  useAll [.arrMap, .arrValues]
  marrDestroy .arrMap .arrValues
  free .markedArrays

def cpuDestroy : BlockM Unit := do
  free .stack
  free .codeMem
  free .constMem

def destroyIjvm : BlockM Unit := do
  netDestroy
  arrDestroy
  cpuDestroy

def destroyIjvmNow : BlockM Unit := do
  destroyIjvm
  Program.stop .exit

/-- `arr_gc`; `granted` is whether `calloc` succeeds. -/
def arrGc (granted : Bool) : BlockM Unit := do
  free .markedArrays
  malloc .markedArrays granted
  if granted then
    useAll [.stack, .arrMap, .arrValues, .markedArrays]
  else
    destroyIjvmNow

/-- What an instruction can do to the pointers. -/
inductive Action where
  | collect (granted : Bool)
  | growStack (granted : Bool)
  | growArrays (granted : Bool)
  | growConnections (granted : Bool)
  | error

def Action.exec : Action → BlockM Unit
  | collect granted => arrGc granted
  | growStack granted => realloc .stack (if granted then .granted else .refused)
  | growArrays granted => marrResize .arrMap .arrValues granted
  | growConnections granted => marrResize .netMap .netValues granted
  | error => destroyIjvmNow

def execAll : List Action → BlockM Unit
  | [] => pure ()
  | action :: actions => do
      action.exec
      execAll actions

def step (actions : List Action) : BlockM Unit := do
  useAll [.codeMem, .constMem, .stack, .arrMap, .arrValues, .netMap, .netValues]
  execAll actions

/-- A copy of a string: the collections while there is no memory for it, and whether there is
in the end. -/
structure Copy where
  collections : List Bool
  copied : Bool

def strDup (copy : Copy) : BlockM Bool := do
  execAll (copy.collections.map .collect)
  return copy.copied

end Machine

section Loading

/-- What becomes of an array of symbols: it is never allocated, it grows, or it grows until
its size is 0 again. -/
inductive Growth where
  | none | some | emptied
  deriving DecidableEq, Repr

/-- The calls of `inc_memory_size` on an array. -/
def grow (o : Owner) : Growth → BlockM Unit
  | .none => pure ()
  | .some => realloc o .granted
  | .emptied => do
      realloc o .granted
      realloc o .emptied

/-- `SymbolBlock_t` after the read: what became of its arrays, and whether the block could be
read as far as the file goes. -/
structure SymbolBlock where
  addr : Growth
  names : Growth
  namesStart : Growth
  ok : Bool

/-- One of the arrays has been freed, which makes `inc_memory_size` fail. -/
def SymbolBlock.emptied (o : SymbolBlock) : Bool :=
  o.addr == .emptied || o.names == .emptied || o.namesStart == .emptied

def SymbolBlock.reads (o : SymbolBlock) : Bool := o.ok && !o.emptied

/-- The tests of `load_debug_data`. -/
structure Symbols where
  opens : Bool
  skips : Bool
  func : SymbolBlock
  sec : SymbolBlock

/-- The tests of `init_ijvm` and `load_debug_data`, in their order. `header` is that the
file opens and has the magic number and the header of a constant block of whole words;
`scan` is that the scan of main meets no invalid constant. -/
structure Load where
  header : Bool
  constAlloc : Bool
  constRead : Bool
  codeHeader : Bool
  codeAlloc : Bool
  codeRead : Bool
  scan : Bool
  stackAlloc : Bool
  symbols : Symbols

/-- `load_consts`, after the header. -/
def loadConsts (o : Load) : BlockM Bool := do
  malloc .constMem o.constAlloc
  if o.constAlloc then
    use .constMem
    return o.constRead
  else
    return false

def loadCode (o : Load) : BlockM Bool := do
  if o.codeHeader then
    malloc .codeMem o.codeAlloc
    if o.codeAlloc then
      use .codeMem
      return o.codeRead
    else
      return false
  else
    return false

def loadBin (o : Load) : BlockM Bool := do
  if o.header then
    if ← loadConsts o then
      loadCode o
    else
      return false
  else
    return false

def initStack (o : Load) : BlockM Unit := do
  useAll [.codeMem, .constMem]
  if o.scan then
    malloc .stack o.stackAlloc
    if o.stackAlloc then
      use .stack
    else
      destroyIjvmNow
  else
    destroyIjvmNow

def initIjvm (o : Load) : BlockM Bool := do
  if ← loadBin o then
    initStack o
    return true
  else
    destroyIjvm
    return false

def debugData : List Owner :=
  [.funcAddr, .funcNames, .funcNamesStart, .secAddr, .secNames, .secNamesStart]

def initDebugData : BlockM Unit := clearAll debugData

def destroyDebugData : BlockM Unit := freeAll debugData

def readSymbolBlock (addr names namesStart : Owner) (o : SymbolBlock) : BlockM Bool := do
  grow addr o.addr
  grow namesStart o.namesStart
  grow names o.names
  return o.reads

def loadDebugData (o : Symbols) : BlockM Bool := do
  if o.opens then
    let func ← readSymbolBlock .funcAddr .funcNames .funcNamesStart o.func
    let sec ← readSymbolBlock .secAddr .secNames .secNamesStart o.sec
    if o.skips && func && sec then
      return true
    else
      destroyDebugData
      initDebugData
      return false
  else
    return false

end Loading

section Commands

/-- `init_debugger`; a block of two words is taken to be there. -/
def initDebugger : BlockM Unit := do
  setQuitFlag false
  setProgState .empty
  malloc .callHistory true
  use .callHistory
  clearAll [.lastProgPath, .brkptAddrs]

def destroyDebugger : BlockM Unit := freeAll [.callHistory, .lastProgPath, .brkptAddrs]

/-- `save_last_prog`: the second copy is one of the first, and `strlen` reads through it. -/
def saveLastProg (first second : Copy) : BlockM Unit := do
  let copied ← strDup first
  free .lastProgPath
  if copied then
    let again ← strDup second
    malloc .lastProgPath again
  else
    Program.stop .crash

/-- The condition of `exec_file` and `restart_debugger`. -/
def reload (o : Load) : BlockM Bool := do
  if ← initIjvm o then
    loadDebugData o.symbols
  else
    return false

def execFile (o : Load) (first second : Copy) : BlockM Unit := do
  destroyIjvm
  destroyDebugData
  initDebugData
  destroyDebugger
  initDebugger
  if ← reload o then
    setProgState .loaded
    saveLastProg first second
  else
    destroyIjvm
    destroyDebugData
    initDebugData
    destroyDebugger
    initDebugger

def restartDebugger (o : Load) : BlockM Unit := do
  destroyIjvm
  destroyDebugData
  initDebugData
  use .lastProgPath
  if ← reload o then
    setProgState .loaded
  else
    destroyIjvm
    destroyDebugData
    initDebugData
    destroyDebugger
    initDebugger

/-- The collections of `str_dup` while records of the call history are told, with the names of
their functions; `none` if there is no record to tell. -/
abbrev Report := Option (List Bool)

def printFuncCalls : Report → BlockM Unit
  | none => pure ()
  | some collections => do
      useAll [.callHistory, .funcAddr, .funcNames, .funcNamesStart]
      execAll (collections.map .collect)

/-- What is read to tell about a breakpoint, if the program is at one. -/
def reportBreakpoint (report : Report) : BlockM Unit := do
  use .brkptAddrs
  printFuncCalls report

def execStart (o : Load) (report : Report) : BlockM Unit := do
  match (← get).rest.progState with
  | .started | .finished => restartDebugger o
  | .empty | .loaded => pure ()
  match (← get).rest.progState with
  | .loaded =>
      use .lastProgPath
      reportBreakpoint report
      setProgState .started
  | .empty | .started | .finished => pure ()

/-- What the debugger does with the call history before an instruction: nothing, unless it is
a call or a return, and a call may need a larger one. -/
inductive HistoryUse where
  | untouched | used
  | grown (answer : Reallocation)

/-- A turn of the debugger: what becomes of the call history, what the instruction does, and
what is told of a breakpoint behind it. -/
structure Turn where
  history : HistoryUse
  actions : List Action
  report : Report

/-- `create_call_history`; if `realloc` returns null the old pointer is put back. -/
def createCallHistory (history : HistoryUse) : BlockM Unit := do
  useAll [.codeMem, .constMem, .stack]
  match history with
  | .untouched => pure ()
  | .used => use .callHistory
  | .grown answer =>
      realloc .callHistory answer
      match answer with
      | .granted => use .callHistory
      | .refused | .emptied => setQuitFlag true

def dbgStep (turn : Turn) : BlockM Unit := do
  use .codeMem
  createCallHistory turn.history
  step turn.actions
  use .codeMem
  reportBreakpoint turn.report

def dbgSteps : List Turn → BlockM Unit
  | [] => pure ()
  | turn :: turns => do
      dbgStep turn
      dbgSteps turns

/-- `dbg_run`, when the program has been started; `ended` is whether it then has finished. -/
def dbgRun (turns : List Turn) (ended : Bool) : BlockM Unit := do
  match (← get).rest.progState with
  | .started =>
      dbgSteps turns
      if ended then
        setProgState .finished
  | .empty | .loaded | .finished => pure ()

/-- `exec_break`; the labels are copied until one is found, and `strcmp` reads the copies. -/
def execBreak (answer : Reallocation) (labels : Copy) : BlockM Unit := do
  match (← get).rest.progState with
  | .empty => pure ()
  | .loaded | .started | .finished =>
      realloc .brkptAddrs answer
      match answer with
      | .granted =>
          useAll debugData
          if ← strDup labels then
            use .brkptAddrs
          else
            Program.stop .crash
      | .refused | .emptied =>
          assign .brkptAddrs .null
          setQuitFlag true

def execBacktrace (report : Report) : BlockM Unit := do
  match (← get).rest.progState with
  | .empty | .loaded => pure ()
  | .started | .finished => printFuncCalls report

/-- `exec_info`, about the breakpoints; there is a name for each of them. -/
def execInfo (collections : List Bool) : BlockM Unit := do
  match (← get).rest.progState with
  | .empty => pure ()
  | .loaded | .started | .finished =>
      useAll [.brkptAddrs, .funcAddr, .funcNames, .funcNamesStart]
      execAll (collections.map .collect)

def execQuit : BlockM Unit := do
  destroyIjvm
  destroyDebugData
  destroyDebugger
  setQuitFlag true

/-- The commands, with what happens in them. The load of `start` and `run` matters if the
program has been started before. -/
inductive Command where
  | file (o : Load) (first second : Copy)
  | start (o : Load) (report : Report)
  | run (o : Load) (report : Report) (turns : List Turn) (ended : Bool)
  | step (turn : Turn) (ended : Bool)
  | «continue» (turns : List Turn) (ended : Bool)
  | «break» (answer : Reallocation) (labels : Copy)
  | backtrace (report : Report)
  | info (collections : List Bool)
  | quit

def Command.exec : Command → BlockM Unit
  | file o first second => execFile o first second
  | start o report => execStart o report
  | run o report turns ended => do
      execStart o report
      dbgRun turns ended
  | step turn ended => dbgRun [turn] ended
  | .continue turns ended => dbgRun turns ended
  | .break answer labels => execBreak answer labels
  | backtrace report => execBacktrace report
  | info collections => execInfo collections
  | quit => execQuit

def commandLoop : List Command → BlockM Unit
  | [] => pure ()
  | command :: commands => do
      if (← get).rest.quitFlag then
        return ()
      else
        command.exec
        commandLoop commands

def main (commands : List Command) : BlockM Unit := do
  initDebugData
  initDebugger
  commandLoop commands

/-- The static variables at the start. -/
def Desk.zero : Desk where
  ptr _ := .null
  rest := { progState := .empty, quitFlag := false }

/-- In the session with these commands, no released pointer is freed or used. -/
def ReleasedOnce (commands : List Command) : Prop :=
  ∀ e ∈ ((main commands).run () Desk.zero).events, e.Sound

end Commands

end Ijvm.Blocks
