import Ijvm.Debugger.Info
import Ijvm.Machine.Launch

/-!
# The state of the debugger

A session is the virtual machine together with the state of the debugger and its debug data.
Programs of the machine run inside a session by `look`, for the bookkeeping of the debugger, by
`enterStep`, for the one call of `step`, and by `lookUp`, for what looks at names; the
transcript tells them apart.

A lookup asks for memory of its own. The answers to these requests are counted apart from those
to the machine, so that the debugger does not change what the machine is granted; but without
memory for a name, a lookup collects the arrays of the machine.

The call history is memory that C addresses through a pointer, a function on all indices
together with the allocated size; an access outside it has no meaning. The text of the console
is kept as the data that the format strings print.
-/

namespace Ijvm

open Transcript

inductive ProgState where
  | empty | loaded | started | finished
  deriving DecidableEq, Repr

/-- `DebuggerState_t`. The counters of the call history are `uint32_t`; `allocated` is the
size of the memory that the history has, and `reallocs` counts the questions to the
allocator. -/
structure DebuggerState where
  quitFlag : Bool
  lastProgPath : Option String
  progState : ProgState
  brkpts : List Word
  callHistory : Nat → Word
  callHistoryTop : Nat
  callHistorySize : Nat
  allocated : Nat
  reallocs : Nat

/-- The machine, the state of the debugger, `g_debug_data`, and the number of requests for memory
that the debugger has made for names, symbols, paths and new histories. -/
structure Session where
  vm : State
  dbg : DebuggerState
  debugData : DebugData
  requests : Nat

/-- The surroundings of the debugger: those of the machine, whether the `n`-th
reallocation of the call history and the `n`-th other request for memory succeed, the contents
of fresh history memory, and the files. -/
structure DbgEnv where
  vm : Env
  grow : Nat → Bool
  memory : Nat → Bool
  historyMemory : Nat → Word
  files : String → Option (List Byte)

inductive Console where
  | traced (pc : Int) (op : String)
  | breakpoint (id : Nat)
  | funcCall (number : Option Nat) (funcAddr : Word) (name : Option (List Byte))
      (args : List Word)
  | stoppedAt (pc : Int) (op : Option String)
  | starting (path : Option String)
  | restarted
  | restartFailed
  | notRunning
  | notLoaded
  | historyAlloc
  | info (shown : Info)
  | symbols (notice : Notice)
  deriving DecidableEq, Repr

/-- What a session leaves in the transcript: the calls of `dbg_step`, the entries into
`step` and the events of that call, the events of the bookkeeping together with the state
of the machine at that moment, the calls of `addr_to_func_name` for the call history and what
lookups do, and the console. `argument` is a read of a stack word by `store_func_call`,
`history` an access to the memory of the call history. -/
inductive DbgEvent where
  | vm (e : Event)
  | own (here : State) (e : Event)
  | argument (here : State) (index size : Int)
  | history (here : State) (index size : Nat)
  | stepping (x : Session) (stepLog : Bool)
  | entered (s : State)
  | naming (x : Session) (addr : Word)
  | lookup (e : LookupEvent)
  | console (c : Console)

abbrev DBG (α : Type) := Program DbgEnv Session DbgEvent Stop α

/-- Use a function of the machine for the bookkeeping of the debugger. -/
def look {α : Type} (m : VM α) : DBG α :=
  m.zoom DbgEnv.vm Session.vm (fun x s => { x with vm := s }) fun x e => .own x.vm e

def onVm {α : Type} (m : VM α) : DBG α :=
  m.zoom DbgEnv.vm Session.vm (fun x s => { x with vm := s }) fun _ e => .vm e

/-- The machine as a lookup finds it. -/
def Session.forLookup (x : Session) : State := { x.vm with clock := x.requests }

def DbgEnv.forLookup (r : DbgEnv) : Env := { r.vm with alloc := r.memory }

/-- The session after a lookup that has left the machine in the state `s`. -/
def Session.afterLookup (x : Session) (s : State) : Session :=
  { x with vm := { s with clock := x.vm.clock }, requests := s.clock }

def lookUp {α : Type} (m : LOOKUP α) : DBG α :=
  m.zoom DbgEnv.forLookup Session.forLookup Session.afterLookup fun _ e => .lookup e

def enterStep : DBG Unit := do
  Program.emit [.entered (← get).vm]
  let _ ← onVm step

def modifyDbg (f : DebuggerState → DebuggerState) : DBG Unit :=
  modify fun x => { x with dbg := f x.dbg }

def print (c : Console) : DBG Unit := Program.emit [.console c]

section Runs

variable {α : Type} {r : DbgEnv} {x : Session}

theorem look_run (m : VM α) :
    (look m).run r x =
      (m.run r.vm x.vm).embed (fun s => { x with vm := s }) (DbgEvent.own x.vm) := rfl

theorem onVm_run (m : VM α) :
    (onVm m).run r x =
      (m.run r.vm x.vm).embed (fun s => { x with vm := s }) DbgEvent.vm := rfl

theorem lookUp_run (m : LOOKUP α) :
    (lookUp m).run r x =
      (m.run r.forLookup x.forLookup).embed x.afterLookup DbgEvent.lookup := rfl

/-- A lookup that only asks for memory leaves the machine as it is. -/
theorem lookUp_done {m : LOOKUP α} {a : α} {n : Nat} {es : List LookupEvent}
    (run : m.run r.forLookup x.forLookup = .done a { x.forLookup with clock := n } es) :
    (lookUp m).run r x = .done a { x with requests := n } (es.map .lookup) := by
  rw [lookUp_run, run]
  rfl

@[simp] theorem run_modifyDbg (f : DebuggerState → DebuggerState) :
    (modifyDbg f).run r x = .done () { x with dbg := f x.dbg } [] := rfl

@[simp] theorem run_print (c : Console) : (print c).run r x = .done () x [.console c] := rfl

end Runs

/-- `op_decode`: the mnemonic of an operation code. -/
def opDecode (b : Byte) : String :=
  match Op.ofByte? b with
  | some .nop => "NOP"
  | some .bipush => "BIPUSH"
  | some .ldcW => "LDC_W"
  | some .iload => "ILOAD"
  | some .istore => "ISTORE"
  | some .pop => "POP"
  | some .dup => "DUP"
  | some .swap => "SWAP"
  | some .iadd => "IADD"
  | some .isub => "ISUB"
  | some .iand => "IAND"
  | some .iinc => "IINC"
  | some .ifeq => "IFEQ"
  | some .iflt => "IFLT"
  | some .icmpeq => "ICMPEQ"
  | some .goto => "GOTO"
  | some .ireturn => "IRETURN"
  | some .ior => "IOR"
  | some .invokevirtual => "INVOKEVIRTUAL"
  | some .wide => "WIDE"
  | some .in => "IN"
  | some .out => "OUT"
  | some .err => "ERR"
  | some .halt => "HALT"
  | some .newarray => "NEWARRAY"
  | some .iaload => "IALOAD"
  | some .iastore => "IASTORE"
  | some .gc => "GC"
  | some .netbind => "NETBIND"
  | some .netconnect => "NETCONNECT"
  | some .netin => "NETIN"
  | some .netout => "NETOUT"
  | some .netclose => "NETCLOSE"
  | none => "NULL"

end Ijvm
