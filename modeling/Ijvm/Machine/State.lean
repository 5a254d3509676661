import Ijvm.Transcript.Contract
import Ijvm.Machine.Bytecode

/-!
# The state of the virtual machine

The globals of the source become the fields of one `State`: the CPU, the mapped
array of array pointers, the mark table of the collector, the counter of element
creations, the mapped array of connections, the flag of the WIDE prefix and the
two files.

Memory that C addresses through a pointer is a function on all indices together
with the allocated size, as in `stack` and `stackSize`. A cell outside the
allocated range holds whatever the memory there holds; every access is written to
the transcript with the size at that moment, so that bounds are statements about
the transcript and nothing is assumed about out-of-range cells.

What the program cannot control is in `Env`: allocation results, the results of
the system calls, and the contents of fresh memory. `clock` counts the questions
asked of the environment, so that each one has an answer of its own.
-/

namespace Ijvm

open Transcript

/-- `CPU_t`. Sizes are in elements, `constMemSize` in bytes. -/
structure Cpu where
  constMemSize : Int
  codeMemSize : Int
  stackSize : Int
  constMem : List Word
  codeMem : Int → Byte
  stack : Int → Word
  pc : Int
  sp : Int
  fp : Int
  lv : Int
  nv : Int
  errorFlag : Bool
  haltFlag : Bool

/-- `MArr_t`: a claimed-flag and a value for each index below `size`. The value
`default` stands for the null pointer. -/
structure MArr (α : Type) where
  size : Nat
  map : List Bool
  values : List α

/-- The memory of one array: cell 0 holds the number of elements, which follow in
the cells from 1 on. The null pointer is the empty block. -/
abbrev Block := List Word

/-- `Sock_t`, with the address in host byte order. -/
structure Sock where
  fd : Int
  fds : Int
  client : Bool
  server : Bool
  host : Word
  port : BitVec 16
  deriving DecidableEq, Inhabited

structure State where
  gCpu : Cpu
  arrMem : MArr Block
  markedArrays : List Bool
  elementCreations : Nat
  netConn : MArr Sock
  nextOpWide : Bool
  inFile : List Byte
  outFile : List Byte
  clock : Nat

/-- The surroundings of the machine. `alloc n` is whether the `n`-th question, if
it is an allocation, succeeds; `sys n` is the integer result of a system call and
`received n` the byte a successful `recv` stores. -/
structure Env where
  alloc : Nat → Bool
  sys : Nat → Int
  received : Nat → Byte
  stackMemory : Int → Word
  codeMemory : Int → Byte
  stdin : List Byte

/-- The places that access `g_cpu->stack`. `linkage` is the reload of the saved
registers in IRETURN, `root` the scan of the collector. -/
inductive StackAccess where
  | push | pop | linkage | dup | load | store | clear | root
  deriving DecidableEq, Repr

/-- The system calls of `net.c`, with the data they pass. -/
inductive SysCall where
  | socket
  | bind (fd : Int) (host : Word) (port : BitVec 16)
  | listen (fd : Int) (backlog : Nat)
  | accept (fd : Int)
  | connect (fd : Int) (host : Word) (port : BitVec 16)
  | recv (fd : Int) (length : Nat)
  | send (fd : Int) (data : List Byte)
  | shutdown (fd : Int) (how : Nat)
  | close (fd : Int)
  deriving DecidableEq, Repr

/-- What a run leaves in the transcript: accesses to stack and code memory, the
exact results of signed 32-bit computations, the entries into the collector and
the system calls with their results. -/
inductive Event where
  | stack (access : StackAccess) (index size : Int)
  | code (index size : Int)
  | signed (value : Int)
  | gc (entry : State)
  | sys (call : SysCall) (result : Int)

/-- The places that print an error and call `destroy_ijvm_now`. -/
inductive Err where
  | arrStoreLimit | arrCreateSize | arrCreateAlloc | arrRef | arrMissing | arrBounds
  | arrGcAlloc
  | marrInitSize | marrResizeShrink | marrResizeLimit | marrResizeAlloc | marrCheckBounds
  | marrSetBounds | marrGetBounds | marrGetUnclaimed | marrRemoveBounds
  | stackPopEmpty | stackOutOfMemory | stackAlloc | constantIndex | localGet | localUpdate
  | jumpOffset
  | argByte | argShort | ireturnFrame | invokeAddress | invokePush | invokeArgs
  | netRef | netRecvSocket | netRecvCount | netSendSocket | netSendCount
  | initVars | initStackAlloc
  deriving DecidableEq, Repr

/-- The layout of every error text. -/
def errText (what place : String) : String :=
  "[ERR] " ++ what ++ " In \"" ++ place ++ "\".\n"

def Err.message : Err → String
  | arrStoreLimit => errText "Program requires more arrays than is supported." "array.c::arr_store"
  | arrCreateSize => errText "Invalid array size." "array.c::arr_create"
  | arrCreateAlloc => errText "Failed to allocate memory." "array.c::arr_create"
  | arrRef => errText "Invalid array reference." "array.c::arr_check_bounds"
  | arrMissing =>
      errText "Program tried to access a non-existent array." "array.c::arr_check_bounds"
  | arrBounds =>
      errText "Program tried to access a memory outside of an array." "array.c::arr_check_bounds"
  | arrGcAlloc => errText "Failed to allocate memory." "array.c::arr_gc"
  | marrInitSize => errText "Invalid ('0') mapped array size." "marr.c::marr_init"
  | marrResizeShrink => errText "New size cannot be less than the old size." "marr.c::marr_resize"
  | marrResizeLimit => errText "Exceeded the size limit of a mapped array." "marr.c::marr_resize"
  | marrResizeAlloc => errText "Failed to allocate memory." "marr.c::marr_resize"
  | marrCheckBounds => errText "Out of bounds map check." "marr.c::marr_check_marked"
  | marrSetBounds =>
      errText "Tried to access out of bounds memory in mapped array." "marr.c::marr_set_element"
  | marrGetBounds =>
      errText "Tried to access out of bounds memory in mapped array." "marr.c::marr_get_element"
  | marrGetUnclaimed => errText "Tried to access unclaimed element." "marr.c::marr_get_element"
  | marrRemoveBounds =>
      errText "Tried to remove a non existent element from a mapped array."
        "marr.c::marr_remove_element"
  | stackPopEmpty =>
      errText "Failed to pop off the stack because the stack is empty." "cpu.c::stack_pop"
  | stackOutOfMemory => errText "Out of memory." "cpu.c::octuple_stack_size"
  | stackAlloc => errText "Failed to allocate memory." "cpu.c::octuple_stack_size"
  | constantIndex => errText "Invalid constant index." "cpu.c::get_constant"
  | localGet =>
      errText "Program tried to access memory outside of variable memory."
        "cpu.c::get_local_variable"
  | localUpdate =>
      errText "Program tried to access memory outside of variable memory."
        "cpu.c::update_local_variable"
  | jumpOffset => errText "Invalid jump offset." "cpu.c::jump"
  | argByte =>
      errText "Program counter was moved beyond code memory." "interpreter.c::get_arg_short"
  | argShort =>
      errText "Program counter was moved beyond code memory." "interpreter.c::get_arg_short"
  | ireturnFrame =>
      errText "Program tried removing a stack frame that did not exist."
        "interpreter.c::exec_op_ireturn"
  | invokeAddress => errText "Invalid method address." "interpreter.c::exec_op_invokevirtual"
  | invokePush => errText "Failed to push onto the stack." "interpreter.c::exec_op_invokevirtual"
  | invokeArgs =>
      errText "Method provided an invalid number of arguments."
        "interpreter.c::exec_op_invokevirtual"
  | netRef =>
      errText "Invalid network reference or program requires more connections than is possible."
        "net.c::net_check_ref"
  | netRecvSocket => errText "Socket cannot be both connected and bound." "net.c::net_recv"
  | netRecvCount => errText "Received unexpected number of bytes." "net.c::net_recv"
  | netSendSocket => errText "Socket cannot be both connected and bound." "net.c::net_send"
  | netSendCount => errText "Sent unexpected number of bytes." "net.c::net_send"
  | initVars => errText "Invalid number of arguments in main method." "init.c::init_stack"
  | initStackAlloc => errText "Failed to allocate memory." "init.c::init_stack"

/-- Why a run ends early. `error` is `destroy_ijvm_now`; `undefined` is an access
C gives no meaning to (an instruction fetch outside code memory, a null socket);
`outOfFuel` ends a loop of the model whose bound was too small. -/
inductive Stop where
  | error (e : Err)
  | undefined
  | outOfFuel
  deriving DecidableEq, Repr

abbrev VM (α : Type) := Program Env State Event Stop α

/-- Print the message of `e`, release everything and `exit`. -/
def destroyIjvmNow {α : Type} (e : Err) : VM α := Program.stop (.error e)

def allocate : VM Bool := do
  let env ← Program.ask
  let s ← get
  set { s with clock := s.clock + 1 }
  return env.alloc s.clock

/-- Ask the environment for the result of a system call. -/
def sysCall (call : SysCall) : VM Int := do
  let env ← Program.ask
  let s ← get
  set { s with clock := s.clock + 1 }
  Program.emit [.sys call (env.sys s.clock)]
  return env.sys s.clock

def modifyCpu (f : Cpu → Cpu) : VM Unit :=
  modify fun s => { s with gCpu := f s.gCpu }

/-- Record the exact result of a computation in C's `int`. -/
def signed (v : Int) : VM Unit := Program.emit [.signed v]

@[simp] theorem run_destroyIjvmNow {α : Type} (e : Err) (env : Env) (s : State) :
    (destroyIjvmNow e : VM α).run env s = .stopped (.error e) s [] := rfl

@[simp] theorem run_allocate (env : Env) (s : State) :
    allocate.run env s = .done (env.alloc s.clock) { s with clock := s.clock + 1 } [] := rfl

@[simp] theorem run_sysCall (call : SysCall) (env : Env) (s : State) :
    (sysCall call).run env s =
      .done (env.sys s.clock) { s with clock := s.clock + 1 } [.sys call (env.sys s.clock)] := rfl

@[simp] theorem run_modifyCpu (f : Cpu → Cpu) (env : Env) (s : State) :
    (modifyCpu f).run env s = .done () { s with gCpu := f s.gCpu } [] := rfl

@[simp] theorem run_signed (v : Int) (env : Env) (s : State) :
    (signed v).run env s = .done () s [.signed v] := rfl

end Ijvm
