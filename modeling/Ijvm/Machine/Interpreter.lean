import Ijvm.Machine.Net
import Ijvm.Machine.Stack

/-!
# The interpreter

An instruction fetch outside code memory has no meaning in C and ends the run as
`Stop.undefined`, as does a fetch of arguments that the bounds check lets pass wrongly. The
nested `step` of a WIDE prefix starts one byte further on, so the number of bytes left bounds
the nesting.
-/

namespace Ijvm

open Transcript

/-- The argument of `k` bytes at PC goes beyond the code. At the largest values of `int` the
sum of the check overflows and stays unnoticed, so that the bytes are read. -/
def argOutside {α : Type} (k : Nat) (e : Err) : VM α := do
  let c := (← get).gCpu
  if c.pc + k < 2 ^ 31 then
    destroyIjvmNow e
  else
    Program.emit ((List.range k).map fun i : Nat => .code (c.pc + i) c.codeMemSize)
    Program.stop .undefined

def getArgByte : VM Byte := do
  let c := (← get).gCpu
  signed (c.pc + 1)
  if c.pc + 1 > c.codeMemSize then
    argOutside 1 .argByte
  else
    Program.emit [.code c.pc c.codeMemSize]
    modifyCpu fun c => { c with pc := c.pc + 1 }
    return c.codeMem c.pc

/-- `(short)((b1 << 8) | b2)`, the bits of a two byte argument. -/
def joinBytes (b1 b2 : Byte) : BitVec 16 := (b1.setWidth 16 <<< 8) ||| b2.setWidth 16

/-- Get a two byte argument from code memory and increment PC twice. -/
def getArgShort : VM (BitVec 16) := do
  let c := (← get).gCpu
  signed (c.pc + 2)
  if c.pc + 2 > c.codeMemSize then
    argOutside 2 .argShort
  else
    Program.emit [.code c.pc c.codeMemSize, .code (c.pc + 1) c.codeMemSize]
    modifyCpu fun c => { c with pc := c.pc + 2 }
    return joinBytes (c.codeMem c.pc) (c.codeMem (c.pc + 1))

/-- The index of a local variable: one byte, or two unsigned bytes after WIDE. -/
def getVarIndex : VM Int := do
  if (← get).nextOpWide then
    return (← getArgShort).toNat
  else
    return (← getArgByte).toNat

def execOpNop : VM Unit := pure ()

def execOpBipush : VM Unit := do
  let arg ← getArgByte
  let _ ← stackPush (arg.signExtend 32)

def execOpLdcW : VM Unit := do
  let constIndex ← getArgShort
  let constVal ← getConstant constIndex.toNat
  let _ ← stackPush constVal

def execOpIload : VM Unit := do
  let varI ← getVarIndex
  let val ← getLocalVariable varI
  let _ ← stackPush val

def execOpIstore : VM Unit := do
  let val ← stackPop .pop
  let varI ← getVarIndex
  updateLocalVariable val varI

def execOpPop : VM Unit := do
  let _ ← stackPop .pop

def execOpDup : VM Unit := do
  let c := (← get).gCpu
  Program.emit [.stack .dup c.sp c.stackSize]
  let _ ← stackPush (c.stack c.sp)

def execOpSwap : VM Unit := do
  let b ← stackPop .pop
  let a ← stackPop .pop
  let _ ← stackPush b
  let _ ← stackPush a

/-- Pop two operands, record the signed computations on them, push the result. -/
def execBinary (computes : Word → Word → List Int) (f : Word → Word → Word) : VM Unit := do
  let b ← stackPop .pop
  let a ← stackPop .pop
  Program.emit ((computes a b).map .signed)
  let _ ← stackPush (f a b)

/-- The sum is computed in 64 bits and then narrowed. -/
def execOpIadd : VM Unit :=
  execBinary (fun _ _ => []) fun a b => BitVec.ofInt 32 (a.toInt + b.toInt)

def execOpIsub : VM Unit :=
  execBinary (fun a b => [a.toInt - b.toInt]) fun a b => a - b

def execOpIand : VM Unit :=
  execBinary (fun _ _ => []) fun a b => a &&& b

def execOpIor : VM Unit :=
  execBinary (fun _ _ => []) fun a b => a ||| b

/-- Here a wide index is signed. -/
def execOpIinc : VM Unit := do
  let varI ← if (← get).nextOpWide then
      (fun b : BitVec 16 => b.toInt) <$> getArgShort
    else
      (fun b : Byte => (b.toNat : Int)) <$> getArgByte
  let c ← getArgByte
  let old ← getLocalVariable varI
  signed (old.toInt + c.toInt)
  updateLocalVariable (old + c.signExtend 32) varI

/-- Three bytes of the instruction are already read, so the offset is rebased by -3
and narrowed to 16 bits. -/
def getJumpOffset : VM Int := do
  let arg ← getArgShort
  return (arg - 3).toInt

def execOpIfeq : VM Unit := do
  let jmpOffset ← getJumpOffset
  if (← stackPop .pop) = 0 then
    jump jmpOffset

def execOpIflt : VM Unit := do
  let jmpOffset ← getJumpOffset
  if (← stackPop .pop).toInt < 0 then
    jump jmpOffset

def execOpIcmpeq : VM Unit := do
  let jmpOffset ← getJumpOffset
  let a ← stackPop .pop
  let b ← stackPop .pop
  if a = b then
    jump jmpOffset

def execOpGoto : VM Unit := do
  let jmpOffset ← getJumpOffset
  jump jmpOffset

/-- The range check of IRETURN; it tests `lv` twice and `nv` only from below. -/
def ireturnRejects (c : Cpu) : Prop :=
  c.sp < -1 ∨ c.sp ≥ c.stackSize ∨
  c.pc < 0 ∨ c.pc ≥ c.codeMemSize ∨
  c.fp < 0 ∨ c.fp ≥ c.stackSize ∨
  c.nv < 0 ∨ c.lv ≥ c.stackSize ∨
  c.lv < 0 ∨ c.lv ≥ c.stackSize

instance (c : Cpu) : Decidable (ireturnRejects c) := by
  unfold ireturnRejects
  infer_instance

def execOpIreturn : VM Unit := do
  let retVal ← stackPop .pop
  let oldNv := (← get).gCpu.nv
  signed ((← get).gCpu.fp + 3)
  modifyCpu fun c => { c with sp := c.fp + 3 }
  let pc ← stackPop .linkage
  modifyCpu fun c => { c with pc := pc.toInt }
  let fp ← stackPop .linkage
  modifyCpu fun c => { c with fp := fp.toInt }
  let nv ← stackPop .linkage
  modifyCpu fun c => { c with nv := nv.toInt }
  let lv ← stackPop .linkage
  modifyCpu fun c => { c with lv := lv.toInt }
  signed ((← get).gCpu.sp - oldNv)
  modifyCpu fun c => { c with sp := c.sp - oldNv }
  if ireturnRejects (← get).gCpu then
    destroyIjvmNow .ireturnFrame
  else
    let _ ← stackPush retVal

def regWord (v : Int) : Word := BitVec.ofInt 32 v

/-- Push the four linkage words, in the order of the source's `||`. -/
def pushLinkage (oldPc : Int) : VM Bool := do
  if (← stackPush (regWord (← get).gCpu.lv)) ≠ true then return false
  else if (← stackPush (regWord (← get).gCpu.nv)) ≠ true then return false
  else if (← stackPush (regWord (← get).gCpu.fp)) ≠ true then return false
  else stackPush (regWord oldPc)

/-- `memset` of `n` stack cells to 0. -/
def clearCells (start : Int) (n : Nat) : VM Unit := do
  let c := (← get).gCpu
  Program.emit ((List.range n).map fun k : Nat => .stack .clear (start + k) c.stackSize)
  modifyCpu fun c => { c with stack := fun j => if start ≤ j ∧ j < start + n then 0 else c.stack j }

/-- The first half of `execOpInvokevirtual`: move PC into the method, and return the
return address with the numbers of arguments and local variables. -/
def enterMethod : VM (Int × Nat × Nat) := do
  -- PC moves to the return address while the constant index is read.
  let constIndex ← getArgShort
  let offset ← getConstant constIndex.toInt
  let c := (← get).gCpu
  if offset.toInt < 0 ∨ offset.toInt ≥ c.codeMemSize then
    destroyIjvmNow .invokeAddress
  else
    modifyCpu fun c => { c with pc := offset.toInt }
    let numArgs ← getArgShort
    let numLocals ← getArgShort
    return (c.pc, numArgs.toNat, numLocals.toNat)

def setFrame (numArgs numLocals : Nat) : VM Unit := do
  signed ((← get).gCpu.sp - 3)
  modifyCpu fun c => { c with fp := c.sp - 3 }
  modifyCpu fun c => { c with nv := numArgs + numLocals }
  signed ((← get).gCpu.fp - (← get).gCpu.nv)
  modifyCpu fun c => { c with lv := c.fp - c.nv }

/-- The second half of `execOpInvokevirtual`: build the frame. -/
def pushFrame (oldPc : Int) (numArgs numLocals : Nat) : VM Unit := do
  signed ((← get).gCpu.sp + numLocals)
  modifyCpu fun c => { c with sp := c.sp + numLocals }
  if (← pushLinkage oldPc) ≠ true then
    destroyIjvmNow .invokePush
  else
    setFrame numArgs numLocals
    let lv := (← get).gCpu.lv
    if lv < 0 then
      destroyIjvmNow .invokeArgs
    else
      clearCells (lv + numArgs) numLocals

def execOpInvokevirtual : VM Unit := do
  let (oldPc, numArgs, numLocals) ← enterMethod
  pushFrame oldPc numArgs numLocals

/-- `getc`, with `none` for the end of the file. -/
def getc : VM (Option Byte) := do
  let s ← get
  match s.inFile with
  | [] => return none
  | b :: rest =>
      set { s with inFile := rest }
      return some b

def execOpIn : VM Unit := do
  match ← getc with
  | none => let _ ← stackPush 0
  | some c => let _ ← stackPush (c.setWidth 32)

def execOpOut : VM Unit := do
  let data ← stackPop .pop
  modify fun s => { s with outFile := s.outFile ++ [data.setWidth 8] }

def execOpErr : VM Unit := modifyCpu fun c => { c with errorFlag := true }

def execOpHalt : VM Unit := modifyCpu fun c => { c with haltFlag := true }

def execOpNewarray : VM Unit := do
  let count ← stackPop .pop
  let arrRef ← arrCreate count
  let _ ← stackPush arrRef

def execOpIaload : VM Unit := do
  let arrayRef ← stackPop .pop
  let i ← stackPop .pop
  let val ← arrGet arrayRef i
  let _ ← stackPush val

def execOpIastore : VM Unit := do
  let arrayRef ← stackPop .pop
  let i ← stackPop .pop
  let val ← stackPop .pop
  arrSet arrayRef i val

def execOpGc : VM Unit := do
  let _ ← arrGc

def execOpNetbind : VM Unit := do
  let port ← stackPop .pop
  let netRef ← netBind port
  let _ ← stackPush netRef

def execOpNetconnect : VM Unit := do
  let port ← stackPop .pop
  let host ← stackPop .pop
  let netRef ← netConnect host port
  let _ ← stackPush netRef

def execOpNetin : VM Unit := do
  let netRef ← stackPop .pop
  let data ← netRecv netRef
  let _ ← stackPush (data.signExtend 32)

def execOpNetout : VM Unit := do
  let netRef ← stackPop .pop
  let data ← stackPop .pop
  netSend netRef data

def execOpNetclose : VM Unit := do
  let netRef ← stackPop .pop
  netClose netRef

def setNextOpWide (wide : Bool) : VM Unit := modify fun s => { s with nextOpWide := wide }

/-- `nested` is the `step` that the prefix runs for the next instruction. -/
def execOpWide (nested : VM Bool) : VM Unit := do
  setNextOpWide true
  let _ ← nested
  setNextOpWide false

def execOp (nested : VM Bool) : Op → VM Unit
  | .nop => execOpNop
  | .bipush => execOpBipush
  | .ldcW => execOpLdcW
  | .iload => execOpIload
  | .istore => execOpIstore
  | .pop => execOpPop
  | .dup => execOpDup
  | .swap => execOpSwap
  | .iadd => execOpIadd
  | .isub => execOpIsub
  | .iand => execOpIand
  | .iinc => execOpIinc
  | .ifeq => execOpIfeq
  | .iflt => execOpIflt
  | .icmpeq => execOpIcmpeq
  | .goto => execOpGoto
  | .ireturn => execOpIreturn
  | .ior => execOpIor
  | .invokevirtual => execOpInvokevirtual
  | .wide => execOpWide nested
  | .in => execOpIn
  | .out => execOpOut
  | .err => execOpErr
  | .halt => execOpHalt
  | .newarray => execOpNewarray
  | .iaload => execOpIaload
  | .iastore => execOpIastore
  | .gc => execOpGc
  | .netbind => execOpNetbind
  | .netconnect => execOpNetconnect
  | .netin => execOpNetin
  | .netout => execOpNetout
  | .netclose => execOpNetclose

/-- The `switch` of `step` after the byte `op` was fetched. -/
def dispatch (nested : VM Bool) (op : Byte) : VM Bool := do
  match Op.ofByte? op with
  | some op =>
      execOp nested op
      return true
  | none =>
      modifyCpu fun c => { c with errorFlag := true }
      return false

/-- Fetch the byte at PC and increment PC. -/
def fetchOp : VM Byte := do
  let c := (← get).gCpu
  Program.emit [.code c.pc c.codeMemSize]
  if c.pc < 0 ∨ c.pc ≥ c.codeMemSize then
    Program.stop .undefined
  else
    modifyCpu fun c => { c with pc := c.pc + 1 }
    return c.codeMem c.pc

def stepFuel : Nat → VM Bool
  | 0 => Program.stop .outOfFuel
  | fuel + 1 => do
      let op ← fetchOp
      dispatch (stepFuel fuel) op

/-- Perform one instruction, together with the WIDE prefixes before it. -/
def step : VM Bool := do
  let c := (← get).gCpu
  stepFuel ((c.codeMemSize - c.pc).toNat + 1)

def finished (c : Cpu) : Bool :=
  (c.pc < 0 || c.pc ≥ c.codeMemSize) || c.errorFlag || c.haltFlag

/-- At most `fuel` turns of the loop of `run`. -/
def runFuel : Nat → VM Unit
  | 0 => Program.stop .outOfFuel
  | fuel + 1 => do
      if finished (← get).gCpu then
        return ()
      else
        let _ ← step
        runFuel fuel

end Ijvm
