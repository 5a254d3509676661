import Ijvm.Machine.Interpreter

/-!
# Loading a binary and initializing the machine

A file is the list of its bytes; the part that is still unread is passed along.
`fread` of a 32-bit field takes four bytes of a little-endian machine, and the
loader swaps them.
-/

namespace Ijvm

open Transcript

def swapUint32 (num : Word) : Word :=
  ((num >>> 24) &&& 0xff) ||| ((num <<< 8) &&& 0xff0000) |||
    ((num >>> 8) &&& 0xff00) ||| ((num <<< 24) &&& 0xff000000)

/-- The word that four consecutive bytes of memory hold. -/
def littleEndian (b0 b1 b2 b3 : Byte) : Word :=
  b0.setWidth 32 ||| (b1.setWidth 32 <<< 8) ||| (b2.setWidth 32 <<< 16) |||
    (b3.setWidth 32 <<< 24)

/-- `fread` of one 32-bit element. -/
def readWord : List Byte → Option (Word × List Byte)
  | b0 :: b1 :: b2 :: b3 :: rest => some (littleEndian b0 b1 b2 b3, rest)
  | _ => none

/-- `fread` of `n` 32-bit elements, all of which must be there. -/
def readWords : Nat → List Byte → Option (List Word × List Byte)
  | 0, f => some ([], f)
  | n + 1, f => do
      let (w, rest) ← readWord f
      let (ws, rest) ← readWords n rest
      return (w :: ws, rest)

/-- `fread` of `n` bytes, all of which must be there. -/
def readBytes (n : Nat) (f : List Byte) : Option (List Byte × List Byte) :=
  if n ≤ f.length then some (f.take n, f.drop n) else none

def magicNumber : Word := 0x1DEADFAD

def checkFileSignature (magic : Word) : Bool := swapUint32 magic == magicNumber

/-- Load the constant origin, size and pool; return what is left of the file. -/
def loadConsts (f : List Byte) : VM (Option (List Byte)) := do
  let some (_, f) := readWord f | return none
  let some (size, f) := readWord f | return none
  let size := swapUint32 size
  modifyCpu fun c => { c with constMemSize := size.toInt }
  if size.toInt.tmod 4 ≠ 0 then
    return none
  else if (← allocate) = false then
    return none
  else
    let some (words, f) := readWords (size.toNat / 4) f | return none
    modifyCpu fun c => { c with constMem := words.map swapUint32 }
    return some f

/-- Load the text origin, size and code; return what is left of the file. -/
def loadCode (f : List Byte) : VM (Option (List Byte)) := do
  let some (_, f) := readWord f | return none
  let some (size, f) := readWord f | return none
  let size := swapUint32 size
  modifyCpu fun c => { c with codeMemSize := size.toInt }
  if (← allocate) = false then
    return none
  else
    let some (bytes, f) := readBytes size.toNat f | return none
    let env ← Program.ask
    modifyCpu fun c => { c with
      codeMem := fun i =>
        if 0 ≤ i ∧ i < size.toNat then bytes.getD i.toNat 0 else env.codeMemory i }
    return some f

/-- Load a binary into the CPU. The argument is the content of the file, or `none`
if the file cannot be opened. -/
def loadBin (file : Option (List Byte)) : VM Bool := do
  let some f := file | return false
  let some (magic, f) := readWord f | return false
  if checkFileSignature magic = false then
    return false
  else
    let some f ← loadConsts f | return false
    let some _ ← loadCode f | return false
    return true

def getCodeByte (i : Int) : VM Byte := do
  let c := (← get).gCpu
  Program.emit [.code i c.codeMemSize]
  return c.codeMem i

def getCodeShort (i : Int) : VM (BitVec 16) := do
  let b1 ← getCodeByte i
  let b2 ← getCodeByte (i + 1)
  return joinBytes b1 b2

/-- The variables of the loop that scans the main method. -/
structure Scan where
  i : Nat
  addrFirstMethodAfterMain : Nat
  nextWide : Bool
  varNum : Int

/-- The part of the loop body that handles ILOAD, ISTORE and IINC. -/
def scanVariable (op : Op) (l : Scan) : VM Scan := do
  let varIndex ← if l.nextWide then
      (fun b : BitVec 16 => b.toInt) <$> getCodeShort (l.i + 1)
    else
      (fun b : Byte => (b.toNat : Int)) <$> getCodeByte (l.i + 1)
  let read := if l.nextWide then l.i + 2 else l.i + 1
  let read := if op = .iinc then read + 1 else read
  return { l with
    i := read
    nextWide := false
    varNum := if varIndex + 1 > l.varNum then varIndex + 1 else l.varNum }

/-- The part of the loop body that handles INVOKEVIRTUAL. -/
def scanInvoke (l : Scan) : VM Scan := do
  let constIndex ← getCodeShort (l.i + 1)
  let addr := (← getConstant constIndex.toInt).toInt
  let first :=
    if addr > 0 ∧ addr < l.addrFirstMethodAfterMain ∧ addr < (← get).gCpu.codeMemSize then
      addr.toNat
    else
      l.addrFirstMethodAfterMain
  return { l with i := l.i + 2, addrFirstMethodAfterMain := first }

/-- The `switch` on the byte `op` at the index, without the increment of the `for`. -/
def scanOp (op : Byte) (l : Scan) : VM Scan := do
  match Op.ofByte? op with
  | some .wide => return { l with nextWide := true }
  | some .invokevirtual => scanInvoke l
  | some .istore => scanVariable .istore l
  | some .iload => scanVariable .iload l
  | some .iinc => scanVariable .iinc l
  | some .bipush => return { l with i := l.i + 1 }
  | some .goto | some .ifeq | some .iflt | some .icmpeq | some .ldcW =>
      return { l with i := l.i + 2 }
  | _ => return l

/-- The loop of the scan. Every turn advances the index, so the code size bounds
the turns. -/
def scanFuel : Nat → Scan → VM Scan
  | 0, _ => Program.stop .outOfFuel
  | fuel + 1, l => do
      let c := (← get).gCpu
      if ¬ (l.i : Int) < c.codeMemSize then
        return l
      else
        let op ← getCodeByte l.i
        if l.i ≠ sizeMaxUint32 ∧ l.i + 2 > l.addrFirstMethodAfterMain then
          return l
        else
          let l ← scanOp op l
          scanFuel fuel { l with i := l.i + 1 }

def getNumLocalVarsMain : VM Int := do
  let c := (← get).gCpu
  let l ← scanFuel (c.codeMemSize.toNat + 1)
    { i := 0, addrFirstMethodAfterMain := sizeMaxUint32, nextWide := false, varNum := 0 }
  return l.varNum

/-- `power` of `util.c`: the loop multiplies by the exponent, in `uint32_t`. -/
def power (base exponent : Nat) : Nat :=
  if exponent = 0 then 1
  else (List.range exponent).foldl (fun b _ => b * exponent % 2 ^ 32) base

def stackMinSize : Nat := 4096

/-- The smallest suitable stack size, if one of the seven candidates is. -/
def initialStackSize (mainNumVars : Nat) : Option Nat :=
  ((List.range 7).find? fun i =>
    mainNumVars * 4 + 1024 ≤ stackMinSize * 4 * power 8 i).map fun i => stackMinSize * power 8 i

def initStack : VM Unit := do
  let mainNumVars ← getNumLocalVarsMain
  if mainNumVars < 0 then
    destroyIjvmNow .initVars
  else
    match initialStackSize mainNumVars.toNat with
    | some size => modifyCpu fun c => { c with stackSize := size }
    | none => pure ()
    if (← allocate) = false then
      destroyIjvmNow .initStackAlloc
    else
      let env ← Program.ask
      modifyCpu fun c => { c with
        sp := mainNumVars - 1
        lv := 0
        nv := mainNumVars
        fp := mainNumVars
        stack := fun i => if 0 ≤ i ∧ i < mainNumVars then 0 else env.stackMemory i }

def initRegisters : VM Unit := modifyCpu fun c => { c with pc := 0 }

def initCpuFlags : VM Unit := modifyCpu fun c => { c with errorFlag := false, haltFlag := false }

/-- Release the connections and the arrays; the memory of the CPU is freed without
a change to its fields. -/
def destroyIjvm : VM Unit := do
  netDestroy
  arrDestroy

/-- Initialize the machine with a binary; 0 on success and -1 on failure. -/
def initIjvm (file : Option (List Byte)) : VM Int := do
  if (← loadBin file) ≠ true then
    destroyIjvm
    return -1
  else
    initRegisters
    initStack
    initCpuFlags
    let env ← Program.ask
    modify fun s => { s with outFile := [], inFile := env.stdin }
    setNextOpWide false
    return 0

/-- The globals of a process that has just started. -/
def State.fresh : State where
  gCpu := {
    constMemSize := 0, codeMemSize := 0, stackSize := 0
    constMem := [], codeMem := fun _ => 0, stack := fun _ => 0
    pc := 0, sp := 0, fp := 0, lv := 0, nv := 0
    errorFlag := false, haltFlag := false }
  arrMem := { size := 0, map := [], values := [] }
  markedArrays := []
  elementCreations := 0
  netConn := { size := 0, map := [], values := [] }
  nextOpWide := false
  inFile := []
  outFile := []
  clock := 0

end Ijvm
