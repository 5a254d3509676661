import Ijvm.Machine.Array

/-!
# The CPU: stack, constants, local variables and jumps

`stackPop` takes the kind of access as an argument that only the transcript sees:
IRETURN reloads the saved registers with the same function that takes operands.
-/

namespace Ijvm

open Transcript

def setCell (mem : Int → Word) (i : Int) (w : Word) : Int → Word :=
  fun j => if j = i then w else mem j

theorem setCell_eq {mem : Int → Word} {i j : Int} {w : Word} (h : j = i) : setCell mem i w j = w :=
  if_pos h

@[simp] theorem setCell_same (mem : Int → Word) (i : Int) (w : Word) : setCell mem i w i = w :=
  setCell_eq rfl

theorem setCell_ne {mem : Int → Word} {i j : Int} {w : Word} (h : j ≠ i) :
    setCell mem i w j = mem j :=
  if_neg h

/-- `(uint32_t)g_cpu->stack_size * sizeof(word_t) * 8`, the bytes needed after growth. -/
def expectedSize (stackSize : Int) : Nat := (stackSize % 2 ^ 32).toNat * 4 * 8

def octupleStackSizeFuel : Nat → VM Bool
  | 0 => Program.stop .outOfFuel
  | fuel + 1 => do
      let size := expectedSize (← get).gCpu.stackSize
      if size > 4294967296 ∨ size = 0 then
        destroyIjvmNow .stackOutOfMemory
      else if ← allocate then
        modifyCpu fun c => { c with stackSize := c.stackSize * 8 }
        return true
      -- After a failed `realloc` the old stack and size are restored.
      else if (← arrGc) ≠ 0 then
        octupleStackSizeFuel fuel
      else
        destroyIjvmNow .stackAlloc

def octupleStackSize : VM Bool := do
  octupleStackSizeFuel ((← get).arrMem.size + 1)

def growStackFuel : Nat → VM Bool
  | 0 => Program.stop .outOfFuel
  | fuel + 1 => do
      let c := (← get).gCpu
      if c.sp ≥ c.stackSize then
        if (← octupleStackSize) ≠ true then
          return false
        else
          growStackFuel fuel
      else
        return true

/-- The loop of `stack_push`. Each growth adds at least one cell. -/
def growStack : VM Bool := do
  let c := (← get).gCpu
  growStackFuel ((c.sp - c.stackSize).toNat + 2)

def writeTop (e : Word) : VM Unit := do
  let c := (← get).gCpu
  Program.emit [.stack .push c.sp c.stackSize]
  modifyCpu fun c => { c with stack := setCell c.stack c.sp e }

def stackPush (e : Word) : VM Bool := do
  modifyCpu fun c => { c with sp := c.sp + 1 }
  let c := (← get).gCpu
  if c.sp < c.stackSize then
    writeTop e
    return true
  else if (← growStack) ≠ true then
    return false
  else
    writeTop e
    return true

def stackPop (access : StackAccess) : VM Word := do
  let c := (← get).gCpu
  if c.sp < c.lv ∨ c.sp ≤ -1 then
    destroyIjvmNow .stackPopEmpty
  else
    Program.emit [.stack access c.sp c.stackSize]
    modifyCpu fun c => { c with sp := c.sp - 1 }
    return c.stack c.sp

def getConstant (i : Int) : VM Word := do
  let c := (← get).gCpu
  if i < 0 ∨ i ≥ c.constMemSize.tdiv 4 then
    destroyIjvmNow .constantIndex
  else
    return c.constMem.getD i.toNat 0

def getLocalVariable (i : Int) : VM Word := do
  let c := (← get).gCpu
  let offset := (c.lv + i) % 2 ^ 32
  if i < 0 ∨ i ≥ c.nv then
    destroyIjvmNow .localGet
  else
    Program.emit [.stack .load offset c.stackSize]
    return c.stack offset

def updateLocalVariable (newVal : Word) (i : Int) : VM Unit := do
  let c := (← get).gCpu
  if i < 0 ∨ i ≥ c.nv then
    destroyIjvmNow .localUpdate
  else
    Program.emit [.stack .store (c.lv + i) c.stackSize]
    modifyCpu fun c => { c with stack := setCell c.stack (c.lv + i) newVal }

def jump (offset : Int) : VM Unit := do
  let c := (← get).gCpu
  signed (c.pc + offset)
  if c.pc + offset < 0 ∨ offset ≥ c.codeMemSize then
    destroyIjvmNow .jumpOffset
  else
    modifyCpu fun c => { c with pc := c.pc + offset }

end Ijvm
