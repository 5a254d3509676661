import Ijvm.Machine.Reference
import Ijvm.Machine.State

/-!
# Mapped arrays and the garbage collector

`marr.c` works on any mapped array through a pointer; here `MArrPtr` names one of
the two mapped arrays of the state. The accessors below do not allocate. The
operations that add or resize can run the collector first, and come after it in
`Machine.Array`.
-/

namespace Ijvm

open Transcript

/-- The argument `MArr_t*`: which mapped array of the state is meant. Writing through
it changes neither the CPU nor the WIDE flag. -/
structure MArrPtr (α : Type) where
  get : State → MArr α
  set : MArr α → State → State
  gCpu_set : ∀ m s, (set m s).gCpu = s.gCpu
  nextOpWide_set : ∀ m s, (set m s).nextOpWide = s.nextOpWide

def arrMem : MArrPtr Block where
  get s := s.arrMem
  set m s := { s with arrMem := m }
  gCpu_set _ _ := rfl
  nextOpWide_set _ _ := rfl

def netConn : MArrPtr Sock where
  get s := s.netConn
  set m s := { s with netConn := m }
  gCpu_set _ _ := rfl
  nextOpWide_set _ _ := rfl

namespace MArr

variable {α : Type}

def flag (m : MArr α) (i : Nat) : Bool := m.map.getD i false

def value [Inhabited α] (m : MArr α) (i : Nat) : α := m.values.getD i default

def store (m : MArr α) (i : Nat) (data : α) : MArr α :=
  { m with values := m.values.set i data, map := m.map.set i true }

def clear [Inhabited α] (m : MArr α) (i : Nat) : MArr α :=
  { m with values := m.values.set i default, map := m.map.set i false }

end MArr

section MappedArray

variable {α : Type} [Inhabited α] (marr : MArrPtr α)

def marrCheckMarked (valI : Nat) : VM Bool := do
  let m := marr.get (← get)
  if valI ≥ m.size then
    destroyIjvmNow .marrCheckBounds
  else
    return m.flag valI

def marrSetElement (valI : Nat) (data : α) : VM Unit := do
  let m := marr.get (← get)
  if valI ≥ m.size then
    destroyIjvmNow .marrSetBounds
  else
    modify (marr.set (m.store valI data))

def marrGetElement (valI : Nat) : VM α := do
  let m := marr.get (← get)
  if valI ≥ m.size then
    destroyIjvmNow .marrGetBounds
  else if m.flag valI ≠ true then
    destroyIjvmNow .marrGetUnclaimed
  else
    return m.value valI

def marrRemoveElement (valI : Nat) : VM Unit := do
  let m := marr.get (← get)
  if valI ≥ m.size then
    destroyIjvmNow .marrRemoveBounds
  else
    modify (marr.set (m.clear valI))

end MappedArray

/-- Cell `i` of the memory that a `word_t*` points to. -/
def Block.cell (b : Block) (i : Nat) : Word := b.getD i 0

def markArray (arrI : Nat) : VM Unit :=
  modify fun s => { s with markedArrays := s.markedArrays.set arrI true }

/-- Mark the array with this index if it is claimed. -/
def markIndex (arrI : Nat) : VM Unit := do
  if ← marrCheckMarked arrMem arrI then
    markArray arrI

def arrRemove (arrI : Nat) : VM Unit := do
  let _ ← marrGetElement arrMem arrI
  marrRemoveElement arrMem arrI

/-- Mark what one stack element refers to. -/
def markStackElement (stackI : Nat) : VM Unit := do
  let cpu := (← get).gCpu
  Program.emit [.stack .root stackI cpu.stackSize]
  let stackEl := cpu.stack stackI
  if isArrRef stackEl then
    markIndex (refToIndex stackEl)

def markArrayElement (arrI : Nat) (arrPtr : Block) (elI : Nat) : VM Unit := do
  let arrEl := arrPtr.cell elI
  if isArrRef arrEl then
    let arrElArrI := refToIndex arrEl
    -- An array that stores a reference to itself is skipped.
    if arrElArrI ≠ arrI then
      markIndex arrElArrI

/-- Mark what the elements of one array refer to, if the array itself is marked. -/
def markElementsOf (markedI : Nat) : VM Unit := do
  if (← get).markedArrays.getD markedI false then
    let arrPtr ← marrGetElement arrMem markedI
    Program.forRange 1 (arrPtr.cell 0).toNat (markArrayElement markedI arrPtr)

/-- Mark the accessible arrays: the stack below `sp`, then one pass over the table. -/
def markArrays : VM Unit := do
  let sp := (← get).gCpu.sp
  Program.forRange 0 sp.toNat markStackElement
  let size := (← get).arrMem.size
  Program.forRange 0 size markElementsOf

/-- Remove one array if it is claimed and not marked; count it. -/
def sweepArray (i : Nat) (numSwept : Nat) : VM Nat := do
  if (← get).markedArrays.getD i false ≠ true then
    if ← marrCheckMarked arrMem i then
      arrRemove i
      return numSwept + 1
  return numSwept

/-- Sweep the arrays that are not marked and return how many were removed. -/
def sweepArrays : VM Nat := do
  let size := (← get).arrMem.size
  Program.foldRange 0 size 0 sweepArray

/-- Free unreachable arrays and return the number of arrays that were freed. The block of the old
marks, which is freed first, belongs to the process (`MarksPointer.collect`). -/
def arrGc : VM Nat := do
  let s ← get
  Program.emit [.gc s]
  if ← allocate then
    modify fun s => { s with markedArrays := List.replicate s.arrMem.size false }
    markArrays
    sweepArrays
  else
    destroyIjvmNow .arrGcAlloc

end Ijvm
