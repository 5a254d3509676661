import Ijvm.Machine.Collector

/-!
# Adding to mapped arrays, and the arrays of a program

Adding an element can run the collector first, and a failed allocation runs it
before the request is repeated. The repetition has no counter in the source: it
goes on as long as the collector frees something. Each repetition here spends one
unit of fuel, and the table size plus one is enough fuel, since every unit spent
has freed an array.
-/

namespace Ijvm

open Transcript

section MappedArray

variable {α : Type} [Inhabited α] (marr : MArrPtr α)

/-- The first index of the table that is not claimed, in the order of the search. -/
def MArr.firstFree (m : MArr α) : Option Nat :=
  (List.range m.size).find? fun mapPtr => m.flag mapPtr == false

/-- Find an unclaimed index and return it, or `sizeMaxUint32` if there is none. The
collector runs first on every hundredth call. -/
def getFreeIndex : VM Nat := do
  if (← get).elementCreations ≥ 100 then
    modify fun s => { s with elementCreations := 0 }
    let _ ← arrGc
  else
    modify fun s => { s with elementCreations := s.elementCreations + 1 }
  let m := marr.get (← get)
  return m.firstFree.getD sizeMaxUint32

/-- Add an entry to the mapped array; return the index claimed for it, or
`sizeMaxUint32` if no index is free. -/
def marrAddElement (data : α) : VM Nat := do
  let freeI ← getFreeIndex marr
  if freeI = sizeMaxUint32 then
    return freeI
  else
    let m := marr.get (← get)
    modify (marr.set (m.store freeI data))
    return freeI

/-- `memcpy` of the first `n` cells. -/
def copyCells {β : Type} (dst src : List β) (n : Nat) : List β := src.take n ++ dst.drop n

/-- The table after a successful resize: fresh zeroed memory with the old cells
copied to its front. -/
def MArr.resized (m : MArr α) (newSize : Nat) : MArr α where
  size := newSize
  map := copyCells (List.replicate newSize false) m.map m.size
  values := copyCells (List.replicate newSize default) m.values m.size

def marrResizeFuel : Nat → Nat → VM Unit
  | 0, _ => Program.stop .outOfFuel
  | fuel + 1, newSize => do
      let m := marr.get (← get)
      if newSize < m.size then
        destroyIjvmNow .marrResizeShrink
      else if newSize ≥ sizeMaxUint32 then
        destroyIjvmNow .marrResizeLimit
      else
        let map ← allocate
        let values ← allocate
        if map = false ∨ values = false then
          -- The old table is still in place; only the collector can have changed it.
          if (← arrGc) ≠ 0 then
            marrResizeFuel fuel newSize
          else
            destroyIjvmNow .marrResizeAlloc
        else
          modify (marr.set (m.resized newSize))

/-- Resize map and values to a new size. -/
def marrResize (newSize : Nat) : VM Unit := do
  marrResizeFuel marr ((← get).arrMem.size + 1) newSize

def marrInit (size : Nat) : VM Unit := do
  modify (marr.set { size := 0, map := [], values := [] })
  if size = 0 then
    destroyIjvmNow .marrInitSize
  else
    marrResize marr size

def marrDestroy : VM Unit :=
  modify (marr.set { size := 0, map := [], values := [] })

end MappedArray

def arraysMinNum : Nat := 64

/-- "Initialize if needed" -/
def arrPrepare : VM Unit := do
  if (← get).arrMem.size = 0 then
    marrInit arrMem arraysMinNum

/-- "Save array": claim an index for it, in a table of twice the size if no index is
free. The size is a `uint32_t`. -/
def arrSave (arr : Block) : VM Nat := do
  let arrI ← marrAddElement arrMem arr
  if arrI ≥ sizeMaxUint32 then
    marrResize arrMem ((← get).arrMem.size * 2 % 2 ^ 32)
    marrAddElement arrMem arr
  else
    return arrI

def arrStore (arr : Block) : VM Word := do
  arrPrepare
  let arrI ← arrSave arr
  let arrRef := indexToRef arrTag arrI
  if isArrRef arrRef = false then
    destroyIjvmNow .arrStoreLimit
  else
    return arrRef

def arrCreateFuel : Nat → Word → VM Word
  | 0, _ => Program.stop .outOfFuel
  | fuel + 1, count => do
      if count.toInt ≤ 0 then
        destroyIjvmNow .arrCreateSize
      else if ← allocate then
        -- `calloc` of `count + 1` cells, the first of which stores the size.
        arrStore (count :: List.replicate count.toNat 0)
      else if (← arrGc) ≠ 0 then
        arrCreateFuel fuel count
      else
        destroyIjvmNow .arrCreateAlloc

def arrCreate (count : Word) : VM Word := do
  arrCreateFuel ((← get).arrMem.size + 1) count

def arrCheckBounds (arrRef i : Word) : VM Unit := do
  let arrI := refToIndex arrRef
  if isArrRef arrRef = false then
    destroyIjvmNow .arrRef
  else
    let arrPtr ← marrGetElement arrMem arrI
    if arrPtr = [] then
      destroyIjvmNow .arrMissing
    else
      let arrSize := (arrPtr.cell 0).toNat
      signed (i.toInt + 1)
      if (i + 1).toInt < 1 ∨ (i + 1).toNat > arrSize then
        destroyIjvmNow .arrBounds

/-- Get a value from an array; element `i` is in cell `i + 1`. -/
def arrGet (arrRef i : Word) : VM Word := do
  let arrI := refToIndex arrRef
  arrCheckBounds arrRef i
  let arrPtr ← marrGetElement arrMem arrI
  return arrPtr.cell (i + 1).toNat

/-- Change a value inside an array; element `i` is in cell `i + 1`. -/
def arrSet (arrRef i val : Word) : VM Unit := do
  let arrI := refToIndex arrRef
  arrCheckBounds arrRef i
  let arrPtr ← marrGetElement arrMem arrI
  -- The write goes through the pointer: the map and the pointer itself stay.
  modify fun s => { s with
    arrMem := { s.arrMem with values := s.arrMem.values.set arrI (arrPtr.set (i + 1).toNat val) } }

/-- Free all arrays and related data. The block of the marks, which is freed last, belongs to the
process (`MarksPointer.destroy`). -/
def arrDestroy : VM Unit := do
  let size := (← get).arrMem.size
  Program.forRange 0 size fun arrI => do
    if ← marrCheckMarked arrMem arrI then
      arrRemove arrI
  marrDestroy arrMem

end Ijvm
