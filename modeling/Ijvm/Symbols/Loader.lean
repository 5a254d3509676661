import Ijvm.Loader.Format

/-!
# Loading the debug symbols

Behind the code, a file can hold two blocks of symbols. `debug_data_loader.c` opens the
file once more, skips the two blocks of the binary by their sizes and reads the symbols
into arrays that grow by one element at a time.

The file is again the list of its unread bytes. An array has as many elements as its size
variable counts; a fresh element is 0 here, and the code stores to it before any use.
-/

namespace Ijvm

open Transcript

/-- `SymbolBlock_t` -/
structure SymbolBlock where
  num : Nat
  addr : List Word
  names : List Byte
  namesStart : List Nat
  deriving DecidableEq

/-- `init_symbol_block` -/
def SymbolBlock.init : SymbolBlock := { num := 0, addr := [], names := [], namesStart := [] }

/-- What `read_symbol_block` works on: the file, the block behind its pointer, and the
number of questions to the allocator. -/
structure Parsing where
  file : List Byte
  block : SymbolBlock
  clock : Nat

/-- What `load_debug_data` prints. -/
inductive Notice where
  | noSymbols | symbolsLoaded
  deriving DecidableEq, Repr

/-- The environment tells whether the `n`-th reallocation succeeds. -/
abbrev SymbolReader (α : Type) := Program (Nat → Bool) Parsing Notice Stop α

namespace SymbolReader

/-- Change the symbol block only. -/
def modifyBlock (f : SymbolBlock → SymbolBlock) : SymbolReader Unit :=
  modify fun p => { p with block := f p.block }

/-- `fseek(f, n, SEEK_CUR)`; the position can end up behind the end of the file. -/
def seek (n : Nat) : SymbolReader Unit := modify fun p => { p with file := p.file.drop n }

/-- `fread` of one 32-bit element. The bytes of an incomplete one are taken from the file
as well. -/
def freadWord : SymbolReader (Option Word) := do
  let p ← get
  match readWord p.file with
  | some (w, rest) =>
      set { p with file := rest }
      return some w
  | none =>
      set { p with file := [] }
      return none

/-- `(char)getc(f)`, which is -1 at the end of the file. -/
def getChar : SymbolReader Byte := do
  let p ← get
  match p.file with
  | [] => return 0xFF
  | b :: rest =>
      set { p with file := rest }
      return b

/-- Skip the origin and return the size of the block, or -1. -/
def getBlockSize : SymbolReader Int := do
  seek 4
  let some size ← freadWord | return -1
  return (swapUint32 size).toNat

/-- Skip a block. -/
def skipBlock : SymbolReader Bool := do
  let blockSize ← getBlockSize
  if blockSize < 0 then
    return false
  else
    seek blockSize.toNat
    return true

/-- Make an array bigger by one element: `grow` is what that does to the block. The new
size is returned too. Its size in bytes is computed in `uint32_t`; a `realloc` to no bytes
returns no memory. -/
def incMemorySize (grow : Nat → SymbolBlock → SymbolBlock) (arrSize elSize : Nat) :
    SymbolReader (Bool × Nat) := do
  let arrSize := (arrSize + 1) % 2 ^ 32
  if arrSize * elSize % 2 ^ 32 = 0 then
    return (false, arrSize)
  else
    let grant ← Program.ask
    let p ← get
    set { p with
      block := if grant p.clock then grow arrSize p.block else p.block
      clock := p.clock + 1 }
    return (grant p.clock, arrSize)

/-- `realloc` to `n` elements. -/
def resized {α : Type} (l : List α) (n : Nat) (fresh : α) : List α :=
  l.take n ++ List.replicate (n - l.length) fresh

/-- The local variables of `read_symbol_block`. -/
structure Sizes where
  addrMemSize : Nat
  namesMemSize : Nat
  namesStartMemSize : Nat
  bytesRead : Nat

/-- The `do … while` loop that reads a name. There is room for less than 2^30 characters
at four bytes each, which bounds its turns. -/
def readNameFuel : Nat → Sizes → SymbolReader (Option Sizes)
  | 0, _ => Program.stop .outOfFuel
  | fuel + 1, z => do
      let (grown, namesMemSize) ←
        incMemorySize (fun n b => { b with names := resized b.names n 0 }) z.namesMemSize 4
      if grown = false then
        return none
      else
        let c ← getChar
        modifyBlock fun b => { b with names := b.names.set (namesMemSize - 1) c }
        let z := { z with namesMemSize, bytesRead := (z.bytesRead + 1) % 2 ^ 32 }
        if c ≠ 0 then
          readNameFuel fuel z
        else
          return some z

/-- The body of the loop over the symbols. -/
def readSymbol (z : Sizes) : SymbolReader (Option Sizes) := do
  let (grown, addrMemSize) ←
    incMemorySize (fun n b => { b with addr := resized b.addr n 0 }) z.addrMemSize 4
  if grown = false then
    return none
  else
    let some addr ← freadWord | return none
    let z := { z with addrMemSize, bytesRead := (z.bytesRead + 4) % 2 ^ 32 }
    modifyBlock fun b => { b with addr := b.addr.set b.num (swapUint32 addr) }
    let (grown, namesStartMemSize) ←
      incMemorySize (fun n b => { b with namesStart := resized b.namesStart n 0 })
        z.namesStartMemSize 4
    if grown = false then
      return none
    else
      let z := { z with namesStartMemSize }
      modifyBlock fun b => { b with namesStart := b.namesStart.set b.num z.namesMemSize }
      let some z ← readNameFuel (2 ^ 30 + 1) z | return none
      modifyBlock fun b => { b with num := b.num + 1 }
      return some z

/-- The loop over the symbols. A symbol takes bytes from the file, so its length bounds
the turns. -/
def readSymbolsFuel : Nat → Int → Sizes → SymbolReader Bool
  | 0, _, _ => Program.stop .outOfFuel
  | fuel + 1, blockSize, z => do
      if z.bytesRead < blockSize then
        let some z ← readSymbol z | return false
        readSymbolsFuel fuel blockSize z
      else
        return true

/-- Read and parse an entire block of symbols. -/
def readSymbolBlock : SymbolReader Bool := do
  let blockSize ← getBlockSize
  if blockSize = 0 then
    modifyBlock fun b => { b with num := 0 }
    return true
  else
    let fuel := (← get).file.length + 1
    readSymbolsFuel fuel blockSize
      { addrMemSize := 0, namesMemSize := 0, namesStartMemSize := 0, bytesRead := 0 }

end SymbolReader

/-- `DebugData_t` -/
structure DebugData where
  funcLabel : SymbolBlock
  secLabel : SymbolBlock
  deriving DecidableEq

/-- `init_debug_data` -/
def DebugData.init : DebugData := { funcLabel := .init, secLabel := .init }

/-- The open file and `g_debug_data`. -/
structure SymbolLoader where
  file : List Byte
  debugData : DebugData
  clock : Nat

abbrev Loading (α : Type) := Program (Nat → Bool) SymbolLoader Notice Stop α

/-- Work on `g_debug_data->func_label`. -/
def onFuncLabel {α : Type} (m : SymbolReader α) : Loading α :=
  m.zoom id (fun l => { file := l.file, block := l.debugData.funcLabel, clock := l.clock })
    (fun l p => { l with
      file := p.file
      debugData := { l.debugData with funcLabel := p.block }
      clock := p.clock }) fun _ n => n

/-- Work on `g_debug_data->sec_label`. -/
def onSecLabel {α : Type} (m : SymbolReader α) : Loading α :=
  m.zoom id (fun l => { file := l.file, block := l.debugData.secLabel, clock := l.clock })
    (fun l p => { l with
      file := p.file
      debugData := { l.debugData with secLabel := p.block }
      clock := p.clock }) fun _ n => n

/-- Skip the magic number, the constants and the code. These parts touch no block. -/
def skipBinary : Loading Bool := do
  onFuncLabel (SymbolReader.seek 4)
  let consts ← onFuncLabel SymbolReader.skipBlock
  let code ← onFuncLabel SymbolReader.skipBlock
  return consts && code

/-- Load the debug data of a file into `g_debug_data`. The argument is the content of the
file, or `none` if it cannot be opened. Every block is tried, whether or not the ones
before it could be read. -/
def loadDebugData (file : Option (List Byte)) : Loading Bool := do
  let some f := file | return false
  modify fun l => { l with file := f }
  let skipped ← skipBinary
  let funcs ← onFuncLabel SymbolReader.readSymbolBlock
  let secs ← onSecLabel SymbolReader.readSymbolBlock
  if (skipped && funcs && secs) = false then
    modify fun l => { l with debugData := .init }
    return false
  else
    let num := (← get).debugData.funcLabel.num
    Program.emit [if num = 0 then .noSymbols else .symbolsLoaded]
    return true

/-- `str_dup` of a string in memory: the characters up to the first NUL. -/
def strDup (memory : List Byte) (start : Nat) : List Byte :=
  (memory.drop start).takeWhile fun c => c != 0

/-- The name of the `i`-th function. -/
def getFuncName (d : DebugData) (i : Nat) : List Byte :=
  strDup d.funcLabel.names (d.funcLabel.namesStart.getD i 0)

/-- The name of the `i`-th section. -/
def getSectionName (d : DebugData) (i : Nat) : List Byte :=
  strDup d.secLabel.names (d.secLabel.namesStart.getD i 0)

end Ijvm
