import Ijvm.Debugger.Session

/-!
# The call history

One record for each call that the debugger has seen and no return has removed: the
argument words, the last one lowest, then their number and the address of the method.
All counters are `uint32_t`. Printing the records looks up the names of the methods.
-/

namespace Ijvm

open Transcript

def readHistory (i : Nat) : DBG Word := do
  let x ← get
  Program.emit [.history x.vm i x.dbg.allocated]
  if i < x.dbg.allocated then
    return x.dbg.callHistory i
  else
    Program.stop .undefined

/-- `call_history[call_history_top++] = w` -/
def appendHistory (w : Word) : DBG Unit := do
  let x ← get
  Program.emit [.history x.vm x.dbg.callHistoryTop x.dbg.allocated]
  if x.dbg.callHistoryTop < x.dbg.allocated then
    modifyDbg fun d => { d with
      callHistory := fun j => if j = d.callHistoryTop then w else d.callHistory j
      callHistoryTop := uint32 (d.callHistoryTop + 1) }
  else
    Program.stop .undefined

def reallocHistory : DBG Bool := do
  let r ← Program.ask
  let d := (← get).dbg
  if d.callHistorySize = 0 then
    -- This frees the history, and the debugger keeps the pointer to it.
    Program.stop .undefined
  else
    modifyDbg fun d => { d with
      allocated := if r.grow d.reallocs then d.callHistorySize else d.allocated
      reallocs := d.reallocs + 1 }
    return r.grow d.reallocs

/-- Save the `n` arguments from the `i`-th on, counted from the top of the stack. -/
def saveArguments : Nat → Nat → DBG Unit
  | _, 0 => pure ()
  | i, n + 1 => do
      let x ← get
      let index : Int := uint32 (x.vm.gCpu.sp - i)
      Program.emit [.argument x.vm index x.vm.gCpu.stackSize]
      if index < x.vm.gCpu.stackSize then
        appendHistory (x.vm.gCpu.stack index)
        saveArguments (i + 1) n
      else
        Program.stop .undefined

/-- Make room for a call with this many elements; whether there is room. -/
def fitHistory (elements : Nat) : DBG Bool := do
  let d := (← get).dbg
  if uint32 (d.callHistoryTop + elements) > d.callHistorySize then
    modifyDbg fun d => { d with callHistorySize := uint32 (d.callHistoryTop + elements + 1024) }
    if (← reallocHistory) = false then
      -- The old memory is kept, with the new size.
      print .historyAlloc
      modifyDbg fun d => { d with quitFlag := true }
      return false
    else
      return true
  else
    return true

def storeFuncCall : DBG Unit := do
  let c := (← get).vm.gCpu
  let constIndex ← look (getCodeShort (c.pc + 1))
  let funcAddr ← look (getConstant constIndex.toInt)
  let argBits ← look (getCodeShort funcAddr.toInt)
  let funcNumArgs := uint32 argBits.toInt
  if (← fitHistory (uint32 (1 + 1 + funcNumArgs))) = false then
    return ()
  else
    saveArguments 0 funcNumArgs
    appendHistory (BitVec.ofNat 32 funcNumArgs)
    appendHistory funcAddr

def removeLastFuncCall : DBG Unit := do
  modifyDbg fun d => { d with callHistoryTop := uint32 (d.callHistoryTop - 2) }
  let funcNumArgs ← readHistory (← get).dbg.callHistoryTop
  modifyDbg fun d => { d with callHistoryTop := uint32 (d.callHistoryTop - funcNumArgs.toNat) }

def codeAtPc : DBG Byte := do
  look (getCodeByte (← get).vm.gCpu.pc)

/-- Keep the function call history up to date; called on every step. -/
def createCallHistory : DBG Unit := do
  if (← codeAtPc) = Op.invokevirtual.code then
    storeFuncCall
  else if (← codeAtPc) = Op.ireturn.code then
    removeLastFuncCall

/-- The `n` argument words below `offset`, and the offset below them. -/
def readArguments : Nat → Nat → DBG (List Word × Nat)
  | offset, 0 => return ([], offset)
  | offset, n + 1 => do
      let offset := uint32 (offset - 1)
      let w ← readHistory offset
      let (ws, offset) ← readArguments offset n
      return (w :: ws, offset)

/-- The name of the function around an address in the call history. -/
def nameCall (addr : Word) : DBG (Option (List Byte)) := do
  let x ← get
  Program.emit [.naming x addr]
  lookUp (addrToFuncName x.debugData addr)

/-- The loop of `print_func_calls`. Each record takes one cell at least, so that `offset`
bounds the records of a history whose counts do not lead below it. -/
def printFuncCallsFuel (n : Nat) : Nat → Nat → Nat → DBG Unit
  | 0, _, _ => Program.stop .outOfFuel
  | fuel + 1, printed, offset => do
      if offset > 0 ∧ (printed ≠ n ∨ n = 0) then
        let offset := offset - 1
        let funcAddr ← readHistory offset
        let number := if n = 0 then some (printed + 1) else none
        let name ← nameCall funcAddr
        if offset > 0 then
          let offset := offset - 1
          let count ← readHistory offset
          let (args, offset) ← readArguments offset count.toNat
          print (.funcCall number funcAddr name args)
          printFuncCallsFuel n fuel (printed + 1) offset
        else
          print (.funcCall number funcAddr name [])
          printFuncCallsFuel n fuel (printed + 1) offset
      else
        return ()

/-- Print the last `n` function calls, or all calls if `n` is 0. -/
def printFuncCalls (n : Nat) : DBG Unit := do
  let top := (← get).dbg.callHistoryTop
  printFuncCallsFuel n (top + 1) 0 top

end Ijvm
