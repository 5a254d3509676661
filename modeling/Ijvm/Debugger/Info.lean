import Ijvm.Debugger.Names

/-!
# What `info` shows

`info frame` prints the stack cells from `fp` on and the local variables from `lv` on, and
`info break` the breakpoints, each with the name of the function around it. The registers are
converted to `uint32_t` for the loops. As elsewhere, the text of the console is kept as the data
that the format strings print.
-/

namespace Ijvm

open Transcript Program

def ascii (cs : List Char) : List Byte := cs.map fun c => BitVec.ofNat 8 c.toNat

/-- The cells that a loop prints, from the first on and without the last. -/
def printedCells (mem : Int → Word) (first last : Nat) : List Word :=
  (List.range (last - first)).map fun k : Nat => mem (first + k)

/-- Such a loop over cells of the stack. A read outside the stack has no meaning. -/
def printCells (first last : Nat) : LOOKUP (List Word) := do
  let c := (← get).gCpu
  if first < last ∧ c.stackSize < last then
    Program.stop .undefined
  else
    return printedCells c.stack first last

def printFrameStack : LOOKUP (List Word) := do
  let c := (← get).gCpu
  if c.sp ≥ 0 then
    printCells (uint32 c.fp) (uint32 c.sp + 1)
  else
    return []

def printFrameLocalVars : LOOKUP (List Word) := do
  let c := (← get).gCpu
  printCells (uint32 c.lv) (uint32 (c.lv + c.nv))

/-- A line of `info break`; `none` is the text `??`. -/
structure BreakpointLine where
  num : Nat
  addr : Word
  funcName : Option (List Byte)
  deriving DecidableEq, Repr

/-- `print_all_breakpoints`, from the number `num` on. -/
def printAllBreakpoints (d : DebugData) : Nat → List Word → LOOKUP (List BreakpointLine)
  | _, [] => return []
  | num, addr :: addrs => do
      let funcName ← addrToFuncName d addr
      let lines ← printAllBreakpoints d (num + 1) addrs
      return { num, addr, funcName } :: lines

/-- What `info` prints. Without breakpoints, the list of them is a sentence of its own. -/
inductive Info where
  | programEmpty
  | notRunning
  | frame (stack localVars : List Word)
  | breakpoints (lines : List BreakpointLine)
  | invalidArgument
  deriving DecidableEq, Repr

theorem printedCells_eq {mem : Int → Word} {first last : Nat} {ws : List Word}
    (length : first + ws.length = last)
    (cells : ∀ (k : Nat) w, ws[k]? = some w → mem (first + k) = w) :
    printedCells mem first last = ws := by
  apply List.ext_getElem
  · rw [printedCells, List.length_map, List.length_range]
    omega
  · intro k _ inside
    simp only [printedCells, List.getElem_map, List.getElem_range]
    exact cells k _ (List.getElem?_eq_getElem inside)

/-- Cells inside the stack are printed. -/
theorem printCells_run (env : Env) (s : State) {first last : Nat}
    (inside : last ≤ s.gCpu.stackSize) :
    (printCells first last).run env s = .done (printedCells s.gCpu.stack first last) s [] := by
  rw [printCells, run_bind, run_get, Outcome.andThen_done, Outcome.prepend_nil, if_neg (by omega),
    run_pure]

theorem printCells_keeps {I : State → Prop} (first last : Nat) :
    Keeps (fun _ => True) I (fun _ => True) (printCells first last) :=
  .bind .get fun _ => .ite (fun _ => .stop _) fun _ => .pure _

theorem printFrameStack_keeps {I : State → Prop} :
    Keeps (fun _ => True) I (fun _ => True) printFrameStack :=
  .bind .get fun _ => .ite (fun _ => printCells_keeps _ _) fun _ => .pure _

theorem printFrameLocalVars_keeps {I : State → Prop} :
    Keeps (fun _ => True) I (fun _ => True) printFrameLocalVars :=
  .bind .get fun _ => printCells_keeps _ _

/-- The list of the breakpoints preserves what every copy preserves. -/
theorem printAllBreakpoints_keeps {I : State → Prop} (kept : KeptByCopies I) (d : DebugData)
    (num : Nat) (addrs : List Word) :
    Keeps (fun _ => True) I (fun _ => True) (printAllBreakpoints d num addrs) := by
  induction addrs generalizing num with
  | nil => exact .pure _
  | cons addr addrs ih =>
      exact .bind (addrToFuncName_keeps kept d addr) fun _ => .bind (ih _) fun _ => .pure _

end Ijvm
