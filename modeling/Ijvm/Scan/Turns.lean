import Ijvm.Machine.Started
import Ijvm.Stack.Access
import Mathlib.Logic.Relation

/-!
# The turns of the loop that scans the main method

The scan depends on the code, the constants and its own loop variables only. `Scan.next`
is one turn of the loop as a function; `scanFuel_turn` says that the loop takes this turn,
with the reads that belong to it, unless it ends or stops at an invalid constant index.
-/

namespace Ijvm

open Transcript Program

namespace Op

/-- The instructions with the index of a local variable. -/
def isVariable : Op → Bool
  | .iload | .istore | .iinc => true
  | _ => false

/-- The number of operand bytes, which WIDE changes for the instructions on variables. -/
def operandBytes (wide : Bool) : Op → Nat
  | .iload | .istore => if wide then 2 else 1
  | .iinc => if wide then 3 else 2
  | .bipush => 1
  | .goto | .ifeq | .iflt | .icmpeq | .ldcW | .invokevirtual => 2
  | _ => 0

/-- The number of operand bytes that the scan looks at. -/
def scannedBytes (wide : Bool) (op : Op) : Nat :=
  if op.isVariable then if wide then 2 else 1
  else if op = .invokevirtual then 2 else 0

theorem operandBytes_of_not_isVariable {op : Op} (h : op.isVariable = false) (wide : Bool) :
    op.operandBytes wide = op.operandBytes false := by
  cases op <;> first | rfl | contradiction

end Op

/-- A use of a local variable by an instruction: the address of the opcode, whether the index
has two bytes, and the index. -/
structure VarUse where
  opcodeAt : Nat
  wide : Bool
  index : Int
deriving DecidableEq

namespace Cpu

/-- The constant index behind an INVOKEVIRTUAL at `a`. -/
def constIndex (c : Cpu) (a : Int) : Int := (c.short (a + 1)).toInt

/-- The constant that an INVOKEVIRTUAL at `a` selects. -/
def callTarget (c : Cpu) (a : Int) : Int := (c.constMem.getD (c.constIndex a).toNat 0).toInt

def HasConstant (c : Cpu) (k : Int) : Prop := 0 ≤ k ∧ k < c.constMemSize.tdiv 4

instance (c : Cpu) (k : Int) : Decidable (c.HasConstant k) := inferInstanceAs (Decidable (_ ∧ _))

/-- The end of the main method after a call of the method at `target`, if it was `e`
before. -/
def endAfter (c : Cpu) (e : Nat) (target : Int) : Nat :=
  if target > 0 ∧ target < e ∧ target < c.codeMemSize then target.toNat else e

def opAt? (c : Cpu) (a : Int) : Option Op := Op.ofByte? (c.codeMem a)

/-- The reads of `n` bytes of code from `a` on. -/
def codeReads (c : Cpu) (a : Int) (n : Nat) : List Event :=
  (List.range n).map fun k : Nat => .code (a + k) c.codeMemSize

end Cpu

namespace Scan

variable (c : Cpu) (l : Scan)

/-- There is a byte at the index. -/
def Inside : Prop := (l.i : Int) < c.codeMemSize

/-- The index is at the end of the main method, as far as the calls so far show. -/
def Past : Prop := l.i ≠ sizeMaxUint32 ∧ l.i + 2 > l.addrFirstMethodAfterMain

instance : Decidable (l.Inside c) := inferInstanceAs (Decidable ((l.i : Int) < c.codeMemSize))

instance : Decidable l.Past := inferInstanceAs (Decidable (_ ∧ _))

variable {c l} in
theorem not_inside_iff : ¬ l.Inside c ↔ c.codeMemSize ≤ l.i := Int.not_lt

/-- The turn ends the machine. -/
def Fatal : Prop := c.opAt? l.i = some .invokevirtual ∧ ¬ c.HasConstant (c.constIndex l.i)

instance : Decidable (l.Fatal c) := inferInstanceAs (Decidable (_ ∧ _))

/-- The index of a local variable as the scan reads it. -/
def varIndex : Int :=
  if l.nextWide then (c.short (l.i + 1)).toInt else (c.codeMem (l.i + 1)).toNat

/-- The number of variables after a use of the variable with this index. -/
def countAfter (varNum index : Int) : Int := if index + 1 > varNum then index + 1 else varNum

/-- One turn of the loop at the opcode `op`. -/
def nextAt (op : Op) : Scan where
  i := l.i + 1 + op.operandBytes l.nextWide
  addrFirstMethodAfterMain :=
    if op = .invokevirtual then c.endAfter l.addrFirstMethodAfterMain (c.callTarget l.i)
    else l.addrFirstMethodAfterMain
  nextWide := decide (op = .wide) || (l.nextWide && !op.isVariable)
  varNum := if op.isVariable then countAfter l.varNum (l.varIndex c) else l.varNum

def next : Scan :=
  match c.opAt? l.i with
  | some op => l.nextAt c op
  | none => { l with i := l.i + 1 }

/-- The number of bytes that a turn looks at. -/
def bytesRead : Nat :=
  match c.opAt? l.i with
  | some op => 1 + op.scannedBytes l.nextWide
  | none => 1

end Scan

section Runs

variable {env : Env} {s : State}

theorem getCodeByte_run (i : Int) :
    (getCodeByte i).run env s = .done (s.gCpu.codeMem i) s [.code i s.gCpu.codeMemSize] := rfl

theorem getCodeShort_run (i : Int) :
    (getCodeShort i).run env s = .done (s.gCpu.short i) s
      [.code i s.gCpu.codeMemSize, .code (i + 1) s.gCpu.codeMemSize] := rfl

def Scan.back (l : Scan) : Scan := { l with i := l.i - 1 }

theorem Scan.nextAt_back (c : Cpu) (l : Scan) (op : Op) :
    (l.nextAt c op).back = { l.nextAt c op with i := l.i + op.operandBytes l.nextWide } := by
  simp only [back, nextAt, Nat.add_right_comm l.i 1, Nat.add_sub_cancel]

/-- A turn at an instruction on a variable. -/
theorem scanVariable_run {op : Op} (isVariable : op.isVariable = true) (l : Scan) :
    (scanVariable op l).run env s = .done (l.nextAt s.gCpu op).back s
      (s.gCpu.codeReads (l.i + 1) (op.scannedBytes l.nextWide)) := by
  rw [Scan.nextAt_back]
  obtain ⟨i, first, wide, varNum⟩ := l
  cases op with
  | iload | istore | iinc =>
      cases wide with
      | false => simp [scanVariable, getCodeByte_run, Cpu.codeReads, Op.scannedBytes,
          Op.isVariable, Scan.nextAt, Scan.varIndex, Scan.countAfter, Op.operandBytes]
      | true => simp [scanVariable, getCodeShort_run, Cpu.codeReads, Op.scannedBytes,
          Op.isVariable, List.range_succ, Scan.nextAt, Scan.varIndex, Scan.countAfter,
          Op.operandBytes]
  | _ => contradiction

/-- A turn at a call. -/
theorem scanInvoke_run (l : Scan) :
    (scanInvoke l).run env s =
      if s.gCpu.HasConstant (s.gCpu.constIndex l.i) then
        .done (l.nextAt s.gCpu .invokevirtual).back s (s.gCpu.codeReads (l.i + 1) 2)
      else .stopped (.error .constantIndex) s (s.gCpu.codeReads (l.i + 1) 2) := by
  have reads : s.gCpu.codeReads (l.i + 1) 2 = [.code (l.i + 1) s.gCpu.codeMemSize,
      .code (l.i + 1 + 1) s.gCpu.codeMemSize] := by
    simp [Cpu.codeReads, List.range_succ]
  rw [scanInvoke, Program.run_bind, getCodeShort_run, Outcome.andThen_done, Program.run_bind,
    getConstant_run, reads, Cpu.constIndex, Scan.nextAt_back]
  by_cases valid : s.gCpu.HasConstant (s.gCpu.short (l.i + 1)).toInt
  · obtain ⟨low, high⟩ := id valid
    rw [if_neg (by omega), if_pos valid]
    simp [Scan.nextAt, Op.operandBytes, Op.isVariable, Cpu.endAfter, Cpu.callTarget,
      Cpu.constIndex]
  · rw [if_pos (by unfold Cpu.HasConstant at valid; omega), if_neg valid]
    rfl

def Scan.operandReads (c : Cpu) (l : Scan) : List Event :=
  c.codeReads (l.i + 1) (l.bytesRead c - 1)

/-- The `switch` takes one turn. -/
theorem scanOp_run (l : Scan) :
    (scanOp (s.gCpu.codeMem l.i) l).run env s =
      if l.Fatal s.gCpu then .stopped (.error .constantIndex) s (l.operandReads s.gCpu)
      else .done (l.next s.gCpu).back s (l.operandReads s.gCpu) := by
  cases found : s.gCpu.opAt? l.i with
  | none =>
      have decoded : Op.ofByte? (s.gCpu.codeMem l.i) = none := found
      rw [if_neg (by simp [Scan.Fatal, found]), Scan.operandReads, Scan.bytesRead, Scan.next, found,
        scanOp, decoded]
      rfl
  | some op =>
      have decoded : Op.ofByte? (s.gCpu.codeMem l.i) = some op := found
      rw [Scan.operandReads, Scan.bytesRead, Scan.next, found, scanOp, decoded,
        Nat.add_sub_cancel_left]
      cases op with
      | invokevirtual =>
          dsimp only
          rw [scanInvoke_run]
          by_cases valid : s.gCpu.HasConstant (s.gCpu.constIndex l.i)
          · rw [if_pos valid, if_neg (fun fatal => fatal.2 valid)]
            rfl
          · rw [if_neg valid, if_pos ⟨found, valid⟩]
            rfl
      | iload | istore | iinc =>
          rw [if_neg (by simp [Scan.Fatal, found])]
          exact scanVariable_run rfl l
      | _ =>
          rw [if_neg (by simp [Scan.Fatal, found]), Scan.nextAt_back]
          simp [Scan.nextAt, Op.scannedBytes, Op.isVariable, Op.operandBytes, Cpu.codeReads]

def Scan.reads (c : Cpu) (l : Scan) : List Event := .code l.i c.codeMemSize :: l.operandReads c

theorem Scan.next_back (c : Cpu) (l : Scan) :
    { (l.next c).back with i := (l.next c).back.i + 1 } = l.next c := by
  have advances : 1 ≤ (l.next c).i := by
    unfold Scan.next
    split
    · simp only [nextAt]
      omega
    · exact Nat.le_add_left 1 l.i
  simp only [back, Nat.sub_add_cancel advances]

/-- The loop takes one turn. -/
theorem scanFuel_turn (fuel : Nat) (l : Scan) :
    (scanFuel (fuel + 1) l).run env s =
      if ¬ l.Inside s.gCpu then .done l s []
      else if l.Past then .done l s [.code l.i s.gCpu.codeMemSize]
      else if l.Fatal s.gCpu then .stopped (.error .constantIndex) s (l.reads s.gCpu)
      else ((scanFuel fuel (l.next s.gCpu)).run env s).prepend (l.reads s.gCpu) := by
  simp only [scanFuel, Program.run_bind, Program.run_get, Outcome.andThen_done,
    Outcome.prepend_nil]
  by_cases inside : l.Inside s.gCpu
  swap
  · rw [if_pos (by exact inside), if_pos inside]
    rfl
  rw [if_neg (by exact not_not.mpr inside), if_neg (not_not.mpr inside), Program.run_bind,
    getCodeByte_run, Outcome.andThen_done]
  by_cases past : l.Past
  · rw [if_pos (by exact past), if_pos past]
    rfl
  rw [if_neg (by exact past), if_neg past, Program.run_bind, scanOp_run]
  by_cases fatal : l.Fatal s.gCpu
  · rw [if_pos fatal, if_pos fatal]
    rfl
  · rw [if_neg fatal, if_neg fatal, Outcome.andThen_done, Scan.next_back, Outcome.prepend_prepend]
    rfl

end Runs

namespace Scan

/-- The use of a variable at the index, as the scan reads it. -/
def reading (c : Cpu) (l : Scan) : List VarUse :=
  if (c.opAt? l.i).any Op.isVariable then [⟨l.i, l.nextWide, l.varIndex c⟩] else []

/-- The loop ends without an error, and has met these uses of variables on its way. -/
inductive Extracts (c : Cpu) : Scan → List VarUse → Prop
  | outside {l : Scan} (outside : ¬ l.Inside c) : Extracts c l []
  | past {l : Scan} (past : l.Past) : Extracts c l []
  | turn {l : Scan} {us : List VarUse} (inside : l.Inside c) (before : ¬ l.Past)
      (valid : ¬ l.Fatal c) (rest : Extracts c (l.next c) us) : Extracts c l (l.reading c ++ us)

theorem i_lt_next (c : Cpu) (l : Scan) : l.i < (l.next c).i := by
  unfold next
  split
  · simp only [nextAt]
    omega
  · exact Nat.lt_succ_self l.i

/-- In front of the end, the loop takes a turn. -/
theorem extracts_turn_iff {c : Cpu} {l : Scan} {us : List VarUse} (inside : l.Inside c)
    (before : ¬ l.Past) (valid : ¬ l.Fatal c) :
    Extracts c l us ↔ ∃ us', us = l.reading c ++ us' ∧ Extracts c (l.next c) us' := by
  constructor
  · intro extracts
    cases extracts with
    | outside outside => exact absurd inside outside
    | past past => exact absurd past before
    | turn _ _ _ rest => exact ⟨_, rfl, rest⟩
  · rintro ⟨us', rfl, rest⟩
    exact .turn inside before valid rest

/-- The number of variables grows to the one after the largest index. -/
theorem next_varNum (c : Cpu) (l : Scan) :
    (l.next c).varNum = ((l.reading c).map VarUse.index).foldl countAfter l.varNum := by
  unfold next reading
  cases c.opAt? l.i with
  | none => rfl
  | some op =>
      dsimp only [Option.any]
      by_cases isVariable : op.isVariable = true
      · rw [if_pos isVariable, nextAt, if_pos isVariable]
        rfl
      · rw [if_neg isVariable, nextAt, if_neg isVariable]
        rfl

/-- The loop returns the count of the uses of variables that it has met. -/
theorem Extracts.run (env : Env) (fuel : Nat) {s : State} {l : Scan} {us : List VarUse}
    (extracts : Extracts s.gCpu l us) (enough : s.gCpu.codeMemSize ≤ l.i + fuel) :
    ∃ l' es, (scanFuel (fuel + 1) l).run env s = .done l' s es ∧
      l'.varNum = (us.map VarUse.index).foldl countAfter l.varNum := by
  induction extracts generalizing fuel with
  | @outside l outside =>
      rw [scanFuel_turn, if_pos outside]
      exact ⟨l, _, rfl, rfl⟩
  | @past l past =>
      by_cases inside : l.Inside s.gCpu
      · rw [scanFuel_turn, if_neg (not_not.mpr inside), if_pos past]
        exact ⟨l, _, rfl, rfl⟩
      · rw [scanFuel_turn, if_pos inside]
        exact ⟨l, _, rfl, rfl⟩
  | @turn l us inside before valid rest ih =>
      have advances := l.i_lt_next s.gCpu
      have below : (l.i : Int) < s.gCpu.codeMemSize := inside
      obtain ⟨fuel, rfl⟩ : ∃ n, fuel = n + 1 := ⟨fuel - 1, by omega⟩
      obtain ⟨l', es, run, count⟩ := @ih fuel (by omega)
      rw [scanFuel_turn, if_neg (not_not.mpr inside), if_neg before, if_neg valid, run]
      refine ⟨l', _, rfl, ?_⟩
      rw [count, next_varNum, List.map_append, List.foldl_append]

def start : Scan :=
  { i := 0, addrFirstMethodAfterMain := sizeMaxUint32, nextWide := false, varNum := 0 }

/-- What `getNumLocalVarsMain` returns for the uses of variables that the scan meets. -/
theorem Extracts.returns (env : Env) {s : State} {us : List VarUse}
    (extracts : Extracts s.gCpu start us) :
    ∃ es, getNumLocalVarsMain.run env s =
      .done ((us.map VarUse.index).foldl countAfter 0) s es := by
  obtain ⟨l, es, run, count⟩ := extracts.run env s.gCpu.codeMemSize.toNat
    (by simp only [start]; omega)
  refine ⟨es, ?_⟩
  rw [getNumLocalVarsMain, Program.run_bind, Program.run_get, Outcome.andThen_done,
    Outcome.prepend_nil, Program.run_bind]
  rw [show ({ i := 0, addrFirstMethodAfterMain := sizeMaxUint32, nextWide := false, varNum := 0 } :
    Scan) = start from rfl, run, Outcome.andThen_done, count]
  simp [start]

end Scan

end Ijvm
