import Ijvm.Stack.Bounds

/-!
# IINC and its expansion

IINC adds a constant to a local variable in place; ILOAD, BIPUSH, IADD and ISTORE do the
same by way of two cells above `sp`. Both are given by the bytes in code memory, in the
narrow and in the WIDE form, and run by `step`.

The two differ where IINC reads a wide index as a signed number, and where the cells above
`sp` are local variables, which happens once a method has popped more than it pushed.
-/

namespace Ijvm

open Transcript Program

/-- These bytes stand in code memory from `p` on. -/
structure Cpu.HasBytes (c : Cpu) (p : Int) (bytes : List Byte) : Prop where
  low : 0 ≤ p
  high : p + bytes.length ≤ c.codeMemSize
  byte : ∀ k : Nat, k < bytes.length → c.codeMem (p + k) = bytes.getD k 0

section Bytes

variable {c c' : Cpu} {p : Int} {b : Byte} {bytes rest : List Byte}

theorem Cpu.HasBytes.congr (h : c.HasBytes p bytes) (code : c'.codeMem = c.codeMem)
    (size : c'.codeMemSize = c.codeMemSize) : c'.HasBytes p bytes := by
  refine ⟨h.low, ?_, ?_⟩
  · rw [size]
    exact h.high
  · rw [code]
    exact h.byte

theorem Cpu.HasBytes.head (h : c.HasBytes p (b :: bytes)) :
    c.codeMem p = b ∧ p < c.codeMemSize := by
  have first := h.byte 0 (by simp)
  have high := h.high
  simp only [List.length_cons] at high
  exact ⟨by simpa using first, by omega⟩

theorem Cpu.HasBytes.tail (h : c.HasBytes p (b :: bytes)) : c.HasBytes (p + 1) bytes := by
  have low := h.low
  have high := h.high
  simp only [List.length_cons] at high
  refine ⟨by omega, by omega, ?_⟩
  intro k below
  have next := h.byte (k + 1) (by simpa using below)
  rw [List.getD_cons_succ] at next
  rw [← next]
  congr 1
  omega

theorem Cpu.HasBytes.append (h : c.HasBytes p (bytes ++ rest)) :
    c.HasBytes p bytes ∧ c.HasBytes (p + bytes.length) rest := by
  induction bytes generalizing p with
  | nil =>
      have low := h.low
      have high := h.high
      rw [List.nil_append] at high
      refine ⟨⟨low, by simp; omega, by simp⟩, ?_⟩
      simpa using h
  | cons b bytes ih =>
      obtain ⟨first, second⟩ := ih h.tail
      have high := first.high
      refine ⟨⟨h.low, by simp; omega, ?_⟩, ?_⟩
      · intro k below
        rw [h.byte k (by simp at below ⊢; omega)]
        simp only [List.cons_append, List.getD_eq_getElem?_getD]
        rw [← List.cons_append, List.getElem?_append_left below]
      · rw [show p + (b :: bytes).length = p + 1 + bytes.length by simp; omega]
        exact second

end Bytes

/-- The index of a local variable as the operand of an instruction: one byte, or two bytes
behind a WIDE prefix. -/
inductive VarOperand where
  | narrow (i : Byte)
  | wide (i : BitVec 16)

namespace VarOperand

/-- The variable that ILOAD and ISTORE use. -/
def index : VarOperand → Int
  | narrow i => i.toNat
  | wide i => i.toNat

/-- The variable that IINC uses. -/
def incIndex : VarOperand → Int
  | narrow i => i.toNat
  | wide i => i.toInt

theorem index_nonneg (x : VarOperand) : 0 ≤ x.index := by
  cases x with
  | narrow i => exact Int.natCast_nonneg _
  | wide i => exact Int.natCast_nonneg _

def isWide : VarOperand → Bool
  | narrow _ => false
  | wide _ => true

/-- The prefix of an instruction with this operand. -/
def prefixes : VarOperand → List Byte
  | narrow _ => []
  | wide _ => [Op.wide.code]

def bytes : VarOperand → List Byte
  | narrow i => [i]
  | wide i => [(i >>> 8).setWidth 8, i.setWidth 8]

/-- The bytes of an instruction with this operand. -/
def encode (x : VarOperand) (op : Op) : List Byte := x.prefixes ++ op.code :: x.bytes

/-- Where the opcode is, with the instruction at `p`. -/
def opcodeAt (x : VarOperand) (p : Int) : Int := p + x.prefixes.length

/-- The index that IINC reads is the one that ILOAD and ISTORE read, unless it is too large
for a signed number. -/
theorem incIndex_eq (x : VarOperand) :
    (x.index < 32768 ∧ x.incIndex = x.index) ∨ (32768 ≤ x.index ∧ x.incIndex < 0) := by
  cases x with
  | narrow i =>
      have := i.isLt
      refine Or.inl ⟨?_, rfl⟩
      rw [index]
      omega
  | wide i =>
      have := i.isLt
      rw [index, incIndex, BitVec.toInt_eq_toNat_cond]
      omega

end VarOperand

/-- The two bytes of an operand. -/
theorem joinBytes_split (i : BitVec 16) : joinBytes ((i >>> 8).setWidth 8) (i.setWidth 8) = i := by
  ext j below
  simp only [joinBytes, BitVec.getElem_or, BitVec.getElem_shiftLeft, BitVec.getElem_setWidth]
  by_cases low : j < 8
  · simp [low, BitVec.getLsbD_eq_getElem below]
  · simp [low, show j - 8 < 8 by omega, show 8 + (j - 8) = j by omega,
      BitVec.getLsbD_eq_getElem below]

section Decoding

variable {env : Env} {s t : State} {op : Op} {x : VarOperand} {rest : List Byte}

/-- The instruction in these bytes is the next one. -/
theorem executes_of_bytes (code : s.gCpu.HasBytes s.gCpu.pc (x.prefixes ++ op.code :: rest))
    (plain : op ≠ .wide) : s.Executes (x.opcodeAt s.gCpu.pc) op := by
  have unprefixed : op.code ≠ Op.wide.code := by
    intro same
    have decoded := Op.ofByte?_code op
    rw [same, Op.ofByte?_code] at decoded
    exact plain (Option.some.inj decoded).symm
  have low := code.low
  cases x with
  | narrow i =>
      obtain ⟨first, inside⟩ := code.head
      have here : VarOperand.opcodeAt (.narrow i) s.gCpu.pc = s.gCpu.pc := Int.add_zero _
      rw [here]
      refine ⟨?_, by rw [first, Op.ofByte?_code]⟩
      rw [Cpu.opAddr?, opAddrFrom, if_neg (by omega), first, if_neg unprefixed]
  | wide i =>
      obtain ⟨first, inside⟩ := code.head
      obtain ⟨second, inside'⟩ := code.tail.head
      have here : VarOperand.opcodeAt (.wide i) s.gCpu.pc = s.gCpu.pc + 1 := rfl
      rw [here]
      refine ⟨?_, by rw [second, Op.ofByte?_code]⟩
      obtain ⟨n, fuel⟩ : ∃ n, (s.gCpu.codeMemSize - s.gCpu.pc).toNat = n + 1 :=
        ⟨(s.gCpu.codeMemSize - s.gCpu.pc).toNat - 1, by omega⟩
      rw [Cpu.opAddr?, fuel, opAddrFrom, if_neg (by omega), first, if_pos rfl, opAddrFrom,
        if_neg (by omega), second, if_neg unprefixed]

/-- The WIDE flag while the instruction is executed. -/
theorem atOp_nextOpWide (unprefixed : s.nextOpWide = false) :
    (s.atOp (x.opcodeAt s.gCpu.pc)).nextOpWide = x.isWide := by
  cases x with
  | narrow i => simp [State.atOp, unprefixed, VarOperand.opcodeAt, VarOperand.isWide,
      VarOperand.prefixes]
  | wide i =>
      have ne : s.gCpu.pc + 1 ≠ s.gCpu.pc := by omega
      simp [State.atOp, unprefixed, VarOperand.opcodeAt, VarOperand.isWide, VarOperand.prefixes, ne]

theorem getArgByte_bytes (env : Env) {b : Byte} (code : t.gCpu.HasBytes t.gCpu.pc (b :: rest)) :
    ∃ es, getArgByte.run env t = .done b (t.withPc (t.gCpu.pc + 1)) es := by
  obtain ⟨byte, inside⟩ := code.head
  rw [getArgByte_run, if_neg (by omega), byte]
  exact ⟨_, rfl⟩

theorem getArgShort_bytes (env : Env) {i : BitVec 16}
    (code : t.gCpu.HasBytes t.gCpu.pc ((i >>> 8).setWidth 8 :: i.setWidth 8 :: rest)) :
    ∃ es, getArgShort.run env t = .done i (t.withPc (t.gCpu.pc + 2)) es := by
  obtain ⟨high, _⟩ := code.head
  obtain ⟨low, inside⟩ := code.tail.head
  rw [getArgShort_run, if_neg (by omega), Cpu.short, high, low, joinBytes_split]
  exact ⟨_, rfl⟩

/-- ILOAD and ISTORE read the index of the operand. -/
theorem getVarIndex_run (env : Env) (operands : t.gCpu.HasBytes t.gCpu.pc x.bytes)
    (flag : t.nextOpWide = x.isWide) :
    ∃ es, getVarIndex.run env t = .done x.index (t.withPc (t.gCpu.pc + x.bytes.length)) es := by
  simp only [getVarIndex, Program.run_bind, Program.run_get, Outcome.andThen_done,
    Outcome.prepend_nil, flag]
  cases x with
  | narrow i =>
      obtain ⟨es, run⟩ := getArgByte_bytes env operands
      rw [VarOperand.isWide, if_neg Bool.false_ne_true, Program.run_bind, run]
      exact ⟨_, rfl⟩
  | wide i =>
      obtain ⟨es, run⟩ := getArgShort_bytes env operands
      rw [VarOperand.isWide, if_pos rfl, Program.run_bind, run]
      exact ⟨_, rfl⟩

/-- IINC reads the index of the operand as a signed number, and the constant. -/
theorem execOpIinc_run (env : Env) {b : Byte}
    (operands : t.gCpu.HasBytes t.gCpu.pc (x.bytes ++ [b])) (flag : t.nextOpWide = x.isWide) :
    ∃ pc es, execOpIinc.run env t =
      ((increment x.incIndex b).run env (t.withPc pc)).prepend es := by
  simp only [execOpIinc, Program.run_bind, Program.run_get, Outcome.andThen_done,
    Outcome.prepend_nil, flag]
  cases x with
  | narrow i =>
      obtain ⟨es, first⟩ := getArgByte_bytes env operands
      obtain ⟨fs, second⟩ := getArgByte_bytes (t := t.withPc (t.gCpu.pc + 1)) env
        (operands.tail.congr rfl rfl)
      rw [VarOperand.isWide, if_neg Bool.false_ne_true, Program.run_bind, Program.run_map, first,
        Outcome.andThen_done, Outcome.prepend_done, Outcome.andThen_done, Program.run_bind, second,
        Outcome.andThen_done, Outcome.prepend_prepend]
      exact ⟨_, _, rfl⟩
  | wide i =>
      obtain ⟨es, first⟩ := getArgShort_bytes env operands
      obtain ⟨fs, second⟩ := getArgByte_bytes (t := t.withPc (t.gCpu.pc + 2)) env
        (operands.append.2.congr rfl rfl)
      rw [VarOperand.isWide, if_pos rfl, Program.run_bind, Program.run_map, first,
        Outcome.andThen_done, Outcome.prepend_done, Outcome.andThen_done, Program.run_bind, second,
        Outcome.andThen_done, Outcome.prepend_prepend]
      exact ⟨_, _, rfl⟩

end Decoding

def steps : Nat → VM Unit
  | 0 => pure ()
  | n + 1 => do
      let _ ← step
      steps n

section Expansion

variable {env : Env} {s t : State} {x : VarOperand}

theorem push_returns (sized : t.gCpu.Sized) (e : Word) :
    ((do let _ ← stackPush e : VM Unit).run env t).Returns fun _ u =>
      u.nextOpWide = t.nextOpWide ∧ Pushed t.gCpu e u.gCpu := by
  rw [Program.run_bind]
  refine Outcome.Returns.andThen ((stackPush_satisfies sized e).returns
    (R := fun _ u => u.nextOpWide = t.nextOpWide ∧ Pushed t.gCpu e u.gCpu) ?_) ?_
  · rintro b u es ⟨_, pushed, flag, _⟩
    exact ⟨flag, pushed⟩
  · exact fun _ u h => Outcome.returns_done.mpr h

theorem execOpIload_returns (sized : t.gCpu.Sized) (operands : t.gCpu.HasBytes t.gCpu.pc x.bytes)
    (flag : t.nextOpWide = x.isWide) :
    (execOpIload.run env t).Returns fun _ u => u.nextOpWide = t.nextOpWide ∧
      Pushed { t.gCpu with pc := t.gCpu.pc + x.bytes.length }
        (t.gCpu.stack ((t.gCpu.lv + x.index) % 2 ^ 32)) u.gCpu := by
  obtain ⟨es, run⟩ := getVarIndex_run env operands flag
  rw [execOpIload, Program.run_bind, run, Outcome.andThen_done, Outcome.returns_prepend,
    Program.run_bind, getLocalVariable_run]
  split
  · exact Outcome.returns_stopped
  · rw [Outcome.andThen_done, Outcome.returns_prepend]
    exact push_returns (t := t.withPc (t.gCpu.pc + x.bytes.length))
      ⟨sized.nonneg, sized.bound⟩ _

theorem execOpBipush_returns (sized : t.gCpu.Sized) {b : Byte}
    (operands : t.gCpu.HasBytes t.gCpu.pc [b]) :
    (execOpBipush.run env t).Returns fun _ u => u.nextOpWide = t.nextOpWide ∧
      Pushed { t.gCpu with pc := t.gCpu.pc + 1 } (b.signExtend 32) u.gCpu := by
  obtain ⟨es, run⟩ := getArgByte_bytes env operands
  rw [execOpBipush, Program.run_bind, run, Outcome.andThen_done, Outcome.returns_prepend]
  exact push_returns (t := t.withPc (t.gCpu.pc + 1)) ⟨sized.nonneg, sized.bound⟩ _

/-- The pop of an instruction that goes on only with an operand. -/
theorem popThen_returns {β : Type} {f : Word → VM β} {Q : β → State → Prop}
    (next : ((f (t.gCpu.stack t.gCpu.sp)).run env
      { t with gCpu := { t.gCpu with sp := t.gCpu.sp - 1 } }).Returns Q) :
    ((stackPop .pop >>= f).run env t).Returns Q := by
  rw [Program.run_bind, stackPop_run]
  split
  · exact Outcome.returns_stopped
  · rw [Outcome.andThen_done, Outcome.returns_prepend]
    exact next

theorem execOpIadd_returns (sized : t.gCpu.Sized) :
    (execOpIadd.run env t).Returns fun _ u => u.nextOpWide = t.nextOpWide ∧
      Pushed { t.gCpu with sp := t.gCpu.sp - 1 - 1 }
        (t.gCpu.stack (t.gCpu.sp - 1) + t.gCpu.stack t.gCpu.sp) u.gCpu := by
  refine popThen_returns (popThen_returns ?_)
  rw [Program.run_bind, Program.run_emit, Outcome.andThen_done, Outcome.returns_prepend]
  dsimp only
  rw [BitVec.ofInt_add, BitVec.ofInt_toInt, BitVec.ofInt_toInt]
  exact push_returns (t := { t with gCpu := { t.gCpu with sp := t.gCpu.sp - 1 - 1 } })
    ⟨sized.nonneg, sized.bound⟩ _

def Cpu.stored (c : Cpu) (pc i : Int) : Cpu :=
  { c with pc := pc, sp := c.sp - 1, stack := setCell c.stack (c.lv + i) (c.stack c.sp) }

theorem execOpIstore_returns (operands : t.gCpu.HasBytes t.gCpu.pc x.bytes)
    (flag : t.nextOpWide = x.isWide) :
    (execOpIstore.run env t).Returns fun _ u => u.nextOpWide = t.nextOpWide ∧
      u.gCpu = t.gCpu.stored (t.gCpu.pc + x.bytes.length) x.index := by
  refine popThen_returns ?_
  obtain ⟨es, run⟩ := getVarIndex_run
    (t := { t with gCpu := { t.gCpu with sp := t.gCpu.sp - 1 } }) env (operands.congr rfl rfl) flag
  rw [Program.run_bind, run, Outcome.andThen_done, Outcome.returns_prepend, updateLocalVariable_run]
  split
  · exact Outcome.returns_stopped
  · exact Outcome.returns_done.mpr ⟨rfl, rfl⟩

theorem VarOperand.opcodeAt_add (x : VarOperand) (op : Op) (p : Int) :
    x.opcodeAt p + 1 + x.bytes.length = p + (x.encode op).length := by
  simp only [VarOperand.opcodeAt, VarOperand.encode, List.length_append, List.length_cons]
  omega

theorem iload_step (sized : s.gCpu.Sized) (unprefixed : s.nextOpWide = false)
    (code : s.gCpu.HasBytes s.gCpu.pc (x.encode .iload)) :
    (step.run env s).Returns fun _ t => t.nextOpWide = false ∧
      Pushed { s.gCpu with pc := s.gCpu.pc + (x.encode .iload).length }
        (s.gCpu.stack ((s.gCpu.lv + x.index) % 2 ^ 32)) t.gCpu := by
  refine step_returns (executes_of_bytes code (by decide)) unprefixed ?_
  rw [← x.opcodeAt_add .iload]
  exact execOpIload_returns ⟨sized.nonneg, sized.bound⟩ (code.append.2.tail.congr rfl rfl)
    (atOp_nextOpWide unprefixed)

theorem bipush_step (sized : s.gCpu.Sized) (unprefixed : s.nextOpWide = false) {b : Byte}
    (code : s.gCpu.HasBytes s.gCpu.pc [Op.bipush.code, b]) :
    (step.run env s).Returns fun _ t => t.nextOpWide = false ∧
      Pushed { s.gCpu with pc := s.gCpu.pc + 2 } (b.signExtend 32) t.gCpu := by
  have executes := executes_of_bytes (x := .narrow 0) code (by decide)
  rw [show VarOperand.opcodeAt (.narrow 0) s.gCpu.pc = s.gCpu.pc from Int.add_zero _] at executes
  refine step_returns executes unprefixed ?_
  rw [show s.gCpu.pc + 2 = s.gCpu.pc + 1 + 1 by omega]
  exact execOpBipush_returns (t := s.atOp s.gCpu.pc) ⟨sized.nonneg, sized.bound⟩
    (code.tail.congr rfl rfl)

theorem iadd_step (sized : s.gCpu.Sized) (unprefixed : s.nextOpWide = false)
    (code : s.gCpu.HasBytes s.gCpu.pc [Op.iadd.code]) :
    (step.run env s).Returns fun _ t => t.nextOpWide = false ∧
      Pushed { s.gCpu with pc := s.gCpu.pc + 1, sp := s.gCpu.sp - 1 - 1 }
        (s.gCpu.stack (s.gCpu.sp - 1) + s.gCpu.stack s.gCpu.sp) t.gCpu := by
  have executes := executes_of_bytes (x := .narrow 0) code (by decide)
  rw [show VarOperand.opcodeAt (.narrow 0) s.gCpu.pc = s.gCpu.pc from Int.add_zero _] at executes
  exact step_returns executes unprefixed (execOpIadd_returns ⟨sized.nonneg, sized.bound⟩)

theorem istore_step (unprefixed : s.nextOpWide = false)
    (code : s.gCpu.HasBytes s.gCpu.pc (x.encode .istore)) :
    (step.run env s).Returns fun _ t => t.nextOpWide = false ∧
      t.gCpu = s.gCpu.stored (s.gCpu.pc + (x.encode .istore).length) x.index := by
  refine step_returns (Q := fun c => c = s.gCpu.stored _ _) (executes_of_bytes code (by decide))
    unprefixed ?_
  rw [← x.opcodeAt_add .istore]
  exact execOpIstore_returns (code.append.2.tail.congr rfl rfl) (atOp_nextOpWide unprefixed)

def expansion (x : VarOperand) (b : Byte) : List Byte :=
  x.encode .iload ++ ([Op.bipush.code, b] ++ ([Op.iadd.code] ++ x.encode .istore))

/-- The stack after the expansion: it has used the two cells above `sp`. -/
def Cpu.expanded (c : Cpu) (i : Int) (w : Word) : Int → Word :=
  let v := c.stack (c.lv + i)
  setCell (setCell (setCell (setCell c.stack (c.sp + 1) v) (c.sp + 2) w) (c.sp + 1) (v + w))
    (c.lv + i) (v + w)

theorem expansion_returns (sized : s.gCpu.Sized) (unprefixed : s.nextOpWide = false) {b : Byte}
    (code : s.gCpu.HasBytes s.gCpu.pc (expansion x b))
    (offset : (s.gCpu.lv + x.index) % 2 ^ 32 = s.gCpu.lv + x.index) :
    ((steps 4).run env s).Returns fun _ t => ∃ pc size, t.gCpu = { s.gCpu with
      pc := pc, stackSize := size, stack := s.gCpu.expanded x.index (b.signExtend 32) } := by
  obtain ⟨load, code₁⟩ := code.append
  obtain ⟨bipush, code₂⟩ := code₁.append
  obtain ⟨add, store⟩ := code₂.append
  rw [steps, Program.run_bind]
  refine Outcome.Returns.andThen (iload_step sized unprefixed load) ?_
  rintro - t₁ ⟨unprefixed₁, eq₁, _, _, sized₁⟩
  rw [offset] at eq₁
  rw [steps, Program.run_bind]
  refine Outcome.Returns.andThen (bipush_step sized₁ unprefixed₁ (b := b) ?_) ?_
  · rw [eq₁]
    exact bipush.congr rfl rfl
  rintro - t₂ ⟨unprefixed₂, eq₂, _, _, sized₂⟩
  rw [eq₁] at eq₂
  rw [steps, Program.run_bind]
  refine Outcome.Returns.andThen (iadd_step sized₂ unprefixed₂ ?_) ?_
  · rw [eq₂]
    exact add.congr rfl rfl
  rintro - t₃ ⟨unprefixed₃, eq₃, _, _, _⟩
  rw [eq₂] at eq₃
  rw [steps, Program.run_bind]
  refine Outcome.Returns.andThen (istore_step (x := x) unprefixed₃ ?_) ?_
  · rw [eq₃]
    exact store.congr rfl rfl
  rintro - t₄ ⟨_, eq₄⟩
  rw [eq₃] at eq₄
  refine Outcome.returns_done.mpr ⟨t₄.gCpu.pc, t₄.gCpu.stackSize, ?_⟩
  have second : s.gCpu.sp + 1 + 1 = s.gCpu.sp + 2 := by omega
  have first : s.gCpu.sp + 2 - 1 = s.gCpu.sp + 1 := by omega
  have top : s.gCpu.sp + 1 - 1 = s.gCpu.sp := by omega
  have ne : s.gCpu.sp + 1 ≠ s.gCpu.sp + 2 := by omega
  rw [eq₄]
  simp only [Cpu.stored, Cpu.pushed, Cpu.expanded, second, first, top, setCell_same, setCell_ne ne]

/-- The CPU after IINC has added `w` to the `i`-th variable. -/
def Cpu.incremented (c : Cpu) (i : Int) (w : Word) : Cpu :=
  { c with stack := setCell c.stack (c.lv + i) (c.stack ((c.lv + i) % 2 ^ 32) + w) }

theorem increment_run (env : Env) (i : Int) (b : Byte) :
    ∃ es, (increment i b).run env t =
      if i < 0 ∨ i ≥ t.gCpu.nv then .stopped (.error .localGet) t []
      else .done () { t with gCpu := t.gCpu.incremented i (b.signExtend 32) } es := by
  rw [increment, Program.run_bind, getLocalVariable_run]
  split
  · exact ⟨[], rfl⟩
  · rename_i inside
    rw [Outcome.andThen_done, Program.run_bind, run_signed, Outcome.andThen_done,
      updateLocalVariable_run, if_neg inside]
    exact ⟨_, rfl⟩

/-- IINC with an index that a signed number can hold. -/
theorem iinc_step (env : Env) (unprefixed : s.nextOpWide = false) {b : Byte}
    (code : s.gCpu.HasBytes s.gCpu.pc (x.encode .iinc ++ [b]))
    (offset : (s.gCpu.lv + x.index) % 2 ^ 32 = s.gCpu.lv + x.index)
    (below : x.index < s.gCpu.nv) (small : x.incIndex = x.index) :
    ∃ t es pc, step.run env s = .done true t es ∧ t.gCpu = { s.gCpu with
      pc := pc
      stack := setCell s.gCpu.stack (s.gCpu.lv + x.index)
        (s.gCpu.stack (s.gCpu.lv + x.index) + b.signExtend 32) } := by
  have nonneg := x.index_nonneg
  rw [VarOperand.encode, List.append_assoc, List.cons_append] at code
  obtain ⟨pc, es, run⟩ := execOpIinc_run (t := s.atOp (x.opcodeAt s.gCpu.pc)) env
    (code.append.2.tail.congr rfl rfl) (atOp_nextOpWide unprefixed)
  obtain ⟨fs, inner⟩ := increment_run env
    (t := (s.atOp (x.opcodeAt s.gCpu.pc)).withPc pc) x.incIndex b
  rw [small] at inner run
  have inside : ¬ (x.index < 0 ∨ x.index ≥ s.gCpu.nv) := by omega
  rw [if_neg (by exact inside)] at inner
  rw [inner] at run
  obtain ⟨t, gs, done, cpu⟩ := step_of_execOp (executes_of_bytes code (by decide)) run
  refine ⟨t, gs, pc, done, cpu.trans ?_⟩
  simp only [Cpu.incremented, State.withPc, State.atOp, offset]

/-- IINC with any other index looks for a negative variable. -/
theorem iinc_stops (env : Env) (unprefixed : s.nextOpWide = false) {b : Byte}
    (code : s.gCpu.HasBytes s.gCpu.pc (x.encode .iinc ++ [b])) (negative : x.incIndex < 0) :
    ∃ t es, step.run env s = .stopped (.error .localGet) t es := by
  rw [VarOperand.encode, List.append_assoc, List.cons_append] at code
  obtain ⟨pc, es, run⟩ := execOpIinc_run (t := s.atOp (x.opcodeAt s.gCpu.pc)) env
    (code.append.2.tail.congr rfl rfl) (atOp_nextOpWide unprefixed)
  obtain ⟨fs, inner⟩ := increment_run env
    (t := (s.atOp (x.opcodeAt s.gCpu.pc)).withPc pc) x.incIndex b
  rw [if_pos (Or.inl negative)] at inner
  rw [inner] at run
  exact (step_stopped_iff (executes_of_bytes code (by decide))).mpr ⟨_, _, run⟩

end Expansion

/-- The same registers of the frame, local variables and words up to the top of the stack. -/
structure Cpu.Agrees (c c' : Cpu) : Prop where
  sp : c.sp = c'.sp
  fp : c.fp = c'.fp
  lv : c.lv = c'.lv
  nv : c.nv = c'.nv
  cells : ∀ j, j ≤ c.sp ∨ (c.lv ≤ j ∧ j < c.lv + c.nv) → c.stack j = c'.stack j

/-- Writing `w` to the cell `j` changes no local variable but the `i`-th. -/
def Cpu.Spares (c : Cpu) (i j : Int) (w : Word) : Prop :=
  c.lv ≤ j → j < c.lv + c.nv → j = c.lv + i ∨ c.stack j = w

/-- The expansion changes the two cells above `sp` and nothing else that IINC leaves. -/
theorem expanded_agrees_iff {c : Cpu} {i : Int} {w : Word} :
    (∀ j, j ≤ c.sp ∨ (c.lv ≤ j ∧ j < c.lv + c.nv) →
      setCell c.stack (c.lv + i) (c.stack (c.lv + i) + w) j = c.expanded i w j) ↔
      c.Spares i (c.sp + 1) (c.stack (c.lv + i) + w) ∧ c.Spares i (c.sp + 2) w := by
  have ne : c.sp + 1 ≠ c.sp + 2 := by omega
  constructor
  · intro agree
    constructor
    · intro low high
      by_cases own : c.sp + 1 = c.lv + i
      · exact Or.inl own
      · have same := agree (c.sp + 1) (Or.inr ⟨low, high⟩)
        rw [setCell_ne own, Cpu.expanded, setCell_ne own, setCell_same] at same
        exact Or.inr same
    · intro low high
      by_cases own : c.sp + 2 = c.lv + i
      · exact Or.inl own
      · have same := agree (c.sp + 2) (Or.inr ⟨low, high⟩)
        rw [setCell_ne own, Cpu.expanded, setCell_ne own, setCell_ne ne.symm, setCell_same] at same
        exact Or.inr same
  · rintro ⟨first, second⟩ j place
    rw [Cpu.expanded]
    by_cases own : j = c.lv + i
    · rw [setCell_eq own, setCell_eq own]
    rw [setCell_ne own, setCell_ne own]
    by_cases one : j = c.sp + 1
    · rw [setCell_eq one, one]
      exact (first (by omega) (by omega)).resolve_left (by omega)
    rw [setCell_ne one]
    by_cases two : j = c.sp + 2
    · rw [setCell_eq two, two]
      exact (second (by omega) (by omega)).resolve_left (by omega)
    rw [setCell_ne two, setCell_ne one]

def State.withText (s : State) (text : Int → Byte) (size pc : Int) : State :=
  { s with gCpu := { s.gCpu with codeMem := text, codeMemSize := size, pc := pc } }

/-- One step from `s` ends with the data of `t`. -/
def StepsLike (env : Env) (s t : State) : Prop :=
  ∃ b t' es, step.run env s = .done b t' es ∧ t'.gCpu.Agrees t.gCpu

/-- Where the expansion completes, IINC does the same exactly if a signed number can hold
the index and the expansion does not overwrite other local variables with other words. -/
theorem iinc_expansion_iff {env : Env} {s t : State} {x : VarOperand} {b : Byte}
    {text text' : Int → Byte} {size size' pc pc' : Int} {es : List Event}
    (range : s.gCpu.InRange) (unprefixed : s.nextOpWide = false) (below : x.index < s.gCpu.nv)
    (code : (s.withText text size pc).gCpu.HasBytes pc (x.encode .iinc ++ [b]))
    (code' : (s.withText text' size' pc').gCpu.HasBytes pc' (expansion x b))
    (completes : (steps 4).run env (s.withText text' size' pc') = .done () t es) :
    StepsLike env (s.withText text size pc) t ↔
      x.index < 32768 ∧
      s.gCpu.Spares x.index (s.gCpu.sp + 1)
        (s.gCpu.stack (s.gCpu.lv + x.index) + b.signExtend 32) ∧
      s.gCpu.Spares x.index (s.gCpu.sp + 2) (b.signExtend 32) := by
  have offset : (s.gCpu.lv + x.index) % 2 ^ 32 = s.gCpu.lv + x.index := by
    have := range.lv_nonneg
    have := range.lv_lt
    have := range.size_lt
    have := range.nv_lt
    have := x.index_nonneg
    exact Int.emod_eq_of_lt (by omega) (by omega)
  obtain ⟨_, _, cpu⟩ := expansion_returns (s := s.withText text' size' pc')
    ⟨range.sized.nonneg, range.sized.bound⟩ unprefixed code' offset _ _ _ completes
  rcases x.incIndex_eq with ⟨small, eq⟩ | ⟨large, negative⟩
  · obtain ⟨t', fs, _, run, cpu'⟩ := iinc_step (s := s.withText text size pc) env
      unprefixed code offset below eq
    rw [and_iff_right small, ← expanded_agrees_iff]
    constructor
    · rintro ⟨_, _, _, run', agrees⟩
      rw [run] at run'
      injection run' with _ same
      subst same
      have cells := agrees.cells
      rw [cpu, cpu'] at cells
      exact cells
    · intro cells
      refine ⟨true, t', fs, run, ?_⟩
      rw [cpu, cpu']
      exact ⟨rfl, rfl, rfl, rfl, cells⟩
  · obtain ⟨t', fs, run⟩ := iinc_stops (s := s.withText text size pc) env unprefixed code
      negative
    constructor
    · rintro ⟨_, _, _, run', _⟩
      rw [run] at run'
      cases run'
    · rintro ⟨small, _⟩
      omega

def textOf (bytes : List Byte) : Int → Byte := fun i => bytes.getD i.toNat 0

theorem hasBytes_textOf (s : State) (bytes : List Byte) :
    (s.withText (textOf bytes) bytes.length 0).gCpu.HasBytes 0 bytes := by
  refine ⟨Int.le_refl _, ?_, ?_⟩
  · show 0 + (bytes.length : Int) ≤ bytes.length
    omega
  · intro k _
    show bytes.getD (0 + (k : Int)).toNat 0 = bytes.getD k 0
    rw [Int.zero_add, Int.toNat_natCast]

/-- The run of an expansion that completes. -/
theorem expansion_completes (env : Env) {s : State}
    (done : ((steps 4).run env s).value? = some ()) :
    ∃ t es, (steps 4).run env s = .done () t es :=
  ⟨_, _, Outcome.eq_done_of_value? done⟩

/-- IINC of the only variable of main. -/
def incrementFirst : List Byte := assemble [] [Op.iinc.code, 0, 5]

theorem iinc_expansion_iff_incrementFirst : ∃ s t es,
    after Env.quiet incrementFirst 0 = some s ∧
    (steps 4).run Env.quiet (s.withText (textOf (expansion (.narrow 0) 5)) 7 0) =
      .done () t es ∧
    StepsLike Env.quiet (s.withText (textOf [Op.iinc.code, 0, 5]) 3 0) t := by
  have start : (after Env.quiet incrementFirst 0).any (fun s =>
      decide (s.nextOpWide = false ∧ s.gCpu.nv = 1 ∧ s.gCpu.lv = 0 ∧ s.gCpu.sp = 0 ∧
        ((steps 4).run Env.quiet
          (s.withText (textOf (expansion (.narrow 0) 5)) 7 0)).value? = some ())) = true := by
    decide +kernel
  obtain ⟨s, reached, facts⟩ := (Option.any_eq_true _ _).mp start
  obtain ⟨unprefixed, nv, lv, sp, done⟩ := of_decide_eq_true facts
  obtain ⟨t, es, completes⟩ := expansion_completes Env.quiet done
  refine ⟨s, t, es, reached, completes, ?_⟩
  refine (iinc_expansion_iff (x := .narrow 0) (reachable_of_after reached).inRange unprefixed
    (by simp [VarOperand.index, nv]) (hasBytes_textOf _ _) (hasBytes_textOf _ _)
    completes).mpr ⟨by decide, ?_, ?_⟩
  · intro _ high
    omega
  · intro _ high
    omega

/-- A method with one argument and 32768 local variables is called, and increments the last
one of them: BIPUSH 0, INVOKEVIRTUAL, the header of the method, WIDE IINC 32768 1. -/
def incrementLast : List Byte :=
  assemble [5] [Op.bipush.code, 0, Op.invokevirtual.code, 0, 0, 0, 1, 0x80, 0,
    Op.wide.code, Op.iinc.code, 0x80, 0, 1]

/-- The increment ends the machine. -/
theorem iinc_differs_incrementLast : ¬ ∀ (env : Env) (s t : State) (x : VarOperand) (b : Byte)
    (text text' : Int → Byte) (size size' pc pc' : Int) (es : List Event),
    s.gCpu.InRange → s.nextOpWide = false → x.index < s.gCpu.nv →
      (s.withText text size pc).gCpu.HasBytes pc (x.encode .iinc ++ [b]) →
      (s.withText text' size' pc').gCpu.HasBytes pc' (expansion x b) →
      (steps 4).run env (s.withText text' size' pc') = .done () t es →
        StepsLike env (s.withText text size pc) t := by
  intro claimed
  have called : (after Env.quiet incrementLast 2).any (fun s =>
      decide (s.nextOpWide = false ∧ 32768 < s.gCpu.nv ∧
        ((steps 4).run Env.quiet
          (s.withText (textOf (expansion (.wide 32768) 1)) 11 0)).value? = some ())) = true := by
    decide +kernel
  obtain ⟨s, reached, facts⟩ := (Option.any_eq_true _ _).mp called
  obtain ⟨unprefixed, last, done⟩ := of_decide_eq_true facts
  obtain ⟨t, es, completes⟩ := expansion_completes Env.quiet done
  obtain ⟨_, _, _, run, _⟩ := claimed Env.quiet s t (.wide 32768) 1 _ _ _ _ _ _ es
    (reachable_of_after reached).inRange unprefixed last (hasBytes_textOf _ _)
    (hasBytes_textOf _ _) completes
  obtain ⟨_, _, stops⟩ := iinc_stops Env.quiet (x := .wide 32768) (b := 1)
    (s := s.withText _ _ 0) unprefixed (hasBytes_textOf _ _) (by decide)
  rw [run] at stops
  cases stops

end Ijvm
