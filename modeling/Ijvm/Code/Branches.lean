import Ijvm.Stack.Frames
import Ijvm.Machine.Launch

/-!
# Where a taken branch goes

The four branches share the computation of the offset and the check of `jump`. The offset
is rebased by -3 in 16 bits, which turns the three smallest offsets into large positive
ones; every other offset leads to its target, or ends the machine if there is no
instruction at the target.
-/

namespace Ijvm

open Transcript

/-- The operands are there and fulfil the condition of the branch. -/
def Op.Taken (c : Cpu) : Op → Prop
  | .goto => True
  | .ifeq => ¬ c.Empty ∧ c.stack c.sp = 0
  | .iflt => ¬ c.Empty ∧ (c.stack c.sp).toInt < 0
  | .icmpeq =>
      ¬ c.Empty ∧ ¬ { c with sp := c.sp - 1 }.Empty ∧ c.stack c.sp = c.stack (c.sp - 1)
  | _ => False

/-- The signed offset in the instruction with its opcode at `a`. -/
def Cpu.branchOffset (c : Cpu) (a : Int) : Int := (c.short (a + 1)).toInt

/-- Execution goes on at `target` if there is code of this size around it, and otherwise
ends. -/
def GoesOnAt (target size : Int) : Outcome State Event Stop Bool → Prop
  | .done _ t _ =>
      if 0 ≤ target ∧ target < size then t.gCpu.pc = target ∧ finished t.gCpu = false
      else finished t.gCpu = true
  | .stopped _ _ _ => ¬ (0 ≤ target ∧ target < size)

section Offsets

/-- The offset that `jump` receives. -/
theorem rebased_toInt (d : BitVec 16) :
    (-32765 ≤ d.toInt ∧ (d - 3).toInt = d.toInt - 3) ∨
      (d.toInt < -32765 ∧ (d - 3).toInt = d.toInt + 65533) := by
  have low : -2 ^ 15 ≤ d.toInt := BitVec.le_toInt d
  have high : d.toInt < 2 ^ 15 := BitVec.toInt_lt
  have three : (3 : BitVec 16).toInt = 3 := by decide
  rw [BitVec.toInt_sub, three]
  by_cases near : -32765 ≤ d.toInt
  · exact Or.inl ⟨near, Int.bmod_eq_of_le (by omega) (by omega)⟩
  · refine Or.inr ⟨by omega, ?_⟩
    rw [Int.bmod_eq_iff (by decide)]
    omega

variable {env : Env}

theorem getJumpOffset_run {t : State} (operands : t.gCpu.pc + 2 ≤ t.gCpu.codeMemSize) :
    getJumpOffset.run env t = .done (t.gCpu.short t.gCpu.pc - 3).toInt (t.withPc (t.gCpu.pc + 2))
      [.signed (t.gCpu.pc + 2), .code t.gCpu.pc t.gCpu.codeMemSize,
        .code (t.gCpu.pc + 1) t.gCpu.codeMemSize] := by
  rw [getJumpOffset, Program.run_bind, getArgShort_run, if_neg (by omega)]
  rfl

/-- A taken branch takes its operands and jumps. -/
theorem branch_run (env : Env) {t : State} {op : Op} (nested : VM Bool)
    (operands : t.gCpu.pc + 2 ≤ t.gCpu.codeMemSize) (taken : op.Taken t.gCpu) :
    ∃ sp es, (execOp nested op).run env t =
      ((jump (t.gCpu.short t.gCpu.pc - 3).toInt).run env
        { t with gCpu := { t.gCpu with pc := t.gCpu.pc + 2, sp := sp } }).prepend es := by
  cases op with
  | goto =>
      refine ⟨t.gCpu.sp, ?_⟩
      rw [execOp, execOpGoto, Program.run_bind, getJumpOffset_run operands, Outcome.andThen_done]
      exact ⟨_, rfl⟩
  | ifeq =>
      obtain ⟨full, zero⟩ := taken
      refine ⟨t.gCpu.sp - 1, ?_⟩
      rw [execOp, execOpIfeq, Program.run_bind, getJumpOffset_run operands, Outcome.andThen_done,
        Program.run_bind, stackPop_done (s := t.withPc (t.gCpu.pc + 2)) .pop full,
        Outcome.andThen_done,
        if_pos (by exact zero),
        Outcome.prepend_prepend]
      exact ⟨_, rfl⟩
  | iflt =>
      obtain ⟨full, negative⟩ := taken
      refine ⟨t.gCpu.sp - 1, ?_⟩
      rw [execOp, execOpIflt, Program.run_bind, getJumpOffset_run operands, Outcome.andThen_done,
        Program.run_bind, stackPop_done (s := t.withPc (t.gCpu.pc + 2)) .pop full,
        Outcome.andThen_done,
        if_pos (by exact negative),
        Outcome.prepend_prepend]
      exact ⟨_, rfl⟩
  | icmpeq =>
      obtain ⟨full, full', equal⟩ := taken
      refine ⟨t.gCpu.sp - 1 - 1, ?_⟩
      rw [execOp, execOpIcmpeq, Program.run_bind, getJumpOffset_run operands, Outcome.andThen_done,
        Program.run_bind, stackPop_done (s := t.withPc (t.gCpu.pc + 2)) .pop full,
        Outcome.andThen_done,
        Program.run_bind, stackPop_done .pop (by exact full'), Outcome.andThen_done,
        if_pos (by exact equal), Outcome.prepend_prepend, Outcome.prepend_prepend]
      exact ⟨_, rfl⟩
  | _ => exact taken.elim

end Offsets

/-- The step of a taken branch ends the machine if `jump` rejects the offset, and otherwise
changes `pc` and `sp` only. -/
theorem branch_step (env : Env) {s : State} {a : Int} {op : Op} {offset : Int}
    (executes : s.Executes a op) (operands : a + 3 ≤ s.gCpu.codeMemSize)
    (taken : op.Taken (s.atOp a).gCpu) (rebased : (s.gCpu.short (a + 1) - 3).toInt = offset) :
    if a + 3 + offset < 0 ∨ offset ≥ s.gCpu.codeMemSize then
      ∃ t es, step.run env s = .stopped (.error .jumpOffset) t es
    else
      ∃ t sp es, step.run env s = .done true t es ∧
        t.gCpu = { s.gCpu with pc := a + 3 + offset, sp := sp } := by
  have room : a + 1 + 2 ≤ s.gCpu.codeMemSize := by omega
  obtain ⟨sp, es, jumps⟩ := branch_run env (t := s.atOp a) (pure true) room taken
  have shift : a + 1 + 2 = a + 3 := Int.add_assoc a 1 2
  rw [show (s.atOp a).gCpu.short (s.atOp a).gCpu.pc = s.gCpu.short (a + 1) from rfl, rebased,
    jump_run, show (s.atOp a).gCpu.pc + 2 = a + 3 from shift] at jumps
  split
  · rename_i rejected
    rw [if_pos (by exact rejected)] at jumps
    exact (step_stopped_iff executes).mpr ⟨_, _, jumps⟩
  · rename_i accepted
    rw [if_neg (by exact accepted)] at jumps
    obtain ⟨t, fs, run, cpu⟩ := step_of_execOp executes jumps
    exact ⟨t, sp, fs, run, cpu⟩

/-- A machine without flags ends exactly where there is no code. -/
theorem finished_eq {c : Cpu} (noError : c.errorFlag = false) (noHalt : c.haltFlag = false) :
    finished c = decide (¬ (0 ≤ c.pc ∧ c.pc < c.codeMemSize)) := by
  rw [finished, noError, noHalt, Bool.or_false, Bool.or_false, ← Bool.decide_or]
  exact decide_eq_decide.mpr (by omega)

theorem flags_of_running {c : Cpu} (running : finished c = false) :
    c.errorFlag = false ∧ c.haltFlag = false := by
  simp only [finished, Bool.or_eq_false_iff] at running
  exact ⟨running.1.2, running.2⟩

/-- A taken branch goes exactly where its offset says unless the offset is one of the
three smallest. Such a branch jumps forwards, which makes no difference only if there is
no instruction at either place. -/
theorem branch_exact_iff {env : Env} {s : State} {a : Int} {op : Op}
    (running : finished s.gCpu = false) (executes : s.Executes a op)
    (operands : a + 3 ≤ s.gCpu.codeMemSize) (taken : op.Taken (s.atOp a).gCpu) :
    GoesOnAt (a + s.gCpu.branchOffset a) s.gCpu.codeMemSize (step.run env s) ↔
      -32765 ≤ s.gCpu.branchOffset a ∨
        (a + s.gCpu.branchOffset a < 0 ∧
          s.gCpu.codeMemSize ≤ a + s.gCpu.branchOffset a + 65536) := by
  obtain ⟨_, low, high, _⟩ := opAddrFrom_bounds executes.found
  obtain ⟨noError, noHalt⟩ := flags_of_running running
  have smallest : -2 ^ 15 ≤ s.gCpu.branchOffset a := BitVec.le_toInt _
  have rebased := rebased_toInt (s.gCpu.short (a + 1))
  have jumps := branch_step env executes operands taken rfl
  rw [← Cpu.branchOffset] at rebased
  generalize s.gCpu.branchOffset a = d at *
  generalize (s.gCpu.short (a + 1) - 3).toInt = offset at *
  split at jumps
  · obtain ⟨t, es, run⟩ := jumps
    rw [run, GoesOnAt]
    omega
  · obtain ⟨t, sp, es, run, cpu⟩ := jumps
    have pc : t.gCpu.pc = a + 3 + offset := by rw [cpu]
    have size : t.gCpu.codeMemSize = s.gCpu.codeMemSize := by rw [cpu]
    have ended := finished_eq (c := t.gCpu) (by rw [cpu]; exact noError) (by rw [cpu]; exact noHalt)
    rw [run, GoesOnAt, ended, pc, size]
    split
    · simp only [decide_eq_false_iff_not]
      omega
    · simp only [decide_eq_true_eq]
      omega

/-- GOTO with the offset -32766, behind so much code that there is an instruction at its
target. -/
def farGoto : State :=
  { State.fresh with gCpu := { State.fresh.gCpu with
      codeMemSize := 32769
      codeMem := fun i =>
        if i = 32766 then Op.goto.code else if i = 32767 then 0x80 else
        if i = 32768 then 0x02 else Op.nop.code
      pc := 32766 } }

theorem farGoto_executes : farGoto.Executes 32766 .goto := ⟨by decide, by decide⟩

/-- The machine ends instead of going on at address 0. -/
theorem farGoto_inexact : ¬ ∀ (env : Env) (s : State) (a : Int) (op : Op),
    finished s.gCpu = false → s.Executes a op → a + 3 ≤ s.gCpu.codeMemSize →
      op.Taken (s.atOp a).gCpu →
        GoesOnAt (a + s.gCpu.branchOffset a) s.gCpu.codeMemSize (step.run env s) := by
  intro exact
  have goesOn := exact Env.quiet farGoto 32766 .goto (by decide) farGoto_executes (by decide)
    trivial
  have jumps := branch_step Env.quiet farGoto_executes (by decide) trivial
    (show (farGoto.gCpu.short 32767 - 3).toInt = 32767 by decide)
  rw [if_neg (by decide)] at jumps
  obtain ⟨t, sp, es, run, cpu⟩ := jumps
  rw [run, GoesOnAt, if_pos (by decide), cpu] at goesOn
  have target : (65535 + 1 : Int) = 32766 + farGoto.gCpu.branchOffset 32766 := goesOn.1
  exact absurd target (by decide)

theorem branch_exact_iff_farGoto :
    GoesOnAt 0 32769 (step.run Env.quiet farGoto) ↔ -32765 ≤ farGoto.gCpu.branchOffset 32766 ∨
      (32766 + farGoto.gCpu.branchOffset 32766 < 0 ∧
        32769 ≤ 32766 + farGoto.gCpu.branchOffset 32766 + 65536) :=
  branch_exact_iff (s := farGoto) (by decide) farGoto_executes (by decide) trivial

end Ijvm
