import Ijvm.Code.Fetch
import Ijvm.Stack.MainReturn

/-!
# Registers in range, whatever lies outside the stack

`Wandering` is reachability when the memory outside the stack is not the machine's own: its
cells may hold other words between any two instructions. Within an instruction they stay; only
the collections of an INVOKEVIRTUAL read a cell more than once, and they leave the registers
alone. The ranges of the registers do not depend on these cells.
-/

namespace Ijvm

open Transcript Program

/-- The states of a run of `file` in which the cells outside the stack change at any
time. -/
inductive Wandering (env : Env) (file : List Byte) : State → Prop
  | start {s : State} {es : List Event}
      (init : (initIjvm (some file)).run env State.fresh = .done 0 s es) : Wandering env file s
  | step {s s' : State} {b : Bool} {es : List Event} (reached : Wandering env file s)
      (running : finished s.gCpu = false) (execution : step.run env s = .done b s' es) :
      Wandering env file s'
  | outside {s : State} (reached : Wandering env file s) (stack : Int → Word)
      (inside : ∀ i, 0 ≤ i → i < s.gCpu.stackSize → stack i = s.gCpu.stack i) :
      Wandering env file { s with gCpu := { s.gCpu with stack := stack } }

theorem Reachable.wandering {env : Env} {file : List Byte} {s : State}
    (reached : Reachable env file s) : Wandering env file s := by
  induction reached with
  | start init => exact .start init
  | step _ running execution ih => exact .step ih running execution

/-- The ranges of the registers between two instructions. An `int` holds the program
counter. -/
structure Cpu.Registers (c : Cpu) : Prop where
  sp_ge : -1 ≤ c.sp
  sp_lt : c.sp < c.stackSize
  fp_nonneg : 0 ≤ c.fp
  fp_lt : c.fp < c.stackSize
  lv_nonneg : 0 ≤ c.lv
  lv_lt : c.lv < c.stackSize
  nv_nonneg : 0 ≤ c.nv
  pc_nonneg : 0 ≤ c.pc
  pc_lt : c.pc < 2 ^ 31

/-- The program counter is not negative, and at most a branch offset beyond the code. -/
def Cpu.PcNear (c : Cpu) : Prop := 0 ≤ c.pc ∧ (c.pc = 0 ∨ c.pc ≤ c.codeMemSize + 2 ^ 15)

theorem Cpu.InMain.pcNear {c : Cpu} (h : c.InMain) : c.PcNear := by
  have pc := h.pc
  exact ⟨by omega, Or.inl pc⟩

/-- Every state of such a run satisfies what the next instruction relies on. -/
theorem Wandering.invariant {env : Env} {file : List Byte} {s : State}
    (reached : Wandering env file s) : s.gCpu.InRange ∧ s.gCpu.PcNear := by
  induction reached with
  | start init =>
      have main := (started_of_init init).main
      exact ⟨main.inRange, main.pcNear⟩
  | @step s s' b es _ running execution ih =>
      obtain ⟨range, _⟩ := ih
      obtain ⟨nonneg, below⟩ := pc_bounds running
      have within : s.gCpu.PcWithin s.gCpu.codeMemSize 0 :=
        ⟨⟨rfl, range.sized⟩, nonneg, by omega⟩
      obtain ⟨coded, nonneg', le⟩ := step_within range.code_lt within b s' es execution
      have size := coded.size
      exact ⟨(step_judged range).returns b s' es execution, nonneg', Or.inr (by omega)⟩
  | outside _ stack _ ih => exact ⟨ih.1.withStack stack, ih.2⟩

/-- The registers stay in range in every run, whatever the cells outside the stack hold. -/
theorem Wandering.registers {env : Env} {file : List Byte} {s : State}
    (reached : Wandering env file s) (small : s.gCpu.codeMemSize < 2 ^ 31 - 2 ^ 17) :
    s.gCpu.Registers := by
  obtain ⟨range, nonneg, near⟩ := reached.invariant
  refine ⟨range.sp_ge, range.sp_lt, range.fp_nonneg, range.fp_lt, range.lv_nonneg, range.lv_lt,
    range.nv_nonneg, nonneg, ?_⟩
  omega

/-- After main has returned into a frame of its own making, with other words outside the stack. -/
theorem Wandering.registers_forgedReturn :
    ∃ s, Wandering Env.quiet forgedReturn s ∧ s.gCpu.pc = 0 ∧
      s.gCpu.stack s.gCpu.stackSize = 0xAA00000A ∧ s.gCpu.codeMemSize < 2 ^ 31 - 2 ^ 17 ∧
      s.gCpu.Registers := by
  have returned : (after Env.quiet forgedReturn 5).any (fun s =>
      decide (s.gCpu.pc = 0 ∧ s.gCpu.codeMemSize < 2 ^ 31 - 2 ^ 17)) = true := by decide +kernel
  obtain ⟨s, reached, check⟩ := (Option.any_eq_true _ _).mp returned
  obtain ⟨pc, small⟩ := of_decide_eq_true check
  have wandering := (reachable_of_after reached).wandering.outside
    (fun i => if 0 ≤ i ∧ i < s.gCpu.stackSize then s.gCpu.stack i else 0xAA00000A)
    fun i low high => if_pos ⟨low, high⟩
  refine ⟨_, wandering, pc, ?_, small, Wandering.registers wandering small⟩
  exact if_neg fun inside => absurd inside.2 (Int.lt_irrefl _)

end Ijvm
