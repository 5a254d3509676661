import Ijvm.Stack.Bounds

/-!
# Returning from the main method

The machine does not count calls. IRETURN takes whatever words lie at `fp` for a linkage,
in the main method too, where the operands of the program are there. It ends the machine
with the error for a missing frame exactly if those words fail its range checks.
-/

namespace Ijvm

open Transcript Program

namespace Cpu

/-- The four words from `fp` on and the register `nv` are no linkage that IRETURN accepts:
the caller's `sp`, its `pc`, `fp` or `lv` is out of range, or its `nv` is negative. -/
def NoLinkage (c : Cpu) : Prop :=
  c.fp - 1 - c.nv < -1 ∨ c.fp - 1 - c.nv ≥ c.stackSize ∨
  (c.stack (c.fp + 3)).toInt < 0 ∨ (c.stack (c.fp + 3)).toInt ≥ c.codeMemSize ∨
  (c.stack (c.fp + 2)).toInt < 0 ∨ (c.stack (c.fp + 2)).toInt ≥ c.stackSize ∨
  (c.stack (c.fp + 1)).toInt < 0 ∨
  (c.stack c.fp).toInt < 0 ∨ (c.stack c.fp).toInt ≥ c.stackSize

theorem noLinkage_iff {c : Cpu} : c.NoLinkage ↔ ireturnRejects c.returned := by
  simp only [NoLinkage, ireturnRejects, returned]
  omega

/-- IRETURN finds a word to return, and reads the whole linkage before it checks it. -/
structure ReadsLinkage (c : Cpu) : Prop where
  operand : c.lv ≤ c.sp ∧ 0 ≤ c.sp
  linkage : c.lv ≤ c.fp

end Cpu

section Instruction

variable {env : Env} {s : State}

/-- IRETURN ends with the error for a missing frame. -/
abbrev ReportsNoFrame {α : Type} (o : Outcome State Event Stop α) : Prop :=
  ∃ t es, o = .stopped (.error .ireturnFrame) t es

/-- A linkage that is accepted leaves room for the returned word. -/
theorem returned_room (range : s.gCpu.InRange) :
    s.gCpu.returned.sp + 1 < s.gCpu.returned.stackSize := by
  have fp_lt := range.fp_lt
  have nv_nonneg := range.nv_nonneg
  show s.gCpu.fp - 1 - s.gCpu.nv + 1 < s.gCpu.stackSize
  omega

theorem execOpIreturn_reports_iff (env : Env) (range : s.gCpu.InRange) :
    ReportsNoFrame (execOpIreturn.run env s) ↔ s.gCpu.ReadsLinkage ∧ s.gCpu.NoLinkage := by
  by_cases empty : s.gCpu.Empty
  · refine iff_of_false ?_ fun h => Cpu.not_empty_iff.mpr h.1.operand empty
    rintro ⟨t, es, run⟩
    rw [execOpIreturn, run_bind, stackPop_empty _ empty] at run
    cases run
  by_cases linkage : s.gCpu.lv ≤ s.gCpu.fp
  · have reads : s.gCpu.ReadsLinkage := ⟨Cpu.not_empty_iff.mp empty, linkage⟩
    rw [execOpIreturn_run empty linkage range.fp_nonneg, Cpu.noLinkage_iff]
    split
    · rename_i rejected
      exact iff_of_true ⟨_, _, rfl⟩ ⟨reads, rejected⟩
    · rename_i accepted
      refine iff_of_false ?_ fun h => accepted h.2
      rintro ⟨t, es, run⟩
      rw [stackPush_inside (s := { s with gCpu := s.gCpu.returned }) (returned_room range)] at run
      cases run
  · obtain ⟨t', es', run', _⟩ :=
      execOpIreturn_stops env empty range.fp_nonneg (Int.lt_of_not_ge linkage)
    refine iff_of_false ?_ fun h => linkage h.1.linkage
    rintro ⟨t, es, run⟩
    rw [run'] at run
    cases run

/-- A step that executes IRETURN reports a missing frame exactly if the words at `fp` are
no linkage. -/
theorem step_reports_iff (range : s.gCpu.InRange) (ret : s.gCpu.op? = some .ireturn) :
    ReportsNoFrame (step.run env s) ↔ s.gCpu.ReadsLinkage ∧ s.gCpu.NoLinkage := by
  obtain ⟨a, executes⟩ := State.executes_of_op? ret
  have range' : (s.atOp a).gCpu.InRange := range.withPc _
  have same : s.gCpu.ReadsLinkage ∧ s.gCpu.NoLinkage ↔
      (s.atOp a).gCpu.ReadsLinkage ∧ (s.atOp a).gCpu.NoLinkage :=
    ⟨fun h => ⟨⟨h.1.operand, h.1.linkage⟩, h.2⟩, fun h => ⟨⟨h.1.operand, h.1.linkage⟩, h.2⟩⟩
  rw [same, ← execOpIreturn_reports_iff env range']
  exact step_stopped_iff executes

end Instruction

section Runs

/-- How often `op` was executed in the first `n` turns. -/
def executions (env : Env) (file : List Byte) (op : Op) (n : Nat) : Nat :=
  ((List.range n).filter fun m => (after env file m).any fun s => s.gCpu.op? == some op).length

/-- After `n` turns, the main method is about to execute IRETURN: as many methods have
returned as were called. -/
structure MainReturns (env : Env) (file : List Byte) (n : Nat) (s : State) : Prop where
  reached : after env file n = some s
  balanced : executions env file .ireturn n = executions env file .invokevirtual n
  running : finished s.gCpu = false
  returns : s.gCpu.op? = some .ireturn

/-- The main method cannot return exactly if the words above its variables are no
linkage. -/
theorem mainReturn_reports_iff {env : Env} {file : List Byte} {n : Nat} {s : State}
    (main : MainReturns env file n s) :
    ReportsNoFrame (step.run env s) ↔ s.gCpu.ReadsLinkage ∧ s.gCpu.NoLinkage :=
  step_reports_iff (reachable_of_after main.reached).inRange main.returns

/-- A main method that pushes a linkage of zeros and returns. -/
def forgedReturn : List Byte := assemble []
  [Op.bipush.code, 0, Op.bipush.code, 0, Op.bipush.code, 0, Op.bipush.code, 0, Op.ireturn.code]

/-- A computation on the state after `n` turns. -/
private theorem exists_mainReturn (env : Env) (file : List Byte) (n : Nat)
    (P : State → Bool)
    (check : ((after env file n).any fun s => decide (finished s.gCpu = false ∧
      s.gCpu.op? = some .ireturn) && P s) = true)
    (balanced : executions env file .ireturn n = executions env file .invokevirtual n) :
    ∃ s, MainReturns env file n s ∧ P s = true := by
  obtain ⟨s, reached, both⟩ := (Option.any_eq_true _ _).mp check
  rw [Bool.and_eq_true, decide_eq_true_eq] at both
  exact ⟨s, ⟨reached, balanced, both.1.1, both.1.2⟩, both.2⟩

/-- The main method returns into a frame that its own operands describe. -/
theorem forgedReturn_returns : ¬ ∀ env file n s, MainReturns env file n s →
    ReportsNoFrame (step.run env s) := by
  intro reports
  obtain ⟨s, main, returns⟩ := exists_mainReturn Env.quiet forgedReturn 4
    (fun s => (step.run Env.quiet s).isDone) (by decide +kernel) (by decide +kernel)
  obtain ⟨t, es, run⟩ := reports _ _ _ _ main
  rw [run] at returns
  contradiction

/-- IRETURN in that program is accepted. -/
theorem mainReturn_reports_iff_forgedReturn :
    ∃ s, MainReturns Env.quiet forgedReturn 4 s ∧ (ReportsNoFrame (step.run Env.quiet s) ↔
      s.gCpu.ReadsLinkage ∧ s.gCpu.NoLinkage) := by
  obtain ⟨s, main, _⟩ := exists_mainReturn Env.quiet forgedReturn 4
    (fun _ => true) (by decide +kernel) (by decide +kernel)
  exact ⟨s, main, mainReturn_reports_iff main⟩

end Runs
end Ijvm
