import Ijvm.Stack.Calls

/-!
# The frame of a called method

The picture of the stack in the source, as a relation between the CPU before a call and
the CPU after it: from `lv` on the arguments, the other local variables and the linkage,
with `sp` at the return address.
-/

namespace Ijvm

open Transcript Program

/-- `c'` is in the new frame of a method with this address and these numbers of arguments
and local variables, called from `c` with this return address. -/
structure Cpu.Frame (c : Cpu) (method : Int) (numArgs numLocals : Nat) (returnAddress : Int)
    (c' : Cpu) : Prop where
  lv : c'.lv = c.sp + 1 - numArgs
  nv : c'.nv = numArgs + numLocals
  fp : c'.fp = c'.lv + c'.nv
  sp : c'.sp = c'.fp + 3
  pc : c'.pc = method + 4
  inside : 0 ≤ c'.lv ∧ c'.sp < c'.stackSize
  arguments : ∀ k : Nat, k < numArgs → c'.stack (c'.lv + k) = c.stack (c.sp + 1 - numArgs + k)
  cleared : ∀ k : Nat, k < numLocals → c'.stack (c'.lv + numArgs + k) = 0
  linkage : Linkage c'.stack c'.fp { pc := returnAddress, fp := c.fp, lv := c.lv, nv := c.nv }
  below : ∀ j, j < c'.lv → c'.stack j = c.stack j

section Entering

variable {c : Cpu} {size : Int}

/-- The local variables that are no arguments start out as zeros. -/
theorem invoked_cleared {j : Int} (above : c.sp < j) (below : j ≤ c.sp + c.methodLocals) :
    (c.invoked size).stack j = 0 := by
  simp only [Cpu.invoked, Cpu.framed, Cpu.cleared]
  exact if_pos (by omega)

theorem invoked_frame (invokes : c.Invokes) (fits : c.caller.Fits)
    (room : c.sp + c.methodLocals + 4 < size) :
    c.Frame c.methodAddress c.methodArgs c.methodLocals (c.pc + 2) (c.invoked size) := by
  have operands := invokes.operands
  have lv : (c.invoked size).lv = c.sp + 1 - c.methodArgs := rfl
  have sp : (c.invoked size).sp = c.sp + c.methodLocals + 4 := rfl
  have fp : (c.invoked size).fp = c.sp + c.methodLocals + 1 := rfl
  have nv : (c.invoked size).nv = c.methodArgs + c.methodLocals := rfl
  refine ⟨lv, nv, ?_, ?_, rfl, ⟨?_, room⟩, ?_, ?_, invoked_linkage fits, ?_⟩
  · rw [fp, lv, nv]
    omega
  · rw [sp, fp]
    omega
  · rw [lv]
    omega
  · intro k below
    rw [lv, invoked_below (by omega)]
  · intro k below
    rw [lv, invoked_cleared (by omega) (by omega)]
  · intro j below
    rw [lv] at below
    exact invoked_below (by omega)

end Entering

/-- INVOKEVIRTUAL either ends the machine or builds the frame of the method, also where
its pushes enlarge the stack. -/
theorem invokevirtual_frame {env : Env} {s s' : State} {a : Int} {b : Bool} {es : List Event}
    (range : s.gCpu.InRange) (call : s.Executes a .invokevirtual)
    (execution : step.run env s = .done b s' es) :
    s.gCpu.Frame (s.atOp a).gCpu.methodAddress (s.atOp a).gCpu.methodArgs
      (s.atOp a).gCpu.methodLocals (a + 3) s'.gCpu := by
  obtain ⟨invokes, fits, size, _, cpu⟩ := invoked_of_step range call execution
  have room := (step_inRange range execution).sp_lt
  rw [cpu] at room ⊢
  have frame := invoked_frame invokes fits room
  rw [show (s.atOp a).gCpu.pc + 2 = a + 3 from Int.add_assoc a 1 2] at frame
  -- The prefixes before the opcode change no register but `pc`.
  exact ⟨frame.lv, frame.nv, frame.fp, frame.sp, frame.pc, frame.inside, frame.arguments,
    frame.cleared, frame.linkage, frame.below⟩

/-- A call of a method with two arguments and two other variables: BIPUSH 0; BIPUSH 5;
INVOKEVIRTUAL, and the method HALT. -/
def callWithLocals : List Byte :=
  assemble [7] [Op.bipush.code, 0, Op.bipush.code, 5, Op.invokevirtual.code, 0, 0,
    0, 2, 0, 2, Op.halt.code]

theorem invokevirtual_frame_callWithLocals :
    ∃ s s', after Env.quiet callWithLocals 2 = some s ∧
      after Env.quiet callWithLocals 3 = some s' ∧ s.gCpu.Frame 7 2 2 7 s'.gCpu := by
  have checks : (after Env.quiet callWithLocals 2).any (fun s =>
        decide (s.gCpu.opAddr? = some 4 ∧ Op.ofByte? (s.gCpu.codeMem 4) = some .invokevirtual ∧
          (s.atOp 4).gCpu.methodAddress = 7 ∧ (s.atOp 4).gCpu.methodArgs = 2 ∧
          (s.atOp 4).gCpu.methodLocals = 2)) = true ∧
      (after Env.quiet callWithLocals 3).isSome = true := by decide +kernel
  obtain ⟨check, more⟩ := checks
  obtain ⟨s, reached, facts⟩ := (Option.any_eq_true _ _).mp check
  obtain ⟨found, decoded, address, args, locals⟩ := of_decide_eq_true facts
  obtain ⟨s', reached'⟩ := Option.isSome_iff_exists.mp more
  obtain ⟨_, b, es, execution⟩ := turn_eq_some (turn_of_after reached reached')
  have frame := invokevirtual_frame (reachable_of_after reached).inRange ⟨found, decoded⟩ execution
  rw [address, args, locals] at frame
  exact ⟨s, s', reached, reached', frame⟩

end Ijvm
