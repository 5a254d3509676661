import Ijvm.Scan.Turns
import Ijvm.Stack.Frames

/-!
# Instructions that are executed in order

An instruction that is no branch, call or return leaves PC behind its operand bytes.
`DecodesInOrder` follows the steps from one instruction to the next and collects the uses
of variables on the way; it says nothing about whether a step succeeds, but
`step_sequential` shows that a step that returns leads to the instruction that
`DecodesInOrder` goes on with.
-/

namespace Ijvm

open Transcript Program

/-- Every instruction apart from branches, calls, returns and prefixes. -/
def Op.sequential : Op → Bool
  | .goto | .ifeq | .iflt | .icmpeq | .invokevirtual | .ireturn | .wide => false
  | _ => true

/-- The use of a variable by the instruction that is executed, with the index as ILOAD and
ISTORE read it. -/
def State.uses (t : State) (op : Op) : List VarUse :=
  if op.isVariable then [⟨(t.gCpu.pc - 1).toNat, t.nextOpWide, t.varIndex?.getD 0⟩] else []

/-- The uses of variables in the instructions that stand one behind the other from PC on. -/
inductive DecodesInOrder : State → List VarUse → Prop
  | ended {s : State} (ended : s.gCpu.codeMemSize ≤ s.gCpu.pc) : DecodesInOrder s []
  | step {s : State} {a : Int} {op : Op} {us : List VarUse} (executes : s.Executes a op)
      (rest : DecodesInOrder
        (s.withPc (a + 1 + op.operandBytes (s.atOp a).nextOpWide)) us) :
      DecodesInOrder s ((s.atOp a).uses op ++ us)

theorem DecodesInOrder.unique {s : State} {us us' : List VarUse} (h : DecodesInOrder s us)
    (h' : DecodesInOrder s us') : us = us' := by
  induction h generalizing us' with
  | @ended s ended =>
      cases h' with
      | ended => rfl
      | step executes rest =>
          have := opAddrFrom_bounds executes.found
          omega
  | @step s a op us executes rest ih =>
      cases h' with
      | ended ended =>
          have := opAddrFrom_bounds executes.found
          omega
      | step executes' rest' =>
          obtain ⟨rfl, rfl⟩ := executes.unique executes'
          rw [ih rest']

section Steps

/-- The program counter is at `p`, and the flag of the prefix is `wide`. -/
structure State.At (p : Int) (wide : Bool) (t : State) : Prop where
  sized : t.gCpu.Sized
  pc : t.gCpu.pc = p
  flag : t.nextOpWide = wide

/-- A program that leads from one program counter to another. -/
abbrev Moves {α : Type} (p : Int) (wide : Bool) (m : VM α) (p' : Int) : Prop :=
  Ensures (fun _ => True) (State.At p wide) (fun _ => True) m fun _ => State.At p' wide

variable {p : Int} {wide : Bool}

theorem Quiet.stays {α : Type} {m : VM α} (h : Quiet m) : Moves p wide m p := by
  intro env s hs _
  refine ⟨(h.returns env s).mono ?_, fun _ _ => trivial⟩
  rintro a t ⟨cpu, flag⟩
  exact ⟨by rw [cpu]; exact hs.sized, by rw [cpu]; exact hs.pc, flag.trans hs.flag⟩

theorem stackPop_stays (access : StackAccess) : Moves p wide (stackPop access) p := by
  intro env s hs _
  rw [stackPop_run]
  split
  · exact ⟨Outcome.returns_stopped, fun _ _ => trivial⟩
  · exact ⟨Outcome.returns_done.mpr ⟨⟨hs.sized.nonneg, hs.sized.bound⟩, hs.pc, hs.flag⟩,
      fun _ _ => trivial⟩

theorem stackPush_stays (e : Word) : Moves p wide (stackPush e) p := by
  apply Ensures.of_satisfies
  intro env s hs
  refine (stackPush_satisfies hs.sized e).mono ?_ fun _ _ _ _ _ _ => trivial
  rintro b t es ⟨_, pushed, flag, _⟩
  refine ⟨⟨pushed.sized, ?_, flag.trans hs.flag⟩, fun _ _ => trivial⟩
  rw [pushed.eq]
  exact hs.pc

theorem getArgByte_moves : Moves p wide getArgByte (p + 1) := by
  intro env s hs _
  rw [getArgByte_run]
  split
  · exact ⟨Outcome.returns_stopped, fun _ _ => trivial⟩
  · refine ⟨Outcome.returns_done.mpr ⟨⟨hs.sized.nonneg, hs.sized.bound⟩, ?_, hs.flag⟩,
      fun _ _ => trivial⟩
    rw [← hs.pc]

theorem getArgShort_moves : Moves p wide getArgShort (p + 2) := by
  intro env s hs _
  rw [getArgShort_run]
  split
  · exact ⟨Outcome.returns_stopped, fun _ _ => trivial⟩
  · refine ⟨Outcome.returns_done.mpr ⟨⟨hs.sized.nonneg, hs.sized.bound⟩, ?_, hs.flag⟩,
      fun _ _ => trivial⟩
    rw [← hs.pc]

theorem get_moves {α : Type} {p' : Int} {f : State → VM α}
    (next : ∀ s, s.At p wide → Moves p wide (f s) p') : Moves p wide (get >>= f) p' := by
  refine .get_bind fun s hs => (next s hs).mono ?_ fun _ _ h => h
  rintro _ rfl
  exact hs

/-- An index takes two bytes behind a prefix, and one byte otherwise. -/
theorem readIndex_moves {α : Type} {long short : VM α} (two : Moves p true long (p + 2))
    (one : Moves p false short (p + 1)) :
    Moves p wide (do if (← get).nextOpWide then long else short) (p + if wide then 2 else 1) := by
  refine get_moves fun s hs => ?_
  rw [hs.flag]
  cases wide with
  | true => exact two
  | false => exact one

theorem getVarIndex_moves : Moves p wide getVarIndex (p + if wide then 2 else 1) :=
  readIndex_moves (.bind getArgShort_moves fun _ => .pure fun _ h => h)
    (.bind getArgByte_moves fun _ => .pure fun _ h => h)

theorem getLocalVariable_stays (i : Int) : Moves p wide (getLocalVariable i) p := by
  intro env s hs _
  rw [getLocalVariable_run]
  split
  · exact ⟨Outcome.returns_stopped, fun _ _ => trivial⟩
  · exact ⟨Outcome.returns_done.mpr hs, fun _ _ => trivial⟩

theorem updateLocalVariable_stays (v : Word) (i : Int) :
    Moves p wide (updateLocalVariable v i) p := by
  intro env s hs _
  rw [updateLocalVariable_run]
  split
  · exact ⟨Outcome.returns_stopped, fun _ _ => trivial⟩
  · exact ⟨Outcome.returns_done.mpr ⟨⟨hs.sized.nonneg, hs.sized.bound⟩, hs.pc, hs.flag⟩,
      fun _ _ => trivial⟩

theorem getConstant_stays (i : Int) : Moves p wide (getConstant i) p :=
  Quiet.stays (.bind .get fun _ => .ite (.destroy _) (.pure _))

theorem pushLast_stays (e : Word) : Moves p wide (do let _ ← stackPush e : VM Unit) p :=
  .bind (stackPush_stays e) fun _ => .pure fun _ h => h

theorem popThen_moves {α : Type} {p' : Int} {f : Word → VM α}
    (next : ∀ w, Moves p wide (f w) p') : Moves p wide (stackPop .pop >>= f) p' :=
  .bind (stackPop_stays .pop) next

theorem modify_stays {f : State → State} (cpu : ∀ s, (f s).gCpu.stackSize = s.gCpu.stackSize ∧
    (f s).gCpu.pc = s.gCpu.pc ∧ (f s).nextOpWide = s.nextOpWide) :
    Moves p wide (modify f : VM PUnit) p := by
  exact .modify fun s hs =>
    ⟨hs.sized.congr (cpu s).1, (cpu s).2.1.trans hs.pc, (cpu s).2.2.trans hs.flag⟩

theorem execBinary_stays (computes : Word → Word → List Int) (f : Word → Word → Word) :
    Moves p wide (execBinary computes f) p :=
  popThen_moves fun _ => popThen_moves fun _ =>
    .bind (Keeps.emit fun _ _ _ => trivial) fun _ => pushLast_stays _

theorem execOpIinc_moves : Moves p wide execOpIinc (p + if wide then 3 else 2) := by
  have rest (q : Int) (i : Int) : Moves q wide (do
      let c ← getArgByte
      let old ← getLocalVariable i
      signed (old.toInt + c.toInt)
      updateLocalVariable (old + c.signExtend 32) i) (q + 1) :=
    .bind getArgByte_moves fun _ => .bind (getLocalVariable_stays i) fun _ =>
      .bind (Keeps.emit fun _ _ _ => trivial) fun _ => updateLocalVariable_stays _ i
  refine get_moves fun s hs => ?_
  rw [hs.flag]
  cases wide with
  | true =>
      refine .bind (Q := fun _ => State.At (p + 2) true) ?_ fun i => ?_
      · exact .bind getArgShort_moves fun _ => .pure fun _ h => h
      · exact Int.add_assoc p 2 1 ▸ rest (p + 2) i
  | false =>
      refine .bind (Q := fun _ => State.At (p + 1) false) ?_ fun i => ?_
      · exact .bind getArgByte_moves fun _ => .pure fun _ h => h
      · exact Int.add_assoc p 1 1 ▸ rest (p + 1) i

theorem getc_stays : Moves p wide getc p := by
  refine get_moves fun s hs => ?_
  cases s.inFile with
  | nil => exact .pure fun _ h => h
  | cons b rest =>
      refine .bind (Q := fun _ => State.At p wide) ?_ fun _ => .pure fun _ h => h
      exact .modify fun _ _ => ⟨⟨hs.sized.nonneg, hs.sized.bound⟩, hs.pc, hs.flag⟩

theorem execOpIn_stays : Moves p wide execOpIn p := by
  refine .bind getc_stays fun c => ?_
  cases c with
  | none => exact pushLast_stays _
  | some b => exact pushLast_stays _

/-- An instruction in a sequence takes its operand bytes and leaves PC behind them. -/
theorem execOp_moves (p : Int) (wide : Bool) (nested : VM Bool) {op : Op}
    (sequential : op.sequential = true) :
    Moves p wide (execOp nested op) (p + op.operandBytes wide) := by
  have stays {m : VM Unit} (h : Moves p wide m p) (none : op.operandBytes wide = 0) :
      Moves p wide m (p + op.operandBytes wide) := by
    rw [none]
    exact (Int.add_zero p).symm ▸ h
  cases op with
  | goto | ifeq | iflt | icmpeq | invokevirtual | ireturn | wide => contradiction
  | bipush => exact .bind getArgByte_moves fun _ => pushLast_stays _
  | ldcW =>
      exact .bind getArgShort_moves fun _ => .bind (getConstant_stays _) fun _ => pushLast_stays _
  | iload =>
      have operand : ((Op.iload.operandBytes wide : Nat) : Int) = if wide then 2 else 1 := by
        cases wide <;> rfl
      rw [operand]
      exact .bind getVarIndex_moves fun i => .bind (getLocalVariable_stays i) fun _ =>
        pushLast_stays _
  | istore =>
      have operand : ((Op.istore.operandBytes wide : Nat) : Int) = if wide then 2 else 1 := by
        cases wide <;> rfl
      rw [operand]
      exact popThen_moves fun v => .bind getVarIndex_moves fun i => updateLocalVariable_stays v i
  | iinc =>
      have operand : ((Op.iinc.operandBytes wide : Nat) : Int) = if wide then 3 else 2 := by
        cases wide <;> rfl
      rw [operand]
      exact execOpIinc_moves
  | nop => exact stays (.pure fun _ h => h) rfl
  | pop => exact stays (popThen_moves fun _ => .pure fun _ h => h) rfl
  | dup =>
      exact stays (get_moves fun _ _ => .bind (Keeps.emit fun _ _ _ => trivial) fun _ =>
        pushLast_stays _) rfl
  | swap =>
      exact stays (popThen_moves fun b => popThen_moves fun a =>
        .bind (stackPush_stays b) fun _ => pushLast_stays a) rfl
  | iadd | isub | iand | ior => exact stays (execBinary_stays _ _) rfl
  | «in» => exact stays execOpIn_stays rfl
  | out => exact stays (popThen_moves fun _ => modify_stays fun _ => ⟨rfl, rfl, rfl⟩) rfl
  | err | halt => exact stays (modify_stays fun _ => ⟨rfl, rfl, rfl⟩) rfl
  | newarray =>
      exact stays (popThen_moves fun _ => .bind (arrCreate_quiet _).stays fun _ =>
        pushLast_stays _) rfl
  | iaload =>
      exact stays (popThen_moves fun _ => popThen_moves fun _ =>
        .bind (arrGet_quiet _ _).stays fun _ => pushLast_stays _) rfl
  | iastore =>
      exact stays (popThen_moves fun _ => popThen_moves fun _ => popThen_moves fun _ =>
        (arrSet_quiet _ _ _).stays) rfl
  | gc => exact stays (.bind arrGc_quiet.stays fun _ => .pure fun _ h => h) rfl
  | netbind =>
      exact stays (popThen_moves fun _ => .bind (netBind_quiet _).stays fun _ =>
        pushLast_stays _) rfl
  | netconnect =>
      exact stays (popThen_moves fun _ => popThen_moves fun _ =>
        .bind (netConnect_quiet _ _).stays fun _ => pushLast_stays _) rfl
  | netin =>
      exact stays (popThen_moves fun _ => .bind (netRecv_quiet _).stays fun _ =>
        pushLast_stays _) rfl
  | netout =>
      exact stays (popThen_moves fun _ => popThen_moves fun _ => (netSend_quiet _ _).stays) rfl
  | netclose => exact stays (popThen_moves fun _ => (netClose_quiet _).stays) rfl

/-- A step that returns leads to the instruction behind the one that it executed. -/
theorem step_sequential {env : Env} {s : State} {a : Int} {op : Op} (executes : s.Executes a op)
    (sequential : op.sequential = true) (unprefixed : s.nextOpWide = false)
    (sized : s.gCpu.Sized) :
    (step.run env s).Returns fun _ t => t.nextOpWide = false ∧
      t.gCpu.pc = a + 1 + op.operandBytes (s.atOp a).nextOpWide := by
  refine step_returns (Q := fun c => c.pc = a + 1 + op.operandBytes (s.atOp a).nextOpWide)
    executes unprefixed ?_
  have moves := execOp_moves (a + 1) (s.atOp a).nextOpWide (pure true) sequential env
    (s.atOp a) ⟨⟨sized.nonneg, sized.bound⟩, rfl, rfl⟩ fun _ _ => trivial
  exact moves.1.mono fun _ t h => ⟨h.flag, h.pc⟩

end Steps

end Ijvm
