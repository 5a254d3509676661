import Ijvm.Arrays.Operations
import Ijvm.Machine.Interpreter

/-!
# Programs that add and change no array

NEWARRAY and IASTORE are the only instructions that add or change an array. Everything else
is `Retaining`: it leaves the arrays as they are, except that the collector can run inside a
push, or while a connection is claimed, and take some of them away.
-/

namespace Ijvm

open Transcript Program

/-- What the program leaves of a sound table was there before. -/
def Retaining {α : Type} (m : VM α) : Prop :=
  ∀ env s, ArrayTable s.arrMem → (m.run env s).Returns fun _ t => Retained s.arrMem t.arrMem

namespace Retaining

variable {α β : Type}

protected theorem pure (a : α) : Retaining (pure a : VM α) :=
  fun _ _ table => Outcome.returns_done.mpr (.refl table)

protected theorem get : Retaining (get : VM State) :=
  fun _ _ table => Outcome.returns_done.mpr (.refl table)

protected theorem ask : Retaining (Program.ask : VM Env) :=
  fun _ _ table => Outcome.returns_done.mpr (.refl table)

protected theorem stop (e : Stop) : Retaining (Program.stop e : VM α) :=
  fun _ _ _ => Outcome.returns_stopped

protected theorem destroy (e : Err) : Retaining (destroyIjvmNow e : VM α) := .stop _

protected theorem emit (es : List Event) : Retaining (Program.emit es : VM Unit) :=
  fun _ _ table => Outcome.returns_done.mpr (.refl table)

protected theorem modify {f : State → State} (same : ∀ s, (f s).arrMem = s.arrMem) :
    Retaining (modify f : VM PUnit) := by
  intro _ s table
  refine Outcome.returns_done.mpr ?_
  rw [same]
  exact .refl table

protected theorem bind {m : VM α} {f : α → VM β} (first : Retaining m)
    (next : ∀ a, Retaining (f a)) : Retaining (m >>= f) := by
  intro env s table
  rw [run_bind]
  exact (first env s table).andThen fun a t left =>
    (next a env t left.table).mono fun _ _ rest => left.trans rest

protected theorem map {m : VM α} (f : α → β) (first : Retaining m) : Retaining (f <$> m) :=
  .bind first fun _ => .pure _

protected theorem ite {c : Prop} [Decidable c] {yes no : VM α} (ifTrue : Retaining yes)
    (ifFalse : Retaining no) : Retaining (if c then yes else no) := by
  split
  · exact ifTrue
  · exact ifFalse

end Retaining

theorem allocate_retaining : Retaining allocate :=
  fun _ _ table => Outcome.returns_done.mpr (.refl table)

theorem sysCall_retaining (call : SysCall) : Retaining (sysCall call) :=
  fun _ _ table => Outcome.returns_done.mpr (.refl table)

theorem signed_retaining (v : Int) : Retaining (signed v) := .emit _

theorem modifyCpu_retaining (f : Cpu → Cpu) : Retaining (modifyCpu f) := .modify fun _ => rfl

theorem arrGc_retaining : Retaining arrGc := fun _ _ table => arrGc_returns table

theorem arrGet_retaining (r i : Word) : Retaining (arrGet r i) := by
  have check (i : Nat) : Retaining (marrGetElement arrMem i) :=
    .bind .get fun _ => .ite (.destroy _) (.ite (.destroy _) (.pure _))
  exact .bind (.ite (.destroy _) (.bind (check _) fun _ => .ite (.destroy _)
    (.bind (signed_retaining _) fun _ => .ite (.destroy _) (.pure _)))) fun _ =>
      .bind (check _) fun _ => .pure _

section Connections

theorem getSock_retaining (i : Nat) : Retaining (marrGetElement netConn i) :=
  .bind .get fun _ => .ite (.destroy _) (.ite (.destroy _) (.pure _))

theorem addSock_retaining (sock : Sock) : Retaining (marrAddElement netConn sock) := by
  have search :
      Retaining (do return ((netConn.get (← get)).firstFree.getD sizeMaxUint32) : VM Nat) :=
    .bind .get fun _ => .pure _
  have free : Retaining (getFreeIndex netConn) :=
    .bind .get fun _ => .ite
      (.bind (.modify fun _ => rfl) fun _ => .bind arrGc_retaining fun _ => search)
      (.bind (.modify fun _ => rfl) fun _ => search)
  exact .bind free fun _ => .ite (.pure _) (.bind .get fun _ =>
    .bind (.modify fun _ => rfl) fun _ => .pure _)

theorem resizeConns_retaining (newSize : Nat) : Retaining (marrResize netConn newSize) := by
  have attempt (fuel : Nat) : Retaining (marrResizeFuel netConn fuel newSize) := by
    induction fuel with
    | zero => exact .stop _
    | succ fuel ih =>
        exact .bind .get fun _ => .ite (.destroy _) (.ite (.destroy _)
          (.bind allocate_retaining fun _ => .bind allocate_retaining fun _ =>
            .ite (.bind arrGc_retaining fun _ => .ite ih (.destroy _)) (.modify fun _ => rfl)))
  exact .bind .get fun _ => attempt _

theorem netCheckRef_retaining (netRef : Word) : Retaining (netCheckRef netRef) :=
  .ite (.destroy _) (.pure _)

theorem socketCreate_retaining (host : Word) (port : BitVec 16) :
    Retaining (socketCreate host port) := by
  have init (size : Nat) : Retaining (marrInit netConn size) :=
    .bind (.modify fun _ => rfl) fun _ => .ite (.destroy _) (resizeConns_retaining size)
  have save (sock : Sock) : Retaining (socketSave sock) :=
    .bind (addSock_retaining sock) fun _ => .ite
      (.bind .get fun _ => .bind (resizeConns_retaining _) fun _ => addSock_retaining sock)
      (.pure _)
  have store (sock : Sock) : Retaining (socketStore sock) :=
    .bind (.bind .get fun _ => .ite (init _) (.pure _)) fun _ => .bind (save sock) fun _ =>
      .bind (netCheckRef_retaining _) fun _ => .pure _
  exact .bind allocate_retaining fun _ =>
    .ite (.bind (sysCall_retaining _) fun _ => store _) (.stop _)

theorem updateSock_retaining (netI : Nat) (sock : Sock) : Retaining (updateSock netI sock) :=
  .modify fun _ => rfl

theorem netBind_retaining (port : Word) : Retaining (netBind port) :=
  .bind (socketCreate_retaining _ _) fun _ => .bind (getSock_retaining _) fun _ =>
    .bind (sysCall_retaining _) fun _ => .ite (.pure _) (.bind (sysCall_retaining _) fun _ =>
      .ite (.pure _) (.bind (sysCall_retaining _) fun _ => .bind (updateSock_retaining _ _)
        fun _ => .ite (.pure _) (.bind (updateSock_retaining _ _) fun _ => .pure _)))

theorem netConnect_retaining (host port : Word) : Retaining (netConnect host port) :=
  .bind (socketCreate_retaining _ _) fun _ => .bind (getSock_retaining _) fun _ =>
    .bind (sysCall_retaining _) fun _ => .ite (.pure _)
      (.bind (updateSock_retaining _ _) fun _ => .pure _)

theorem netRecv_retaining (netRef : Word) : Retaining (netRecv netRef) := by
  refine .bind (netCheckRef_retaining _) fun _ => .bind (getSock_retaining _) fun sock => ?_
  cases sock.dataFd? with
  | none => exact .destroy _
  | some fd =>
      exact .bind .ask fun _ => .bind .get fun _ => .bind (sysCall_retaining _) fun _ =>
        .ite (.destroy _) (.pure _)

theorem netSend_retaining (netRef data : Word) : Retaining (netSend netRef data) := by
  refine .bind (netCheckRef_retaining _) fun _ => .bind (getSock_retaining _) fun sock => ?_
  cases sock.dataFd? with
  | none => exact .destroy _
  | some fd => exact .bind (sysCall_retaining _) fun _ => .ite (.destroy _) (.pure _)

theorem netClose_retaining (netRef : Word) : Retaining (netClose netRef) := by
  have closeIf (c : Prop) [Decidable c] (fd : Int) (netI : Nat) (sock : Sock) {rest : VM Unit}
      (h : Retaining rest) :
      Retaining (if c then do closeDescriptor fd; updateSock netI sock; rest else rest) :=
    .ite (.bind (.bind (sysCall_retaining _) fun _ => .bind (sysCall_retaining _) fun _ =>
      .pure _) fun _ => .bind (updateSock_retaining netI sock) fun _ => h) h
  have remove (i : Nat) : Retaining (marrRemoveElement netConn i) :=
    .bind .get fun _ => .ite (.destroy _) (.modify fun _ => rfl)
  exact .bind (netCheckRef_retaining _) fun _ => .bind (getSock_retaining _) fun _ =>
    closeIf _ _ _ _ <| .bind (getSock_retaining _) fun _ => closeIf _ _ _ _ <|
      .bind (getSock_retaining _) fun _ => remove _

end Connections

section Stack

theorem stackPush_retaining (e : Word) : Retaining (stackPush e) := by
  have octuple (fuel : Nat) : Retaining (octupleStackSizeFuel fuel) := by
    induction fuel with
    | zero => exact .stop _
    | succ fuel ih =>
        exact .bind .get fun _ => .ite (.destroy _) (.bind allocate_retaining fun _ =>
          .ite (.bind (modifyCpu_retaining _) fun _ => .pure _)
            (.bind arrGc_retaining fun _ => .ite ih (.destroy _)))
  have grow (fuel : Nat) : Retaining (growStackFuel fuel) := by
    induction fuel with
    | zero => exact .stop _
    | succ fuel ih =>
        exact .bind .get fun _ => .ite
          (.bind (.bind .get fun _ => octuple _) fun _ => .ite (.pure _) ih) (.pure _)
  have write : Retaining (writeTop e) :=
    .bind .get fun _ => .bind (.emit _) fun _ => modifyCpu_retaining _
  refine .bind (modifyCpu_retaining _) fun _ => .bind .get fun _ => .ite
    (.bind write fun _ => .pure _) (.bind ?_ fun _ => .ite (.pure _)
      (.bind write fun _ => .pure _))
  exact .bind .get fun _ => grow _

theorem pushLast_retaining (e : Word) : Retaining (do let _ ← stackPush e : VM Unit) :=
  .bind (stackPush_retaining e) fun _ => .pure _

theorem stackPop_retaining (access : StackAccess) : Retaining (stackPop access) :=
  .bind .get fun _ => .ite (.destroy _)
    (.bind (.emit _) fun _ => .bind (modifyCpu_retaining _) fun _ => .pure _)

theorem popThen_retaining {α : Type} {f : Word → VM α} (next : ∀ v, Retaining (f v)) :
    Retaining (stackPop .pop >>= f) :=
  .bind (stackPop_retaining .pop) next

theorem getConstant_retaining (i : Int) : Retaining (getConstant i) :=
  .bind .get fun _ => .ite (.destroy _) (.pure _)

theorem getLocalVariable_retaining (i : Int) : Retaining (getLocalVariable i) :=
  .bind .get fun _ => .ite (.destroy _) (.bind (.emit _) fun _ => .pure _)

theorem updateLocalVariable_retaining (v : Word) (i : Int) :
    Retaining (updateLocalVariable v i) :=
  .bind .get fun _ => .ite (.destroy _) (.bind (.emit _) fun _ => modifyCpu_retaining _)

theorem jump_retaining (offset : Int) : Retaining (jump offset) :=
  .bind .get fun _ => .bind (signed_retaining _) fun _ =>
    .ite (.destroy _) (modifyCpu_retaining _)

end Stack

section Instructions

theorem argOutside_retaining {α : Type} (k : Nat) (e : Err) :
    Retaining (argOutside k e : VM α) :=
  .bind .get fun _ => .ite (.destroy _) (.bind (.emit _) fun _ => .stop _)

theorem getArgByte_retaining : Retaining getArgByte :=
  .bind .get fun _ => .bind (signed_retaining _) fun _ => .ite (argOutside_retaining _ _)
    (.bind (.emit _) fun _ => .bind (modifyCpu_retaining _) fun _ => .pure _)

theorem getArgShort_retaining : Retaining getArgShort :=
  .bind .get fun _ => .bind (signed_retaining _) fun _ => .ite (argOutside_retaining _ _)
    (.bind (.emit _) fun _ => .bind (modifyCpu_retaining _) fun _ => .pure _)

theorem getVarIndex_retaining : Retaining getVarIndex :=
  .bind .get fun _ => .ite (.bind getArgShort_retaining fun _ => .pure _)
    (.bind getArgByte_retaining fun _ => .pure _)

theorem getJumpOffset_retaining : Retaining getJumpOffset :=
  .bind getArgShort_retaining fun _ => .pure _

theorem execBinary_retaining (computes : Word → Word → List Int) (f : Word → Word → Word) :
    Retaining (execBinary computes f) :=
  popThen_retaining fun _ => popThen_retaining fun _ => .bind (.emit _) fun _ =>
    pushLast_retaining _

theorem execOpIinc_retaining : Retaining execOpIinc := by
  have rest (i : Int) : Retaining (do
      let c ← getArgByte
      let old ← getLocalVariable i
      signed (old.toInt + c.toInt)
      updateLocalVariable (old + c.signExtend 32) i : VM Unit) :=
    .bind getArgByte_retaining fun _ => .bind (getLocalVariable_retaining i) fun _ =>
      .bind (signed_retaining _) fun _ => updateLocalVariable_retaining _ i
  exact .bind .get fun _ => .ite (.bind (.map _ getArgShort_retaining) rest)
    (.bind (.map _ getArgByte_retaining) rest)

theorem branch_retaining {c : Prop} [Decidable c] (offset : Int) :
    Retaining (if c then jump offset else pure ()) :=
  .ite (jump_retaining offset) (.pure _)

theorem execOpIreturn_retaining : Retaining execOpIreturn := by
  have reload {f : Word → Cpu → Cpu} {rest : VM Unit} (next : Retaining rest) :
      Retaining (stackPop .linkage >>= fun w => modifyCpu (f w) >>= fun _ => rest) :=
    .bind (stackPop_retaining .linkage) fun _ => .bind (modifyCpu_retaining _) fun _ => next
  refine .bind (stackPop_retaining .pop) fun retVal => .bind .get fun _ => .bind .get fun _ =>
    .bind (signed_retaining _) fun _ => .bind (modifyCpu_retaining _) fun _ =>
      reload (reload (reload (reload ?_)))
  exact .bind .get fun _ => .bind (signed_retaining _) fun _ =>
    .bind (modifyCpu_retaining _) fun _ => .bind .get fun _ =>
      .ite (.destroy _) (pushLast_retaining retVal)

theorem execOpInvokevirtual_retaining : Retaining execOpInvokevirtual := by
  have push {e : State → Word} {rest : VM Bool} (next : Retaining rest) :
      Retaining (get >>= fun s => stackPush (e s) >>= fun b =>
        if b ≠ true then pure false else rest) :=
    .bind .get fun _ => .bind (stackPush_retaining _) fun _ => .ite (.pure _) next
  have linkage (oldPc : Int) : Retaining (pushLinkage oldPc) :=
    push (push (push (stackPush_retaining _)))
  have clear (start : Int) (n : Nat) : Retaining (clearCells start n) :=
    .bind .get fun _ => .bind (.emit _) fun _ => modifyCpu_retaining _
  have frame (numArgs numLocals : Nat) : Retaining (setFrame numArgs numLocals) :=
    .bind .get fun _ => .bind (signed_retaining _) fun _ => .bind (modifyCpu_retaining _)
      fun _ => .bind (modifyCpu_retaining _) fun _ => .bind .get fun _ => .bind .get fun _ =>
        .bind (signed_retaining _) fun _ => modifyCpu_retaining _
  have pushes (oldPc : Int) (numArgs numLocals : Nat) :
      Retaining (pushFrame oldPc numArgs numLocals) :=
    .bind .get fun _ => .bind (signed_retaining _) fun _ => .bind (modifyCpu_retaining _)
      fun _ => .bind (linkage oldPc) fun _ => .ite (.destroy _) (.bind (frame _ _) fun _ =>
        .bind .get fun _ => .ite (.destroy _) (clear _ _))
  exact .bind (.bind getArgShort_retaining fun _ => .bind (getConstant_retaining _) fun _ =>
    .bind .get fun _ => .ite (.destroy _) (.bind (modifyCpu_retaining _) fun _ =>
      .bind getArgShort_retaining fun _ => .bind getArgShort_retaining fun _ => .pure _))
    fun _ => pushes _ _ _

theorem execOpIn_retaining : Retaining execOpIn := by
  have next : Retaining getc := by
    intro _ s table
    rw [getc, run_bind, run_get, Outcome.andThen_done, Outcome.prepend_nil]
    cases s.inFile with
    | nil => exact Outcome.returns_done.mpr (.refl table)
    | cons b rest => exact Outcome.returns_done.mpr (.refl table)
  refine .bind next fun b => ?_
  cases b with
  | none => exact pushLast_retaining 0
  | some b => exact pushLast_retaining _

/-- Only NEWARRAY and IASTORE add or change an array. -/
theorem execOp_retaining (nested : VM Bool) {op : Op} (unprefixed : op ≠ .wide)
    (elsewhere : op ≠ .newarray ∧ op ≠ .iastore) : Retaining (execOp nested op) := by
  cases op with
  | wide => exact absurd rfl unprefixed
  | newarray => exact absurd rfl elsewhere.1
  | iastore => exact absurd rfl elsewhere.2
  | nop => exact .pure _
  | bipush => exact .bind getArgByte_retaining fun _ => pushLast_retaining _
  | ldcW =>
      exact .bind getArgShort_retaining fun _ => .bind (getConstant_retaining _) fun _ =>
        pushLast_retaining _
  | iload =>
      exact .bind getVarIndex_retaining fun _ => .bind (getLocalVariable_retaining _) fun _ =>
        pushLast_retaining _
  | istore =>
      exact popThen_retaining fun _ => .bind getVarIndex_retaining fun _ =>
        updateLocalVariable_retaining _ _
  | pop => exact popThen_retaining fun _ => .pure _
  | dup => exact .bind .get fun _ => .bind (.emit _) fun _ => pushLast_retaining _
  | swap =>
      exact popThen_retaining fun _ => popThen_retaining fun _ =>
        .bind (stackPush_retaining _) fun _ => pushLast_retaining _
  | iadd | isub | iand | ior => exact execBinary_retaining _ _
  | iinc => exact execOpIinc_retaining
  | ifeq | iflt =>
      exact .bind getJumpOffset_retaining fun _ => popThen_retaining fun _ => branch_retaining _
  | icmpeq =>
      exact .bind getJumpOffset_retaining fun _ => popThen_retaining fun _ =>
        popThen_retaining fun _ => branch_retaining _
  | goto => exact .bind getJumpOffset_retaining fun _ => jump_retaining _
  | ireturn => exact execOpIreturn_retaining
  | invokevirtual => exact execOpInvokevirtual_retaining
  | «in» => exact execOpIn_retaining
  | out => exact popThen_retaining fun _ => .modify fun _ => rfl
  | err => exact modifyCpu_retaining fun c => { c with errorFlag := true }
  | halt => exact modifyCpu_retaining fun c => { c with haltFlag := true }
  | iaload =>
      exact popThen_retaining fun _ => popThen_retaining fun _ =>
        .bind (arrGet_retaining _ _) fun _ => pushLast_retaining _
  | gc => exact .bind arrGc_retaining fun _ => .pure _
  | netbind =>
      exact popThen_retaining fun _ => .bind (netBind_retaining _) fun _ => pushLast_retaining _
  | netconnect =>
      exact popThen_retaining fun _ => popThen_retaining fun _ =>
        .bind (netConnect_retaining _ _) fun _ => pushLast_retaining _
  | netin =>
      exact popThen_retaining fun _ => .bind (netRecv_retaining _) fun _ => pushLast_retaining _
  | netout => exact popThen_retaining fun _ => popThen_retaining fun _ => netSend_retaining _ _
  | netclose => exact popThen_retaining fun _ => netClose_retaining _

end Instructions

end Ijvm
