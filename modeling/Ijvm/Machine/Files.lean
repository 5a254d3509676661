import Ijvm.Machine.Twins

/-!
# Programs that stay away from the files

IN and OUT are the only instructions that use the two files. `Fileless` says of a program
that it neither reads nor writes them, as a statement about two runs from states with any
files: they end in the same way, and each state keeps its own files. Everything that can
run inside another instruction is such a program, down to the collector.
-/

namespace Ijvm

open Transcript Program

/-- The content of the files: what is still to be read, and what has been written. -/
structure Files where
  inFile : List Byte
  outFile : List Byte

def State.files (s : State) : Files := ⟨s.inFile, s.outFile⟩

def State.withFiles (s : State) (f : Files) : State :=
  { s with inFile := f.inFile, outFile := f.outFile }

@[simp] theorem State.files_withFiles (s : State) (f : Files) : (s.withFiles f).files = f := rfl

@[simp] theorem State.withFiles_files (s : State) : s.withFiles s.files = s := rfl

@[simp] theorem State.withFiles_withFiles (s : State) (f g : Files) :
    (s.withFiles f).withFiles g = s.withFiles g := rfl

/-- `s` has the files `f`, and `t` is the same state with the files `g`. -/
def State.Refiled (f g : Files) (s t : State) : Prop := s.files = f ∧ t = s.withFiles g

/-- The same event, up to the files at the entry of the collector. -/
abbrev Event.Refiled (f g : Files) : Event → Event → Prop :=
  Event.Twins (State.Refiled f g) fun _ => True

/-- The program neither reads nor writes the files. -/
def Fileless {α : Type} (m : VM α) : Prop :=
  ∀ f g, Respects (State.Refiled f g) (Event.Refiled f g) m

namespace Fileless

variable {α β : Type}

protected theorem pure (a : α) : Fileless (pure a : VM α) :=
  fun _ _ => Agrees.pure fun _ _ h => h

protected theorem stop (e : Stop) : Fileless (Program.stop e : VM α) :=
  fun _ _ => Agrees.stop fun _ _ h => h

protected theorem destroy (e : Err) : Fileless (destroyIjvmNow e : VM α) := .stop _

protected theorem ask : Fileless (Program.ask : VM Env) := fun _ _ => Agrees.ask

protected theorem bind {m : VM α} {f : α → VM β} (first : Fileless m)
    (next : ∀ a, Fileless (f a)) : Fileless (m >>= f) :=
  fun g h => Agrees.bind (first g h) fun a => next a g h

protected theorem map {m : VM α} (f : α → β) (h : Fileless m) : Fileless (f <$> m) :=
  fun g g' => Agrees.map f (h g g') fun _ _ _ hs => hs

protected theorem ite {c : Prop} [Decidable c] {yes no : VM α} (ifTrue : Fileless yes)
    (ifFalse : Fileless no) : Fileless (if c then yes else no) :=
  fun g h => Agrees.ite (fun _ => ifTrue g h) fun _ => ifFalse g h

/-- The continuation of a read ignores the files. -/
protected theorem get_bind {f : State → VM α} (same : ∀ s g, f s = f (s.withFiles g))
    (next : ∀ s, Fileless (f s)) : Fileless (get >>= f : VM α) := by
  refine fun g h => Agrees.get_bind ?_ fun s => next s g h
  rintro s _ ⟨_, rfl⟩
  exact same s h

protected theorem modify {f : State → State}
    (same : ∀ s g, f (s.withFiles g) = (f s).withFiles g) : Fileless (modify f : VM PUnit) := by
  refine fun g h => Agrees.modify ?_
  rintro s _ ⟨rfl, rfl⟩
  refine ⟨?_, same s h⟩
  have own := congrArg State.files (same s s.files)
  rwa [State.withFiles_files, State.files_withFiles] at own

protected theorem emit (es : List Event) : Fileless (Program.emit es : VM Unit) :=
  fun _ _ => Agrees.emit fun _ _ => .same trivial

protected theorem foldRange {first count : Nat} {acc : β} {body : Nat → β → VM β}
    (iteration : ∀ i b, Fileless (body i b)) : Fileless (Program.foldRange first count acc body) :=
  fun g h => Agrees.foldRange fun i b => iteration i b g h

protected theorem forRange {first count : Nat} {body : Nat → VM Unit}
    (iteration : ∀ i, Fileless (body i)) : Fileless (Program.forRange first count body) :=
  .foldRange fun i _ => iteration i

/-- Whether it returns or stops, it leaves the files as they are. -/
theorem satisfies {m : VM α} (h : Fileless m) (env : Env) (s : State) :
    (m.run env s).Satisfies (fun _ t _ => t.files = s.files) fun _ t _ => t.files = s.files := by
  have agree := h s.files s.files env s s ⟨rfl, rfl⟩
  cases run : m.run env s with
  | done a t es =>
      rw [run] at agree
      exact agree.2.1.1
  | stopped e t es =>
      rw [run] at agree
      exact agree.2.1.1

/-- A run that returns does so with any other files, and leaves them as they are. -/
theorem withFiles {m : VM α} (h : Fileless m) {env : Env} {s t : State} {a : α} {es : List Event}
    (run : m.run env s = .done a t es) (g : Files) :
    ∃ fs, m.run env (s.withFiles g) = .done a (t.withFiles g) fs := by
  have agree := h s.files g env s (s.withFiles g) ⟨rfl, rfl⟩
  rw [run] at agree
  obtain ⟨u, fs, run', ⟨_, rfl⟩, _⟩ := agree.done_left
  exact ⟨fs, run'⟩

end Fileless

theorem allocate_fileless : Fileless allocate := by
  rintro f g env s _ ⟨own, rfl⟩
  exact ⟨rfl, ⟨own, rfl⟩, .nil⟩

theorem sysCall_fileless (call : SysCall) : Fileless (sysCall call) := by
  rintro f g env s _ ⟨own, rfl⟩
  exact ⟨rfl, ⟨own, rfl⟩, .cons (.same trivial) .nil⟩

theorem signed_fileless (v : Int) : Fileless (signed v) := .emit _

theorem modifyCpu_fileless (f : Cpu → Cpu) : Fileless (modifyCpu f) := .modify fun _ _ => rfl

/-- The mapped array is none of the files. -/
structure MArrPtr.OffFiles {α : Type} (marr : MArrPtr α) : Prop where
  get : ∀ s f, marr.get (s.withFiles f) = marr.get s
  set : ∀ m s f, marr.set m (s.withFiles f) = (marr.set m s).withFiles f

theorem arrMem_offFiles : arrMem.OffFiles := ⟨fun _ _ => rfl, fun _ _ _ => rfl⟩

theorem netConn_offFiles : netConn.OffFiles := ⟨fun _ _ => rfl, fun _ _ _ => rfl⟩

section Collector

theorem getArray_fileless (i : Nat) : Fileless (marrGetElement arrMem i) :=
  .get_bind (fun _ _ => rfl) fun _ => .ite (.stop _) (.ite (.stop _) (.pure _))

theorem checkArray_fileless (i : Nat) : Fileless (marrCheckMarked arrMem i) :=
  .get_bind (fun _ _ => rfl) fun _ => .ite (.stop _) (.pure _)

theorem markIndex_fileless (i : Nat) : Fileless (markIndex i) :=
  .bind (checkArray_fileless i) fun _ => .ite (.modify fun _ _ => rfl) (.pure _)

theorem markArrays_fileless : Fileless markArrays := by
  have stackElement (k : Nat) : Fileless (markStackElement k) :=
    .get_bind (fun _ _ => rfl) fun _ => .bind (.emit _) fun _ =>
      .ite (markIndex_fileless _) (.pure _)
  have elementsOf (i : Nat) : Fileless (markElementsOf i) :=
    .get_bind (fun _ _ => rfl) fun _ => .ite (.bind (getArray_fileless i) fun _ =>
      .forRange fun _ => .ite (.ite (markIndex_fileless _) (.pure _)) (.pure _)) (.pure _)
  exact .get_bind (fun _ _ => rfl) fun _ => .bind (.forRange stackElement) fun _ =>
    .get_bind (fun _ _ => rfl) fun _ => .forRange elementsOf

theorem sweepArrays_fileless : Fileless sweepArrays := by
  have remove (i : Nat) : Fileless (arrRemove i) :=
    .bind (getArray_fileless i) fun _ => .get_bind (fun _ _ => rfl) fun _ =>
      .ite (.stop _) (.modify fun _ _ => rfl)
  refine .get_bind (fun _ _ => rfl) fun _ => .foldRange fun i n => ?_
  exact .get_bind (fun _ _ => rfl) fun _ => .ite (.bind (checkArray_fileless i) fun _ =>
    .ite (.bind (remove i) fun _ => .pure _) (.pure _)) (.pure _)

/-- The transcript shows the state at the entry of the collector, with its files. -/
theorem arrGc_fileless : Fileless arrGc := by
  have collect : Fileless (do
      if ← allocate then
        modify fun s => { s with markedArrays := List.replicate s.arrMem.size false }
        markArrays
        sweepArrays
      else
        destroyIjvmNow .arrGcAlloc : VM Nat) :=
    .bind allocate_fileless fun _ => .ite (.bind (.modify fun _ _ => rfl) fun _ =>
      .bind markArrays_fileless fun _ => sweepArrays_fileless) (.stop _)
  rintro f g env s _ ⟨own, rfl⟩
  rw [arrGc, run_bind, run_bind, run_get, run_get, Outcome.andThen_done, Outcome.andThen_done,
    Outcome.prepend_nil, Outcome.prepend_nil, run_bind, run_bind, run_emit, run_emit,
    Outcome.andThen_done, Outcome.andThen_done]
  exact (collect f g env s _ ⟨own, rfl⟩).prepend (.cons (.gc ⟨own, rfl⟩) .nil)

end Collector

section MappedArrays

variable {α : Type} {marr : MArrPtr α}

theorem getFreeIndex_fileless (off : marr.OffFiles) : Fileless (getFreeIndex marr) := by
  have search : Fileless (do return ((marr.get (← get)).firstFree.getD sizeMaxUint32) : VM Nat) :=
    .get_bind (fun s f => by rw [off.get s f]) fun _ => .pure _
  exact .get_bind (fun _ _ => rfl) fun _ => .ite
    (.bind (.modify fun _ _ => rfl) fun _ => .bind arrGc_fileless fun _ => search)
    (.bind (.modify fun _ _ => rfl) fun _ => search)

theorem marrAddElement_fileless (off : marr.OffFiles) (data : α) :
    Fileless (marrAddElement marr data) :=
  .bind (getFreeIndex_fileless off) fun _ => .ite (.pure _)
    (.get_bind (fun s f => by rw [off.get s f]) fun _ => .bind (.modify (off.set _)) fun _ =>
      .pure _)

variable [Inhabited α]

theorem marrGetElement_fileless (off : marr.OffFiles) (i : Nat) :
    Fileless (marrGetElement marr i) :=
  .get_bind (fun s f => by rw [off.get s f]) fun _ => .ite (.destroy _)
    (.ite (.destroy _) (.pure _))

theorem marrRemoveElement_fileless (off : marr.OffFiles) (i : Nat) :
    Fileless (marrRemoveElement marr i) :=
  .get_bind (fun s f => by rw [off.get s f]) fun _ => .ite (.destroy _) (.modify (off.set _))

theorem marrResize_fileless (off : marr.OffFiles) (newSize : Nat) :
    Fileless (marrResize marr newSize) := by
  have attempt (fuel : Nat) : Fileless (marrResizeFuel marr fuel newSize) := by
    induction fuel with
    | zero => exact .stop _
    | succ fuel ih =>
        exact .get_bind (fun s f => by rw [off.get s f]) fun _ => .ite (.destroy _)
          (.ite (.destroy _) (.bind allocate_fileless fun _ => .bind allocate_fileless fun _ =>
            .ite (.bind arrGc_fileless fun _ => .ite ih (.destroy _)) (.modify (off.set _))))
  exact .get_bind (fun _ _ => rfl) fun _ => attempt _

theorem marrInit_fileless (off : marr.OffFiles) (size : Nat) : Fileless (marrInit marr size) :=
  .bind (.modify (off.set _)) fun _ => .ite (.destroy _) (marrResize_fileless off size)

end MappedArrays

section Arrays

theorem arrStore_fileless (arr : Block) : Fileless (arrStore arr) := by
  have save : Fileless (arrSave arr) :=
    .bind (marrAddElement_fileless arrMem_offFiles arr) fun _ => .ite
      (.get_bind (fun _ _ => rfl) fun _ => .bind (marrResize_fileless arrMem_offFiles _) fun _ =>
        marrAddElement_fileless arrMem_offFiles arr)
      (.pure _)
  exact .bind (.get_bind (fun _ _ => rfl) fun _ =>
    .ite (marrInit_fileless arrMem_offFiles _) (.pure _)) fun _ => .bind save fun _ =>
      .ite (.destroy _) (.pure _)

theorem arrCreate_fileless (count : Word) : Fileless (arrCreate count) := by
  have attempt (fuel : Nat) : Fileless (arrCreateFuel fuel count) := by
    induction fuel with
    | zero => exact .stop _
    | succ fuel ih =>
        exact .ite (.destroy _) (.bind allocate_fileless fun _ => .ite (arrStore_fileless _)
          (.bind arrGc_fileless fun _ => .ite ih (.destroy _)))
  exact .get_bind (fun _ _ => rfl) fun _ => attempt _

theorem arrCheckBounds_fileless (r i : Word) : Fileless (arrCheckBounds r i) :=
  .ite (.destroy _) (.bind (marrGetElement_fileless arrMem_offFiles _) fun _ =>
    .ite (.destroy _) (.bind (signed_fileless _) fun _ => .ite (.destroy _) (.pure _)))

theorem arrGet_fileless (r i : Word) : Fileless (arrGet r i) :=
  .bind (arrCheckBounds_fileless r i) fun _ =>
    .bind (marrGetElement_fileless arrMem_offFiles _) fun _ => .pure _

theorem arrSet_fileless (r i v : Word) : Fileless (arrSet r i v) :=
  .bind (arrCheckBounds_fileless r i) fun _ =>
    .bind (marrGetElement_fileless arrMem_offFiles _) fun _ => .modify fun _ _ => rfl

end Arrays

section Connections

theorem netCheckRef_fileless (netRef : Word) : Fileless (netCheckRef netRef) :=
  .ite (.destroy _) (.pure _)

theorem getSock_fileless (i : Nat) : Fileless (marrGetElement netConn i) :=
  marrGetElement_fileless netConn_offFiles i

theorem socketCreate_fileless (host : Word) (port : BitVec 16) :
    Fileless (socketCreate host port) := by
  have save (sock : Sock) : Fileless (socketSave sock) :=
    .bind (marrAddElement_fileless netConn_offFiles sock) fun _ => .ite
      (.get_bind (fun _ _ => rfl) fun _ => .bind (marrResize_fileless netConn_offFiles _)
        fun _ => marrAddElement_fileless netConn_offFiles sock)
      (.pure _)
  have store (sock : Sock) : Fileless (socketStore sock) :=
    .bind (.get_bind (fun _ _ => rfl) fun _ =>
      .ite (marrInit_fileless netConn_offFiles _) (.pure _)) fun _ => .bind (save sock) fun _ =>
        .bind (netCheckRef_fileless _) fun _ => .pure _
  exact .bind allocate_fileless fun _ =>
    .ite (.bind (sysCall_fileless _) fun _ => store _) (.stop _)

theorem updateSock_fileless (netI : Nat) (sock : Sock) : Fileless (updateSock netI sock) :=
  .modify fun _ _ => rfl

theorem netBind_fileless (port : Word) : Fileless (netBind port) :=
  .bind (socketCreate_fileless _ _) fun _ => .bind (getSock_fileless _) fun _ =>
    .bind (sysCall_fileless _) fun _ => .ite (.pure _) (.bind (sysCall_fileless _) fun _ =>
      .ite (.pure _) (.bind (sysCall_fileless _) fun _ => .bind (updateSock_fileless _ _)
        fun _ => .ite (.pure _) (.bind (updateSock_fileless _ _) fun _ => .pure _)))

theorem netConnect_fileless (host port : Word) : Fileless (netConnect host port) :=
  .bind (socketCreate_fileless _ _) fun _ => .bind (getSock_fileless _) fun _ =>
    .bind (sysCall_fileless _) fun _ => .ite (.pure _)
      (.bind (updateSock_fileless _ _) fun _ => .pure _)

theorem netRecv_fileless (netRef : Word) : Fileless (netRecv netRef) := by
  refine .bind (netCheckRef_fileless _) fun _ => .bind (getSock_fileless _) fun sock => ?_
  cases sock.dataFd? with
  | none => exact .destroy _
  | some fd =>
      exact .bind .ask fun _ => .get_bind (fun _ _ => rfl) fun _ =>
        .bind (sysCall_fileless _) fun _ => .ite (.destroy _) (.pure _)

theorem netSend_fileless (netRef data : Word) : Fileless (netSend netRef data) := by
  refine .bind (netCheckRef_fileless _) fun _ => .bind (getSock_fileless _) fun sock => ?_
  cases sock.dataFd? with
  | none => exact .destroy _
  | some fd => exact .bind (sysCall_fileless _) fun _ => .ite (.destroy _) (.pure _)

theorem netClose_fileless (netRef : Word) : Fileless (netClose netRef) := by
  have closeIf (c : Prop) [Decidable c] (fd : Int) (netI : Nat) (sock : Sock) {rest : VM Unit}
      (h : Fileless rest) :
      Fileless (if c then do closeDescriptor fd; updateSock netI sock; rest else rest) :=
    .ite (.bind (.bind (sysCall_fileless _) fun _ => .bind (sysCall_fileless _) fun _ => .pure _)
      fun _ => .bind (updateSock_fileless netI sock) fun _ => h) h
  exact .bind (netCheckRef_fileless _) fun _ => .bind (getSock_fileless _) fun _ =>
    closeIf _ _ _ _ <| .bind (getSock_fileless _) fun _ => closeIf _ _ _ _ <|
      .bind (getSock_fileless _) fun _ => marrRemoveElement_fileless netConn_offFiles _

end Connections

section Stack

theorem stackPush_fileless (e : Word) : Fileless (stackPush e) := by
  have octuple (fuel : Nat) : Fileless (octupleStackSizeFuel fuel) := by
    induction fuel with
    | zero => exact .stop _
    | succ fuel ih =>
        exact .get_bind (fun _ _ => rfl) fun _ => .ite (.destroy _) (.bind allocate_fileless
          fun _ => .ite (.bind (modifyCpu_fileless _) fun _ => .pure _)
            (.bind arrGc_fileless fun _ => .ite ih (.destroy _)))
  have grow (fuel : Nat) : Fileless (growStackFuel fuel) := by
    induction fuel with
    | zero => exact .stop _
    | succ fuel ih =>
        exact .get_bind (fun _ _ => rfl) fun _ => .ite
          (.bind (.get_bind (fun _ _ => rfl) fun _ => octuple _) fun _ => .ite (.pure _) ih)
          (.pure _)
  have write : Fileless (writeTop e) :=
    .get_bind (fun _ _ => rfl) fun _ => .bind (.emit _) fun _ => modifyCpu_fileless _
  refine .bind (modifyCpu_fileless _) fun _ => .get_bind (fun _ _ => rfl) fun _ => .ite
    (.bind write fun _ => .pure _) (.bind ?_ fun _ => .ite (.pure _)
      (.bind write fun _ => .pure _))
  exact .get_bind (fun _ _ => rfl) fun _ => grow _

theorem pushLast_fileless (e : Word) : Fileless (do let _ ← stackPush e : VM Unit) :=
  .bind (stackPush_fileless e) fun _ => .pure _

theorem stackPop_fileless (access : StackAccess) : Fileless (stackPop access) :=
  .get_bind (fun _ _ => rfl) fun _ => .ite (.destroy _)
    (.bind (.emit _) fun _ => .bind (modifyCpu_fileless _) fun _ => .pure _)

theorem getConstant_fileless (i : Int) : Fileless (getConstant i) :=
  .get_bind (fun _ _ => rfl) fun _ => .ite (.destroy _) (.pure _)

theorem getLocalVariable_fileless (i : Int) : Fileless (getLocalVariable i) :=
  .get_bind (fun _ _ => rfl) fun _ => .ite (.destroy _) (.bind (.emit _) fun _ => .pure _)

theorem updateLocalVariable_fileless (v : Word) (i : Int) :
    Fileless (updateLocalVariable v i) :=
  .get_bind (fun _ _ => rfl) fun _ => .ite (.destroy _)
    (.bind (.emit _) fun _ => modifyCpu_fileless _)

theorem jump_fileless (offset : Int) : Fileless (jump offset) :=
  .get_bind (fun _ _ => rfl) fun _ => .bind (signed_fileless _) fun _ =>
    .ite (.destroy _) (modifyCpu_fileless _)

end Stack

section Instructions

theorem argOutside_fileless {α : Type} (k : Nat) (e : Err) : Fileless (argOutside k e : VM α) :=
  .get_bind (fun _ _ => rfl) fun _ => .ite (.destroy _) (.bind (.emit _) fun _ => .stop _)

theorem getArgByte_fileless : Fileless getArgByte :=
  .get_bind (fun _ _ => rfl) fun _ => .bind (signed_fileless _) fun _ =>
    .ite (argOutside_fileless _ _)
    (.bind (.emit _) fun _ => .bind (modifyCpu_fileless _) fun _ => .pure _)

theorem getArgShort_fileless : Fileless getArgShort :=
  .get_bind (fun _ _ => rfl) fun _ => .bind (signed_fileless _) fun _ =>
    .ite (argOutside_fileless _ _)
    (.bind (.emit _) fun _ => .bind (modifyCpu_fileless _) fun _ => .pure _)

theorem getVarIndex_fileless : Fileless getVarIndex :=
  .get_bind (fun _ _ => rfl) fun _ => .ite (.bind getArgShort_fileless fun _ => .pure _)
    (.bind getArgByte_fileless fun _ => .pure _)

theorem popThen_fileless {α : Type} {f : Word → VM α} (next : ∀ v, Fileless (f v)) :
    Fileless (stackPop .pop >>= f) :=
  .bind (stackPop_fileless .pop) next

theorem execBinary_fileless (computes : Word → Word → List Int) (f : Word → Word → Word) :
    Fileless (execBinary computes f) :=
  popThen_fileless fun _ => popThen_fileless fun _ => .bind (.emit _) fun _ => pushLast_fileless _

theorem execOpIinc_fileless : Fileless execOpIinc := by
  have rest (i : Int) : Fileless (do
      let c ← getArgByte
      let old ← getLocalVariable i
      signed (old.toInt + c.toInt)
      updateLocalVariable (old + c.signExtend 32) i : VM Unit) :=
    .bind getArgByte_fileless fun _ => .bind (getLocalVariable_fileless i) fun _ =>
      .bind (signed_fileless _) fun _ => updateLocalVariable_fileless _ i
  exact .get_bind (fun _ _ => rfl) fun _ => .ite (.bind (.map _ getArgShort_fileless) rest)
    (.bind (.map _ getArgByte_fileless) rest)

theorem branch_fileless {c : Prop} [Decidable c] (offset : Int) :
    Fileless (if c then jump offset else pure ()) :=
  .ite (jump_fileless offset) (.pure _)

theorem getJumpOffset_fileless : Fileless getJumpOffset :=
  .bind getArgShort_fileless fun _ => .pure _

theorem execOpIreturn_fileless : Fileless execOpIreturn := by
  have reload {f : Word → Cpu → Cpu} {rest : VM Unit} (next : Fileless rest) :
      Fileless (stackPop .linkage >>= fun w => modifyCpu (f w) >>= fun _ => rest) :=
    .bind (stackPop_fileless .linkage) fun _ => .bind (modifyCpu_fileless _) fun _ => next
  refine .bind (stackPop_fileless .pop) fun retVal => .get_bind (fun _ _ => rfl) fun _ =>
    .get_bind (fun _ _ => rfl) fun _ => .bind (signed_fileless _) fun _ =>
      .bind (modifyCpu_fileless _) fun _ => reload (reload (reload (reload ?_)))
  exact .get_bind (fun _ _ => rfl) fun _ => .bind (signed_fileless _) fun _ =>
    .bind (modifyCpu_fileless _) fun _ => .get_bind (fun _ _ => rfl) fun _ =>
      .ite (.destroy _) (pushLast_fileless retVal)

theorem pushFrame_fileless (oldPc : Int) (numArgs numLocals : Nat) :
    Fileless (pushFrame oldPc numArgs numLocals) := by
  have push {e : State → Word} {rest : VM Bool} (same : ∀ s g, e s = e (s.withFiles g))
      (next : Fileless rest) : Fileless (get >>= fun s => stackPush (e s) >>= fun b =>
        if b ≠ true then pure false else rest) :=
    .get_bind (fun s g => by rw [same s g]) fun _ => .bind (stackPush_fileless _) fun _ =>
      .ite (.pure _) next
  have linkage : Fileless (pushLinkage oldPc) :=
    push (fun _ _ => rfl) (push (fun _ _ => rfl) (push (fun _ _ => rfl) (stackPush_fileless _)))
  have clear (start : Int) (n : Nat) : Fileless (clearCells start n) :=
    .get_bind (fun _ _ => rfl) fun _ => .bind (.emit _) fun _ => modifyCpu_fileless _
  have frame : Fileless (setFrame numArgs numLocals) :=
    .get_bind (fun _ _ => rfl) fun _ => .bind (signed_fileless _) fun _ =>
      .bind (modifyCpu_fileless _) fun _ => .bind (modifyCpu_fileless _) fun _ =>
      .get_bind (fun _ _ => rfl) fun _ => .get_bind (fun _ _ => rfl) fun _ =>
      .bind (signed_fileless _) fun _ => modifyCpu_fileless _
  exact .get_bind (fun _ _ => rfl) fun _ => .bind (signed_fileless _)
    fun _ => .bind (modifyCpu_fileless _) fun _ => .bind linkage fun _ => .ite (.destroy _)
      (.bind frame fun _ => .get_bind (fun _ _ => rfl) fun _ => .ite (.destroy _) (clear _ _))

theorem execOpInvokevirtual_fileless : Fileless execOpInvokevirtual :=
  .bind (.bind getArgShort_fileless fun _ => .bind (getConstant_fileless _) fun _ =>
    .get_bind (fun _ _ => rfl) fun _ => .ite (.destroy _) (.bind (modifyCpu_fileless _) fun _ =>
      .bind getArgShort_fileless fun _ => .bind getArgShort_fileless fun _ => .pure _))
    fun _ => pushFrame_fileless _ _ _

/-- Only IN and OUT use the files. -/
theorem execOp_fileless (nested : VM Bool) {op : Op} (unprefixed : op ≠ .wide)
    (elsewhere : op ≠ .in ∧ op ≠ .out) : Fileless (execOp nested op) := by
  cases op with
  | wide => exact absurd rfl unprefixed
  | «in» => exact absurd rfl elsewhere.1
  | out => exact absurd rfl elsewhere.2
  | nop => exact .pure _
  | bipush => exact .bind getArgByte_fileless fun _ => pushLast_fileless _
  | ldcW =>
      exact .bind getArgShort_fileless fun _ => .bind (getConstant_fileless _) fun _ =>
        pushLast_fileless _
  | iload =>
      exact .bind getVarIndex_fileless fun _ => .bind (getLocalVariable_fileless _) fun _ =>
        pushLast_fileless _
  | istore =>
      exact popThen_fileless fun _ => .bind getVarIndex_fileless fun _ =>
        updateLocalVariable_fileless _ _
  | pop => exact popThen_fileless fun _ => .pure _
  | dup =>
      exact .get_bind (fun _ _ => rfl) fun _ => .bind (.emit _) fun _ => pushLast_fileless _
  | swap =>
      exact popThen_fileless fun _ => popThen_fileless fun _ =>
        .bind (stackPush_fileless _) fun _ => pushLast_fileless _
  | iadd | isub | iand | ior => exact execBinary_fileless _ _
  | iinc => exact execOpIinc_fileless
  | ifeq | iflt =>
      exact .bind getJumpOffset_fileless fun _ => popThen_fileless fun _ => branch_fileless _
  | icmpeq =>
      exact .bind getJumpOffset_fileless fun _ => popThen_fileless fun _ =>
        popThen_fileless fun _ => branch_fileless _
  | goto => exact .bind getJumpOffset_fileless fun _ => jump_fileless _
  | ireturn => exact execOpIreturn_fileless
  | invokevirtual => exact execOpInvokevirtual_fileless
  | err => exact modifyCpu_fileless fun c => { c with errorFlag := true }
  | halt => exact modifyCpu_fileless fun c => { c with haltFlag := true }
  | newarray =>
      exact popThen_fileless fun _ => .bind (arrCreate_fileless _) fun _ => pushLast_fileless _
  | iaload =>
      exact popThen_fileless fun _ => popThen_fileless fun _ =>
        .bind (arrGet_fileless _ _) fun _ => pushLast_fileless _
  | iastore =>
      exact popThen_fileless fun _ => popThen_fileless fun _ => popThen_fileless fun _ =>
        arrSet_fileless _ _ _
  | gc => exact .bind arrGc_fileless fun _ => .pure _
  | netbind =>
      exact popThen_fileless fun _ => .bind (netBind_fileless _) fun _ => pushLast_fileless _
  | netconnect =>
      exact popThen_fileless fun _ => popThen_fileless fun _ =>
        .bind (netConnect_fileless _ _) fun _ => pushLast_fileless _
  | netin =>
      exact popThen_fileless fun _ => .bind (netRecv_fileless _) fun _ => pushLast_fileless _
  | netout => exact popThen_fileless fun _ => popThen_fileless fun _ => netSend_fileless _ _
  | netclose => exact popThen_fileless fun _ => netClose_fileless _

end Instructions

end Ijvm
