import Ijvm.Machine.Stack
import Ijvm.Machine.Net

/-!
# Programs whose computations fit into an `int`

The transcript records the exact results of the signed computations. `Exact` says of a
program that each of them is a value of a C `int`, whatever state the program starts in. The
collector, the creation of arrays, the operations on connections, pushes and pops compute
nothing that could leave this range.
-/

namespace Ijvm

open Transcript Program

/-- A value that a C `int` holds. -/
def IsInt (v : Int) : Prop := -2 ^ 31 ≤ v ∧ v < 2 ^ 31

instance (v : Int) : Decidable (IsInt v) := inferInstanceAs (Decidable (_ ∧ _))

/-- The computation, if the event is one, does not overflow. -/
def Event.exact : Event → Prop
  | .signed v => IsInt v
  | _ => True

instance : DecidablePred Event.exact
  | .signed v => inferInstanceAs (Decidable (IsInt v))
  | .stack .. | .code .. | .gc _ | .sys .. => .isTrue trivial

/-- No computation of the program overflows. -/
abbrev Exact {α : Type} (m : VM α) : Prop := Emits Event.exact m

theorem allocate_exact : Exact allocate := fun _ _ _ => ⟨trivial, by simp⟩

theorem sysCall_exact (call : SysCall) : Exact (sysCall call) :=
  fun _ _ _ => ⟨trivial, by simp [Event.exact]⟩

section MappedArrays

variable {α : Type} (marr : MArrPtr α)

theorem marrCheckMarked_exact (i : Nat) : Exact (marrCheckMarked marr i) :=
  .bind .get fun _ => .ite (.stop _) (.pure _)

theorem marrGetElement_exact [Inhabited α] (i : Nat) : Exact (marrGetElement marr i) :=
  .bind .get fun _ => .ite (.stop _) (.ite (.stop _) (.pure _))

theorem marrRemoveElement_exact [Inhabited α] (i : Nat) : Exact (marrRemoveElement marr i) :=
  .bind .get fun _ => .ite (.stop _) (.modify _)

end MappedArrays

section Collector

theorem markIndex_exact (i : Nat) : Exact (markIndex i) :=
  .bind (marrCheckMarked_exact arrMem i) fun _ => .ite (.modify _) (.pure _)

theorem markStackElement_exact (k : Nat) : Exact (markStackElement k) :=
  .bind .get fun _ => .bind (.emit (by simp [Event.exact])) fun _ =>
    .ite (markIndex_exact _) (.pure _)

theorem markElementsOf_exact (i : Nat) : Exact (markElementsOf i) :=
  .bind .get fun _ => .ite
    (.bind (marrGetElement_exact arrMem i) fun _ => .forRange fun _ =>
      .ite (.ite (markIndex_exact _) (.pure _)) (.pure _))
    (.pure _)

theorem markArrays_exact : Exact markArrays :=
  .bind .get fun _ => .bind (.forRange fun k => markStackElement_exact k) fun _ =>
    .bind .get fun _ => .forRange fun i => markElementsOf_exact i

theorem sweepArray_exact (i n : Nat) : Exact (sweepArray i n) :=
  .bind .get fun _ => .ite
    (.bind (marrCheckMarked_exact arrMem i) fun _ => .ite
      (.bind (.bind (marrGetElement_exact arrMem i) fun _ => marrRemoveElement_exact arrMem i)
        fun _ => .pure _)
      (.pure _))
    (.pure _)

theorem arrGc_exact : Exact arrGc :=
  .bind .get fun _ => .bind (.emit (by simp [Event.exact])) fun _ => .bind allocate_exact fun _ =>
    .ite
      (.bind (.modify _) fun _ => .bind markArrays_exact fun _ => .bind .get fun _ =>
        .foldRange fun i n => sweepArray_exact i n)
      (.stop _)

end Collector

section Creation

variable {α : Type} (marr : MArrPtr α)

theorem marrAddElement_exact (data : α) : Exact (marrAddElement marr data) := by
  have free : Exact (getFreeIndex marr) :=
    .bind .get fun _ => .ite
      (.bind (.modify _) fun _ => .bind arrGc_exact fun _ => .bind .get fun _ => .pure _)
      (.bind (.modify _) fun _ => .bind .get fun _ => .pure _)
  exact .bind free fun _ => .ite (.pure _)
    (.bind .get fun _ => .bind (.modify _) fun _ => .pure _)

variable [Inhabited α]

theorem marrResize_exact (newSize : Nat) : Exact (marrResize marr newSize) := by
  have attempt (fuel : Nat) : Exact (marrResizeFuel marr fuel newSize) := by
    induction fuel with
    | zero => exact .stop _
    | succ fuel ih =>
        exact .bind .get fun _ => .ite (.stop _) (.ite (.stop _)
          (.bind allocate_exact fun _ => .bind allocate_exact fun _ => .ite
            (.bind arrGc_exact fun _ => .ite ih (.stop _)) (.modify _)))
  exact .bind .get fun _ => attempt _

theorem marrInit_exact (size : Nat) : Exact (marrInit marr size) :=
  .bind (.modify _) fun _ => .ite (.stop _) (marrResize_exact marr size)

theorem arrCreate_exact (count : Word) : Exact (arrCreate count) := by
  have prepare : Exact arrPrepare := .bind .get fun _ => .ite (marrInit_exact arrMem _) (.pure _)
  have save (arr : Block) : Exact (arrSave arr) :=
    .bind (marrAddElement_exact arrMem arr) fun _ => .ite
      (.bind .get fun _ => .bind (marrResize_exact arrMem _) fun _ =>
        marrAddElement_exact arrMem arr)
      (.pure _)
  have store (arr : Block) : Exact (arrStore arr) :=
    .bind prepare fun _ => .bind (save arr) fun _ => .ite (.stop _) (.pure _)
  have attempt (fuel : Nat) : Exact (arrCreateFuel fuel count) := by
    induction fuel with
    | zero => exact .stop _
    | succ fuel ih =>
        exact .ite (.stop _) (.bind allocate_exact fun _ => .ite (store _)
          (.bind arrGc_exact fun _ => .ite ih (.stop _)))
  exact .bind .get fun _ => attempt _

end Creation

section Connections

theorem netCheckRef_exact (netRef : Word) : Exact (netCheckRef netRef) := .ite (.stop _) (.pure _)

theorem socketCreate_exact (host : Word) (port : BitVec 16) : Exact (socketCreate host port) := by
  have prepare : Exact socketPrepare :=
    .bind .get fun _ => .ite (marrInit_exact netConn _) (.pure _)
  have save (sock : Sock) : Exact (socketSave sock) :=
    .bind (marrAddElement_exact netConn sock) fun _ => .ite
      (.bind .get fun _ => .bind (marrResize_exact netConn _) fun _ =>
        marrAddElement_exact netConn sock)
      (.pure _)
  have store (sock : Sock) : Exact (socketStore sock) :=
    .bind prepare fun _ => .bind (save sock) fun _ => .bind (netCheckRef_exact _) fun _ => .pure _
  exact .bind allocate_exact fun _ => .ite (.bind (sysCall_exact _) fun _ => store _) (.stop _)

theorem netBind_exact (port : Word) : Exact (netBind port) :=
  .bind (socketCreate_exact _ _) fun _ => .bind (marrGetElement_exact netConn _) fun _ =>
    .bind (sysCall_exact _) fun _ => .ite (.pure _) (.bind (sysCall_exact _) fun _ =>
      .ite (.pure _) (.bind (sysCall_exact _) fun _ => .bind (.modify _) fun _ =>
        .ite (.pure _) (.bind (.modify _) fun _ => .pure _)))

theorem netConnect_exact (host port : Word) : Exact (netConnect host port) :=
  .bind (socketCreate_exact _ _) fun _ => .bind (marrGetElement_exact netConn _) fun _ =>
    .bind (sysCall_exact _) fun _ => .ite (.pure _) (.bind (.modify _) fun _ => .pure _)

theorem netRecv_exact (netRef : Word) : Exact (netRecv netRef) := by
  refine .bind (netCheckRef_exact _) fun _ => .bind (marrGetElement_exact netConn _) fun sock => ?_
  cases sock.dataFd? with
  | none => exact .stop _
  | some fd =>
      exact .bind .ask fun _ => .bind .get fun _ => .bind (sysCall_exact _) fun _ =>
        .ite (.stop _) (.pure _)

theorem netSend_exact (netRef data : Word) : Exact (netSend netRef data) := by
  refine .bind (netCheckRef_exact _) fun _ => .bind (marrGetElement_exact netConn _) fun sock => ?_
  cases sock.dataFd? with
  | none => exact .stop _
  | some fd => exact .bind (sysCall_exact _) fun _ => .ite (.stop _) (.pure _)

theorem netClose_exact (netRef : Word) : Exact (netClose netRef) := by
  have close (fd : Int) : Exact (closeDescriptor fd) :=
    .bind (sysCall_exact _) fun _ => .bind (sysCall_exact _) fun _ => .pure _
  have closeIf {c : Prop} [Decidable c] {fd : Int} {netI : Nat} {sock : Sock} {rest : VM Unit}
      (h : Exact rest) :
      Exact (if c then do closeDescriptor fd; updateSock netI sock; rest else rest) :=
    .ite (.bind (close fd) fun _ => .bind (.modify _) fun _ => h) h
  exact .bind (netCheckRef_exact _) fun _ => .bind (marrGetElement_exact netConn _) fun _ =>
    closeIf <| .bind (marrGetElement_exact netConn _) fun _ =>
      closeIf <| .bind (marrGetElement_exact netConn _) fun _ => marrRemoveElement_exact netConn _

end Connections

section Stack

theorem growStack_exact : Exact growStack := by
  have octuple (fuel : Nat) : Exact (octupleStackSizeFuel fuel) := by
    induction fuel with
    | zero => exact .stop _
    | succ fuel ih =>
        exact .bind .get fun _ => .ite (.stop _) (.bind allocate_exact fun _ => .ite
          (.bind (.modify _) fun _ => .pure _)
          (.bind arrGc_exact fun _ => .ite ih (.stop _)))
  have grow (fuel : Nat) : Exact (growStackFuel fuel) := by
    induction fuel with
    | zero => exact .stop _
    | succ fuel ih =>
        exact .bind .get fun _ => .ite
          (.bind (.bind .get fun _ => octuple _) fun _ => .ite (.pure _) ih) (.pure _)
  exact .bind .get fun _ => grow _

theorem stackPush_exact (e : Word) : Exact (stackPush e) := by
  have write : Exact (writeTop e) :=
    .bind .get fun _ => .bind (.emit (by simp [Event.exact])) fun _ => .modify _
  exact .bind (.modify _) fun _ => .bind .get fun _ => .ite (.bind write fun _ => .pure _)
    (.bind growStack_exact fun _ => .ite (.pure _) (.bind write fun _ => .pure _))

theorem pushLast_exact (e : Word) : Exact (do let _ ← stackPush e) :=
  .bind (stackPush_exact e) fun _ => .pure _

theorem stackPop_exact (access : StackAccess) : Exact (stackPop access) :=
  .bind .get fun _ => .ite (.stop _) (.bind (.emit (by simp [Event.exact])) fun _ =>
    .bind (.modify _) fun _ => .pure _)

end Stack

end Ijvm
