import Ijvm.Machine.Net

/-!
# Programs that leave the CPU alone

The operations on arrays and connections change neither the CPU nor the WIDE flag, and
the only stack accesses among their events are the reads of the collector. `Quiet` says
so. `Aside` says more: the collector sees the CPU of the operation, reads below its `sp`,
and the operation never ends because the stack cannot grow. Its rules follow the structure
of a program down to its primitive steps.
-/

namespace Ijvm

open Transcript Program

/-- Events that no instruction causes by its own use of the stack or of the code. -/
def Event.quiet : Event → Prop
  | .stack access _ _ => access = .root
  | .code .. => False
  | .signed _ => True
  | .gc _ => True
  | .sys .. => True

/-- The program leaves the CPU and the WIDE flag as they were. -/
def Quiet {α : Type} (m : VM α) : Prop :=
  ∀ cpu wide, Program.Keeps (fun _ => True)
    (fun t => t.gCpu = cpu ∧ t.nextOpWide = wide) Event.quiet m

namespace Quiet

variable {α β : Type}

protected theorem pure (a : α) : Quiet (pure a : VM α) := fun _ _ => .pure a

protected theorem get : Quiet (get : VM State) := fun _ _ => .get

protected theorem destroy (e : Err) : Quiet (destroyIjvmNow e : VM α) := fun _ _ => .stop _

protected theorem bind {m : VM α} {f : α → VM β} (first : Quiet m)
    (next : ∀ a, Quiet (f a)) : Quiet (m >>= f) :=
  fun cpu wide => .bind (first cpu wide) fun a => next a cpu wide

protected theorem ite {c : Prop} [Decidable c] {yes no : VM α} (ifTrue : Quiet yes)
    (ifFalse : Quiet no) : Quiet (if c then yes else no) := by
  split
  · exact ifTrue
  · exact ifFalse

/-- The events of a quiet run. -/
theorem events {m : VM α} (h : Quiet m) (env : Env) (s : State) :
    ∀ e ∈ (m.run env s).events, e.quiet :=
  (h s.gCpu s.nextOpWide env s ⟨rfl, rfl⟩ fun _ _ => trivial).2

/-- What a quiet run leaves behind if it returns. -/
theorem returns {m : VM α} (h : Quiet m) (env : Env) (s : State) :
    (m.run env s).Returns fun _ t => t.gCpu = s.gCpu ∧ t.nextOpWide = s.nextOpWide :=
  (h s.gCpu s.nextOpWide env s ⟨rfl, rfl⟩ fun _ _ => trivial).1

/-- A quiet program keeps every assertion about the CPU and the WIDE flag. -/
theorem keeps {m : VM α} (h : Quiet m) {rely guar : Event → Prop} {J : Cpu → Bool → Prop}
    (imp : ∀ e, e.quiet → guar e) :
    Program.Keeps rely (fun t => J t.gCpu t.nextOpWide) guar m := by
  intro env s hs _
  refine ⟨(h.returns env s).mono ?_, fun e member => imp e (h.events env s e member)⟩
  rintro _ t ⟨cpu, wide⟩
  rw [cpu, wide]
  exact hs

end Quiet

/-- Events of a program that leaves the CPU, which is `cpu`, alone. -/
def Event.aside (cpu : Cpu) : Event → Prop
  | .stack access i n => access = .root ∧ (0 ≤ i ∧ i < cpu.sp) ∧ n = cpu.stackSize
  | .code .. => False
  | .signed _ => True
  | .gc entry => entry.gCpu = cpu
  | .sys .. => True

theorem Event.aside.quiet {cpu : Cpu} {e : Event} (h : e.aside cpu) : e.quiet := by
  cases e with
  | stack access i n => exact h.1
  | code i n => exact h
  | _ => trivial

/-- The program leaves the CPU and the WIDE flag alone, and the stack is no reason for it to
stop. -/
def Aside {α : Type} (cpu : Cpu) (wide : Bool) (m : VM α) : Prop :=
  Meets (fun t => t.gCpu = cpu ∧ t.nextOpWide = wide) (Event.aside cpu) m
    (fun _ t => t.gCpu = cpu ∧ t.nextOpWide = wide)
    fun e t => t.gCpu = cpu ∧ e ≠ .error .stackOutOfMemory

theorem Quiet.of_aside {α : Type} {m : VM α} (h : ∀ cpu wide, Aside cpu wide m) : Quiet m :=
  fun cpu wide => ((h cpu wide).mono (fun _ hs => hs) (fun _ aside => aside.quiet)
    (fun _ _ hs => hs) fun _ _ he => he).ensures

namespace Aside

variable {α β : Type} {cpu : Cpu} {wide : Bool}

protected theorem pure (a : α) : Aside cpu wide (pure a : VM α) := Meets.pure fun _ hs => hs

protected theorem get : Aside cpu wide (get : VM State) := Meets.get

protected theorem ask : Aside cpu wide (Program.ask : VM Env) := Meets.ask

protected theorem stop {e : Stop} (other : e ≠ .error .stackOutOfMemory) :
    Aside cpu wide (Program.stop e : VM α) :=
  Meets.stop fun _ hs => ⟨hs.1, other⟩

protected theorem destroy {e : Err} (other : e ≠ .stackOutOfMemory) :
    Aside cpu wide (destroyIjvmNow e : VM α) :=
  .stop fun same => other (Stop.error.inj same)

protected theorem bind {m : VM α} {f : α → VM β} (first : Aside cpu wide m)
    (next : ∀ a, Aside cpu wide (f a)) : Aside cpu wide (m >>= f) :=
  Meets.bind first next

protected theorem get_bind {f : State → VM α}
    (next : ∀ s, s.gCpu = cpu → Aside cpu wide (f s)) : Aside cpu wide (get >>= f) :=
  Meets.get_bind fun s hs => next s hs.1

protected theorem ite {c : Prop} [Decidable c] {yes no : VM α} (ifTrue : Aside cpu wide yes)
    (ifFalse : Aside cpu wide no) : Aside cpu wide (if c then yes else no) :=
  Meets.ite (fun _ => ifTrue) fun _ => ifFalse

protected theorem modify {f : State → State} (same : ∀ s, (f s).gCpu = s.gCpu)
    (flag : ∀ s, (f s).nextOpWide = s.nextOpWide) : Aside cpu wide (modify f : VM PUnit) :=
  Meets.modify fun s hs => ⟨(same s).trans hs.1, (flag s).trans hs.2⟩

protected theorem emit {es : List Event} (h : ∀ e ∈ es, e.aside cpu) :
    Aside cpu wide (Program.emit es : VM Unit) :=
  Meets.emit h

protected theorem foldRange {first count : Nat} {acc : β} {body : Nat → β → VM β}
    (iteration : ∀ i b, first ≤ i → i < first + count → Aside cpu wide (body i b)) :
    Aside cpu wide (Program.foldRange first count acc body) :=
  Meets.foldRange iteration

protected theorem forRange {first count : Nat} {body : Nat → VM Unit}
    (iteration : ∀ i, first ≤ i → i < first + count → Aside cpu wide (body i)) :
    Aside cpu wide (Program.forRange first count body) :=
  Meets.forRange iteration

end Aside

section Operations

variable {cpu : Cpu} {wide : Bool}

theorem allocate_aside : Aside cpu wide allocate := fun _ _ hs => ⟨hs, by simp⟩

theorem sysCall_aside (call : SysCall) : Aside cpu wide (sysCall call) :=
  fun _ _ hs => ⟨hs, by simp [Event.aside]⟩

theorem signed_aside (v : Int) : Aside cpu wide (signed v) := .emit (by simp [Event.aside])

section MappedArrays

variable {α : Type} (marr : MArrPtr α)

theorem modify_set_aside (m : MArr α) : Aside cpu wide (modify (marr.set m) : VM PUnit) :=
  .modify (marr.gCpu_set m) (marr.nextOpWide_set m)

theorem marrCheckMarked_aside (i : Nat) : Aside cpu wide (marrCheckMarked marr i) :=
  .bind .get fun _ => .ite (.destroy nofun) (.pure _)

variable [Inhabited α]

theorem marrGetElement_aside (i : Nat) : Aside cpu wide (marrGetElement marr i) :=
  .bind .get fun _ => .ite (.destroy nofun) (.ite (.destroy nofun) (.pure _))

theorem marrRemoveElement_aside (i : Nat) : Aside cpu wide (marrRemoveElement marr i) :=
  .bind .get fun _ => .ite (.destroy nofun) (modify_set_aside marr _)

end MappedArrays

section Collector

theorem markIndex_aside (i : Nat) : Aside cpu wide (markIndex i) :=
  .bind (marrCheckMarked_aside arrMem i) fun _ =>
    .ite (.modify (fun _ => rfl) fun _ => rfl) (.pure _)

theorem markStackElement_aside {k : Nat} (below : (k : Int) < cpu.sp) :
    Aside cpu wide (markStackElement k) := by
  refine .get_bind fun s hs => .bind (.emit ?_) fun _ => .ite (markIndex_aside _) (.pure _)
  rw [hs, List.forall_mem_singleton]
  exact ⟨rfl, ⟨Int.natCast_nonneg k, below⟩, rfl⟩

theorem markArrayElement_aside (i : Nat) (arr : Block) (el : Nat) :
    Aside cpu wide (markArrayElement i arr el) :=
  .ite (.ite (markIndex_aside _) (.pure _)) (.pure _)

theorem markElementsOf_aside (i : Nat) : Aside cpu wide (markElementsOf i) :=
  .bind .get fun _ => .ite
    (.bind (marrGetElement_aside arrMem i) fun arr =>
      .forRange fun el _ _ => markArrayElement_aside i arr el)
    (.pure _)

theorem markArrays_aside : Aside cpu wide markArrays := by
  refine .get_bind fun s hs => .bind (.forRange fun k _ below => markStackElement_aside ?_)
    fun _ => .bind .get fun _ => .forRange fun i _ _ => markElementsOf_aside i
  rw [hs] at below
  omega

theorem arrRemove_aside (i : Nat) : Aside cpu wide (arrRemove i) :=
  .bind (marrGetElement_aside arrMem i) fun _ => marrRemoveElement_aside arrMem i

theorem sweepArray_aside (i n : Nat) : Aside cpu wide (sweepArray i n) :=
  .bind .get fun _ => .ite
    (.bind (marrCheckMarked_aside arrMem i) fun _ =>
      .ite (.bind (arrRemove_aside i) fun _ => .pure _) (.pure _))
    (.pure _)

theorem sweepArrays_aside : Aside cpu wide sweepArrays :=
  .bind .get fun _ => .foldRange fun i n _ _ => sweepArray_aside i n

theorem arrGc_aside : Aside cpu wide arrGc := by
  refine .get_bind fun s hs => .bind (.emit ?_) fun _ => .bind allocate_aside fun _ => .ite
    (.bind (.modify (fun _ => rfl) fun _ => rfl) fun _ =>
      .bind markArrays_aside fun _ => sweepArrays_aside)
    (.destroy nofun)
  rw [List.forall_mem_singleton]
  exact hs

end Collector

section Creation

variable {α : Type} (marr : MArrPtr α)

theorem getFreeIndex_aside : Aside cpu wide (getFreeIndex marr) :=
  .bind .get fun _ => .ite
    (.bind (.modify (fun _ => rfl) fun _ => rfl) fun _ => .bind arrGc_aside fun _ =>
      .bind .get fun _ => .pure _)
    (.bind (.modify (fun _ => rfl) fun _ => rfl) fun _ => .bind .get fun _ => .pure _)

theorem marrAddElement_aside (data : α) : Aside cpu wide (marrAddElement marr data) :=
  .bind (getFreeIndex_aside marr) fun _ => .ite (.pure _)
    (.bind .get fun _ => .bind (modify_set_aside marr _) fun _ => .pure _)

variable [Inhabited α]

theorem marrResizeFuel_aside (fuel newSize : Nat) :
    Aside cpu wide (marrResizeFuel marr fuel newSize) := by
  induction fuel with
  | zero => exact .stop nofun
  | succ fuel ih =>
      exact .bind .get fun _ => .ite (.destroy nofun) (.ite (.destroy nofun)
        (.bind allocate_aside fun _ => .bind allocate_aside fun _ => .ite
          (.bind arrGc_aside fun _ => .ite ih (.destroy nofun)) (modify_set_aside marr _)))

theorem marrResize_aside (newSize : Nat) : Aside cpu wide (marrResize marr newSize) :=
  .bind .get fun _ => marrResizeFuel_aside marr _ newSize

theorem marrInit_aside (size : Nat) : Aside cpu wide (marrInit marr size) :=
  .bind (modify_set_aside marr _) fun _ => .ite (.destroy nofun) (marrResize_aside marr size)

end Creation

section Arrays

theorem arrPrepare_aside : Aside cpu wide arrPrepare :=
  .bind .get fun _ => .ite (marrInit_aside arrMem _) (.pure _)

theorem arrSave_aside (arr : Block) : Aside cpu wide (arrSave arr) :=
  .bind (marrAddElement_aside arrMem arr) fun _ => .ite
    (.bind .get fun _ => .bind (marrResize_aside arrMem _) fun _ =>
      marrAddElement_aside arrMem arr)
    (.pure _)

theorem arrStore_aside (arr : Block) : Aside cpu wide (arrStore arr) :=
  .bind arrPrepare_aside fun _ => .bind (arrSave_aside arr) fun _ => .ite (.destroy nofun) (.pure _)

theorem arrCreateFuel_aside (fuel : Nat) (count : Word) :
    Aside cpu wide (arrCreateFuel fuel count) := by
  induction fuel with
  | zero => exact .stop nofun
  | succ fuel ih =>
      exact .ite (.destroy nofun) (.bind allocate_aside fun _ => .ite (arrStore_aside _)
        (.bind arrGc_aside fun _ => .ite ih (.destroy nofun)))

theorem arrCreate_aside (count : Word) : Aside cpu wide (arrCreate count) :=
  .bind .get fun _ => arrCreateFuel_aside _ count

theorem arrCheckBounds_aside (r i : Word) : Aside cpu wide (arrCheckBounds r i) :=
  .ite (.destroy nofun) (.bind (marrGetElement_aside arrMem _) fun _ => .ite (.destroy nofun)
    (.bind (signed_aside _) fun _ => .ite (.destroy nofun) (.pure _)))

theorem arrGet_aside (r i : Word) : Aside cpu wide (arrGet r i) :=
  .bind (arrCheckBounds_aside r i) fun _ => .bind (marrGetElement_aside arrMem _) fun _ => .pure _

theorem arrSet_aside (r i v : Word) : Aside cpu wide (arrSet r i v) :=
  .bind (arrCheckBounds_aside r i) fun _ => .bind (marrGetElement_aside arrMem _) fun _ =>
    .modify (fun _ => rfl) fun _ => rfl

end Arrays

section Connections

theorem netCheckRef_aside (netRef : Word) : Aside cpu wide (netCheckRef netRef) :=
  .ite (.destroy nofun) (.pure _)

theorem socketPrepare_aside : Aside cpu wide socketPrepare :=
  .bind .get fun _ => .ite (marrInit_aside netConn _) (.pure _)

theorem socketSave_aside (sock : Sock) : Aside cpu wide (socketSave sock) :=
  .bind (marrAddElement_aside netConn sock) fun _ => .ite
    (.bind .get fun _ => .bind (marrResize_aside netConn _) fun _ =>
      marrAddElement_aside netConn sock)
    (.pure _)

theorem socketStore_aside (sock : Sock) : Aside cpu wide (socketStore sock) :=
  .bind socketPrepare_aside fun _ => .bind (socketSave_aside sock) fun _ =>
    .bind (netCheckRef_aside _) fun _ => .pure _

theorem socketCreate_aside (host : Word) (port : BitVec 16) :
    Aside cpu wide (socketCreate host port) :=
  .bind allocate_aside fun _ => .ite
    (.bind (sysCall_aside _) fun _ => socketStore_aside _) (.stop nofun)

theorem updateSock_aside (netI : Nat) (sock : Sock) : Aside cpu wide (updateSock netI sock) :=
  .modify (fun _ => rfl) fun _ => rfl

theorem netBind_aside (port : Word) : Aside cpu wide (netBind port) :=
  .bind (socketCreate_aside _ _) fun _ => .bind (marrGetElement_aside netConn _) fun _ =>
    .bind (sysCall_aside _) fun _ => .ite (.pure _) (.bind (sysCall_aside _) fun _ =>
      .ite (.pure _) (.bind (sysCall_aside _) fun _ => .bind (updateSock_aside _ _) fun _ =>
        .ite (.pure _) (.bind (updateSock_aside _ _) fun _ => .pure _)))

theorem netConnect_aside (host port : Word) : Aside cpu wide (netConnect host port) :=
  .bind (socketCreate_aside _ _) fun _ => .bind (marrGetElement_aside netConn _) fun _ =>
    .bind (sysCall_aside _) fun _ => .ite (.pure _)
      (.bind (updateSock_aside _ _) fun _ => .pure _)

theorem netRecv_aside (netRef : Word) : Aside cpu wide (netRecv netRef) := by
  refine .bind (netCheckRef_aside _) fun _ => .bind (marrGetElement_aside netConn _) fun sock => ?_
  cases sock.dataFd? with
  | none => exact .destroy nofun
  | some fd =>
      exact .bind .ask fun _ => .bind .get fun _ => .bind (sysCall_aside _) fun _ =>
        .ite (.destroy nofun) (.pure _)

theorem netSend_aside (netRef data : Word) : Aside cpu wide (netSend netRef data) := by
  refine .bind (netCheckRef_aside _) fun _ => .bind (marrGetElement_aside netConn _) fun sock => ?_
  cases sock.dataFd? with
  | none => exact .destroy nofun
  | some fd => exact .bind (sysCall_aside _) fun _ => .ite (.destroy nofun) (.pure _)

theorem closeDescriptor_aside (fd : Int) : Aside cpu wide (closeDescriptor fd) :=
  .bind (sysCall_aside _) fun _ => .bind (sysCall_aside _) fun _ => .pure _

/-- The two sections of `netClose` that close a descriptor. -/
private theorem closeIf_aside (c : Prop) [Decidable c] (fd : Int) (netI : Nat) (sock : Sock)
    {rest : VM Unit} (h : Aside cpu wide rest) :
    Aside cpu wide (if c then do closeDescriptor fd; updateSock netI sock; rest else rest) :=
  .ite (.bind (closeDescriptor_aside fd) fun _ => .bind (updateSock_aside netI sock) fun _ => h) h

theorem netClose_aside (netRef : Word) : Aside cpu wide (netClose netRef) :=
  .bind (netCheckRef_aside _) fun _ => .bind (marrGetElement_aside netConn _) fun _ =>
    closeIf_aside _ _ _ _ <| .bind (marrGetElement_aside netConn _) fun _ =>
      closeIf_aside _ _ _ _ <| .bind (marrGetElement_aside netConn _) fun _ =>
        marrRemoveElement_aside netConn _

end Connections

end Operations

section Exported

theorem arrGc_quiet : Quiet arrGc := .of_aside fun _ _ => arrGc_aside

theorem arrCreate_quiet (count : Word) : Quiet (arrCreate count) :=
  .of_aside fun _ _ => arrCreate_aside count

theorem arrGet_quiet (r i : Word) : Quiet (arrGet r i) := .of_aside fun _ _ => arrGet_aside r i

theorem arrSet_quiet (r i v : Word) : Quiet (arrSet r i v) :=
  .of_aside fun _ _ => arrSet_aside r i v

theorem netBind_quiet (port : Word) : Quiet (netBind port) :=
  .of_aside fun _ _ => netBind_aside port

theorem netConnect_quiet (host port : Word) : Quiet (netConnect host port) :=
  .of_aside fun _ _ => netConnect_aside host port

theorem netRecv_quiet (netRef : Word) : Quiet (netRecv netRef) :=
  .of_aside fun _ _ => netRecv_aside netRef

theorem netSend_quiet (netRef data : Word) : Quiet (netSend netRef data) :=
  .of_aside fun _ _ => netSend_aside netRef data

theorem netClose_quiet (netRef : Word) : Quiet (netClose netRef) :=
  .of_aside fun _ _ => netClose_aside netRef

end Exported

end Ijvm
