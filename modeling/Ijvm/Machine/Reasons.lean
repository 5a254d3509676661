import Ijvm.Collector.Twice
import Ijvm.Machine.Net
import Ijvm.Stack.Access

/-!
# Why arrays, connections and pushes can end the machine

`EndsIn E` says of a program that every stop of it is one of `E`. The operations on arrays
and connections and the growth of the stack end the machine with errors of their own, which
no other part of the interpreter reports, and their loops never run out of fuel.
-/

namespace Ijvm

open Transcript Program

/-- The error is one of the arrays, the connections or the growth of the stack. -/
def Err.external : Err → Bool
  | .stackPopEmpty | .constantIndex | .localGet | .localUpdate | .jumpOffset | .argByte | .argShort
  | .ireturnFrame | .invokeAddress | .invokePush | .invokeArgs | .initVars
  | .initStackAlloc => false
  | _ => true

/-- The stop is such an error, or the use of a null pointer where `nulls` allows one. -/
def Stop.external (nulls : Prop) : Stop → Prop
  | .error e => e.external = true
  | .undefined => nulls
  | .outOfFuel => False

/-- Every stop of the program is one of `E`. -/
def EndsIn {α : Type} (E : Stop → Prop) (m : VM α) : Prop :=
  ∀ env s, (m.run env s).Satisfies (fun _ _ _ => True) fun r _ _ => E r

namespace EndsIn

variable {α β : Type} {E : Stop → Prop}

protected theorem pure (a : α) : EndsIn E (pure a : VM α) := fun _ _ => trivial

protected theorem get : EndsIn E (get : VM State) := fun _ _ => trivial

protected theorem ask : EndsIn E (Program.ask : VM Env) := fun _ _ => trivial

protected theorem modify (f : State → State) : EndsIn E (modify f : VM PUnit) := fun _ _ => trivial

protected theorem emit (es : List Event) : EndsIn E (Program.emit es : VM Unit) :=
  fun _ _ => trivial

protected theorem stop {r : Stop} (allowed : E r) : EndsIn E (Program.stop r : VM α) :=
  fun _ _ => allowed

protected theorem bind {m : VM α} {f : α → VM β} (first : EndsIn E m)
    (next : ∀ a, EndsIn E (f a)) : EndsIn E (m >>= f) := by
  intro env s
  rw [run_bind]
  exact (first env s).andThen fun a t _ _ => next a env t

protected theorem ite {c : Prop} [Decidable c] {yes no : VM α} (ifTrue : EndsIn E yes)
    (ifFalse : EndsIn E no) : EndsIn E (if c then yes else no) := by
  split
  · exact ifTrue
  · exact ifFalse

theorem mono {E' : Stop → Prop} {m : VM α} (h : EndsIn E m) (imp : ∀ r, E r → E' r) :
    EndsIn E' m :=
  fun env s => (h env s).mono (fun _ _ _ _ => trivial) fun r _ _ => imp r

/-- A loop that never runs out of fuel needs no exception for it. -/
theorem terminating {m : VM α} (h : EndsIn (fun r => E r ∨ r = .outOfFuel) m)
    (ends : Terminating m) : EndsIn E m := by
  intro env s
  refine ((h env s).and (ends env s)).mono (fun _ _ _ _ => trivial) ?_
  rintro r - - ⟨allowed | spent, enough⟩
  · exact allowed
  · exact absurd spent enough

end EndsIn

/-- The program ends the machine with errors of its own only. -/
abbrev Reports {α : Type} (nulls : Prop) (m : VM α) : Prop := EndsIn (Stop.external nulls) m

/-- Where null pointers are allowed, nothing more has to be excluded. -/
theorem Stop.external_of {nulls : Prop} (allowed : nulls) {r : Stop} (h : r.external True) :
    r.external nulls := by
  cases r with
  | error e => exact h
  | undefined => exact allowed
  | outOfFuel => exact h

section Operations

variable {nulls : Prop} {α : Type}

theorem destroy_reports {e : Err} (own : e.external = true) :
    Reports nulls (destroyIjvmNow e : VM α) :=
  .stop own

theorem allocate_reports : Reports nulls allocate := fun _ _ => trivial

theorem sysCall_reports (call : SysCall) : Reports nulls (sysCall call) := fun _ _ => trivial

theorem arrGc_reports : Reports nulls arrGc := by
  intro env s
  refine (arrGc_satisfies env s).mono (fun _ _ _ _ => trivial) ?_
  rintro r - - (⟨rfl, _⟩ | ⟨rfl, _⟩)
  · rfl
  · rfl

section MappedArrays

variable (marr : MArrPtr α)

theorem marrAddElement_reports (data : α) : Reports nulls (marrAddElement marr data) := by
  have free : Reports nulls (getFreeIndex marr) :=
    .bind .get fun _ => .ite
      (.bind (.modify _) fun _ => .bind arrGc_reports fun _ => .bind .get fun _ => .pure _)
      (.bind (.modify _) fun _ => .bind .get fun _ => .pure _)
  exact .bind free fun _ => .ite (.pure _)
    (.bind .get fun _ => .bind (.modify _) fun _ => .pure _)

variable [Inhabited α]

theorem marrGetElement_reports (i : Nat) : Reports nulls (marrGetElement marr i) :=
  .bind .get fun _ => .ite (destroy_reports rfl) (.ite (destroy_reports rfl) (.pure _))

theorem marrRemoveElement_reports (i : Nat) : Reports nulls (marrRemoveElement marr i) :=
  .bind .get fun _ => .ite (destroy_reports rfl) (.modify _)

theorem marrResize_reports (newSize : Nat) : Reports nulls (marrResize marr newSize) := by
  have own {e : Err} (own : e.external = true) :
      EndsIn (fun r => r.external nulls ∨ r = .outOfFuel) (destroyIjvmNow e : VM Unit) :=
    .stop (Or.inl own)
  have attempt (fuel : Nat) : EndsIn (fun r => r.external nulls ∨ r = .outOfFuel)
      (marrResizeFuel marr fuel newSize) := by
    induction fuel with
    | zero => exact .stop (Or.inr rfl)
    | succ fuel ih =>
        exact .bind .get fun _ => .ite (own rfl) (.ite (own rfl)
          (.bind (allocate_reports.mono fun _ => Or.inl) fun _ =>
            .bind (allocate_reports.mono fun _ => Or.inl) fun _ => .ite
              (.bind (arrGc_reports.mono fun _ => Or.inl) fun _ => .ite ih (own rfl)) (.modify _)))
  exact EndsIn.terminating (.bind .get fun _ => attempt _) (marrResize_terminating marr newSize)

theorem marrInit_reports (size : Nat) : Reports nulls (marrInit marr size) :=
  .bind (.modify _) fun _ => .ite (destroy_reports rfl) (marrResize_reports marr size)

end MappedArrays

section Arrays

theorem arrStore_reports (arr : Block) : Reports nulls (arrStore arr) := by
  have prepare : Reports nulls arrPrepare :=
    .bind .get fun _ => .ite (marrInit_reports arrMem _) (.pure _)
  have save : Reports nulls (arrSave arr) :=
    .bind (marrAddElement_reports arrMem arr) fun _ => .ite
      (.bind .get fun _ => .bind (marrResize_reports arrMem _) fun _ =>
        marrAddElement_reports arrMem arr)
      (.pure _)
  exact .bind prepare fun _ => .bind save fun _ => .ite (destroy_reports rfl) (.pure _)

theorem arrCreate_reports (count : Word) : Reports nulls (arrCreate count) := by
  have own {e : Err} (own : e.external = true) :
      EndsIn (fun r => r.external nulls ∨ r = .outOfFuel) (destroyIjvmNow e : VM Word) :=
    .stop (Or.inl own)
  have attempt (fuel : Nat) :
      EndsIn (fun r => r.external nulls ∨ r = .outOfFuel) (arrCreateFuel fuel count) := by
    induction fuel with
    | zero => exact .stop (Or.inr rfl)
    | succ fuel ih =>
        exact .ite (own rfl) (.bind (allocate_reports.mono fun _ => Or.inl) fun _ =>
          .ite ((arrStore_reports _).mono fun _ => Or.inl)
            (.bind (arrGc_reports.mono fun _ => Or.inl) fun _ => .ite ih (own rfl)))
  exact EndsIn.terminating (.bind .get fun _ => attempt _)
    fun env s => (arrCreate_retriesOnce count env s).terminates

theorem arrCheckBounds_reports (r i : Word) : Reports nulls (arrCheckBounds r i) :=
  .ite (destroy_reports rfl) (.bind (marrGetElement_reports arrMem _) fun _ =>
    .ite (destroy_reports rfl) (.bind (.emit _) fun _ => .ite (destroy_reports rfl) (.pure _)))

theorem arrGet_reports (r i : Word) : Reports nulls (arrGet r i) :=
  .bind (arrCheckBounds_reports r i) fun _ =>
    .bind (marrGetElement_reports arrMem _) fun _ => .pure _

theorem arrSet_reports (r i v : Word) : Reports nulls (arrSet r i v) :=
  .bind (arrCheckBounds_reports r i) fun _ =>
    .bind (marrGetElement_reports arrMem _) fun _ => .modify _

end Arrays

section Connections

theorem netCheckRef_reports (r : Word) : Reports nulls (netCheckRef r) :=
  .ite (destroy_reports rfl) (.pure _)

/-- The result of the `malloc` is used without a check. -/
theorem socketCreate_reports (host : Word) (port : BitVec 16) :
    Reports True (socketCreate host port) := by
  have prepare : Reports True socketPrepare :=
    .bind .get fun _ => .ite (marrInit_reports netConn _) (.pure _)
  have save (sock : Sock) : Reports True (socketSave sock) :=
    .bind (marrAddElement_reports netConn sock) fun _ => .ite
      (.bind .get fun _ => .bind (marrResize_reports netConn _) fun _ =>
        marrAddElement_reports netConn sock)
      (.pure _)
  have store (sock : Sock) : Reports True (socketStore sock) :=
    .bind prepare fun _ => .bind (save sock) fun _ => .bind (netCheckRef_reports _) fun _ => .pure _
  exact .bind allocate_reports fun _ => .ite
    (.bind (sysCall_reports _) fun _ => store _) (.stop trivial)

theorem netBind_reports (port : Word) : Reports True (netBind port) :=
  .bind (socketCreate_reports _ _) fun _ => .bind (marrGetElement_reports netConn _) fun _ =>
    .bind (sysCall_reports _) fun _ => .ite (.pure _) (.bind (sysCall_reports _) fun _ =>
      .ite (.pure _) (.bind (sysCall_reports _) fun _ => .bind (.modify _) fun _ =>
        .ite (.pure _) (.bind (.modify _) fun _ => .pure _)))

theorem netConnect_reports (host port : Word) : Reports True (netConnect host port) :=
  .bind (socketCreate_reports _ _) fun _ => .bind (marrGetElement_reports netConn _) fun _ =>
    .bind (sysCall_reports _) fun _ => .ite (.pure _) (.bind (.modify _) fun _ => .pure _)

theorem netRecv_reports (r : Word) : Reports nulls (netRecv r) := by
  refine .bind (netCheckRef_reports _) fun _ =>
    .bind (marrGetElement_reports netConn _) fun sock => ?_
  cases sock.dataFd? with
  | none => exact destroy_reports rfl
  | some fd =>
      exact .bind .ask fun _ => .bind .get fun _ => .bind (sysCall_reports _) fun _ =>
        .ite (destroy_reports rfl) (.pure _)

theorem netSend_reports (r data : Word) : Reports nulls (netSend r data) := by
  refine .bind (netCheckRef_reports _) fun _ =>
    .bind (marrGetElement_reports netConn _) fun sock => ?_
  cases sock.dataFd? with
  | none => exact destroy_reports rfl
  | some fd => exact .bind (sysCall_reports _) fun _ => .ite (destroy_reports rfl) (.pure _)

theorem netClose_reports (r : Word) : Reports nulls (netClose r) := by
  have close (fd : Int) : Reports nulls (closeDescriptor fd) :=
    .bind (sysCall_reports _) fun _ => .bind (sysCall_reports _) fun _ => .pure _
  have closeIf {c : Prop} [Decidable c] {fd : Int} {netI : Nat} {sock : Sock} {rest : VM Unit}
      (h : Reports nulls rest) :
      Reports nulls (if c then do closeDescriptor fd; updateSock netI sock; rest else rest) :=
    .ite (.bind (close fd) fun _ => .bind (.modify _) fun _ => h) h
  exact .bind (netCheckRef_reports _) fun _ => .bind (marrGetElement_reports netConn _) fun _ =>
    closeIf <| .bind (marrGetElement_reports netConn _) fun _ =>
      closeIf <| .bind (marrGetElement_reports netConn _) fun _ =>
        marrRemoveElement_reports netConn _

end Connections

section Stack

/-- The growth of the stack is the only reason for a push to end the machine. -/
theorem stackPush_external (nulls : Prop) (env : Env) {s : State} (sized : s.gCpu.Sized)
    (e : Word) :
    ((stackPush e).run env s).Satisfies (fun _ _ _ => True) fun r _ _ => r.external nulls := by
  have octuple (fuel : Nat) :
      EndsIn (fun r => r.external nulls ∨ r = .outOfFuel) (octupleStackSizeFuel fuel) := by
    induction fuel with
    | zero => exact .stop (Or.inr rfl)
    | succ fuel ih =>
        exact .bind .get fun _ => .ite (.stop (Or.inl rfl))
          (.bind (allocate_reports.mono fun _ => Or.inl) fun _ => .ite
            (.bind (.modify _) fun _ => .pure _)
            (.bind (arrGc_reports.mono fun _ => Or.inl) fun _ => .ite ih (.stop (Or.inl rfl))))
  have grow (fuel : Nat) :
      EndsIn (fun r => r.external nulls ∨ r = .outOfFuel) (growStackFuel fuel) := by
    induction fuel with
    | zero => exact .stop (Or.inr rfl)
    | succ fuel ih =>
        exact .bind .get fun _ => .ite
          (.bind (.bind .get fun _ => octuple _) fun _ => .ite (.pure _) ih) (.pure _)
  have write : EndsIn (fun r => r.external nulls ∨ r = .outOfFuel) (writeTop e) :=
    .bind .get fun _ => .bind (.emit _) fun _ => .modify _
  have push : EndsIn (fun r => r.external nulls ∨ r = .outOfFuel) (stackPush e) :=
    .bind (.modify _) fun _ => .bind .get fun _ => .ite (.bind write fun _ => .pure _)
      (.bind (.bind .get fun _ => grow _) fun _ => .ite (.pure _) (.bind write fun _ => .pure _))
  refine ((push env s).and (stackPush_satisfies sized e)).mono (fun _ _ _ _ => trivial) ?_
  rintro r - es ⟨external | rfl, refused⟩
  · exact external
  · obtain ⟨e, absurd⟩ := refused.error
    contradiction

end Stack

end Operations

end Ijvm
