import Ijvm.Machine.Net

/-!
# Programs that stay away from the connections

An offline program leaves the table of connections as it is and makes no system call,
whether it returns or stops. The collector is one: it can run inside every operation that
claims an index. `Networking` adds the operations on connections themselves.
-/

namespace Ijvm

open Transcript Program

/-- The event is no system call. -/
def Event.offline : Event → Prop
  | .sys .. => False
  | _ => True

/-- The program does nothing to the connections. -/
def Offline {α : Type} (m : VM α) : Prop :=
  ∀ conns, Meets (fun t => t.netConn = conns) Event.offline m (fun _ t => t.netConn = conns)
    fun _ t => t.netConn = conns

namespace Offline

variable {α β : Type}

protected theorem pure (a : α) : Offline (pure a : VM α) := fun _ => .pure fun _ h => h

protected theorem get : Offline (get : VM State) := fun _ => .get

protected theorem stop (e : Stop) : Offline (Program.stop e : VM α) := fun _ => .stop fun _ h => h

protected theorem bind {m : VM α} {f : α → VM β} (first : Offline m)
    (next : ∀ a, Offline (f a)) : Offline (m >>= f) :=
  fun conns => .bind (first conns) fun a => next a conns

protected theorem ite {c : Prop} [Decidable c] {yes no : VM α} (ifTrue : Offline yes)
    (ifFalse : Offline no) : Offline (if c then yes else no) :=
  fun conns => .ite (fun _ => ifTrue conns) fun _ => ifFalse conns

protected theorem modify {f : State → State} (same : ∀ s, (f s).netConn = s.netConn) :
    Offline (modify f : VM PUnit) :=
  fun _ => .modify fun s h => (same s).trans h

protected theorem emit {es : List Event} (h : ∀ e ∈ es, e.offline) :
    Offline (Program.emit es : VM Unit) :=
  fun _ => .emit h

protected theorem foldRange {first count : Nat} {acc : β} {body : Nat → β → VM β}
    (iteration : ∀ i b, Offline (body i b)) : Offline (Program.foldRange first count acc body) :=
  fun conns => .foldRange fun i b _ _ => iteration i b conns

protected theorem forRange {first count : Nat} {body : Nat → VM Unit}
    (iteration : ∀ i, Offline (body i)) : Offline (Program.forRange first count body) :=
  .foldRange fun i _ => iteration i

end Offline

theorem allocate_offline : Offline allocate := fun _ _ _ h => ⟨h, by simp⟩

section Collector

theorem marrCheckMarked_offline {α : Type} (marr : MArrPtr α) (i : Nat) :
    Offline (marrCheckMarked marr i) :=
  .bind .get fun _ => .ite (.stop _) (.pure _)

theorem marrGetElement_offline {α : Type} [Inhabited α] (marr : MArrPtr α) (i : Nat) :
    Offline (marrGetElement marr i) :=
  .bind .get fun _ => .ite (.stop _) (.ite (.stop _) (.pure _))

theorem markIndex_offline (i : Nat) : Offline (markIndex i) :=
  .bind (marrCheckMarked_offline arrMem i) fun _ => .ite (.modify fun _ => rfl) (.pure _)

theorem markStackElement_offline (k : Nat) : Offline (markStackElement k) :=
  .bind .get fun _ => .bind (.emit (by simp [Event.offline])) fun _ =>
    .ite (markIndex_offline _) (.pure _)

theorem markElementsOf_offline (i : Nat) : Offline (markElementsOf i) :=
  .bind .get fun _ => .ite (.bind (marrGetElement_offline arrMem i) fun _ =>
    .forRange fun _ => .ite (.ite (markIndex_offline _) (.pure _)) (.pure _)) (.pure _)

theorem markArrays_offline : Offline markArrays :=
  .bind .get fun _ => .bind (.forRange fun _ => markStackElement_offline _) fun _ =>
    .bind .get fun _ => .forRange fun _ => markElementsOf_offline _

theorem arrRemove_offline (i : Nat) : Offline (arrRemove i) :=
  .bind (marrGetElement_offline arrMem i) fun _ =>
    .bind .get fun _ => .ite (.stop _) (.modify fun _ => rfl)

theorem sweepArray_offline (i n : Nat) : Offline (sweepArray i n) :=
  .bind .get fun _ => .ite (.bind (marrCheckMarked_offline arrMem i) fun _ =>
    .ite (.bind (arrRemove_offline i) fun _ => .pure _) (.pure _)) (.pure _)

theorem sweepArrays_offline : Offline sweepArrays :=
  .bind .get fun _ => .foldRange fun _ _ => sweepArray_offline _ _

theorem arrGc_offline : Offline arrGc :=
  .bind .get fun _ => .bind (.emit (by simp [Event.offline])) fun _ =>
    .bind allocate_offline fun _ => .ite
      (.bind (.modify fun _ => rfl) fun _ => .bind markArrays_offline fun _ => sweepArrays_offline)
      (.stop _)

end Collector

section Arrays

theorem getFreeIndex_offline {α : Type} (marr : MArrPtr α) : Offline (getFreeIndex marr) :=
  .bind .get fun _ => .ite
    (.bind (.modify fun _ => rfl) fun _ => .bind arrGc_offline fun _ => .bind .get fun _ => .pure _)
    (.bind (.modify fun _ => rfl) fun _ => .bind .get fun _ => .pure _)

theorem marrAddElement_offline (arr : Block) : Offline (marrAddElement arrMem arr) :=
  .bind (getFreeIndex_offline arrMem) fun _ => .ite (.pure _)
    (.bind .get fun _ => .bind (.modify fun _ => rfl) fun _ => .pure _)

theorem marrResizeFuel_offline (fuel newSize : Nat) :
    Offline (marrResizeFuel arrMem fuel newSize) := by
  induction fuel with
  | zero => exact .stop _
  | succ fuel ih =>
      exact .bind .get fun _ => .ite (.stop _) (.ite (.stop _)
        (.bind allocate_offline fun _ => .bind allocate_offline fun _ => .ite
          (.bind arrGc_offline fun _ => .ite ih (.stop _)) (.modify fun _ => rfl)))

theorem marrResize_offline (newSize : Nat) : Offline (marrResize arrMem newSize) :=
  .bind .get fun _ => marrResizeFuel_offline _ newSize

theorem arrStore_offline (arr : Block) : Offline (arrStore arr) := by
  refine .bind (.bind .get fun _ => .ite ?_ (.pure _)) fun _ => .bind ?_ fun _ =>
    .ite (.stop _) (.pure _)
  · exact .bind (.modify fun _ => rfl) fun _ => .ite (.stop _) (marrResize_offline _)
  · exact .bind (marrAddElement_offline arr) fun _ => .ite
      (.bind .get fun _ => .bind (marrResize_offline _) fun _ => marrAddElement_offline arr)
      (.pure _)

theorem arrCreate_offline (count : Word) : Offline (arrCreate count) := by
  have attempt (fuel : Nat) : Offline (arrCreateFuel fuel count) := by
    induction fuel with
    | zero => exact .stop _
    | succ fuel ih =>
        exact .ite (.stop _) (.bind allocate_offline fun _ => .ite (arrStore_offline _)
          (.bind arrGc_offline fun _ => .ite ih (.stop _)))
  exact .bind .get fun _ => attempt _

theorem signed_offline (v : Int) : Offline (signed v) := .emit (by simp [Event.offline])

theorem arrCheckBounds_offline (r i : Word) : Offline (arrCheckBounds r i) :=
  .ite (.stop _) (.bind (marrGetElement_offline arrMem _) fun _ => .ite (.stop _)
    (.bind (signed_offline _) fun _ => .ite (.stop _) (.pure _)))

theorem arrGet_offline (r i : Word) : Offline (arrGet r i) :=
  .bind (arrCheckBounds_offline r i) fun _ =>
    .bind (marrGetElement_offline arrMem _) fun _ => .pure _

theorem arrSet_offline (r i v : Word) : Offline (arrSet r i v) :=
  .bind (arrCheckBounds_offline r i) fun _ =>
    .bind (marrGetElement_offline arrMem _) fun _ => .modify fun _ => rfl

end Arrays

/-- The program does nothing to the connections, or is one of the operations on them. -/
inductive Networking : {α : Type} → VM α → Prop where
  | offline {α : Type} {m : VM α} (h : Offline m) : Networking m
  | bind (port : Word) : Networking (netBind port)
  | connect (host port : Word) : Networking (netConnect host port)
  | recv (netRef : Word) : Networking (netRecv netRef)
  | send (netRef data : Word) : Networking (netSend netRef data)
  | close (netRef : Word) : Networking (netClose netRef)

end Ijvm
