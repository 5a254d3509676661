import Ijvm.Machine.Decode
import Ijvm.Transcript.Relational

/-!
# Programs that read neither the WIDE flag nor old marks

Only three instructions look at the flag of the WIDE prefix, and the collector fills the
table of marks anew before it reads any. `Unseen` says so of a program, as a statement about
two runs from states that differ at most there, together with which events it can write.
The flags of the two states stay what they are, so the judgment also says that the program
does not change its own. The two connections of the interpreter to another machine are the
only sources of transfers.
-/

namespace Ijvm

open Transcript Program

/-- `t` is `s` with another WIDE flag, and with other marks if these are hidden. -/
def State.Twins (hidden : Prop) (w w' : Bool) (s t : State) : Prop :=
  ∃ marks, (hidden ∨ marks = s.markedArrays) ∧ s.nextOpWide = w ∧
    t = { s with markedArrays := marks, nextOpWide := w' }

/-- The event moves no data over a connection. -/
def Event.local : Event → Prop
  | .sys (.send _ _) _ => False
  | .sys (.recv _ _) _ => False
  | _ => True

/-- The same event, up to what is different at the entry of the collector. -/
inductive Event.Twins (R : State → State → Prop) (ok : Event → Prop) : Event → Event → Prop where
  | gc {s t : State} (same : R s t) : Twins R ok (.gc s) (.gc t)
  | same {e : Event} (h : ok e) : Twins R ok e e

/-- The program reads and writes neither the flag nor hidden marks, and its events satisfy
`ok`. -/
abbrev Unseen {α : Type} (hidden : Prop) (w w' : Bool) (ok : Event → Prop) (m : VM α) : Prop :=
  Respects (State.Twins hidden w w') (Event.Twins (State.Twins hidden w w') ok) m

variable {hidden : Prop} {w w' : Bool}

namespace Unseen

variable {α β : Type} {ok : Event → Prop}

protected theorem pure (a : α) : Unseen hidden w w' ok (pure a : VM α) :=
  Agrees.pure fun _ _ h => h

protected theorem stop (e : Stop) : Unseen hidden w w' ok (Program.stop e : VM α) :=
  Agrees.stop fun _ _ h => h

protected theorem destroy (e : Err) : Unseen hidden w w' ok (destroyIjvmNow e : VM α) := .stop _

protected theorem ask : Unseen hidden w w' ok (Program.ask : VM Env) := Agrees.ask

protected theorem bind {m : VM α} {f : α → VM β} (first : Unseen hidden w w' ok m)
    (next : ∀ a, Unseen hidden w w' ok (f a)) : Unseen hidden w w' ok (m >>= f) :=
  Agrees.bind first next

protected theorem map {m : VM α} (f : α → β) (h : Unseen hidden w w' ok m) :
    Unseen hidden w w' ok (f <$> m) :=
  Agrees.map f h fun _ _ _ hs => hs

protected theorem ite {c : Prop} [Decidable c] {yes no : VM α}
    (ifTrue : Unseen hidden w w' ok yes) (ifFalse : Unseen hidden w w' ok no) :
    Unseen hidden w w' ok (if c then yes else no) :=
  Agrees.ite (fun _ => ifTrue) fun _ => ifFalse

/-- The continuation of a read ignores the marks and the flag. -/
protected theorem get_bind {f : State → VM α}
    (same : ∀ s marks flag, f s = f { s with markedArrays := marks, nextOpWide := flag })
    (next : ∀ s, Unseen hidden w w' ok (f s)) : Unseen hidden w w' ok (get >>= f : VM α) := by
  refine Agrees.get_bind ?_ next
  rintro s _ ⟨marks, _, _, rfl⟩
  exact same s marks w'

/-- The continuation of a read ignores the marks, and the flags are the same. -/
protected theorem flag_bind {f : State → VM α}
    (same : ∀ s marks, f s = f { s with markedArrays := marks })
    (next : ∀ s, Unseen hidden w w ok (f s)) : Unseen hidden w w ok (get >>= f : VM α) := by
  refine Agrees.get_bind ?_ next
  rintro s _ ⟨marks, _, rfl, rfl⟩
  exact same s marks

protected theorem modify {f : State → State}
    (same : ∀ s marks flag, f { s with markedArrays := marks, nextOpWide := flag } =
      { f s with markedArrays := marks, nextOpWide := flag })
    (keeps : ∀ s, (f s).markedArrays = s.markedArrays ∧ (f s).nextOpWide = s.nextOpWide) :
    Unseen hidden w w' ok (modify f : VM PUnit) := by
  refine Agrees.modify ?_
  rintro s _ ⟨marks, visible, flag, rfl⟩
  refine ⟨marks, ?_, (keeps s).2.trans flag, same s marks w'⟩
  rw [(keeps s).1]
  exact visible

protected theorem emit {es : List Event} (h : ∀ e ∈ es, ok e) :
    Unseen hidden w w' ok (Program.emit es : VM Unit) :=
  Agrees.emit fun e member => .same (h e member)

protected theorem forRange {first count : Nat} {body : Nat → VM Unit}
    (iteration : ∀ i, Unseen hidden w w' ok (body i)) :
    Unseen hidden w w' ok (Program.forRange first count body) :=
  Agrees.foldRange fun i _ => iteration i

/-- More events may be allowed. -/
theorem weaken {ok' : Event → Prop} {m : VM α} (h : Unseen hidden w w' ok m)
    (imp : ∀ e, ok e → ok' e) : Unseen hidden w w' ok' m := by
  refine h.mono (fun _ _ hs => hs) (fun _ _ _ hs => hs) (fun _ _ hs => hs) ?_
  rintro _ _ (same | allowed)
  · exact .gc same
  · exact .same (imp _ allowed)

end Unseen

theorem allocate_unseen : Unseen hidden w w' Event.local allocate := by
  rintro env s _ ⟨marks, visible, flag, rfl⟩
  exact ⟨rfl, ⟨marks, visible, flag, rfl⟩, .nil⟩

theorem sysCall_unseen {ok : Event → Prop} (call : SysCall) (h : ∀ n, ok (.sys call n)) :
    Unseen hidden w w' ok (sysCall call) := by
  rintro env s _ ⟨marks, visible, flag, rfl⟩
  exact ⟨rfl, ⟨marks, visible, flag, rfl⟩, .cons (.same (h _)) .nil⟩

theorem signed_unseen (v : Int) : Unseen hidden w w' Event.local (signed v) :=
  .emit (by simp [Event.local])

theorem modifyCpu_unseen (f : Cpu → Cpu) : Unseen hidden w w' Event.local (modifyCpu f) :=
  .modify (fun _ _ _ => rfl) fun _ => ⟨rfl, rfl⟩

/-- The mapped array is not made of marks. -/
structure MArrPtr.Apart {α : Type} (marr : MArrPtr α) : Prop where
  get : ∀ s marks, marr.get { s with markedArrays := marks } = marr.get s
  set : ∀ m s marks,
    marr.set m { s with markedArrays := marks } = { marr.set m s with markedArrays := marks }

theorem arrMem_apart : arrMem.Apart := ⟨fun _ _ => rfl, fun _ _ _ => rfl⟩

theorem netConn_apart : netConn.Apart := ⟨fun _ _ => rfl, fun _ _ _ => rfl⟩

/-- Nor is the flag a part of it. -/
structure MArrPtr.Separate {α : Type} (marr : MArrPtr α) : Prop extends marr.Apart where
  get_flag : ∀ s flag, marr.get { s with nextOpWide := flag } = marr.get s
  set_flag : ∀ m s flag,
    marr.set m { s with nextOpWide := flag } = { marr.set m s with nextOpWide := flag }

theorem arrMem_separate : arrMem.Separate :=
  { arrMem_apart with get_flag := fun _ _ => rfl, set_flag := fun _ _ _ => rfl }

theorem netConn_separate : netConn.Separate :=
  { netConn_apart with get_flag := fun _ _ => rfl, set_flag := fun _ _ _ => rfl }

namespace MArrPtr.Separate

variable {α : Type} {marr : MArrPtr α}

theorem get_both (apart : marr.Separate) (s : State) (marks : List Bool) (flag : Bool) :
    marr.get { s with markedArrays := marks, nextOpWide := flag } = marr.get s :=
  (apart.get_flag { s with markedArrays := marks } flag).trans (apart.get s marks)

theorem set_both (apart : marr.Separate) (m : MArr α) (s : State) (marks : List Bool)
    (flag : Bool) : marr.set m { s with markedArrays := marks, nextOpWide := flag } =
      { marr.set m s with markedArrays := marks, nextOpWide := flag } :=
  (apart.set_flag m { s with markedArrays := marks } flag).trans (by rw [apart.set m s marks])

theorem markedArrays_set (apart : marr.Separate) (m : MArr α) (s : State) :
    (marr.set m s).markedArrays = s.markedArrays := by
  have same := congrArg State.markedArrays (apart.set m s s.markedArrays)
  exact same

end MArrPtr.Separate

section Collector

/-- The program reads and writes no flag; the marks show. -/
abbrev FlagUnseen {α : Type} (w w' : Bool) (m : VM α) : Prop :=
  Unseen False w w' Event.local m

namespace FlagUnseen

variable {α : Type}

protected theorem get_bind {f : State → VM α}
    (same : ∀ s flag, f s = f { s with nextOpWide := flag })
    (next : ∀ s, FlagUnseen w w' (f s)) : FlagUnseen w w' (get >>= f : VM α) := by
  refine Agrees.get_bind ?_ next
  rintro s _ ⟨_, visible, _, rfl⟩
  obtain rfl := visible.resolve_left id
  exact same s w'

protected theorem modify {f : State → State}
    (same : ∀ s flag, f { s with nextOpWide := flag } = { f s with nextOpWide := flag })
    (keeps : ∀ s, (f s).nextOpWide = s.nextOpWide) : FlagUnseen w w' (modify f : VM PUnit) := by
  refine Agrees.modify ?_
  rintro s _ ⟨_, visible, flag, rfl⟩
  obtain rfl := visible.resolve_left id
  exact ⟨_, Or.inr rfl, (keeps s).trans flag, same s w'⟩

/-- Where marks are hidden, nothing more is asked. -/
theorem unseen {m : VM α} (h : FlagUnseen w w' m) (env : Env) (s t : State)
    (twins : State.Twins False w w' s t) :
    Outcome.Agree (fun _ => State.Twins hidden w w') (State.Twins hidden w w')
      (Event.Twins (State.Twins hidden w w') Event.local) (m.run env s) (m.run env t) := by
  have less {s t : State} (h : State.Twins False w w' s t) : State.Twins hidden w w' s t := by
    obtain ⟨marks, visible, rest⟩ := h
    exact ⟨marks, visible.imp_left False.elim, rest⟩
  refine (h env s t twins).mono (fun _ _ _ h => less h) (fun _ _ h => less h) ?_
  rintro _ _ (same | allowed)
  · exact .gc (less same)
  · exact .same allowed

end FlagUnseen

theorem marrCheckMarked_unseen (i : Nat) : FlagUnseen w w' (marrCheckMarked arrMem i) :=
  .get_bind (fun _ _ => rfl) fun _ => .ite (.stop _) (.pure _)

theorem markIndex_unseen (i : Nat) : FlagUnseen w w' (markIndex i) :=
  .bind (marrCheckMarked_unseen i) fun _ =>
    .ite (FlagUnseen.modify (fun _ _ => rfl) fun _ => rfl) (.pure _)

theorem markStackElement_unseen (k : Nat) : FlagUnseen w w' (markStackElement k) :=
  .get_bind (fun _ _ => rfl) fun _ => .bind (.emit (by simp [Event.local])) fun _ =>
    .ite (markIndex_unseen _) (.pure _)

theorem getArray_unseen (i : Nat) : FlagUnseen w w' (marrGetElement arrMem i) :=
  .get_bind (fun _ _ => rfl) fun _ => .ite (.stop _) (.ite (.stop _) (.pure _))

theorem markElementsOf_unseen (i : Nat) : FlagUnseen w w' (markElementsOf i) :=
  .get_bind (fun _ _ => rfl) fun _ => .ite (.bind (getArray_unseen i) fun _ =>
    .forRange fun _ => .ite (.ite (markIndex_unseen _) (.pure _)) (.pure _)) (.pure _)

theorem markArrays_unseen : FlagUnseen w w' markArrays :=
  .get_bind (fun _ _ => rfl) fun _ => .bind (.forRange fun _ => markStackElement_unseen _)
    fun _ => FlagUnseen.get_bind (fun _ _ => rfl) fun _ =>
      .forRange fun _ => markElementsOf_unseen _

theorem arrRemove_unseen (i : Nat) : FlagUnseen w w' (arrRemove i) :=
  .bind (getArray_unseen i) fun _ => FlagUnseen.get_bind (fun _ _ => rfl) fun _ =>
    .ite (.stop _) (FlagUnseen.modify (fun _ _ => rfl) fun _ => rfl)

theorem sweepArray_unseen (i n : Nat) : FlagUnseen w w' (sweepArray i n) :=
  .get_bind (fun _ _ => rfl) fun _ => .ite (.bind (marrCheckMarked_unseen i) fun _ =>
    .ite (.bind (arrRemove_unseen i) fun _ => .pure _) (.pure _)) (.pure _)

theorem sweepArrays_unseen : FlagUnseen w w' sweepArrays :=
  .get_bind (fun _ _ => rfl) fun _ => Agrees.foldRange fun _ _ => sweepArray_unseen _ _

/-- The collector resets the marks before it reads them. -/
theorem arrGc_unseen : Unseen hidden w w' Event.local arrGc := by
  rintro env s _ ⟨marks, visible, flag, rfl⟩
  have event : Event.Twins (State.Twins hidden w w') Event.local (.gc s)
      (.gc { s with markedArrays := marks, nextOpWide := w' }) :=
    .gc ⟨marks, visible, flag, rfl⟩
  simp only [arrGc, run_bind, run_get, run_emit, run_allocate, Outcome.andThen_done,
    Outcome.prepend_nil]
  refine Outcome.Agree.prepend ?_ (.cons event .nil)
  cases env.alloc s.clock with
  | false => exact ⟨rfl, ⟨marks, visible, flag, rfl⟩, .nil⟩
  | true =>
      have fresh : FlagUnseen w w' (do markArrays; sweepArrays : VM Nat) :=
        .bind markArrays_unseen fun _ => sweepArrays_unseen
      simp only [if_true, run_bind, run_modify, Outcome.andThen_done, Outcome.prepend_nil]
      exact fresh.unseen env _ _ ⟨_, Or.inr rfl, flag, rfl⟩

end Collector

section MappedArrays

variable {α : Type} {marr : MArrPtr α}

theorem modify_set_unseen (apart : marr.Separate) (m : MArr α) :
    Unseen hidden w w' Event.local (modify (marr.set m) : VM PUnit) :=
  .modify (apart.set_both m) fun s => ⟨apart.markedArrays_set m s, marr.nextOpWide_set m s⟩

theorem getFreeIndex_unseen (apart : marr.Separate) :
    Unseen hidden w w' Event.local (getFreeIndex marr) := by
  have search : Unseen hidden w w' Event.local
      (do return ((marr.get (← get)).firstFree.getD sizeMaxUint32) : VM Nat) :=
    .get_bind (fun s marks flag => by rw [apart.get_both s marks flag]) fun _ => .pure _
  exact .get_bind (fun _ _ _ => rfl) fun _ => .ite
    (.bind (.modify (fun _ _ _ => rfl) fun _ => ⟨rfl, rfl⟩) fun _ =>
      .bind arrGc_unseen fun _ => search)
    (.bind (.modify (fun _ _ _ => rfl) fun _ => ⟨rfl, rfl⟩) fun _ => search)

theorem marrAddElement_unseen (apart : marr.Separate) (data : α) :
    Unseen hidden w w' Event.local (marrAddElement marr data) :=
  .bind (getFreeIndex_unseen apart) fun _ => .ite (.pure _)
    (.get_bind (fun s marks flag => by rw [apart.get_both s marks flag]) fun _ =>
      .bind (modify_set_unseen apart _) fun _ => .pure _)

variable [Inhabited α]

theorem marrGetElement_unseen (apart : marr.Separate) (i : Nat) :
    Unseen hidden w w' Event.local (marrGetElement marr i) :=
  .get_bind (fun s marks flag => by rw [apart.get_both s marks flag]) fun _ =>
    .ite (.destroy _) (.ite (.destroy _) (.pure _))

theorem marrRemoveElement_unseen (apart : marr.Separate) (i : Nat) :
    Unseen hidden w w' Event.local (marrRemoveElement marr i) :=
  .get_bind (fun s marks flag => by rw [apart.get_both s marks flag]) fun _ =>
    .ite (.destroy _) (modify_set_unseen apart _)

theorem marrResizeFuel_unseen (apart : marr.Separate) (fuel newSize : Nat) :
    Unseen hidden w w' Event.local (marrResizeFuel marr fuel newSize) := by
  induction fuel with
  | zero => exact .stop _
  | succ fuel ih =>
      exact .get_bind (fun s marks flag => by rw [apart.get_both s marks flag]) fun _ =>
        .ite (.destroy _) (.ite (.destroy _) (.bind allocate_unseen fun _ =>
          .bind allocate_unseen fun _ => .ite (.bind arrGc_unseen fun _ => .ite ih (.destroy _))
            (modify_set_unseen apart _)))

theorem marrResize_unseen (apart : marr.Separate) (newSize : Nat) :
    Unseen hidden w w' Event.local (marrResize marr newSize) :=
  .get_bind (fun _ _ _ => rfl) fun _ => marrResizeFuel_unseen apart _ newSize

theorem marrInit_unseen (apart : marr.Separate) (size : Nat) :
    Unseen hidden w w' Event.local (marrInit marr size) :=
  .bind (modify_set_unseen apart _) fun _ =>
    .ite (.destroy _) (marrResize_unseen apart size)

end MappedArrays

section Arrays

theorem arrPrepare_unseen : Unseen hidden w w' Event.local arrPrepare :=
  .get_bind (fun _ _ _ => rfl) fun _ => .ite (marrInit_unseen arrMem_separate _) (.pure _)

theorem arrSave_unseen (arr : Block) : Unseen hidden w w' Event.local (arrSave arr) :=
  .bind (marrAddElement_unseen arrMem_separate arr) fun _ => .ite
    (.get_bind (fun _ _ _ => rfl) fun _ => .bind (marrResize_unseen arrMem_separate _) fun _ =>
      marrAddElement_unseen arrMem_separate arr)
    (.pure _)

theorem arrStore_unseen (arr : Block) : Unseen hidden w w' Event.local (arrStore arr) :=
  .bind arrPrepare_unseen fun _ => .bind (arrSave_unseen arr) fun _ =>
    .ite (.destroy _) (.pure _)

theorem arrCreateFuel_unseen (fuel : Nat) (count : Word) :
    Unseen hidden w w' Event.local (arrCreateFuel fuel count) := by
  induction fuel with
  | zero => exact .stop _
  | succ fuel ih =>
      exact .ite (.destroy _) (.bind allocate_unseen fun _ => .ite (arrStore_unseen _)
        (.bind arrGc_unseen fun _ => .ite ih (.destroy _)))

theorem arrCreate_unseen (count : Word) : Unseen hidden w w' Event.local (arrCreate count) :=
  .get_bind (fun _ _ _ => rfl) fun _ => arrCreateFuel_unseen _ count

theorem arrCheckBounds_unseen (r i : Word) : Unseen hidden w w' Event.local (arrCheckBounds r i) :=
  .ite (.destroy _) (.bind (marrGetElement_unseen arrMem_separate _) fun _ => .ite (.destroy _)
    (.bind (signed_unseen _) fun _ => .ite (.destroy _) (.pure _)))

theorem arrGet_unseen (r i : Word) : Unseen hidden w w' Event.local (arrGet r i) :=
  .bind (arrCheckBounds_unseen r i) fun _ =>
    .bind (marrGetElement_unseen arrMem_separate _) fun _ => .pure _

theorem arrSet_unseen (r i v : Word) : Unseen hidden w w' Event.local (arrSet r i v) :=
  .bind (arrCheckBounds_unseen r i) fun _ =>
    .bind (marrGetElement_unseen arrMem_separate _) fun _ =>
      .modify (fun _ _ _ => rfl) fun _ => ⟨rfl, rfl⟩

end Arrays

section Connections

theorem sysCall_local {call : SysCall} (h : ∀ n, Event.local (.sys call n)) :
    Unseen hidden w w' Event.local (sysCall call) :=
  sysCall_unseen call h

theorem socketStore_unseen (sock : Sock) : Unseen hidden w w' Event.local (socketStore sock) := by
  have save : Unseen hidden w w' Event.local (socketSave sock) :=
    .bind (marrAddElement_unseen netConn_separate sock) fun _ => .ite
      (.get_bind (fun _ _ _ => rfl) fun _ => .bind (marrResize_unseen netConn_separate _) fun _ =>
        marrAddElement_unseen netConn_separate sock)
      (.pure _)
  refine .bind (.get_bind (fun _ _ _ => rfl) fun _ =>
    .ite (marrInit_unseen netConn_separate _) (.pure _)) fun _ => .bind save fun _ => ?_
  exact .bind (.ite (.destroy _) (.pure _)) fun _ => .pure _

theorem socketCreate_unseen (host : Word) (port : BitVec 16) :
    Unseen hidden w w' Event.local (socketCreate host port) :=
  .bind allocate_unseen fun _ => .ite
    (.bind (sysCall_local fun _ => trivial) fun _ => socketStore_unseen _) (.stop _)

theorem updateSock_unseen (netI : Nat) (sock : Sock) :
    Unseen hidden w w' Event.local (updateSock netI sock) :=
  .modify (fun _ _ _ => rfl) fun _ => ⟨rfl, rfl⟩

theorem netBind_unseen (port : Word) : Unseen hidden w w' Event.local (netBind port) :=
  .bind (socketCreate_unseen _ _) fun _ =>
    .bind (marrGetElement_unseen netConn_separate _) fun _ =>
    .bind (sysCall_local fun _ => trivial) fun _ => .ite (.pure _)
      (.bind (sysCall_local fun _ => trivial) fun _ => .ite (.pure _)
        (.bind (sysCall_local fun _ => trivial) fun _ => .bind (updateSock_unseen _ _) fun _ =>
          .ite (.pure _) (.bind (updateSock_unseen _ _) fun _ => .pure _)))

theorem netConnect_unseen (host port : Word) :
    Unseen hidden w w' Event.local (netConnect host port) :=
  .bind (socketCreate_unseen _ _) fun _ =>
    .bind (marrGetElement_unseen netConn_separate _) fun _ =>
    .bind (sysCall_local fun _ => trivial) fun _ => .ite (.pure _)
      (.bind (updateSock_unseen _ _) fun _ => .pure _)

theorem closeDescriptor_unseen (fd : Int) : Unseen hidden w w' Event.local (closeDescriptor fd) :=
  .bind (sysCall_local fun _ => trivial) fun _ =>
    .bind (sysCall_local fun _ => trivial) fun _ => .pure _

private theorem closeIf_unseen (c : Prop) [Decidable c] (fd : Int) (netI : Nat) (sock : Sock)
    {rest : VM Unit} (h : Unseen hidden w w' Event.local rest) :
    Unseen hidden w w' Event.local
      (if c then do closeDescriptor fd; updateSock netI sock; rest else rest) :=
  .ite (.bind (closeDescriptor_unseen fd) fun _ =>
    .bind (updateSock_unseen netI sock) fun _ => h) h

theorem netClose_unseen (netRef : Word) : Unseen hidden w w' Event.local (netClose netRef) :=
  .bind (.ite (.destroy _) (.pure _)) fun _ => .bind (marrGetElement_unseen netConn_separate _)
    fun _ => closeIf_unseen _ _ _ _ <| .bind (marrGetElement_unseen netConn_separate _) fun _ =>
      closeIf_unseen _ _ _ _ <| .bind (marrGetElement_unseen netConn_separate _) fun _ =>
        marrRemoveElement_unseen netConn_separate _

/-- A transfer is written to the transcript as it is. -/
theorem netRecv_unseen (netRef : Word) : Unseen hidden w w' (fun _ => True) (netRecv netRef) := by
  have weak {α : Type} {m : VM α} (h : Unseen hidden w w' Event.local m) :
      Unseen hidden w w' (fun _ => True) m :=
    h.weaken fun _ _ => trivial
  refine .bind (.ite (.destroy _) (.pure _)) fun _ =>
    .bind (weak (marrGetElement_unseen netConn_separate _)) fun sock => ?_
  cases sock.dataFd? with
  | none => exact .destroy _
  | some fd =>
      exact .bind .ask fun _ => .get_bind (fun _ _ _ => rfl) fun _ =>
        .bind (sysCall_unseen _ fun _ => trivial) fun _ => .ite (.destroy _) (.pure _)

theorem netSend_unseen (netRef data : Word) :
    Unseen hidden w w' (fun _ => True) (netSend netRef data) := by
  have weak {α : Type} {m : VM α} (h : Unseen hidden w w' Event.local m) :
      Unseen hidden w w' (fun _ => True) m :=
    h.weaken fun _ _ => trivial
  refine .bind (.ite (.destroy _) (.pure _)) fun _ =>
    .bind (weak (marrGetElement_unseen netConn_separate _)) fun sock => ?_
  cases sock.dataFd? with
  | none => exact .destroy _
  | some fd =>
      exact .bind (sysCall_unseen _ fun _ => trivial) fun _ => .ite (.destroy _) (.pure _)

end Connections

section Stack

theorem growStackFuel_unseen (fuel : Nat) :
    Unseen hidden w w' Event.local (growStackFuel fuel) := by
  have octuple (fuel : Nat) : Unseen hidden w w' Event.local (octupleStackSizeFuel fuel) := by
    induction fuel with
    | zero => exact .stop _
    | succ fuel ih =>
        exact .get_bind (fun _ _ _ => rfl) fun _ => .ite (.destroy _) (.bind allocate_unseen
          fun _ => .ite (.bind (modifyCpu_unseen _) fun _ => .pure _)
            (.bind arrGc_unseen fun _ => .ite ih (.destroy _)))
  induction fuel with
  | zero => exact .stop _
  | succ fuel ih =>
      exact .get_bind (fun _ _ _ => rfl) fun _ => .ite
        (.bind (.get_bind (fun _ _ _ => rfl) fun _ => octuple _) fun _ => .ite (.pure _) ih)
        (.pure _)

theorem stackPush_unseen (e : Word) : Unseen hidden w w' Event.local (stackPush e) := by
  have write : Unseen hidden w w' Event.local (writeTop e) :=
    .get_bind (fun _ _ _ => rfl) fun _ => .bind (.emit (by simp [Event.local])) fun _ =>
      modifyCpu_unseen _
  refine .bind (modifyCpu_unseen _) fun _ => .get_bind (fun _ _ _ => rfl) fun _ => .ite
    (.bind write fun _ => .pure _) (.bind ?_ fun _ => .ite (.pure _)
      (.bind write fun _ => .pure _))
  exact .get_bind (fun _ _ _ => rfl) fun _ => growStackFuel_unseen _

theorem pushLast_unseen (e : Word) :
    Unseen hidden w w' Event.local (do let _ ← stackPush e : VM Unit) :=
  .bind (stackPush_unseen e) fun _ => .pure _

theorem stackPop_unseen (access : StackAccess) : Unseen hidden w w' Event.local (stackPop access) :=
  .get_bind (fun _ _ _ => rfl) fun _ => .ite (.destroy _)
    (.bind (.emit (by simp [Event.local])) fun _ => .bind (modifyCpu_unseen _) fun _ => .pure _)

theorem getConstant_unseen (i : Int) : Unseen hidden w w' Event.local (getConstant i) :=
  .get_bind (fun _ _ _ => rfl) fun _ => .ite (.destroy _) (.pure _)

theorem getLocalVariable_unseen (i : Int) : Unseen hidden w w' Event.local (getLocalVariable i) :=
  .get_bind (fun _ _ _ => rfl) fun _ => .ite (.destroy _)
    (.bind (.emit (by simp [Event.local])) fun _ => .pure _)

theorem updateLocalVariable_unseen (v : Word) (i : Int) :
    Unseen hidden w w' Event.local (updateLocalVariable v i) :=
  .get_bind (fun _ _ _ => rfl) fun _ => .ite (.destroy _)
    (.bind (.emit (by simp [Event.local])) fun _ => modifyCpu_unseen _)

theorem jump_unseen (offset : Int) : Unseen hidden w w' Event.local (jump offset) :=
  .get_bind (fun _ _ _ => rfl) fun _ => .bind (signed_unseen _) fun _ =>
    .ite (.destroy _) (modifyCpu_unseen _)

end Stack

section Instructions

theorem argOutside_unseen {α : Type} (k : Nat) (e : Err) :
    Unseen hidden w w' Event.local (argOutside k e : VM α) := by
  refine .get_bind (fun _ _ _ => rfl) fun _ => .ite (.destroy _) (.bind (.emit ?_) fun _ => .stop _)
  intro ev member
  obtain ⟨i, _, rfl⟩ := List.mem_map.mp member
  trivial

theorem getArgByte_unseen : Unseen hidden w w' Event.local getArgByte :=
  .get_bind (fun _ _ _ => rfl) fun _ => .bind (signed_unseen _) fun _ =>
    .ite (argOutside_unseen _ _)
    (.bind (.emit (by simp [Event.local])) fun _ => .bind (modifyCpu_unseen _) fun _ => .pure _)

theorem getArgShort_unseen : Unseen hidden w w' Event.local getArgShort :=
  .get_bind (fun _ _ _ => rfl) fun _ => .bind (signed_unseen _) fun _ =>
    .ite (argOutside_unseen _ _)
    (.bind (.emit (by simp [Event.local])) fun _ => .bind (modifyCpu_unseen _) fun _ => .pure _)

/-- An index of a local variable is read by the flag. -/
theorem getVarIndex_unseen : Unseen hidden w w Event.local getVarIndex :=
  .flag_bind (fun _ _ => rfl) fun _ => .ite (.bind getArgShort_unseen fun _ => .pure _)
    (.bind getArgByte_unseen fun _ => .pure _)

theorem popThen_unseen {ok : Event → Prop} {α : Type} {f : Word → VM α}
    (imp : ∀ e, e.local → ok e) (next : ∀ v, Unseen hidden w w' ok (f v)) :
    Unseen hidden w w' ok (stackPop .pop >>= f) :=
  .bind ((stackPop_unseen .pop).weaken imp) next

theorem execBinary_unseen (computes : Word → Word → List Int) (f : Word → Word → Word) :
    Unseen hidden w w' Event.local (execBinary computes f) := by
  refine popThen_unseen (fun _ h => h) fun _ => popThen_unseen (fun _ h => h) fun _ =>
    .bind (.emit ?_) fun _ => pushLast_unseen _
  intro e member
  obtain ⟨v, _, rfl⟩ := List.mem_map.mp member
  trivial

theorem execOpIinc_unseen : Unseen hidden w w Event.local execOpIinc := by
  have rest (i : Int) : Unseen hidden w w Event.local (do
      let c ← getArgByte
      let old ← getLocalVariable i
      signed (old.toInt + c.toInt)
      updateLocalVariable (old + c.signExtend 32) i : VM Unit) :=
    .bind getArgByte_unseen fun _ => .bind (getLocalVariable_unseen i) fun _ =>
      .bind (signed_unseen _) fun _ => updateLocalVariable_unseen _ i
  exact .flag_bind (fun _ _ => rfl) fun _ => .ite (.bind (.map _ getArgShort_unseen) rest)
    (.bind (.map _ getArgByte_unseen) rest)

theorem branch_unseen {c : Prop} [Decidable c] (offset : Int) :
    Unseen hidden w w' Event.local (if c then jump offset else pure ()) :=
  .ite (jump_unseen offset) (.pure _)

theorem getJumpOffset_unseen : Unseen hidden w w' Event.local getJumpOffset :=
  .bind getArgShort_unseen fun _ => .pure _

theorem execOpIreturn_unseen : Unseen hidden w w' Event.local execOpIreturn := by
  have linkage {α : Type} {f : Word → VM α} (next : ∀ v, Unseen hidden w w' Event.local (f v)) :
      Unseen hidden w w' Event.local (stackPop .linkage >>= f) :=
    .bind (stackPop_unseen .linkage) next
  have set {f : Cpu → Cpu} {α : Type} {g : VM α} (next : Unseen hidden w w' Event.local g) :
      Unseen hidden w w' Event.local (do modifyCpu f; g) := .bind (modifyCpu_unseen f) fun _ => next
  refine .bind (stackPop_unseen .pop) fun retVal => .get_bind (fun _ _ _ => rfl) fun _ =>
    .get_bind (fun _ _ _ => rfl) fun _ => .bind (signed_unseen _) fun _ => set ?_
  refine linkage fun _ => set <| linkage fun _ => set <| linkage fun _ => set <|
    linkage fun _ => set <| .get_bind (fun _ _ _ => rfl) fun _ => .bind (signed_unseen _)
      fun _ => set <| .get_bind (fun _ _ _ => rfl) fun _ => ?_
  exact .ite (.destroy _) (pushLast_unseen retVal)

theorem execOpInvokevirtual_unseen : Unseen hidden w w' Event.local execOpInvokevirtual := by
  have enter : Unseen hidden w w' Event.local enterMethod :=
    .bind getArgShort_unseen fun _ => .bind (getConstant_unseen _) fun _ =>
      .get_bind (fun _ _ _ => rfl) fun _ => .ite (.destroy _) (.bind (modifyCpu_unseen _) fun _ =>
        .bind getArgShort_unseen fun _ => .bind getArgShort_unseen fun _ => .pure _)
  have linkage (pc : Int) : Unseen hidden w w' Event.local (pushLinkage pc) :=
    .get_bind (fun _ _ _ => rfl) fun _ => .bind (stackPush_unseen _) fun _ => .ite (.pure _)
      (.get_bind (fun _ _ _ => rfl) fun _ => .bind (stackPush_unseen _) fun _ => .ite (.pure _)
        (.get_bind (fun _ _ _ => rfl) fun _ => .bind (stackPush_unseen _) fun _ => .ite (.pure _)
          (stackPush_unseen _)))
  have clear (start : Int) (n : Nat) : Unseen hidden w w' Event.local (clearCells start n) := by
    refine .get_bind (fun _ _ _ => rfl) fun _ => .bind (.emit ?_) fun _ => modifyCpu_unseen _
    intro e member
    obtain ⟨k, _, rfl⟩ := List.mem_map.mp member
    trivial
  have frame (numArgs numLocals : Nat) :
      Unseen hidden w w' Event.local (setFrame numArgs numLocals) :=
    .get_bind (fun _ _ _ => rfl) fun _ => .bind (signed_unseen _) fun _ =>
      .bind (modifyCpu_unseen _) fun _ => .bind (modifyCpu_unseen _) fun _ =>
      .get_bind (fun _ _ _ => rfl) fun _ => .get_bind (fun _ _ _ => rfl) fun _ =>
      .bind (signed_unseen _) fun _ => modifyCpu_unseen _
  refine .bind enter fun p => .get_bind (fun _ _ _ => rfl) fun _ => .bind (signed_unseen _)
    fun _ => .bind (modifyCpu_unseen _) fun _ => .bind (linkage _) fun _ => .ite (.destroy _) ?_
  exact .bind (frame _ _) fun _ => .get_bind (fun _ _ _ => rfl) fun _ =>
    .ite (.destroy _) (clear _ _)

theorem execOpIn_unseen : Unseen hidden w w' Event.local execOpIn := by
  refine .bind ?_ fun c => ?_
  · rintro env s _ ⟨marks, visible, flag, rfl⟩
    simp only [getc, run_bind, run_get, Outcome.andThen_done, Outcome.prepend_nil]
    cases s with
    | mk gCpu arrMem markedArrays elementCreations netConn nextOpWide inFile outFile clock =>
        cases inFile with
        | nil => exact ⟨rfl, ⟨marks, visible, flag, rfl⟩, .nil⟩
        | cons b rest => exact ⟨rfl, ⟨marks, visible, flag, rfl⟩, .nil⟩
  · cases c with
    | none => exact pushLast_unseen _
    | some b => exact pushLast_unseen _

/-- The instructions that WIDE is for. -/
def Op.readsFlag : Op → Bool
  | .iload | .istore | .iinc => true
  | _ => false

/-- Only NETIN and NETOUT move data, and only three instructions read the flag. -/
theorem execOp_unseen (nested : VM Bool) {op : Op} (unprefixed : op ≠ .wide)
    (elsewhere : op ≠ .netin ∧ op ≠ .netout) (same : op.readsFlag = true → w = w') :
    Unseen hidden w w' Event.local (execOp nested op) := by
  have here : ∀ e : Event, e.local → e.local := fun _ h => h
  cases op with
  | wide => exact absurd rfl unprefixed
  | netin => exact absurd rfl elsewhere.1
  | netout => exact absurd rfl elsewhere.2
  | nop => exact .pure _
  | bipush => exact .bind getArgByte_unseen fun _ => pushLast_unseen _
  | ldcW =>
      exact .bind getArgShort_unseen fun _ => .bind (getConstant_unseen _) fun _ =>
        pushLast_unseen _
  | iload =>
      obtain rfl := same rfl
      exact .bind getVarIndex_unseen fun _ => .bind (getLocalVariable_unseen _) fun _ =>
        pushLast_unseen _
  | istore =>
      obtain rfl := same rfl
      exact popThen_unseen here fun _ => .bind getVarIndex_unseen fun _ =>
        updateLocalVariable_unseen _ _
  | pop => exact popThen_unseen here fun _ => .pure _
  | dup =>
      exact .get_bind (fun _ _ _ => rfl) fun _ => .bind (.emit (by simp [Event.local])) fun _ =>
        pushLast_unseen _
  | swap =>
      exact popThen_unseen here fun _ => popThen_unseen here fun _ =>
        .bind (stackPush_unseen _) fun _ => pushLast_unseen _
  | iadd | isub | iand | ior => exact execBinary_unseen _ _
  | iinc =>
      obtain rfl := same rfl
      exact execOpIinc_unseen
  | ifeq | iflt =>
      exact .bind getJumpOffset_unseen fun _ => popThen_unseen here fun _ =>
        branch_unseen _
  | icmpeq =>
      exact .bind getJumpOffset_unseen fun _ => popThen_unseen here fun _ =>
        popThen_unseen here fun _ => branch_unseen _
  | goto => exact .bind getJumpOffset_unseen fun _ => jump_unseen _
  | ireturn => exact execOpIreturn_unseen
  | invokevirtual => exact execOpInvokevirtual_unseen
  | «in» => exact execOpIn_unseen
  | out => exact popThen_unseen here fun _ => .modify (fun _ _ _ => rfl) fun _ => ⟨rfl, rfl⟩
  | err => exact modifyCpu_unseen fun c => { c with errorFlag := true }
  | halt => exact modifyCpu_unseen fun c => { c with haltFlag := true }
  | newarray =>
      exact popThen_unseen here fun _ => .bind (arrCreate_unseen _) fun _ =>
        pushLast_unseen _
  | iaload =>
      exact popThen_unseen here fun _ => popThen_unseen here fun _ =>
        .bind (arrGet_unseen _ _) fun _ => pushLast_unseen _
  | iastore =>
      exact popThen_unseen here fun _ => popThen_unseen here fun _ =>
        popThen_unseen here fun _ => arrSet_unseen _ _ _
  | gc => exact .bind arrGc_unseen fun _ => .pure _
  | netbind =>
      exact popThen_unseen here fun _ => .bind (netBind_unseen _) fun _ =>
        pushLast_unseen _
  | netconnect =>
      exact popThen_unseen here fun _ => popThen_unseen here fun _ =>
        .bind (netConnect_unseen _ _) fun _ => pushLast_unseen _
  | netclose => exact popThen_unseen here fun _ => netClose_unseen _

/-- The same with all events. -/
theorem execOp_unseen_all (nested : VM Bool) {op : Op} (unprefixed : op ≠ .wide)
    (same : op.readsFlag = true → w = w') :
    Unseen hidden w w' (fun _ => True) (execOp nested op) := by
  have anywhere : ∀ e : Event, e.local → True := fun _ _ => trivial
  by_cases netin : op = .netin
  · subst netin
    exact popThen_unseen anywhere fun _ => .bind (netRecv_unseen _) fun _ =>
      (pushLast_unseen _).weaken anywhere
  by_cases netout : op = .netout
  · subst netout
    exact popThen_unseen anywhere fun _ => popThen_unseen anywhere fun _ => netSend_unseen _ _
  · exact (execOp_unseen nested unprefixed ⟨netin, netout⟩ same).weaken anywhere

end Instructions

end Ijvm
