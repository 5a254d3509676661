import Ijvm.Debugger.Commands
import Ijvm.Records.Flat
import Ijvm.Scan.Turns
import Ijvm.Stack.Calls

/-!
# What the bookkeeping does

The functions that keep the call history leave the machine alone. In a state in which the
machine goes on, and with a history that can take the record of a call with fewer than
32768 arguments, they read code memory, the stack and the history in bounds, and the
history holds the records of the calls that the debugger has seen.
-/

namespace Ijvm

open Transcript Records

/-- Only the call history differs, and the quit flag may have been set. -/
structure DebuggerState.Kept (d d' : DebuggerState) : Prop where
  progState : d'.progState = d.progState
  brkpts : d'.brkpts = d.brkpts
  lastProgPath : d'.lastProgPath = d.lastProgPath
  quitFlag : d.quitFlag = true → d'.quitFlag = true

/-- The machine and the debug data are the same, too. -/
structure Session.Kept (x x' : Session) : Prop where
  vm : x'.vm = x.vm
  debugData : x'.debugData = x.debugData
  requests : x'.requests = x.requests
  dbg : x.dbg.Kept x'.dbg

theorem DebuggerState.Kept.refl (d : DebuggerState) : d.Kept d := ⟨rfl, rfl, rfl, id⟩

theorem DebuggerState.Kept.trans {d₁ d₂ d₃ : DebuggerState} (first : d₁.Kept d₂)
    (second : d₂.Kept d₃) : d₁.Kept d₃ :=
  ⟨second.progState.trans first.progState, second.brkpts.trans first.brkpts,
    second.lastProgPath.trans first.lastProgPath, fun set => second.quitFlag (first.quitFlag set)⟩

theorem Session.Kept.refl (x : Session) : x.Kept x := ⟨rfl, rfl, rfl, .refl _⟩

theorem Session.Kept.trans {x y z : Session} (first : x.Kept y) (second : y.Kept z) : x.Kept z :=
  ⟨second.vm.trans first.vm, second.debugData.trans first.debugData,
    second.requests.trans first.requests, first.dbg.trans second.dbg⟩

/-- A change of the history. -/
theorem Session.Kept.of_dbg {x : Session} {d : DebuggerState} (kept : x.dbg.Kept d) :
    x.Kept { x with dbg := d } :=
  ⟨rfl, rfl, rfl, kept⟩

def DbgEvent.At (s : State) : DbgEvent → Prop
  | .own here _ | .argument here _ _ | .history here _ _ => here = s
  | .console _ => True
  | .vm _ | .entered _ | .stepping _ _ | .naming _ _ | .lookup _ => False

/-- Bookkeeping in the state `s` of the machine that stays inside its code memory, its
stack and the memory of the history, or a lookup. -/
def DbgEvent.Harmless (s : State) : DbgEvent → Prop
  | .own here e => here = s ∧ ∃ i n, e = .code i n ∧ 0 ≤ i ∧ i < n
  | .argument here i n => here = s ∧ 0 ≤ i ∧ i < n
  | .history here i n => here = s ∧ i < n
  | .console _ | .naming _ _ | .lookup _ => True
  | .vm _ | .entered _ | .stepping _ _ => False

/-- The history has room for this many words, or can be made larger within its counters. -/
def HasRoom (r : DbgEnv) (d : DebuggerState) (elements : Nat) : Prop :=
  d.callHistoryTop + elements ≤ d.callHistorySize ∨
    r.grow d.reallocs = true ∧ d.callHistoryTop + elements + 1024 < 2 ^ 32

instance (r : DbgEnv) (d : DebuggerState) (elements : Nat) : Decidable (HasRoom r d elements) :=
  inferInstanceAs (Decidable (_ ∨ _))

/-- The history does not fit this many more words, and its new size wraps around to 0. -/
def Vanishes (d : DebuggerState) (elements : Nat) : Prop :=
  uint32 (d.callHistoryTop + elements) > d.callHistorySize ∧
    uint32 (d.callHistoryTop + elements + 1024) = 0

instance (d : DebuggerState) (elements : Nat) : Decidable (Vanishes d elements) :=
  inferInstanceAs (Decidable (_ ∧ _))

/-- The history is asked to grow for this many words, and cannot. -/
def CannotGrow (r : DbgEnv) (d : DebuggerState) (elements : Nat) : Prop :=
  uint32 (d.callHistoryTop + elements) > d.callHistorySize ∧ r.grow d.reallocs = false ∧
    ¬ Vanishes d elements

instance (r : DbgEnv) (d : DebuggerState) (elements : Nat) : Decidable (CannotGrow r d elements) :=
  inferInstanceAs (Decidable (_ ∧ _))

section Reading

variable {r : DbgEnv} {x : Session}

/-- Bookkeeping that leaves the machine as it is. -/
theorem look_done {α : Type} {m : VM α} {a : α} {es : List Event}
    (run : m.run r.vm x.vm = .done a x.vm es) :
    (look m).run r x = .done a x (es.map (.own x.vm)) := by
  rw [look_run, run]
  rfl

theorem codeAtPc_run :
    codeAtPc.run r x =
      .done (x.vm.gCpu.codeMem x.vm.gCpu.pc) x
        [.own x.vm (.code x.vm.gCpu.pc x.vm.gCpu.codeMemSize)] := rfl

theorem readHistory_run {i : Nat} (inside : i < x.dbg.allocated) :
    (readHistory i).run r x =
      .done (x.dbg.callHistory i) x [.history x.vm i x.dbg.allocated] := by
  simp [readHistory, inside]

theorem readHistory_outside {i : Nat} (outside : ¬ i < x.dbg.allocated) :
    (readHistory i).run r x = .stopped .undefined x [.history x.vm i x.dbg.allocated] := by
  simp [readHistory, outside]

def Session.append (x : Session) (w : Word) : Session :=
  { x with dbg := { x.dbg with
    callHistory := fun j => if j = x.dbg.callHistoryTop then w else x.dbg.callHistory j
    callHistoryTop := uint32 (x.dbg.callHistoryTop + 1) } }

theorem appendHistory_run (w : Word) (room : x.dbg.callHistoryTop < x.dbg.allocated) :
    (appendHistory w).run r x =
      .done () (x.append w) [.history x.vm x.dbg.callHistoryTop x.dbg.allocated] := by
  simp [appendHistory, room, Session.append]

theorem appendHistory_full (w : Word) (full : ¬ x.dbg.callHistoryTop < x.dbg.allocated) :
    (appendHistory w).run r x =
      .stopped .undefined x [.history x.vm x.dbg.callHistoryTop x.dbg.allocated] := by
  simp [appendHistory, full]

theorem appendHistory_done {y : Session} {es : List DbgEvent} {w : Word}
    (run : (appendHistory w).run r x = .done () y es) :
    x.dbg.callHistoryTop < x.dbg.allocated ∧ y = x.append w := by
  by_cases room : x.dbg.callHistoryTop < x.dbg.allocated
  · rw [appendHistory_run w room] at run
    injection run with _ same
    exact ⟨room, same.symm⟩
  · rw [appendHistory_full w room] at run
    contradiction

end Reading

section Frame

variable {x : Session}

/-- The program leaves the machine and the commands alone, whatever it meets. -/
abbrev Bookkeeps (x : Session) {α : Type} (m : DBG α) : Prop :=
  Program.Keeps (fun _ => True) x.Kept (DbgEvent.At x.vm) m

theorem Bookkeeps.done {α : Type} {m : DBG α} (h : Bookkeeps x m) {r : DbgEnv} {a : α}
    {x' : Session} {es : List DbgEvent} (run : m.run r x = .done a x' es) :
    x.Kept x' ∧ ∀ e ∈ es, e.At x.vm := by
  have spec := h r x (.refl x) fun _ _ => trivial
  rw [run] at spec
  exact ⟨spec.1 a x' es rfl, spec.2⟩

theorem Bookkeeps.stopped {α : Type} {m : DBG α} (h : Bookkeeps x m) {r : DbgEnv} {e : Stop}
    {x' : Session} {es : List DbgEvent} (run : m.run r x = .stopped e x' es) :
    ∀ e ∈ es, e.At x.vm := by
  have spec := h r x (.refl x) fun _ _ => trivial
  rw [run] at spec
  exact spec.2

theorem look_bookkeeps {α : Type} {m : VM α}
    (still : ∀ I, Program.Keeps (fun _ => True) I (fun _ => True) m) : Bookkeeps x (look m) := by
  apply Program.Ensures.of_satisfies
  intro r y kept
  have same := still (· = y.vm) r.vm y.vm rfl fun _ _ => trivial
  rw [look_run]
  cases run : m.run r.vm y.vm with
  | done a s es =>
      obtain rfl := same.1 a s es run
      exact ⟨kept, by simp [DbgEvent.At, kept.vm]⟩
  | stopped e s es => simp [DbgEvent.At, kept.vm]

theorem modifyDbg_bookkeeps {f : DebuggerState → DebuggerState}
    (kept : ∀ d : DebuggerState, d.Kept (f d)) : Bookkeeps x (modifyDbg f) :=
  .modify fun _ before => before.trans (Session.Kept.of_dbg (kept _))

theorem codeAtPc_bookkeeps : Bookkeeps x codeAtPc :=
  .bind .get fun _ => look_bookkeeps fun _ => getCodeByte_keeps _

theorem appendHistory_bookkeeps (w : Word) : Bookkeeps x (appendHistory w) :=
  .get_bind fun _ kept => .bind (.emit (by simp [DbgEvent.At, kept.vm])) fun _ =>
    .ite (fun _ => modifyDbg_bookkeeps fun _ => ⟨rfl, rfl, rfl, id⟩) fun _ => .stop _

theorem saveArguments_bookkeeps (i n : Nat) : Bookkeeps x (saveArguments i n) := by
  induction n generalizing i with
  | zero => exact .pure _
  | succ n ih =>
      refine .get_bind fun y kept => .bind (.emit ?_) fun _ => .ite (fun _ =>
        .bind (appendHistory_bookkeeps _) fun _ => ih (i + 1)) fun _ => .stop _
      simp [DbgEvent.At, kept.vm]

theorem fitHistory_bookkeeps (elements : Nat) : Bookkeeps x (fitHistory elements) := by
  refine .bind .get fun _ => .ite (fun _ => ?_) fun _ => .pure _
  refine .bind (modifyDbg_bookkeeps fun _ => ⟨rfl, rfl, rfl, id⟩) fun _ => .bind ?_ fun _ => ?_
  · exact .bind .ask fun _ => .bind .get fun _ => .ite (fun _ => .stop _) fun _ =>
      .bind (modifyDbg_bookkeeps fun _ => ⟨rfl, rfl, rfl, id⟩) fun _ => .pure _
  · refine .ite (fun _ => .bind (.emit (by simp [DbgEvent.At])) fun _ => ?_) fun _ => .pure _
    exact .bind (modifyDbg_bookkeeps fun _ => ⟨rfl, rfl, rfl, fun _ => rfl⟩) fun _ => .pure _

theorem storeFuncCall_bookkeeps : Bookkeeps x storeFuncCall := by
  refine .bind .get fun _ => .bind (look_bookkeeps fun _ => getCodeShort_keeps _) fun _ =>
    .bind (look_bookkeeps fun _ => getConstant_keeps _) fun _ =>
    .bind (look_bookkeeps fun _ => getCodeShort_keeps _) fun _ =>
    .bind (fitHistory_bookkeeps _) fun _ => .ite (fun _ => .pure _) fun _ => ?_
  exact .bind (saveArguments_bookkeeps _ _) fun _ => .bind (appendHistory_bookkeeps _) fun _ =>
    appendHistory_bookkeeps _

theorem removeLastFuncCall_bookkeeps : Bookkeeps x removeLastFuncCall :=
  .bind (modifyDbg_bookkeeps fun _ => ⟨rfl, rfl, rfl, id⟩) fun _ => .bind .get fun _ =>
    .bind (.get_bind fun _ kept => .bind (.emit (by simp [DbgEvent.At, kept.vm])) fun _ =>
      .ite (fun _ => .pure _) fun _ => .stop _) fun _ =>
    modifyDbg_bookkeeps fun _ => ⟨rfl, rfl, rfl, id⟩

/-- Keeping the history up to date never changes the machine. -/
theorem createCallHistory_bookkeeps : Bookkeeps x createCallHistory :=
  .bind codeAtPc_bookkeeps fun _ => .ite (fun _ => storeFuncCall_bookkeeps) fun _ =>
    .bind codeAtPc_bookkeeps fun _ => .ite (fun _ => removeLastFuncCall_bookkeeps) fun _ => .pure _

end Frame

section Saving

variable {r : DbgEnv}

/-- The session after `n` more words were appended to the history, and what they are. -/
structure Appended (x x' : Session) (n : Nat) (word : Nat → Word) : Prop where
  kept : x.Kept x'
  quitFlag : x'.dbg.quitFlag = x.dbg.quitFlag
  size : x'.dbg.callHistorySize = x.dbg.callHistorySize
  allocated : x'.dbg.allocated = x.dbg.allocated
  top : x'.dbg.callHistoryTop = x.dbg.callHistoryTop + n
  below : ∀ j, j < x.dbg.callHistoryTop → x'.dbg.callHistory j = x.dbg.callHistory j
  cell : ∀ k, k < n → x'.dbg.callHistory (x.dbg.callHistoryTop + k) = word k

theorem Appended.zero (x : Session) (word : Nat → Word) : Appended x x 0 word :=
  ⟨.refl x, rfl, rfl, rfl, rfl, fun _ _ => rfl, fun _ below => absurd below (Nat.not_lt_zero _)⟩

theorem Session.append_kept (x : Session) (w : Word) : x.Kept (x.append w) :=
  .of_dbg ⟨rfl, rfl, rfl, id⟩

theorem append_top {x : Session} (w : Word) (room : x.dbg.callHistoryTop + 1 < 2 ^ 32) :
    (x.append w).dbg.callHistoryTop = x.dbg.callHistoryTop + 1 := by
  show uint32 (x.dbg.callHistoryTop + 1) = x.dbg.callHistoryTop + 1
  rw [uint32_of_lt (by omega) (by omega)]
  omega

/-- One word, and then `n` others. -/
theorem Appended.append {x x' : Session} {n : Nat} {word : Nat → Word} {w : Word}
    (room : x.dbg.callHistoryTop + 1 < 2 ^ 32) (rest : Appended (x.append w) x' n word) :
    Appended x x' (n + 1) fun k => if k = 0 then w else word (k - 1) := by
  obtain ⟨kept, quitFlag, size, allocated, top, below, cell⟩ := rest
  rw [append_top w room] at top below cell
  refine ⟨(x.append_kept w).trans kept, quitFlag, size, allocated, by omega, ?_, ?_⟩
  · intro j small
    rw [below j (by omega)]
    exact if_neg (by omega)
  · intro k small
    by_cases first : k = 0
    · subst first
      rw [if_pos rfl, Nat.add_zero, below _ (by omega)]
      exact if_pos rfl
    · rw [if_neg first, ← cell (k - 1) (by omega)]
      congr 1
      omega

theorem Appended.congr {x x' : Session} {n : Nat} {word word' : Nat → Word}
    (h : Appended x x' n word) (same : ∀ k, k < n → word' k = word k) :
    Appended x x' n word' := by
  refine ⟨h.kept, h.quitFlag, h.size, h.allocated, h.top, h.below, fun k below => ?_⟩
  rw [same k below]
  exact h.cell k below

/-- One word after `n` others. -/
theorem Appended.snoc {x x' : Session} {n : Nat} {word : Nat → Word} (h : Appended x x' n word)
    (w : Word) (room : x.dbg.callHistoryTop + n + 1 < 2 ^ 32) :
    Appended x (x'.append w) (n + 1) fun k => if k < n then word k else w := by
  have top := append_top w (x := x') (by rw [h.top]; exact room)
  refine ⟨h.kept.trans (x'.append_kept w), h.quitFlag, h.size, h.allocated, ?_, ?_, ?_⟩
  · rw [top, h.top, Nat.add_assoc]
  · intro j below
    refine (if_neg ?_).trans (h.below j below)
    rw [h.top]
    omega
  · intro k small
    by_cases last : k < n
    · rw [if_pos last]
      refine (if_neg ?_).trans (h.cell k last)
      rw [h.top]
      omega
    · rw [if_neg last]
      refine if_pos ?_
      rw [h.top]
      omega

/-- The arguments are saved from the top of the stack downwards. -/
theorem saveArguments_run {x : Session} {i n : Nat} (operands : (i : Int) + n ≤ x.vm.gCpu.sp + 1)
    (sp_lt : x.vm.gCpu.sp < x.vm.gCpu.stackSize) (size_lt : x.vm.gCpu.stackSize < 2 ^ 31)
    (room : x.dbg.callHistoryTop + n ≤ x.dbg.allocated) (bound : x.dbg.allocated < 2 ^ 32) :
    ∃ x' es, (saveArguments i n).run r x = .done () x' es ∧
      Appended x x' n (fun k => x.vm.gCpu.stack (x.vm.gCpu.sp - i - k)) ∧
      ∀ e ∈ es, e.Harmless x.vm := by
  induction n generalizing i x with
  | zero => exact ⟨x, [], rfl, .zero x _, by simp⟩
  | succ n ih =>
      have index : (uint32 (x.vm.gCpu.sp - i) : Int) = x.vm.gCpu.sp - i := by
        rw [uint32_of_lt (by omega) (by omega)]
        omega
      have inside : x.vm.gCpu.sp - i < x.vm.gCpu.stackSize := by omega
      have fits : x.dbg.callHistoryTop < x.dbg.allocated := by omega
      have top := append_top (x.vm.gCpu.stack (x.vm.gCpu.sp - i))
        (x := x) (by omega)
      obtain ⟨x', es, run, appended, harmless⟩ := ih (i := i + 1)
        (x := x.append (x.vm.gCpu.stack (x.vm.gCpu.sp - i)))
        (by show ((i + 1 : Nat) : Int) + n ≤ x.vm.gCpu.sp + 1; omega) sp_lt size_lt
        (by rw [top]; show _ ≤ x.dbg.allocated; omega) bound
      refine ⟨x', .argument x.vm (x.vm.gCpu.sp - i) x.vm.gCpu.stackSize ::
        .history x.vm x.dbg.callHistoryTop x.dbg.allocated :: es, ?_, ?_, ?_⟩
      · simp only [saveArguments, Program.run_bind, Program.run_get, Program.run_emit,
          Outcome.andThen_done, index, if_pos inside, appendHistory_run _ fits, run,
          Outcome.prepend_done, List.singleton_append, List.nil_append]
      · apply (appended.append (by omega)).congr
        intro k _
        by_cases first : k = 0
        · subst first
          simp
        · rw [if_neg first]
          have cell : x.vm.gCpu.sp - i - k = x.vm.gCpu.sp - (i + 1 : Nat) - (k - 1 : Nat) := by
            omega
          rw [cell]
          rfl
      · intro e member
        rcases List.mem_cons.mp member with rfl | member
        · exact ⟨rfl, by omega, by omega⟩
        · rcases List.mem_cons.mp member with rfl | member
          · exact ⟨rfl, by omega⟩
          · exact harmless e member

/-- Arguments that are saved were on the stack, and found room. The induction is on the
arguments: one that is outside stops the loop. -/
theorem saveArguments_done {x y : Session} {i n : Nat} {es : List DbgEvent}
    (run : (saveArguments i n).run r x = .done () y es) (bound : x.dbg.allocated < 2 ^ 32) :
    (∀ k < n, (uint32 (x.vm.gCpu.sp - (i + k : Nat)) : Int) < x.vm.gCpu.stackSize) ∧
      y.dbg.callHistoryTop = x.dbg.callHistoryTop + n ∧ y.dbg.allocated = x.dbg.allocated := by
  induction n generalizing i x es with
  | zero =>
      injection run with _ same
      subst same
      exact ⟨fun k below => absurd below (Nat.not_lt_zero k), rfl, rfl⟩
  | succ n ih =>
      simp only [saveArguments, Program.run_bind, Program.run_get, Program.run_emit,
        Outcome.andThen_done, Outcome.prepend_nil] at run
      obtain ⟨fs, run, _⟩ := Outcome.prepend_eq_done.mp run
      split at run
      · rename_i inside
        by_cases room : x.dbg.callHistoryTop < x.dbg.allocated
        · rw [Program.run_bind, appendHistory_run _ room, Outcome.andThen_done] at run
          obtain ⟨gs, run, _⟩ := Outcome.prepend_eq_done.mp run
          obtain ⟨inside', top, allocated⟩ := ih run bound
          rw [append_top _ (by omega)] at top
          refine ⟨fun k below => ?_, by omega, allocated⟩
          cases k with
          | zero => exact inside
          | succ k =>
              have here := inside' k (by omega)
              rwa [Nat.add_right_comm, Nat.add_assoc] at here
        · rw [Program.run_bind, appendHistory_full _ room] at run
          contradiction
      · contradiction

/-- The size of the history once it has been made to fit a call. -/
def DebuggerState.roomFor (d : DebuggerState) (elements : Nat) : Nat :=
  if uint32 (d.callHistoryTop + elements) > d.callHistorySize then
    uint32 (d.callHistoryTop + elements + 1024)
  else d.allocated

/-- The session after `fitHistory` has made room. -/
structure Fit (elements : Nat) (x x' : Session) : Prop where
  kept : x.Kept x'
  quitFlag : x'.dbg.quitFlag = x.dbg.quitFlag
  memory : x'.dbg.callHistory = x.dbg.callHistory
  top : x'.dbg.callHistoryTop = x.dbg.callHistoryTop
  sized : x.dbg.callHistorySize = x.dbg.allocated → x'.dbg.callHistorySize = x'.dbg.allocated
  allocated : x'.dbg.allocated = x.dbg.roomFor elements

/-- A history that is not refused grows if it has to. -/
theorem fitHistory_run {elements : Nat} {x : Session} (granted : ¬ CannotGrow r x.dbg elements)
    (stays : ¬ Vanishes x.dbg elements) :
    ∃ x', (fitHistory elements).run r x = .done true x' [] ∧ Fit elements x x' := by
  simp only [fitHistory, Program.run_bind, Program.run_get, Outcome.andThen_done,
    Outcome.prepend_nil]
  by_cases full : uint32 (x.dbg.callHistoryTop + elements) > x.dbg.callHistorySize
  · have grows : r.grow x.dbg.reallocs = true := by
      by_contra no
      exact granted ⟨full, Bool.eq_false_iff.mpr no, stays⟩
    have size : ¬ uint32 (x.dbg.callHistoryTop + elements + 1024) = 0 :=
      fun zero => stays ⟨full, zero⟩
    rw [if_pos full]
    simp only [reallocHistory, Program.run_bind, run_modifyDbg, Program.run_ask,
      Program.run_get, Program.run_pure, Outcome.andThen_done, Outcome.prepend_nil, grows, if_true,
      if_neg size]
    exact ⟨_, rfl, .of_dbg ⟨rfl, rfl, rfl, id⟩, rfl, rfl, rfl, fun _ => rfl, (if_pos full).symm⟩
  · rw [if_neg full]
    exact ⟨x, rfl, .refl x, rfl, rfl, rfl, id, (if_neg full).symm⟩

/-- The memory that the history has stays as it is when it cannot grow. -/
theorem fitHistory_refused {elements : Nat} {x : Session} (refused : CannotGrow r x.dbg elements) :
    ∃ x', (fitHistory elements).run r x = .done false x' [.console .historyAlloc] ∧ x.Kept x' ∧
      x'.dbg.quitFlag = true ∧ x'.dbg.callHistory = x.dbg.callHistory ∧
      x'.dbg.callHistoryTop = x.dbg.callHistoryTop ∧ x'.dbg.allocated = x.dbg.allocated := by
  obtain ⟨full, refused, stays⟩ := refused
  have size : ¬ uint32 (x.dbg.callHistoryTop + elements + 1024) = 0 :=
    fun zero => stays ⟨full, zero⟩
  simp only [fitHistory, Program.run_bind, Program.run_get, Outcome.andThen_done,
    Outcome.prepend_nil]
  rw [if_pos full]
  simp only [reallocHistory, Program.run_bind, run_modifyDbg, Program.run_ask, Program.run_get,
    Program.run_pure, Outcome.andThen_done, Outcome.prepend_nil, refused, if_neg size]
  exact ⟨_, rfl, .of_dbg ⟨rfl, rfl, rfl, fun _ => rfl⟩, rfl, rfl, rfl, rfl⟩

/-- A history whose new size is 0 is freed. -/
theorem fitHistory_vanishes {elements : Nat} {x : Session} (vanishes : Vanishes x.dbg elements) :
    ((fitHistory elements).run r x).isDone = false := by
  obtain ⟨full, zero⟩ := vanishes
  simp only [fitHistory, Program.run_bind, Program.run_get, Outcome.andThen_done,
    Outcome.prepend_nil]
  rw [if_pos full]
  simp only [reallocHistory, Program.run_bind, run_modifyDbg, Program.run_ask, Program.run_get,
    Outcome.andThen_done, Outcome.prepend_nil, if_pos zero]
  rfl

theorem roomFor_lt {d : DebuggerState} (bound : d.allocated < 2 ^ 32) (elements : Nat) :
    d.roomFor elements < 2 ^ 32 := by
  unfold DebuggerState.roomFor uint32
  split <;> omega

/-- A history that has been made to fit is there. -/
theorem not_vanishes {d : DebuggerState} {elements : Nat} (some : 0 < elements)
    (room : d.callHistoryTop + elements ≤ d.roomFor elements) : ¬ Vanishes d elements := by
  rintro ⟨full, zero⟩
  rw [DebuggerState.roomFor, if_pos full, zero] at room
  omega

/-- The history has room for a record exactly if it can be made to fit. -/
theorem hasRoom_iff {d : DebuggerState} {elements : Nat} (top_lt : d.callHistoryTop < 2 ^ 32)
    (some : 0 < elements) (few : elements < 2 ^ 31) (sized : d.callHistorySize = d.allocated)
    (bound : d.allocated < 2 ^ 32) : HasRoom r d elements ↔
      ¬ CannotGrow r d elements ∧ d.callHistoryTop + elements ≤ d.roomFor elements := by
  unfold HasRoom CannotGrow Vanishes DebuggerState.roomFor uint32
  cases r.grow d.reallocs with
  | true =>
      simp only [true_and, Bool.true_eq_false, false_and, and_false, not_false_eq_true]
      split <;> omega
  | false =>
      simp only [Bool.false_eq_true, false_and, or_false, true_and]
      split <;> omega

end Saving

section Records

variable {r : DbgEnv} {x : Session} {calls : List (Entry Word)}

/-- The record of a call, with `pc` at the argument of INVOKEVIRTUAL: the address of the
method and the argument words, in the order of the local variables they become. -/
def Cpu.invocation (c : Cpu) : Entry Word where
  label := c.constMem.getD (c.short c.pc).toInt.toNat 0
  items := (List.range c.methodArgs).map fun i : Nat => c.stack (c.sp + 1 - c.methodArgs + i)

@[simp] theorem length_invocation (c : Cpu) : c.invocation.items.length = c.methodArgs := by
  simp [Cpu.invocation]

/-- The history holds these records, inside its memory. -/
structure DebuggerState.Recorded (d : DebuggerState) (calls : List (Entry Word)) : Prop where
  stored : Stored BitVec.toNat d.callHistory d.callHistoryTop calls
  inside : d.callHistoryTop ≤ d.allocated
  bound : d.allocated < 2 ^ 32

/-- The debugger also knows the size of that memory. -/
structure DebuggerState.Holds (d : DebuggerState) (calls : List (Entry Word)) : Prop
    extends d.Recorded calls where
  sized : d.callHistorySize = d.allocated

/-- The words that are stored for a call: the arguments from the top of the stack
downwards, their number and the address. -/
def Cpu.callWord (c : Cpu) (k : Nat) : Word :=
  if k < c.methodArgs + 1 then
    if k < c.methodArgs then c.stack (c.sp - (0 : Nat) - k) else BitVec.ofNat 32 c.methodArgs
  else c.invocation.label

/-- These words are the record of the call. -/
theorem stored_of_appended {x' : Session} {c : Cpu} (few : c.methodArgs < 32768)
    (stored : Stored BitVec.toNat x.dbg.callHistory x.dbg.callHistoryTop calls)
    (appended : Appended x x' (c.methodArgs + 1 + 1) c.callWord) :
    Stored BitVec.toNat x'.dbg.callHistory x'.dbg.callHistoryTop (c.invocation :: calls) := by
  have size : c.invocation.size = c.methodArgs + 1 + 1 := by rw [Entry.size, length_invocation]
  rw [appended.top, ← size]
  refine stored.push appended.below ?_ ?_ ?_
  · rw [length_invocation]
    apply List.map_congr_left
    intro i member
    have below := List.mem_range.mp member
    rw [appended.cell _ (by omega), Cpu.callWord, if_pos (by omega), if_pos (by omega)]
    congr 1
    omega
  · rw [length_invocation, appended.cell _ (by omega), Cpu.callWord, if_pos (by omega),
      if_neg (by omega), BitVec.toNat_ofNat, Nat.mod_eq_of_lt (by omega)]
  · rw [length_invocation, Nat.add_assoc, appended.cell _ (by omega), Cpu.callWord,
      if_neg (by omega)]

/-- The number of arguments as the debugger reads it, with a sign. -/
def Cpu.signedArgs (c : Cpu) : Nat := uint32 (c.short c.methodAddress).toInt

/-- The number of words that the debugger wants to store for a call. -/
def Cpu.callElements (c : Cpu) : Nat := uint32 (1 + 1 + c.signedArgs)

theorem Cpu.signedArgs_eq {c : Cpu} (few : c.methodArgs < 32768) : c.signedArgs = c.methodArgs := by
  have here : (c.short c.methodAddress).toNat < 32768 := few
  rw [Cpu.signedArgs, BitVec.toInt_eq_toNat_of_lt (by omega), uint32_of_lt (by omega) (by omega)]
  rfl

theorem Cpu.callElements_eq {c : Cpu} (few : c.methodArgs < 32768) :
    c.callElements = c.methodArgs + 2 := by
  rw [Cpu.callElements, Cpu.signedArgs_eq few, uint32_of_lt (by omega) (by omega)]
  omega

/-- What `storeFuncCall` reads before it makes room for the record. -/
theorem storeFuncCall_reads (range : x.vm.gCpu.InRange) (low : 0 ≤ x.vm.gCpu.pc)
    (invokes : (x.vm.atOp x.vm.gCpu.pc).gCpu.Invokes) :
    ∃ es, (∀ e ∈ es, e.Harmless x.vm) ∧
      storeFuncCall.run r x =
        ((do
          if (← fitHistory (x.vm.atOp x.vm.gCpu.pc).gCpu.callElements) = false then
            return ()
          else
            saveArguments 0 (x.vm.atOp x.vm.gCpu.pc).gCpu.signedArgs
            appendHistory (BitVec.ofNat 32 (x.vm.atOp x.vm.gCpu.pc).gCpu.signedArgs)
            appendHistory (x.vm.atOp x.vm.gCpu.pc).gCpu.invocation.label :
          DBG Unit).run r x).prepend es := by
  obtain ⟨argument, constant, address, header, _⟩ := invokes
  have code_lt := range.code_lt
  have found : (getConstant (x.vm.gCpu.short (x.vm.gCpu.pc + 1)).toInt).run r.vm x.vm =
      .done (x.vm.atOp x.vm.gCpu.pc).gCpu.invocation.label x.vm [] := by
    rw [getConstant_run, if_neg]
    · rfl
    · have low : 0 ≤ (x.vm.gCpu.short (x.vm.gCpu.pc + 1)).toInt := constant.1
      have high : (x.vm.gCpu.short (x.vm.gCpu.pc + 1)).toInt < x.vm.gCpu.constMemSize.tdiv 4 :=
        constant.2
      omega
  have label : (x.vm.atOp x.vm.gCpu.pc).gCpu.invocation.label.toInt =
      (x.vm.atOp x.vm.gCpu.pc).gCpu.methodAddress := rfl
  have args : uint32 (x.vm.gCpu.short (x.vm.atOp x.vm.gCpu.pc).gCpu.methodAddress).toInt =
      (x.vm.atOp x.vm.gCpu.pc).gCpu.signedArgs := rfl
  have elements : uint32 (1 + 1 + (x.vm.atOp x.vm.gCpu.pc).gCpu.signedArgs) =
      (x.vm.atOp x.vm.gCpu.pc).gCpu.callElements := rfl
  rw [storeFuncCall, Program.run_bind, Program.run_get, Outcome.andThen_done, Outcome.prepend_nil,
    Program.run_bind, look_done (getCodeShort_run _), Outcome.andThen_done, Program.run_bind,
    look_done found, Outcome.andThen_done, Program.run_bind, look_done (getCodeShort_run _),
    Outcome.andThen_done]
  simp only [label, args, elements, Outcome.prepend_prepend]
  refine ⟨_, ?_, rfl⟩
  have argument : x.vm.gCpu.pc + 1 + 2 ≤ x.vm.gCpu.codeMemSize := argument
  have header : (x.vm.atOp x.vm.gCpu.pc).gCpu.methodAddress + 4 ≤ x.vm.gCpu.codeMemSize := header
  simp [DbgEvent.Harmless]
  omega

/-- A record with its arguments on the stack is written where there is room for it. -/
theorem saveRecord_run {c : Cpu} {y : Session} (here : y.vm.gCpu.stack = c.stack)
    (top : y.vm.gCpu.sp = c.sp) (operands : c.methodArgs ≤ c.sp + 1)
    (sp_lt : c.sp < y.vm.gCpu.stackSize) (size_lt : y.vm.gCpu.stackSize < 2 ^ 31)
    (room : y.dbg.callHistoryTop + (c.methodArgs + 2) ≤ y.dbg.allocated)
    (bound : y.dbg.allocated < 2 ^ 32) :
    ∃ z es, (do
        saveArguments 0 c.methodArgs
        appendHistory (BitVec.ofNat 32 c.methodArgs)
        appendHistory c.invocation.label : DBG Unit).run r y = .done () z es ∧
      Appended y z (c.methodArgs + 1 + 1) c.callWord ∧ ∀ e ∈ es, e.Harmless y.vm := by
  obtain ⟨z, es, save, appended, harmless⟩ := saveArguments_run (r := r) (x := y) (i := 0)
    (n := c.methodArgs) (by omega) (by omega) size_lt (by omega) bound
  rw [here, top] at appended
  have one := appended.snoc (BitVec.ofNat 32 c.methodArgs) (by omega)
  have room₁ : z.dbg.callHistoryTop < z.dbg.allocated := by
    rw [appended.top, appended.allocated]
    omega
  have room₂ : (z.append (BitVec.ofNat 32 c.methodArgs)).dbg.callHistoryTop <
      (z.append (BitVec.ofNat 32 c.methodArgs)).dbg.allocated := by
    rw [one.top, one.allocated]
    omega
  rw [Program.run_bind, save, Outcome.andThen_done, Program.run_bind, appendHistory_run _ room₁,
    Outcome.andThen_done, appendHistory_run _ room₂]
  refine ⟨_, _, rfl, one.snoc c.invocation.label (by omega), ?_⟩
  simp only [List.forall_mem_append, List.forall_mem_singleton]
  exact ⟨harmless, ⟨appended.kept.vm, room₁⟩, one.kept.vm, room₂⟩

/-- Storing a call that the machine will complete makes room for its record and writes it. -/
theorem storeFuncCall_stores (range : x.vm.gCpu.InRange) (low : 0 ≤ x.vm.gCpu.pc)
    (invokes : (x.vm.atOp x.vm.gCpu.pc).gCpu.Invokes)
    (few : (x.vm.atOp x.vm.gCpu.pc).gCpu.methodArgs < 32768)
    (enough : HasRoom r x.dbg ((x.vm.atOp x.vm.gCpu.pc).gCpu.methodArgs + 2))
    (top_lt : x.dbg.callHistoryTop < 2 ^ 32) (sized : x.dbg.callHistorySize = x.dbg.allocated)
    (bound : x.dbg.allocated < 2 ^ 32) :
    ∃ y z es, storeFuncCall.run r x = .done () z es ∧
      Fit ((x.vm.atOp x.vm.gCpu.pc).gCpu.methodArgs + 2) x y ∧
      y.dbg.callHistoryTop + ((x.vm.atOp x.vm.gCpu.pc).gCpu.methodArgs + 2) ≤ y.dbg.allocated ∧
      Appended y z ((x.vm.atOp x.vm.gCpu.pc).gCpu.methodArgs + 1 + 1)
        (x.vm.atOp x.vm.gCpu.pc).gCpu.callWord ∧
      ∀ e ∈ es, e.Harmless x.vm := by
  obtain ⟨es, harmless, run⟩ := storeFuncCall_reads (r := r) range low invokes
  rw [Cpu.callElements_eq few, Cpu.signedArgs_eq few] at run
  obtain ⟨granted, room⟩ := (hasRoom_iff top_lt (by omega) (by omega) sized bound).mp enough
  obtain ⟨y, fit, made⟩ := fitHistory_run granted (not_vanishes (by omega) room)
  rw [run, Program.run_bind, fit, Outcome.andThen_done, if_neg (by decide)]
  rw [← made.top, ← made.allocated] at room
  obtain ⟨z, fs, save, appended, harmless'⟩ := saveRecord_run (r := r)
    (c := (x.vm.atOp x.vm.gCpu.pc).gCpu) (y := y) (by rw [made.kept.vm]; rfl)
    (by rw [made.kept.vm]; rfl) invokes.operands (by rw [made.kept.vm]; exact range.sp_lt)
    (by rw [made.kept.vm]; exact range.size_lt) room (made.allocated ▸ roomFor_lt bound _)
  rw [save]
  rw [made.kept.vm] at harmless'
  refine ⟨y, z, _, rfl, made, room, appended, ?_⟩
  simp only [List.forall_mem_append]
  exact ⟨harmless, by simp, harmless'⟩

/-- Storing a call that the machine will complete puts its record on top. -/
theorem storeFuncCall_run (range : x.vm.gCpu.InRange) (low : 0 ≤ x.vm.gCpu.pc)
    (invokes : (x.vm.atOp x.vm.gCpu.pc).gCpu.Invokes)
    (few : (x.vm.atOp x.vm.gCpu.pc).gCpu.methodArgs < 32768)
    (enough : HasRoom r x.dbg ((x.vm.atOp x.vm.gCpu.pc).gCpu.methodArgs + 2))
    (holds : x.dbg.Holds calls) :
    ∃ x' es, storeFuncCall.run r x = .done () x' es ∧ x.Kept x' ∧
      x'.dbg.quitFlag = x.dbg.quitFlag ∧
      x'.dbg.Holds ((x.vm.atOp x.vm.gCpu.pc).gCpu.invocation :: calls) ∧
      ∀ e ∈ es, e.Harmless x.vm := by
  have inside := holds.inside
  have bound := holds.bound
  obtain ⟨y, z, es, run, made, room, appended, harmless⟩ := storeFuncCall_stores range low invokes
    few enough (by omega) holds.sized bound
  have stored := holds.stored
  rw [← made.memory, ← made.top] at stored
  refine ⟨z, es, run, made.kept.trans appended.kept, appended.quitFlag.trans made.quitFlag,
    ⟨⟨stored_of_appended few stored appended, ?_, ?_⟩, ?_⟩, harmless⟩
  · rw [appended.top, appended.allocated]
    omega
  · rw [appended.allocated, made.allocated]
    exact roomFor_lt bound _
  · rw [appended.size, appended.allocated]
    exact made.sized holds.sized

/-- An argument that is not on the stack is not saved. -/
theorem few_of_saved {c : Cpu} (sp_ge : -1 ≤ c.sp) (sp_lt : c.sp < c.stackSize)
    (size_lt : c.stackSize < 2 ^ 31)
    (saved : ∀ k < c.signedArgs, (uint32 (c.sp - (0 + k : Nat)) : Int) < c.stackSize) :
    c.methodArgs < 32768 := by
  by_contra many
  have large : 2 ^ 31 ≤ c.signedArgs := by
    have bits : c.methodArgs < 2 ^ 16 := (c.short c.methodAddress).isLt
    have value : (c.short c.methodAddress).toInt = c.methodArgs - 2 ^ 16 := by
      rw [BitVec.toInt_eq_toNat_cond, if_neg (by show ¬ 2 * c.methodArgs < 2 ^ 16; omega)]
      rfl
    rw [Cpu.signedArgs, value, uint32]
    omega
  have below := saved (c.sp + 1).toNat (by omega)
  have index : c.sp - (0 + (c.sp + 1).toNat : Nat) = -1 := by omega
  rw [index] at below
  have wrapped : uint32 (-1) = 2 ^ 32 - 1 := rfl
  omega

/-- A call that is stored without being refused has few arguments and found room. -/
theorem storeFuncCall_done {z : Session} {fs : List DbgEvent} (range : x.vm.gCpu.InRange)
    (low : 0 ≤ x.vm.gCpu.pc) (invokes : (x.vm.atOp x.vm.gCpu.pc).gCpu.Invokes)
    (top_lt : x.dbg.callHistoryTop < 2 ^ 32) (sized : x.dbg.callHistorySize = x.dbg.allocated)
    (bound : x.dbg.allocated < 2 ^ 32)
    (granted : ¬ CannotGrow r x.dbg (x.vm.atOp x.vm.gCpu.pc).gCpu.callElements)
    (done : storeFuncCall.run r x = .done () z fs) :
    (x.vm.atOp x.vm.gCpu.pc).gCpu.methodArgs < 32768 ∧
      HasRoom r x.dbg ((x.vm.atOp x.vm.gCpu.pc).gCpu.methodArgs + 2) := by
  obtain ⟨es, _, run⟩ := storeFuncCall_reads (r := r) range low invokes
  obtain ⟨gs, rest, _⟩ := Outcome.prepend_eq_done.mp (run.symm.trans done)
  have stays : ¬ Vanishes x.dbg (x.vm.atOp x.vm.gCpu.pc).gCpu.callElements := by
    intro vanishes
    obtain ⟨_, u, _, _, fit, _⟩ := Program.run_bind_done.mp rest
    have stops := fitHistory_vanishes (r := r) vanishes
    rw [fit] at stops
    contradiction
  obtain ⟨y, fit, made⟩ := fitHistory_run granted stays
  rw [Program.run_bind, fit, Outcome.andThen_done, if_neg (by decide), Outcome.prepend_nil] at rest
  obtain ⟨_, u, _, _, save, rest, _⟩ := Program.run_bind_done.mp rest
  obtain ⟨_, v, _, _, count, label, _⟩ := Program.run_bind_done.mp rest
  obtain ⟨room₁, rfl⟩ := appendHistory_done count
  obtain ⟨room₂, -⟩ := appendHistory_done label
  have bound' : y.dbg.allocated < 2 ^ 32 := made.allocated ▸ roomFor_lt bound _
  obtain ⟨saved, top, allocated⟩ := saveArguments_done save bound'
  rw [made.kept.vm] at saved
  have few := few_of_saved (c := (x.vm.atOp x.vm.gCpu.pc).gCpu) range.sp_ge range.sp_lt
    range.size_lt saved
  rw [Cpu.callElements_eq few] at granted made
  rw [Cpu.signedArgs_eq few] at top
  refine ⟨few, (hasRoom_iff top_lt (by omega) (by omega) sized bound).mpr ⟨granted, ?_⟩⟩
  rw [append_top _ (by omega)] at room₂
  change u.dbg.callHistoryTop + 1 < u.dbg.allocated at room₂
  rw [← made.allocated, ← made.top]
  omega

/-- A call that the history cannot take sets the quit flag. -/
theorem storeFuncCall_refused (range : x.vm.gCpu.InRange) (low : 0 ≤ x.vm.gCpu.pc)
    (invokes : (x.vm.atOp x.vm.gCpu.pc).gCpu.Invokes)
    (refused : CannotGrow r x.dbg (x.vm.atOp x.vm.gCpu.pc).gCpu.callElements)
    (holds : x.dbg.Holds calls) :
    ∃ x' es, storeFuncCall.run r x = .done () x' es ∧ x.Kept x' ∧
      x'.dbg.quitFlag = true ∧ x'.dbg.Recorded calls ∧ ∀ e ∈ es, e.Harmless x.vm := by
  obtain ⟨es, harmless, run⟩ := storeFuncCall_reads (r := r) range low invokes
  obtain ⟨y, fit, kept, quitFlag, memory, top, allocated⟩ := fitHistory_refused refused
  rw [run, Program.run_bind, fit, Outcome.andThen_done, if_pos rfl]
  refine ⟨y, _, rfl, kept, quitFlag, ⟨?_, ?_, ?_⟩, ?_⟩
  · rw [memory, top]
    exact holds.stored
  · rw [top, allocated]
    exact holds.inside
  · rw [allocated]
    exact holds.bound
  · simp only [List.forall_mem_append, List.forall_mem_singleton]
    exact ⟨harmless, trivial, by simp⟩

def Session.lowered (x : Session) (top : Nat) : Session :=
  { x with dbg := { x.dbg with callHistoryTop := top } }

/-- A record is removed by the number that is read two cells below the top. -/
theorem removeLastFuncCall_inside (r : DbgEnv)
    (inside : uint32 (x.dbg.callHistoryTop - 2) < x.dbg.allocated) :
    removeLastFuncCall.run r x =
      .done () (x.lowered (uint32 (uint32 (x.dbg.callHistoryTop - 2) -
          (x.dbg.callHistory (uint32 (x.dbg.callHistoryTop - 2))).toNat)))
        [.history x.vm (uint32 (x.dbg.callHistoryTop - 2)) x.dbg.allocated] := by
  have read := readHistory_run (r := r) (x := x.lowered (uint32 (x.dbg.callHistoryTop - 2))) inside
  rw [removeLastFuncCall, Program.run_bind, run_modifyDbg, Outcome.andThen_done,
    Outcome.prepend_nil, Program.run_bind, Program.run_get, Outcome.andThen_done,
    Outcome.prepend_nil]
  exact (Program.run_bind_of_done _ read).trans rfl

/-- Without a record, the cell is outside. -/
theorem removeLastFuncCall_outside (r : DbgEnv)
    (outside : ¬ uint32 (x.dbg.callHistoryTop - 2) < x.dbg.allocated) :
    (removeLastFuncCall.run r x).isDone = false := by
  have read := readHistory_outside (r := r) (x := x.lowered (uint32 (x.dbg.callHistoryTop - 2)))
    outside
  rw [removeLastFuncCall, Program.run_bind, run_modifyDbg, Outcome.andThen_done,
    Outcome.prepend_nil, Program.run_bind, Program.run_get, Outcome.andThen_done,
    Outcome.prepend_nil, Program.run_bind]
  exact congrArg (fun o => (Outcome.andThen o _).isDone) read

/-- Removing a record leaves the records below it. -/
theorem removeLastFuncCall_run (r : DbgEnv) {e : Entry Word} (holds : x.dbg.Holds (e :: calls)) :
    ∃ x' es, removeLastFuncCall.run r x = .done () x' es ∧ x.Kept x' ∧
      x'.dbg.quitFlag = x.dbg.quitFlag ∧ x'.dbg.Holds calls ∧ ∀ e ∈ es, e.Harmless x.vm := by
  obtain ⟨⟨stored, inside, bound⟩, sized⟩ := holds
  obtain ⟨size, number, rest⟩ := stored.pop
  unfold Entry.size at size rest
  have top₁ : uint32 (x.dbg.callHistoryTop - 2) = x.dbg.callHistoryTop - 2 := by
    rw [uint32_of_lt (by omega) (by omega)]
    omega
  have top₂ : uint32 ((x.dbg.callHistoryTop - 2 : Nat) - (e.items.length : Int)) =
      x.dbg.callHistoryTop - (e.items.length + 2) := by
    rw [uint32_of_lt (by omega) (by omega)]
    omega
  have cell : uint32 (x.dbg.callHistoryTop - 2) < x.dbg.allocated := by omega
  rw [removeLastFuncCall_inside r cell, top₁, number, top₂]
  refine ⟨_, _, rfl, .of_dbg ⟨rfl, rfl, rfl, id⟩, rfl, ⟨⟨rest, ?_, bound⟩, sized⟩, ?_⟩
  · show x.dbg.callHistoryTop - (e.items.length + 2) ≤ x.dbg.allocated
    omega
  · rw [List.forall_mem_singleton]
    exact ⟨rfl, by omega⟩

end Records

section Observing

variable {r : DbgEnv} {x : Session} {calls : List (Entry Word)} {s' : State} {b : Bool}
  {es : List Event}

/-- What the debugger sees of a step, by the byte at PC. -/
def observeCall (s : State) (calls : List (Entry Word)) : List (Entry Word) :=
  if s.gCpu.codeMem s.gCpu.pc = Op.invokevirtual.code then
    (s.atOp s.gCpu.pc).gCpu.invocation :: calls
  else if s.gCpu.codeMem s.gCpu.pc = Op.ireturn.code then calls.tail
  else calls

/-- Keeping the history up to date in a step that the machine completes. -/
theorem createCallHistory_run (range : x.vm.gCpu.InRange)
    (execution : step.run r.vm x.vm = .done b s' es)
    (call : x.vm.gCpu.codeMem x.vm.gCpu.pc = Op.invokevirtual.code →
      (x.vm.atOp x.vm.gCpu.pc).gCpu.methodArgs < 32768 ∧
        HasRoom r x.dbg ((x.vm.atOp x.vm.gCpu.pc).gCpu.methodArgs + 2))
    (ret : x.vm.gCpu.codeMem x.vm.gCpu.pc = Op.ireturn.code → calls ≠ [])
    (holds : x.dbg.Holds calls) :
    ∃ x' fs, createCallHistory.run r x = .done () x' fs ∧ x.Kept x' ∧
      x'.dbg.quitFlag = x.dbg.quitFlag ∧ x'.dbg.Holds (observeCall x.vm calls) ∧
      ∀ e ∈ fs, e.Harmless x.vm := by
  have here : ∀ e ∈ [DbgEvent.own x.vm (.code x.vm.gCpu.pc x.vm.gCpu.codeMemSize)],
      e.Harmless x.vm := by
    rw [List.forall_mem_singleton]
    exact ⟨rfl, _, _, rfl, pc_of_step execution⟩
  rw [createCallHistory, Program.run_bind, codeAtPc_run, Outcome.andThen_done, observeCall]
  split
  · rename_i invokevirtual
    obtain ⟨few, enough⟩ := call invokevirtual
    obtain ⟨x', fs, run, kept, quitFlag, holds', harmless⟩ := storeFuncCall_run range
      (pc_of_step execution).1 (invoked_of_step range
        (executes_here (pc_of_step execution) invokevirtual (by decide)) execution).1
      few enough holds
    rw [run]
    exact ⟨x', _, rfl, kept, quitFlag, holds', List.forall_mem_append.mpr ⟨here, harmless⟩⟩
  · rw [Program.run_bind, codeAtPc_run, Outcome.andThen_done]
    split
    · rename_i ireturn
      cases calls with
      | nil => exact absurd rfl (ret ireturn)
      | cons e calls =>
          obtain ⟨x', fs, run, kept, quitFlag, holds', harmless⟩ := removeLastFuncCall_run r holds
          rw [run]
          refine ⟨x', _, rfl, kept, quitFlag, holds', ?_⟩
          exact List.forall_mem_append.mpr ⟨here, List.forall_mem_append.mpr ⟨here, harmless⟩⟩
    · refine ⟨x, _, rfl, .refl x, rfl, holds, ?_⟩
      exact List.forall_mem_append.mpr ⟨here, List.forall_mem_append.mpr ⟨here, by simp⟩⟩

/-- Keeping the history up to date when it cannot take the record of the call. -/
theorem createCallHistory_refused (range : x.vm.gCpu.InRange)
    (execution : step.run r.vm x.vm = .done b s' es)
    (call : x.vm.gCpu.codeMem x.vm.gCpu.pc = Op.invokevirtual.code)
    (refused : CannotGrow r x.dbg (x.vm.atOp x.vm.gCpu.pc).gCpu.callElements)
    (holds : x.dbg.Holds calls) :
    ∃ x' fs, createCallHistory.run r x = .done () x' fs ∧ x.Kept x' ∧
      x'.dbg.quitFlag = true ∧ x'.dbg.Recorded calls ∧ ∀ e ∈ fs, e.Harmless x.vm := by
  obtain ⟨x', fs, run, kept, quitFlag, recorded, harmless⟩ := storeFuncCall_refused range
    (pc_of_step execution).1 (invoked_of_step range
      (executes_here (pc_of_step execution) call (by decide)) execution).1 refused holds
  rw [createCallHistory, Program.run_bind, codeAtPc_run, Outcome.andThen_done, if_pos call, run]
  refine ⟨x', _, rfl, kept, quitFlag, recorded, List.forall_mem_append.mpr ⟨?_, harmless⟩⟩
  rw [List.forall_mem_singleton]
  exact ⟨rfl, _, _, rfl, pc_of_step execution⟩

end Observing

end Ijvm
