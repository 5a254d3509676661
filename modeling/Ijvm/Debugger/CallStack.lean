import Ijvm.Debugger.Display

/-!
# The call history as a stack of records

Calls push records of different lengths, returns pop them, and printing reads them from the
top. As long as the words in use can be counted in 32 bits with the margin of the growth,
every access lies inside the memory of the history, and it shows exactly the calls that have
not returned. A count that overflows makes the memory too small for what is written.
-/

namespace Ijvm

open Transcript Program Records

/-- A change of the call history: the machine is in the state `s` before a call, or about to
return from one. -/
inductive HistoryOp where
  | call (s : State)
  | ret

namespace HistoryOp

def exec : HistoryOp → DBG Unit
  | call s => do
      modify fun x => { x with vm := s }
      storeFuncCall
  | ret => removeLastFuncCall

/-- The room that the history needs for the change. -/
def Room (r : DbgEnv) (x : Session) : HistoryOp → Prop
  | call s => HasRoom r x.dbg ((s.atOp s.gCpu.pc).gCpu.methodArgs + 2)
  | ret => True

def machine (s : State) : HistoryOp → State
  | call t => t
  | ret => s

/-- The calls that have not returned, after the change. -/
def track : HistoryOp → List (Entry Word) → List (Entry Word)
  | call s, calls => (s.atOp s.gCpu.pc).gCpu.invocation :: calls
  | ret, calls => calls.tail

end HistoryOp

/-- The machine is at a call with fewer than 32768 arguments, all of them on the stack. -/
structure Callable (s : State) : Prop where
  range : s.gCpu.InRange
  low : 0 ≤ s.gCpu.pc
  invokes : (s.atOp s.gCpu.pc).gCpu.Invokes
  few : (s.atOp s.gCpu.pc).gCpu.methodArgs < 32768

/-- Returns never outnumber the calls, of which `depth` are open. -/
def Balanced : Nat → List HistoryOp → Prop
  | _, [] => True
  | depth, .call s :: ops => Callable s ∧ Balanced (depth + 1) ops
  | depth, .ret :: ops => 0 < depth ∧ Balanced (depth - 1) ops

/-- The calls that have not returned, innermost first. -/
def openCalls (ops : List HistoryOp) (calls : List (Entry Word)) : List (Entry Word) :=
  ops.foldl (fun calls op => op.track calls) calls

/-- One change after another. -/
def replay : List HistoryOp → DBG Unit
  | [] => pure ()
  | op :: ops => do
      op.exec
      replay ops

/-- The access to the history, if it is one, is inside its memory. -/
def DbgEvent.InMemory : DbgEvent → Prop
  | .history _ i n => i < n
  | _ => True

/-- The machine when the call history is looked at after these changes. -/
def machineAfter (s : State) (ops : List HistoryOp) : State :=
  ops.foldl (fun s op => op.machine s) s

/-- Printing all calls shows these, numbered, and printing `n` the first `n` of them. -/
structure Shows (r : DbgEnv) (x : Session) (calls : List (Entry Word)) : Prop where
  all : ∃ y es, (printFuncCalls 0).run r x = .done () y es ∧ shownCalls es = numbered calls
  some : ∀ n, 1 ≤ n → ∃ y es, (printFuncCalls n).run r x = .done () y es ∧
    shownCalls es = (calls.take n).map fun e => (none, e)

/-- The changes stay inside the memory of the history, which then shows the open calls. -/
def Faithful (r : DbgEnv) (x : Session) (ops : List HistoryOp) : Prop :=
  ∃ y es, (replay ops).run r x = .done () y es ∧ (∀ e ∈ es, e.InMemory) ∧
    Shows r y (openCalls ops [mainEntry])

/-- Every change finds the room that it needs. -/
def Roomy (r : DbgEnv) : Session → List HistoryOp → Prop
  | _, [] => True
  | x, op :: ops => op.Room r x ∧ ∀ y es, op.exec.run r x = .done () y es → Roomy r y ops

/-- The methods of the open calls, and main, have names that can be looked up. -/
def Tellable (r : DbgEnv) (x : Session) (ops : List HistoryOp) : Prop :=
  NamesAll r { x with vm := machineAfter x.vm ops } ((openCalls ops [mainEntry]).map Entry.label)

section Showing

variable {r : DbgEnv} {x y : Session} {calls : List (Entry Word)}

/-- The state of the debugger makes no difference for the lookups. -/
theorem namesAll_congr {addrs : List Word} (vm : y.vm = x.vm)
    (debugData : y.debugData = x.debugData) (requests : y.requests = x.requests) :
    NamesAll r y addrs ↔ NamesAll r x addrs := by
  induction addrs generalizing x y with
  | nil => exact Iff.rfl
  | cons addr addrs ih =>
      have lookup : y.forLookup = x.forLookup := by
        rw [Session.forLookup, Session.forLookup, vm, requests]
      have here : y.Nameable r addr ↔ x.Nameable r addr := by
        rw [Session.Nameable, Session.Nameable, lookup, debugData]
      have next : (y.named r addr).vm = (x.named r addr).vm ∧
          (y.named r addr).debugData = (x.named r addr).debugData ∧
          (y.named r addr).requests = (x.named r addr).requests := by
        rw [Session.named, Session.named, lookup, debugData, Session.afterLookup,
          Session.afterLookup, vm]
        exact ⟨rfl, debugData, rfl⟩
      exact and_congr here (ih next.1 next.2.1 next.2.2)

/-- Names that can be looked up one after the other, some of them. -/
theorem NamesAll.take {addrs : List Word} (all : NamesAll r x addrs) (n : Nat) :
    NamesAll r x (addrs.take n) := by
  induction addrs generalizing x n with
  | nil => simpa using all
  | cons addr addrs ih =>
      cases n with
      | zero => trivial
      | succ n => exact ⟨all.1, ih all.2 n⟩

/-- A history that holds its records shows them if their names can be looked up, and only then. -/
theorem shows_iff (r : DbgEnv) (recorded : x.dbg.Recorded calls) :
    Shows r x calls ↔ NamesAll r x (calls.map Entry.label) := by
  obtain ⟨stored, inside, bound⟩ := recorded
  have prints (n : Nat) := printFuncCallsFuel_cases r (fun _ => Nat.zero_le n) stored
    (Nat.lt_succ_self _) inside bound
  constructor
  · rintro ⟨⟨y, es, run, _⟩, _⟩
    rcases prints 0 with ⟨all, _⟩ | ⟨_, stops⟩
    · exact all
    · rw [← printFuncCalls_run, run] at stops
      contradiction
  · intro names
    constructor
    · rcases prints 0 with ⟨_, y, es, run, shown⟩ | ⟨some, _⟩
      · refine ⟨y, es, (printFuncCalls_run 0).trans run, shown.trans ?_⟩
        simp [numberAfter, numbered, toPrint]
      · exact absurd names some
    · intro n positive
      have few : toPrint n 0 calls = calls.take n := if_neg (by omega)
      rcases prints n with ⟨_, y, es, run, shown⟩ | ⟨some, _⟩
      · refine ⟨y, es, (printFuncCalls_run n).trans run, shown.trans ?_⟩
        rw [few]
        have nameless (i : Nat) : numberAfter n (0 + i) = none := if_neg (by omega)
        simp only [nameless]
        exact List.mapIdx_eq_iff.mpr fun i => List.getElem?_map
      · refine absurd ?_ some
        rw [few, List.map_take]
        exact names.take n

end Showing

section Replay

variable {r : DbgEnv} {x : Session} {calls : List (Entry Word)}

theorem DbgEvent.Harmless.inMemory {s : State} {e : DbgEvent} (h : e.Harmless s) : e.InMemory := by
  cases e with
  | history here i n => exact h.2
  | _ => trivial

/-- What one change does when it finds its room. -/
theorem HistoryOp.exec_run {op : HistoryOp} {depth : Nat} {ops : List HistoryOp}
    (balanced : Balanced depth (op :: ops)) (deep : calls.length = depth + 1)
    (room : op.Room r x) (holds : x.dbg.Holds calls) :
    ∃ y es, op.exec.run r x = .done () y es ∧ (∀ e ∈ es, e.InMemory) ∧
      { x with vm := op.machine x.vm }.Kept y ∧ y.dbg.Holds (op.track calls) ∧
      ∃ depth', Balanced depth' ops ∧ (op.track calls).length = depth' + 1 := by
  cases op with
  | call s =>
      obtain ⟨callable, rest⟩ := balanced
      obtain ⟨y, es, run, kept, _, holds', harmless⟩ := storeFuncCall_run (r := r)
        (x := { x with vm := s }) callable.range callable.low callable.invokes callable.few room
        holds
      refine ⟨y, es, ?_, fun e member => (harmless e member).inMemory, kept, holds', depth + 1,
        rest, ?_⟩
      · rw [exec, run_bind, run_modify, Outcome.andThen_done, Outcome.prepend_nil]
        exact run
      · rw [track, List.length_cons, deep]
  | ret =>
      obtain ⟨positive, rest⟩ := balanced
      cases calls with
      | nil => contradiction
      | cons e calls =>
          obtain ⟨y, es, run, kept, _, holds', harmless⟩ := removeLastFuncCall_run r holds
          refine ⟨y, es, run, fun e member => (harmless e member).inMemory, kept, holds', depth - 1,
            rest, ?_⟩
          rw [List.length_cons] at deep
          rw [track, List.tail_cons]
          omega

/-- In a roomy history the changes stay inside the memory, and the open calls are recorded. -/
theorem replay_run {depth : Nat} {ops : List HistoryOp} (balanced : Balanced depth ops)
    (deep : calls.length = depth + 1) (roomy : Roomy r x ops) (holds : x.dbg.Holds calls) :
    ∃ y es, (replay ops).run r x = .done () y es ∧ (∀ e ∈ es, e.InMemory) ∧
      { x with vm := machineAfter x.vm ops }.Kept y ∧ y.dbg.Holds (openCalls ops calls) := by
  induction ops generalizing x calls depth with
  | nil => exact ⟨x, [], rfl, by simp, .refl x, holds⟩
  | cons op ops ih =>
      obtain ⟨room, later⟩ := roomy
      obtain ⟨y, es, run, inside, kept, holds', depth', rest, deep'⟩ :=
        HistoryOp.exec_run balanced deep room holds
      obtain ⟨z, fs, run', inside', kept', final⟩ := ih rest deep' (later y es run) holds'
      refine ⟨z, es ++ fs, ?_, List.forall_mem_append.mpr ⟨inside, inside'⟩, ?_, final⟩
      · rw [replay, run_bind_of_done _ run, run', Outcome.prepend_done]
      · have machine := kept'.vm
        rw [show machineAfter y.vm ops = machineAfter (op.machine x.vm) ops by rw [kept.vm]]
          at machine
        exact ⟨machine, kept'.debugData.trans kept.debugData, kept'.requests.trans kept.requests,
          kept.dbg.trans kept'.dbg⟩

/-- A call that can be stored, with growth granted, finds its room. -/
theorem HistoryOp.room_of_done {op : HistoryOp} {depth : Nat} {ops : List HistoryOp} {y : Session}
    {es : List DbgEvent} (granted : ∀ n, r.grow n = true) (balanced : Balanced depth (op :: ops))
    (holds : x.dbg.Holds calls) (run : op.exec.run r x = .done () y es) : op.Room r x := by
  cases op with
  | ret => trivial
  | call s =>
      have callable := balanced.1
      have inside := holds.inside
      have bound := holds.bound
      rw [exec, run_bind, run_modify, Outcome.andThen_done, Outcome.prepend_nil] at run
      exact (storeFuncCall_done (x := { x with vm := s }) callable.range callable.low
        callable.invokes (Nat.lt_of_le_of_lt inside bound) holds.sized bound
        (fun refused => by simp [CannotGrow, granted] at refused) run).2

/-- Changes that can be made find their room. -/
theorem roomy_of_done (granted : ∀ n, r.grow n = true) {depth : Nat} {ops : List HistoryOp}
    (balanced : Balanced depth ops) (deep : calls.length = depth + 1) (holds : x.dbg.Holds calls)
    {z : Session} {gs : List DbgEvent} (returns : (replay ops).run r x = .done () z gs) :
    Roomy r x ops := by
  induction ops generalizing x calls depth gs with
  | nil => trivial
  | cons op ops ih =>
      obtain ⟨_, y, es, fs, run, rest, _⟩ := run_bind_done.mp returns
      have room := HistoryOp.room_of_done granted balanced holds run
      obtain ⟨y', es', run', _, _, holds', depth', balanced', deep'⟩ :=
        HistoryOp.exec_run balanced deep room holds
      injection run.symm.trans run' with _ same
      subst same
      refine ⟨room, fun u us again => ?_⟩
      injection run.symm.trans again with _ same
      subst same
      exact ih balanced' deep' holds' rest

/-- A session in which `init_call_history` has been called. -/
def Session.initCallHistory (r : DbgEnv) (x : Session) : Session :=
  { x with dbg := x.dbg.initCallHistory r }

theorem holds_initCallHistory (r : DbgEnv) (x : Session) :
    (x.initCallHistory r).dbg.Holds [mainEntry] :=
  ⟨⟨⟨0, rfl, rfl, rfl, rfl, rfl⟩, Nat.le_refl _, show 2 < 2 ^ 32 by decide⟩, rfl⟩

end Replay

/-- From the history of a program that has just been loaded, calls and returns are faithful if
every call finds its room and the names of the open calls can be looked up, and only then. -/
theorem faithful_iff {r : DbgEnv} (x : Session) {ops : List HistoryOp}
    (granted : ∀ n, r.grow n = true) (balanced : Balanced 0 ops) :
    Faithful r (x.initCallHistory r) ops ↔
      Roomy r (x.initCallHistory r) ops ∧ Tellable r (x.initCallHistory r) ops := by
  have holds := holds_initCallHistory r x
  have shows {y : Session} (kept : { x.initCallHistory r with
        vm := machineAfter (x.initCallHistory r).vm ops }.Kept y)
      (holds' : y.dbg.Holds (openCalls ops [mainEntry])) :
      Shows r y (openCalls ops [mainEntry]) ↔ Tellable r (x.initCallHistory r) ops :=
    (shows_iff r holds'.toRecorded).trans (namesAll_congr kept.vm kept.debugData kept.requests)
  constructor
  · rintro ⟨y, es, run, _, shown⟩
    have roomy := roomy_of_done granted balanced rfl holds run
    obtain ⟨z, fs, run', _, kept, holds'⟩ := replay_run balanced rfl roomy holds
    injection run.symm.trans run' with _ same
    subst same
    exact ⟨roomy, (shows kept holds').mp shown⟩
  · rintro ⟨roomy, tellable⟩
    obtain ⟨y, es, run, inside, kept, holds'⟩ := replay_run balanced rfl roomy holds
    exact ⟨y, es, run, inside, (shows kept holds').mpr tellable⟩

/-- A call with 32767 arguments on the stack. -/
def manyArguments : State :=
  { State.fresh with gCpu := { State.fresh.gCpu with
      constMemSize := 4
      constMem := [3]
      codeMemSize := 7
      codeMem := fun i => [0xB6, 0x00, 0x00, 0x7F, 0xFF, 0x00, 0x00].getD i.toNat 0
      stackSize := 65536
      sp := 40000 } }

theorem manyArguments_callable : Callable manyArguments where
  range := by constructor <;> decide
  low := by decide
  invokes := by constructor <;> decide
  few := by decide

theorem faithful_iff_oneCall :
    Faithful DbgEnv.quiet ((Session.fresh DbgEnv.quiet).initCallHistory DbgEnv.quiet)
        [.call manyArguments, .ret] ↔
      Roomy DbgEnv.quiet ((Session.fresh DbgEnv.quiet).initCallHistory DbgEnv.quiet)
          [.call manyArguments, .ret] ∧
        Tellable DbgEnv.quiet ((Session.fresh DbgEnv.quiet).initCallHistory DbgEnv.quiet)
          [.call manyArguments, .ret] :=
  faithful_iff (Session.fresh DbgEnv.quiet) (fun _ => rfl)
    ⟨manyArguments_callable, Nat.one_pos, trivial⟩

section Overflow

theorem balanced_replicate {s : State} (callable : Callable s) (depth n : Nat) :
    Balanced depth (List.replicate n (.call s)) := by
  induction n generalizing depth with
  | zero => trivial
  | succ n ih => exact ⟨callable, ih (depth + 1)⟩

theorem openCalls_replicate (s : State) (n : Nat) (calls : List (Entry Word)) :
    openCalls (List.replicate n (.call s)) calls =
      List.replicate n (s.atOp s.gCpu.pc).gCpu.invocation ++ calls := by
  induction n generalizing calls with
  | zero => rfl
  | succ n ih =>
      rw [List.replicate_succ, openCalls, List.foldl_cons]
      refine (ih _).trans ?_
      rw [HistoryOp.track, List.replicate_succ', List.append_assoc]
      rfl

/-- The words of the open calls can be counted in 32 bits. -/
theorem roomy_replicate_lt {r : DbgEnv} {s : State} {x : Session} {n : Nat}
    (callable : Callable s) (roomy : Roomy r (x.initCallHistory r) (List.replicate n (.call s))) :
    n * ((s.atOp s.gCpu.pc).gCpu.methodArgs + 2) + 2 < 2 ^ 32 := by
  obtain ⟨y, es, _, _, _, holds⟩ := replay_run (balanced_replicate callable 0 n) rfl roomy
    (holds_initCallHistory r x)
  have top := holds.stored.top_eq
  have inside := holds.inside
  have bound := holds.bound
  have main : mainEntry.size = 2 := rfl
  rw [openCalls_replicate, List.map_append, List.sum_append, List.map_replicate,
    List.sum_replicate_nat, Entry.size, length_invocation, List.map_singleton, List.sum_singleton,
    main] at top
  omega

/-- No history counts the words of 131072 calls with 32767 arguments. -/
theorem not_roomy_manyCalls {r : DbgEnv} {x : Session} {n : Nat} (many : 131072 ≤ n) :
    ¬Roomy r (x.initCallHistory r) (List.replicate n (.call manyArguments)) := by
  intro roomy
  have few := roomy_replicate_lt manyArguments_callable roomy
  have args : (manyArguments.atOp manyArguments.gCpu.pc).gCpu.methodArgs = 32767 := by decide
  rw [args] at few
  omega

/-- After 131072 calls with 32767 arguments, the size of the history has overflowed. -/
theorem manyCalls_overflow : ¬∀ (r : DbgEnv) (x : Session) (ops : List HistoryOp),
    (∀ n, r.grow n = true) → Balanced 0 ops → Faithful r (x.initCallHistory r) ops := by
  intro faithful
  obtain ⟨n, many⟩ : ∃ n : Nat, 131072 ≤ n := ⟨131072, Nat.le_refl _⟩
  have granted (k : Nat) : DbgEnv.quiet.grow k = true := rfl
  have balanced := balanced_replicate manyArguments_callable 0 n
  obtain ⟨y, es, run, _⟩ := faithful DbgEnv.quiet (Session.fresh DbgEnv.quiet) _ granted balanced
  exact not_roomy_manyCalls many (roomy_of_done granted balanced rfl
    (holds_initCallHistory _ _) run)

end Overflow

end Ijvm
