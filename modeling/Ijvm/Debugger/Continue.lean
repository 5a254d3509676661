import Ijvm.Debugger.Counters
import Ijvm.Debugger.Phases
import Ijvm.Transcript.DoWhile

/-!
# Where `continue` stops

The loop of `continue` should end at the first of its stopping points: a breakpoint, the
end of the program, or a debugger that is about to quit. Its condition has the quit flag on
the wrong side: once the flag is set, the loop never ends. The flag is set by a call whose
record the history can neither hold nor grow for. The bookkeeping of a step and the message at
its end read the history, too, and have no meaning where no record is.
-/

namespace Ijvm

open Transcript Program

/-- The debugger has a reason to stop stepping. -/
def Session.StopsHere (x : Session) : Prop :=
  breakpointNumber x.dbg.brkpts x.vm.gCpu.pc ≠ 0 ∨ finished x.vm.gCpu = true ∨
    x.dbg.quitFlag = true

/-- The condition of the loop. -/
def Session.GoesOn (x : Session) : Prop :=
  (breakpointNumber x.dbg.brkpts x.vm.gCpu.pc = 0 ∧ finished x.vm.gCpu = false) ∨
    x.dbg.quitFlag = true

instance : DecidablePred Session.GoesOn := fun _ => inferInstanceAs (Decidable (_ ∨ _))

def Session.noted (x : Session) : Session :=
  if finished x.vm.gCpu then { x with dbg := { x.dbg with progState := .finished } } else x

/-- After `k` steps of the debugger, and not before, there is a reason to stop. -/
abbrev FirstStop (r : DbgEnv) : Session → Nat → Session → List DbgEvent → Prop :=
  ExitsAt (stepWithHistory false) Session.StopsHere r

/-- The sessions in which the loop should make a step. -/
abbrev Stepping (r : DbgEnv) : Session → Session → Prop :=
  Underway (stepWithHistory false) Session.StopsHere r

/-- `dbg_run(false)` makes the steps up to the first reason to stop, tells about a breakpoint
there, and returns then and only then. The debugger makes every step that the machine makes. -/
structure StopsFirst (r : DbgEnv) (x : Session) : Prop where
  stops : ∀ k y es, FirstStop r x k y es → ∃ z gs, reportBreakpoint.run r y = .done () z gs ∧
    ∀ fuel, k ≤ fuel → (dbgRun fuel false).run r x = .done () z.noted (es ++ gs)
  only : ∀ fuel u fs, (dbgRun fuel false).run r x = .done () u fs →
    ∃ k y es z gs, k ≤ fuel ∧ FirstStop r x k y es ∧
      reportBreakpoint.run r y = .done () z gs ∧ u = z.noted ∧ fs = es ++ gs
  steps : ∀ y b t es, Stepping r x y → step.run r.vm y.vm = .done b t es →
    ((stepWithHistory false).run r y).isDone = true

/-- The history can follow the instruction at PC: a call has fewer than 32768 arguments and its
record fits, and a return finds a number of arguments. -/
structure Session.Bookable (r : DbgEnv) (x : Session) : Prop where
  call : x.vm.gCpu.codeMem x.vm.gCpu.pc = Op.invokevirtual.code →
    (x.vm.atOp x.vm.gCpu.pc).gCpu.methodArgs < 32768 ∧
      HasRoom r x.dbg ((x.vm.atOp x.vm.gCpu.pc).gCpu.methodArgs + 2)
  ret : x.vm.gCpu.codeMem x.vm.gCpu.pc = Op.ireturn.code →
    uint32 (x.dbg.callHistoryTop - 2) < x.dbg.allocated

/-- The history can follow each step that the loop should make and the machine completes, and if
the step leads to a breakpoint, there is a record to tell about. -/
def Unhindered (r : DbgEnv) (x : Session) : Prop :=
  ∀ y b t es, Stepping r x y → step.run r.vm y.vm = .done b t es →
    y.Bookable r ∧ ∀ z fs, (stepWithHistory false).run r y = .done () z fs →
      breakpointNumber z.dbg.brkpts z.vm.gCpu.pc ≠ 0 → z.TellsCall r

section Booking

variable {r : DbgEnv} {x y : Session} {b : Bool} {t : State} {es : List Event}

/-- What holds of the session whenever a step of the loop begins. -/
structure Session.Steppable (x : Session) : Prop where
  range : x.vm.gCpu.InRange
  counted : x.dbg.Counted
  active : x.dbg.quitFlag = false

/-- A machine that the debugger runs is in range. -/
theorem Continues.inRange {env : Env} {file : List Byte} {k : Nat} {s : State}
    (continues : Continues env file k s) : s.gCpu.InRange := by
  induction continues with
  | load _ init => exact (started_of_init init).main.inRange
  | output _ ih => exact ih
  | input _ _ ih => exact ih
  | collection _ collected ih =>
      have same := collected.cpu_eq
      rw [← same] at ih
      exact ih
  | step _ _ execution ih => exact (step_judged ih).returns _ _ _ execution

theorem Driven.ready {restarts : List (Session × Session)} (driven : Driven r x restarts)
    (active : x.dbg.quitFlag = false) (started : x.dbg.progState = .started) : x.Steppable := by
  have phase := driven_phase driven active
  unfold Session.Phase at phase
  rw [started] at phase
  obtain ⟨k, ⟨_, _, _, _, _, continues⟩, _⟩ := phase
  exact ⟨continues.inRange, driven.counted, active⟩

/-- A call that the machine completes is stored without a request to quit if it is bookable, and
only then. -/
theorem storeFuncCall_iff (ready : x.Steppable) (execution : step.run r.vm x.vm = .done b t es)
    (call : x.vm.gCpu.codeMem x.vm.gCpu.pc = Op.invokevirtual.code) :
    (∃ y fs, storeFuncCall.run r x = .done () y fs ∧ y.dbg.quitFlag = false) ↔
      (x.vm.atOp x.vm.gCpu.pc).gCpu.methodArgs < 32768 ∧
        HasRoom r x.dbg ((x.vm.atOp x.vm.gCpu.pc).gCpu.methodArgs + 2) := by
  obtain ⟨range, ⟨top_lt, bound, sized⟩, active⟩ := ready
  have low := (pc_of_step execution).1
  have invokes := (invoked_of_step range
    (executes_here (pc_of_step execution) call (by decide)) execution).1
  constructor
  · rintro ⟨y, fs, run, unset⟩
    refine storeFuncCall_done range low invokes top_lt (sized active) bound (fun refused => ?_) run
    obtain ⟨gs, _, reads⟩ := storeFuncCall_reads (r := r) range low invokes
    obtain ⟨z, fit, _, quits, _⟩ := fitHistory_refused refused
    rw [reads, run_bind_of_done _ fit, if_pos rfl] at run
    injection run with _ same
    rw [← same, quits] at unset
    contradiction
  · rintro ⟨few, enough⟩
    obtain ⟨y, z, fs, run, made, _, appended, _⟩ := storeFuncCall_stores range low invokes few
      enough top_lt (sized active) bound
    exact ⟨z, fs, run, appended.quitFlag.trans (made.quitFlag.trans active)⟩

/-- A return is noted if there is a number of arguments, and only then. -/
theorem removeLastFuncCall_iff (active : x.dbg.quitFlag = false) :
    (∃ y fs, removeLastFuncCall.run r x = .done () y fs ∧ y.dbg.quitFlag = false) ↔
      uint32 (x.dbg.callHistoryTop - 2) < x.dbg.allocated := by
  by_cases inside : uint32 (x.dbg.callHistoryTop - 2) < x.dbg.allocated
  · exact iff_of_true ⟨_, _, removeLastFuncCall_inside r inside, active⟩ inside
  · refine iff_of_false ?_ inside
    rintro ⟨y, fs, run, _⟩
    have stops := removeLastFuncCall_outside r inside
    rw [run] at stops
    contradiction

/-- The history follows a step that the machine completes if the step is bookable, and only
then. -/
theorem createCallHistory_iff (ready : x.Steppable)
    (execution : step.run r.vm x.vm = .done b t es) :
    (∃ y fs, createCallHistory.run r x = .done () y fs ∧ y.dbg.quitFlag = false) ↔
      x.Bookable r := by
  have skip {m : DBG Unit} (events : List DbgEvent) :
      (∃ y fs, (m.run r x).prepend events = .done () y fs ∧ y.dbg.quitFlag = false) ↔
        ∃ y fs, m.run r x = .done () y fs ∧ y.dbg.quitFlag = false := by
    cases m.run r x with
    | done a y fs => simp
    | stopped e y fs => simp
  rw [createCallHistory, run_bind_of_done _ codeAtPc_run, skip]
  split
  · rename_i call
    have other : x.vm.gCpu.codeMem x.vm.gCpu.pc ≠ Op.ireturn.code := by
      rw [call]
      decide
    rw [storeFuncCall_iff ready execution call]
    exact ⟨fun h => ⟨fun _ => h, fun ret => absurd ret other⟩, fun h => h.call call⟩
  · rename_i other
    rw [run_bind_of_done _ codeAtPc_run, skip]
    split
    · rename_i ret
      rw [removeLastFuncCall_iff ready.active]
      exact ⟨fun h => ⟨fun call => absurd call other, fun _ => h⟩, fun h => h.ret ret⟩
    · rename_i another
      exact iff_of_true ⟨x, [], rfl, ready.active⟩
        ⟨fun call => absurd call other, fun ret => absurd ret another⟩

/-- The debugger makes a step that the machine completes, and no request to quit, if the step is
bookable, and only then. -/
theorem stepWithHistory_iff (ready : x.Steppable) (execution : step.run r.vm x.vm = .done b t es) :
    (∃ z fs, (stepWithHistory false).run r x = .done () z fs ∧ z.dbg.quitFlag = false) ↔
      x.Bookable r := by
  rw [← createCallHistory_iff ready execution]
  constructor
  · rintro ⟨z, fs, run, unset⟩
    obtain ⟨y, gs, _, s', _, history, _, rfl⟩ := stepWithHistory_done run
    exact ⟨y, gs, history, unset⟩
  · rintro ⟨y, gs, history, unset⟩
    have same := (createCallHistory_bookkeeps.done history).1.vm
    rw [stepWithHistory_run, history, Outcome.andThen_done, enterStep_run, same, execution]
    exact ⟨_, _, rfl, unset⟩

/-- A step that the debugger makes is one of the machine. -/
theorem execution_of_step {z : Session} {fs : List DbgEvent}
    (turn : (stepWithHistory false).run r x = .done () z fs) :
    ∃ b es, step.run r.vm x.vm = .done b z.vm es := by
  obtain ⟨y, gs, b, s', es, history, execution, rfl⟩ := stepWithHistory_done turn
  rw [(createCallHistory_bookkeeps.done history).1.vm] at execution
  exact ⟨b, es, execution⟩

/-- While the loop goes on, its sessions are ready. The induction is on the steps. -/
theorem Session.Steppable.stepping (ready : x.Steppable) (stepping : Stepping r x y) :
    y.Steppable := by
  induction stepping with
  | refl => exact ready
  | tail _ passes ih =>
      obtain ⟨⟨fs, turn⟩, stays⟩ := passes
      obtain ⟨b, es, execution⟩ := execution_of_step turn
      refine ⟨(step_judged ih.range).returns _ _ _ execution, ?_, ?_⟩
      · exact (stepWithHistory_counted false _ _ ih.counted fun _ _ => trivial).1 _ _ _ turn
      · exact Bool.eq_false_iff.mpr fun set => stays (Or.inr (Or.inr set))

end Booking

section Loop

variable {r : DbgEnv} {x y z : Session} {fs : List DbgEvent}

/-- The message at the end of a step does not change the reasons to stop. -/
theorem stopsHere_of_report (report : reportBreakpoint.run r y = .done () z fs) :
    (z.StopsHere ↔ y.StopsHere) ∧ z.dbg.quitFlag = y.dbg.quitFlag := by
  obtain ⟨dbg, _, cpu⟩ := tellBreakpoint_done report
  rw [Session.StopsHere, Session.StopsHere, dbg, cpu]
  exact ⟨Iff.rfl, rfl⟩

/-- There is no message before a reason to stop. -/
theorem report_quiet (goes : ¬ y.StopsHere) : reportBreakpoint.run r y = .done () y [] :=
  tellBreakpoint_elsewhere r true fun there => goes (Or.inl there)

/-- The steps with their messages come to the first reason to stop together with the steps. -/
theorem exitsAt_dbgStep_iff {k : Nat} :
    ExitsAt (dbgStep false) Session.StopsHere r x k z fs ↔ ∃ y es gs, FirstStop r x k y es ∧
      reportBreakpoint.run r y = .done () z gs ∧ fs = es ++ gs :=
  exitsAt_bind_iff (fun _ => report_quiet) fun _ _ _ report => (stopsHere_of_report report).1

theorem dbgLoop_eq (fuel : Nat) :
    dbgLoop fuel = doWhile .outOfFuel (dbgStep false) Session.GoesOn fuel := by
  induction fuel with
  | zero => rfl
  | succ fuel ih =>
      ext r x
      rw [dbgLoop, doWhile, ih]
      simp only [run_bind, run_get, atBreakpoint_run, Outcome.andThen_done, Outcome.prepend_nil]
      rfl

theorem noteFinished_run (y : Session) : noteFinished.run r y = .done () y.noted [] := by
  rw [noteFinished, run_bind, run_get, Outcome.andThen_done, Outcome.prepend_nil, Session.noted]
  split
  · rfl
  · rfl

theorem dbgRun_done {fuel : Nat} :
    (dbgRun fuel false).run r x = .done () z fs ↔
      ∃ y, (doWhile .outOfFuel (dbgStep false) Session.GoesOn fuel).run r x = .done () y fs ∧
        z = y.noted := by
  rw [dbgRun, if_neg (by decide), dbgLoop_eq, run_bind_done]
  constructor
  · rintro ⟨_, y, es, gs, loop, note, rfl⟩
    injection (noteFinished_run y).symm.trans note with _ same none
    subst none
    exact ⟨y, by rw [List.append_nil]; exact loop, same.symm⟩
  · rintro ⟨y, loop, rfl⟩
    exact ⟨(), y, fs, [], loop, noteFinished_run y, (List.append_nil fs).symm⟩

/-- The loop ends at a reason to stop other than the quit flag. -/
theorem Session.not_goesOn : ¬ y.GoesOn ↔ y.StopsHere ∧ y.dbg.quitFlag = false := by
  unfold Session.GoesOn Session.StopsHere
  cases y.dbg.quitFlag with
  | true => simp
  | false => simp [or_iff_not_imp_left]

theorem stopsHere_of_exit (t : Session) (exits : ¬ t.GoesOn) : t.StopsHere :=
  (Session.not_goesOn.mp exits).1

/-- Where the loop returns, a message was told at the first reason to stop. -/
theorem firstStop_of_dbgRun {fuel : Nat} {u : Session}
    (unset : ∀ k y es, FirstStop r x k y es → y.dbg.quitFlag = false)
    (run : (dbgRun fuel false).run r x = .done () u fs) :
    ∃ k y es z gs, k ≤ fuel ∧ FirstStop r x k y es ∧
      reportBreakpoint.run r y = .done () z gs ∧ u = z.noted ∧ fs = es ++ gs := by
  obtain ⟨z, loop, same⟩ := dbgRun_done.mp run
  obtain ⟨n, le, exits⟩ := exitsAt_of_doWhile loop
  obtain ⟨m, v, hs, first, _⟩ := exits.weaken stopsHere_of_exit
  obtain ⟨y, es, gs, steps, report, rfl⟩ := exitsAt_dbgStep_iff.mp first
  have kept := (stopsHere_of_report report).2.trans (unset m y es steps)
  have exits' := first.strengthen stopsHere_of_exit (Session.not_goesOn.mpr ⟨first.exits, kept⟩)
  obtain ⟨rfl, rfl, rfl⟩ := exits'.unique exits
  exact ⟨m, y, es, v, gs, le, steps, report, same, rfl⟩

/-- The quit flag is not set where the loop returns at the first reason to stop. -/
theorem unset_of_stops (right : StopsFirst r x) {k : Nat} {es : List DbgEvent}
    (first : FirstStop r x k y es) : y.dbg.quitFlag = false := by
  obtain ⟨z, gs, report, returns⟩ := right.stops k y es first
  obtain ⟨v, loop, _⟩ := dbgRun_done.mp (returns k (Nat.le_refl k))
  obtain ⟨n, le, exits⟩ := exitsAt_of_doWhile loop
  obtain ⟨m, w, hs, first', order⟩ := exits.weaken stopsHere_of_exit
  obtain ⟨rfl, rfl, _⟩ := first'.unique (exitsAt_dbgStep_iff.mpr ⟨y, es, gs, first, report, rfl⟩)
  obtain rfl := order.resolve_left (by omega)
  rw [← (stopsHere_of_report report).2]
  exact (Session.not_goesOn.mp exits.exits).2

/-- The loop is right about its end if at the first reason to stop, the quit flag is not set and
the message returns. -/
theorem stopsFirst_of (steps : ∀ y b t es, Stepping r x y → step.run r.vm y.vm = .done b t es →
      ((stepWithHistory false).run r y).isDone = true)
    (unset : ∀ k y es, FirstStop r x k y es → y.dbg.quitFlag = false)
    (tells : ∀ k y es, FirstStop r x k y es → (reportBreakpoint.run r y).isDone = true) :
    StopsFirst r x where
  steps := steps
  only _ _ _ run := firstStop_of_dbgRun unset run
  stops k y es first := by
    obtain ⟨_, z, gs, report⟩ := Outcome.isDone_iff.mp (tells k y es first)
    refine ⟨z, gs, report, fun fuel enough => dbgRun_done.mpr ⟨z, ?_, rfl⟩⟩
    have whole := exitsAt_dbgStep_iff.mpr ⟨y, es, gs, first, report, rfl⟩
    have kept := (stopsHere_of_report report).2.trans (unset k y es first)
    exact doWhile_of_exitsAt (whole.strengthen stopsHere_of_exit
      (Session.not_goesOn.mpr ⟨whole.exits, kept⟩)) enough

end Loop

section Claim

variable {r : DbgEnv} {x : Session}

/-- Without hindrances, the first stop is the end of a step that was bookable. -/
theorem Unhindered.unset (ready : x.Steppable) (unhindered : Unhindered r x) {k : Nat} {y : Session}
    {es : List DbgEvent} (first : FirstStop r x k y es) :
    y.dbg.quitFlag = false ∧ (reportBreakpoint.run r y).isDone = true := by
  obtain ⟨z, fs, stepping, turn⟩ := first.last
  obtain ⟨b, es', execution⟩ := execution_of_step turn
  obtain ⟨bookable, tells⟩ := unhindered z b y.vm es' stepping execution
  have before := ready.stepping stepping
  obtain ⟨u, gs, again, unset⟩ := (stepWithHistory_iff before execution).mpr bookable
  injection turn.symm.trans again with _ same
  subst same
  have counted := (stepWithHistory_counted false _ _ before.counted fun _ _ => trivial).1 _ _ _ turn
  exact ⟨unset, (tellBreakpoint_isDone r true counted.bound).mpr (tells y fs turn)⟩

/-- `continue` stops at the first reason to stop if the history can follow each step on the way
and holds a record where a breakpoint is told about, and only then. -/
theorem stopsFirst_iff {restarts : List (Session × Session)} (driven : Driven r x restarts)
    (active : x.dbg.quitFlag = false) (started : x.dbg.progState = .started) :
    StopsFirst r x ↔ Unhindered r x := by
  have ready := driven.ready active started
  constructor
  · intro right y b t es stepping execution
    obtain ⟨_, z, fs, turn⟩ := Outcome.isDone_iff.mp (right.steps y b t es stepping execution)
    have before := ready.stepping stepping
    have unset : z.dbg.quitFlag = false := by
      by_cases stops : z.StopsHere
      · obtain ⟨n, gs, first⟩ := ExitsAt.of_underway stepping turn stops
        exact unset_of_stops right first
      · exact Bool.eq_false_iff.mpr fun set => stops (Or.inr (Or.inr set))
    have bookable := (stepWithHistory_iff before execution).mp ⟨z, fs, turn, unset⟩
    refine ⟨bookable, fun u gs again there => ?_⟩
    injection turn.symm.trans again with _ same
    subst same
    obtain ⟨n, hs, first⟩ := ExitsAt.of_underway stepping turn (Or.inl there)
    obtain ⟨v, is, report, _⟩ := right.stops n z hs first
    have counted :=
      (stepWithHistory_counted false _ _ before.counted fun _ _ => trivial).1 _ _ _ turn
    exact (tellBreakpoint_isDone r true counted.bound).mp
      (Outcome.isDone_iff.mpr ⟨_, _, _, report⟩) there
  · intro unhindered
    refine stopsFirst_of (fun y b t es stepping execution => ?_)
      (fun k y es first => (unhindered.unset ready first).1)
      fun k y es first => (unhindered.unset ready first).2
    have bookable := (unhindered y b t es stepping execution).1
    obtain ⟨z, fs, turn, _⟩ :=
      (stepWithHistory_iff (ready.stepping stepping) execution).mpr bookable
    exact Outcome.isDone_iff.mpr ⟨_, _, _, turn⟩

/-- After `file`, `break` and `start`. -/
theorem stopsFirst_iff_callSeven : ∃ x restarts, Driven (DbgEnv.holding callSeven) x restarts ∧
    x.dbg.quitFlag = false ∧ x.dbg.progState = .started ∧ x.dbg.brkpts = [10] ∧
    (StopsFirst (DbgEnv.holding callSeven) x ↔ Unhindered (DbgEnv.holding callSeven) x) := by
  have check : (drive (DbgEnv.holding callSeven) 10
      [.start, .break [0x31, 0x30] true, .file "seven"]).any (fun p =>
        decide (p.1.dbg.quitFlag = false ∧ p.1.dbg.progState = .started ∧
          p.1.dbg.brkpts = [10])) = true := by decide +kernel
  obtain ⟨p, run, facts⟩ := (Option.any_eq_true _ _).mp check
  obtain ⟨active, started, brkpts⟩ := of_decide_eq_true facts
  have driven := driven_of_drive run
  exact ⟨p.1, p.2, driven, active, started, brkpts, stopsFirst_iff driven active started⟩

/-- A call of a method that returns control to HALT. -/
def callThenHalt : List Byte :=
  assemble [4] [0xB6, 0x00, 0x00, 0xFF, 0x00, 0x00, 0x00, 0x00, 0xFF]

/-- Surroundings in which this program is loaded, and the history never grows. -/
def DbgEnv.refuseHistory : DbgEnv := { DbgEnv.holding callThenHalt with grow := fun _ => false }

/-- With the record of a call refused, the debugger steps on. -/
theorem callThenHalt_runsOn : ¬ ∀ r x restarts, Driven r x restarts → x.dbg.quitFlag = false →
    x.dbg.progState = .started → StopsFirst r x := by
  intro right
  have check : (drive DbgEnv.refuseHistory 10 [.start, .file "a.ijvm"]).any (fun p =>
      decide (p.1.dbg.quitFlag = false ∧ p.1.dbg.progState = .started) &&
        ((stepWithHistory false).run DbgEnv.refuseHistory p.1).isDone &&
        ((stepWithHistory false).run DbgEnv.refuseHistory p.1).state.dbg.quitFlag) = true := by
    decide +kernel
  obtain ⟨p, run, facts⟩ := (Option.any_eq_true _ _).mp check
  simp only [Bool.and_eq_true] at facts
  obtain ⟨⟨state, returns⟩, quits⟩ := facts
  obtain ⟨active, started⟩ := of_decide_eq_true state
  obtain ⟨_, y, es, turn⟩ := Outcome.isDone_iff.mp returns
  rw [turn, Outcome.state_done] at quits
  have unset := unset_of_stops (right _ _ _ (driven_of_drive run) active started)
    (.here turn (Or.inr (Or.inr quits)))
  rw [unset] at quits
  contradiction

end Claim

end Ijvm
