import Ijvm.Debugger.Display

/-!
# The call history mirrors the active calls

`sessionCalls` is the list of active calls, kept along the session by what the steps of its
machine execute. The debugger decodes the byte at PC instead. Where no prefix hides a call
or a return, the two agree, and `backtrace` prints exactly the active calls. With memory for
the names of the functions, they are the calls of the run of the machine, `invocations`.
-/

namespace Ijvm

open Transcript Program Records

section Printing

variable {r : DbgEnv} {x : Session} {calls : List (Entry Word)}

/-- The backtrace shows these records, and it returns if their names can be looked up. -/
structure Mirrors (r : DbgEnv) (x : Session) (calls : List (Entry Word)) : Prop where
  returns : NamesAll r x (calls.map Entry.label) → ((printFuncCalls 0).run r x).isDone = true
  shows : ∀ y es, (printFuncCalls 0).run r x = .done () y es → shownCalls es = numbered calls

theorem DebuggerState.Holds.mirrors (holds : x.dbg.Holds calls) : Mirrors r x calls := by
  have prints := printFuncCallsFuel_cases r (fun _ => Nat.zero_le 0) holds.stored
    (Nat.lt_succ_self _) holds.inside holds.bound
  constructor
  · intro names
    rw [printFuncCalls_run]
    rcases prints with ⟨_, y, es, run, _⟩ | ⟨some, _⟩
    · rw [run]
      rfl
    · exact absurd names some
  · intro y es printed
    rw [printFuncCalls_run] at printed
    rcases prints with ⟨_, z, fs, run, shown⟩ | ⟨_, stops⟩
    · injection run.symm.trans printed with _ _ same
      rw [← same, shown]
      simp [numberAfter, numbered, toPrint]
    · rw [printed] at stops
      contradiction

end Printing

section Calls

/-- The active calls after a step from `s`, from those before it: INVOKEVIRTUAL adds the
record of its call, IRETURN removes one. -/
def recordCall (s : State) (calls : List (Entry Word)) : List (Entry Word) :=
  match s.gCpu.opAddr?, s.gCpu.op? with
  | some a, some .invokevirtual => (s.atOp a).gCpu.invocation :: calls
  | _, some .ireturn => calls.tail
  | _, _ => calls

/-- The active calls after `n` turns, innermost first and ending in main. -/
def invocations (env : Env) (file : List Byte) : Nat → List (Entry Word)
  | 0 => [mainEntry]
  | n + 1 =>
      match after env file n with
      | some s => recordCall s (invocations env file n)
      | none => invocations env file n

variable {s : State} {a : Int} {calls : List (Entry Word)}

theorem recordCall_call (h : s.Executes a .invokevirtual) :
    recordCall s calls = (s.atOp a).gCpu.invocation :: calls := by
  rw [recordCall, h.found, h.op?]

theorem recordCall_ret (h : s.Executes a .ireturn) : recordCall s calls = calls.tail := by
  rw [recordCall, h.found, h.op?]

theorem recordCall_other (noCall : s.gCpu.op? ≠ some .invokevirtual)
    (noReturn : s.gCpu.op? ≠ some .ireturn) : recordCall s calls = calls := by
  unfold recordCall
  split
  · exact absurd ‹_› noCall
  · exact absurd ‹_› noReturn
  · rfl

end Calls

/-- The next step shows the debugger what it does to the active calls: no prefix stands
before a call or a return, the number of arguments is read with the right sign, the
history can take the record, and main does not return. -/
structure Visible (r : DbgEnv) (x : Session) (calls : List (Entry Word)) : Prop where
  call : ∀ a, x.vm.Executes a .invokevirtual → a = x.vm.gCpu.pc ∧
    (x.vm.atOp a).gCpu.methodArgs < 32768 ∧
    HasRoom r x.dbg ((x.vm.atOp a).gCpu.methodArgs + 2)
  ret : ∀ a, x.vm.Executes a .ireturn → a = x.vm.gCpu.pc ∧ 2 ≤ calls.length

instance (r : DbgEnv) (x : Session) (calls : List (Entry Word)) : Decidable (Visible r x calls) :=
  decidable_of_iff
    ((∀ a ∈ x.vm.gCpu.opAddr?, Op.ofByte? (x.vm.gCpu.codeMem a) = some .invokevirtual →
      a = x.vm.gCpu.pc ∧ (x.vm.atOp a).gCpu.methodArgs < 32768 ∧
      HasRoom r x.dbg ((x.vm.atOp a).gCpu.methodArgs + 2)) ∧
    ∀ a ∈ x.vm.gCpu.opAddr?, Op.ofByte? (x.vm.gCpu.codeMem a) = some .ireturn →
      a = x.vm.gCpu.pc ∧ 2 ≤ calls.length)
    ⟨fun h => ⟨fun a e => h.1 a e.found e.decoded, fun a e => h.2 a e.found e.decoded⟩,
      fun h => ⟨fun a f d => h.call a ⟨f, d⟩, fun a f d => h.ret a ⟨f, d⟩⟩⟩

/-- Main stays the outermost call. -/
theorem Visible.recordCall_getLast? {r : DbgEnv} {x : Session} {calls : List (Entry Word)}
    (visible : Visible r x calls) (last : calls.getLast? = some mainEntry) :
    (recordCall x.vm calls).getLast? = some mainEntry := by
  by_cases call : x.vm.gCpu.op? = some .invokevirtual
  · obtain ⟨a, executes⟩ := State.executes_of_op? call
    rw [recordCall_call executes, List.getLast?_cons, last]
    rfl
  · by_cases ret : x.vm.gCpu.op? = some .ireturn
    · obtain ⟨a, executes⟩ := State.executes_of_op? ret
      obtain ⟨_, deep⟩ := visible.ret a executes
      rw [recordCall_ret executes]
      match calls, deep with
      | _ :: e :: calls, _ => rwa [List.getLast?_cons_cons] at last
    · rw [recordCall_other call ret]
      exact last

section Stepping

variable {r : DbgEnv} {x : Session} {calls : List (Entry Word)} {s' : State} {b : Bool}
  {es : List Event}

theorem Visible.callFits (visible : Visible r x calls) (running : finished x.vm.gCpu = false)
    (call : x.vm.gCpu.codeMem x.vm.gCpu.pc = Op.invokevirtual.code) :
    (x.vm.atOp x.vm.gCpu.pc).gCpu.methodArgs < 32768 ∧
      HasRoom r x.dbg ((x.vm.atOp x.vm.gCpu.pc).gCpu.methodArgs + 2) :=
  (visible.call _ (executes_at_pc running call (by decide))).2

theorem Visible.deep (visible : Visible r x calls) (running : finished x.vm.gCpu = false)
    (ret : x.vm.gCpu.codeMem x.vm.gCpu.pc = Op.ireturn.code) : calls ≠ [] := by
  rintro rfl
  exact absurd (visible.ret _ (executes_at_pc running ret (by decide))).2 (by simp)

/-- What the debugger sees of a visible step is what the machine does. -/
theorem Visible.observeCall (visible : Visible r x calls) (running : finished x.vm.gCpu = false) :
    observeCall x.vm calls = recordCall x.vm calls := by
  unfold Ijvm.observeCall
  split
  · rw [recordCall_call (executes_at_pc running ‹_› (by decide))]
  · rename_i call
    split
    · rw [recordCall_ret (executes_at_pc running ‹_› (by decide))]
    · rename_i ret
      rw [recordCall_other]
      · intro hidden
        obtain ⟨a, executes⟩ := State.executes_of_op? hidden
        obtain ⟨rfl, _⟩ := visible.call a executes
        exact call (Op.ofByte?_eq_some.mp executes.decoded)
      · intro hidden
        obtain ⟨a, executes⟩ := State.executes_of_op? hidden
        obtain ⟨rfl, _⟩ := visible.ret a executes
        exact ret (Op.ofByte?_eq_some.mp executes.decoded)

/-- The parts of a step that returns, before its message: keeping the history up to date, and
one step of the machine. -/
theorem stepWithHistory_done {log : Bool} {z : Session} {fs : List DbgEvent}
    (run : (stepWithHistory log).run r x = .done () z fs) :
    ∃ y gs b s' es, createCallHistory.run r x = .done () y gs ∧
      step.run r.vm y.vm = .done b s' es ∧ z = { y with vm := s' } := by
  rw [stepWithHistory_run] at run
  obtain ⟨_, run, _⟩ := Outcome.prepend_eq_done.mp run
  cases history : createCallHistory.run r x with
  | stopped e y gs =>
      rw [history] at run
      contradiction
  | done _ y gs =>
      rw [history, Outcome.andThen_done] at run
      obtain ⟨_, run, _⟩ := Outcome.prepend_eq_done.mp run
      obtain ⟨_, enter, _⟩ := Outcome.prepend_eq_done.mp run
      rw [enterStep_run] at enter
      obtain ⟨_, enter, _⟩ := Outcome.prepend_eq_done.mp enter
      cases execution : step.run r.vm y.vm with
      | stopped e s' es =>
          rw [execution] at enter
          contradiction
      | done b s' es =>
          rw [execution] at enter
          injection enter with _ state _
          exact ⟨y, gs, b, s', es, rfl, execution, state.symm⟩

/-- A visible step makes one turn of the machine, and keeps the history. -/
theorem stepWithHistory_holds {log : Bool} {z : Session} {fs : List DbgEvent}
    (range : x.vm.gCpu.InRange) (running : finished x.vm.gCpu = false)
    (visible : Visible r x calls) (holds : x.dbg.Holds calls)
    (run : (stepWithHistory log).run r x = .done () z fs) :
    turn r.vm x.vm = some z.vm ∧ z.dbg.Holds (recordCall x.vm calls) := by
  obtain ⟨y, _, b, s', es, history, execution, rfl⟩ := stepWithHistory_done run
  rw [(createCallHistory_bookkeeps.done history).1.vm] at execution
  obtain ⟨y', _, history', _, _, holds', _⟩ := createCallHistory_run range execution
    (visible.callFits running) (visible.deep running) holds
  rw [history] at history'
  injection history' with _ same _
  subst same
  rw [visible.observeCall running] at holds'
  refine ⟨?_, holds'⟩
  simp [turn, running, execution]

/-- A visible debugger step: where its message is granted memory, it is one turn of the run. -/
theorem dbgStep_holds {log : Bool} {x' : Session} {fs : List DbgEvent}
    (range : x.vm.gCpu.InRange) (running : finished x.vm.gCpu = false)
    (visible : Visible r x calls) (holds : x.dbg.Holds calls)
    (run : (dbgStep log).run r x = .done () x' fs) :
    x'.vm.gCpu.InRange ∧ x'.dbg.Holds (recordCall x.vm calls) ∧
      ((∀ n, r.memory n = true) → turn r.vm x.vm = some x'.vm) := by
  rw [dbgStep_run] at run
  cases first : (stepWithHistory log).run r x with
  | stopped e z es =>
      rw [first] at run
      contradiction
  | done _ z es =>
      rw [first, Outcome.andThen_done] at run
      obtain ⟨gs, report, _⟩ := Outcome.prepend_eq_done.mp run
      obtain ⟨taken, holds'⟩ := stepWithHistory_holds range running visible holds first
      obtain ⟨_, b, es, execution⟩ := turn_eq_some taken
      obtain ⟨dbg, _, cpu⟩ := tellBreakpoint_done report
      refine ⟨cpu ▸ step_inRange range execution, dbg ▸ holds', fun granted => ?_⟩
      obtain ⟨n, rfl⟩ := tellBreakpoint_granted holds'.toRecorded (granted _) report
      exact taken

end Stepping

section Runs

/-- The session after the program has been started and `n` debugger steps were made, while
the machine keeps running. `d` are the symbols of the program; `log` tells which of the steps
print the instruction. -/
def sessionAfter (r : DbgEnv) (file : List Byte) (d : DebugData) (path : String)
    (brkpts : List Word) (log : Nat → Bool) : Nat → Option Session
  | 0 => (after r.vm file 0).bind fun s =>
      match execStart.run r (Session.loaded r s d path brkpts) with
      | .done _ x _ => some x
      | .stopped .. => none
  | n + 1 => (sessionAfter r file d path brkpts log n).bind fun x =>
      if finished x.vm.gCpu then none
      else match (dbgStep (log n)).run r x with
        | .done _ x' _ => some x'
        | .stopped .. => none

/-- The active calls after `n` debugger steps, by what the machine of the session executes. -/
def sessionCalls (r : DbgEnv) (file : List Byte) (d : DebugData) (path : String)
    (brkpts : List Word) (log : Nat → Bool) : Nat → List (Entry Word)
  | 0 => [mainEntry]
  | n + 1 =>
      match sessionAfter r file d path brkpts log n with
      | some x => recordCall x.vm (sessionCalls r file d path brkpts log n)
      | none => sessionCalls r file d path brkpts log n

variable {r : DbgEnv} {file : List Byte} {d : DebugData} {path : String} {brkpts : List Word}
  {log : Nat → Bool}

/-- What is known of the session after `k` steps. -/
structure Mirroring (r : DbgEnv) (file : List Byte) (k : Nat) (x : Session)
    (calls : List (Entry Word)) : Prop where
  range : x.vm.gCpu.InRange
  holds : x.dbg.Holds calls
  last : calls.getLast? = some mainEntry
  follows : (∀ n, r.memory n = true) →
    after r.vm file k = some x.vm ∧ calls = invocations r.vm file k

/-- The session in which the program has just been started. -/
theorem mirroring_zero {x : Session} (reached : sessionAfter r file d path brkpts log 0 = some x) :
    Mirroring r file 0 x [mainEntry] := by
  obtain ⟨s, loaded, started⟩ := Option.bind_eq_some_iff.mp reached
  obtain ⟨es, init⟩ := init_of_after loaded
  rw [execStart_run r path brkpts (started_of_init init).noOutput] at started
  cases told : (tellBreakpoint false).run r (Session.loaded r s d path brkpts) with
  | stopped e y es =>
      rw [told] at started
      contradiction
  | done _ y es =>
      rw [told] at started
      obtain rfl := Option.some.inj started
      obtain ⟨dbg, _, cpu⟩ := tellBreakpoint_done told
      have holds := holds_loaded r s d path brkpts
      refine ⟨?_, Session.begun_holds (dbg ▸ holds), rfl, fun granted => ⟨?_, rfl⟩⟩
      · exact cpu ▸ (reachable_of_after loaded).inRange
      · obtain ⟨n, rfl⟩ := tellBreakpoint_granted holds.toRecorded (granted _) told
        exact loaded

/-- Along the session, the history holds the active calls. The induction is on the number of
steps; a step first keeps the history up to date and then moves the machine. -/
theorem sessionAfter_holds {k : Nat} {x : Session}
    (visible : ∀ m < k, ∀ y, sessionAfter r file d path brkpts log m = some y →
      Visible r y (sessionCalls r file d path brkpts log m))
    (reached : sessionAfter r file d path brkpts log k = some x) :
    Mirroring r file k x (sessionCalls r file d path brkpts log k) := by
  induction k generalizing x with
  | zero => exact mirroring_zero reached
  | succ k ih =>
      obtain ⟨y, earlier, taken⟩ := Option.bind_eq_some_iff.mp reached
      have before := ih (fun m less => visible m (by omega)) earlier
      have shown := visible k (by omega) y earlier
      rw [sessionCalls, earlier]
      split at taken
      · contradiction
      · rename_i running
        have running : finished y.vm.gCpu = false := by simpa using running
        cases run : (dbgStep (log k)).run r y with
        | stopped e z es =>
            rw [run] at taken
            contradiction
        | done _ z es =>
            rw [run] at taken
            obtain rfl := Option.some.inj taken
            obtain ⟨range, holds, follows⟩ := dbgStep_holds before.range running shown before.holds
              run
            refine ⟨range, holds, shown.recordCall_getLast? before.last, fun granted => ?_⟩
            obtain ⟨here, same⟩ := before.follows granted
            refine ⟨?_, ?_⟩
            · rw [after, here, Option.bind_some, follows granted]
            · rw [invocations, here, ← same]

end Runs

/-- The same call as in `callSeven`, with a prefix: BIPUSH 0; WIDE; INVOKEVIRTUAL; HALT,
and the method BIPUSH 7; IRETURN. -/
def wideCallSeven : List Byte :=
  assemble [7] [Op.bipush.code, 0, Op.wide.code, Op.invokevirtual.code, 0, 0, Op.halt.code,
    0, 1, 0, 0, Op.bipush.code, 7, Op.ireturn.code]

/-- The reallocations of the call history succeed. -/
def DbgEnv.Grows (r : DbgEnv) : Prop := ∀ n, r.grow n = true

end Ijvm
