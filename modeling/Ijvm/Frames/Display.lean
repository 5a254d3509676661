import Ijvm.Debugger.Restart
import Ijvm.Frames.Context
import Ijvm.Frames.Keeping

/-!
# The frames that the debugger shows

`info frame` prints the frame of the method that runs, as the machine with frames has it: its
local variables, and its operands from the bottom to the top. In front of the operands of a
method stand the four words that the call saved. Where the debugger sees the calls and returns,
its call history has one record for each frame, with the address of its method and the number of
its arguments.
-/

namespace Ijvm.Frames

open Transcript Program Records Transitions

section Info

variable {im : Image} {wide : Bool} {s : State} {c : Config}

/-- The words that a call saves for the caller. -/
def SavedWords : List Suspension → List Word → Prop
  | [], ws => ws = []
  | r :: _, ws => ∃ lv nv fp pc, ws = [lv, nv, fp, pc] ∧ nv.toInt = r.frame.vars.length ∧
      pc.toInt = r.pc

/-- The line of the local variables, also while the debugger looks for memory of its own. -/
theorem Represents.showsLocalVars (h : Represents im wide s c) (env : Env) (n : Nat) :
    printFrameLocalVars.run env { s with clock := n } =
      .done c.frame.vars { s with clock := n } [] := by
  have nv := h.layout.nv
  have adjacent := h.layout.adjacent
  have lv_nonneg := h.range.lv_nonneg
  have fp_lt := h.range.fp_lt
  have size_lt := h.range.size_lt
  rw [printFrameLocalVars, run_bind, run_get, Outcome.andThen_done, Outcome.prepend_nil]
  dsimp only
  rw [uint32_of_lt lv_nonneg (by omega), uint32_of_lt (by omega) (by omega),
    printCells_run env _ (by show _ ≤ s.gCpu.stackSize; omega)]
  congr 1
  refine printedCells_eq (by omega) fun k w found => ?_
  rw [Int.toNat_of_nonneg lv_nonneg]
  exact h.layout.holds.vars k w found

/-- The operands are printed from the bottom. -/
theorem Holds.operand_reverse {mem : Int → Word} {lv low sp : Int} {f : Activation} {k : Nat}
    {w : Word} (h : Holds mem lv low sp f) (found : f.operands.reverse[k]? = some w) :
    mem (low + 1 + k) = w := by
  have top := h.top
  have inside := (List.getElem?_eq_some_iff.mp found).1
  rw [List.length_reverse] at inside
  rw [List.getElem?_reverse inside] at found
  rw [← h.operand found]
  congr 1
  omega

/-- The cells from `fp` on. -/
theorem Represents.stackCells (h : Represents im wide s c) :
    ∃ saved, SavedWords c.callers saved ∧ (0 ≤ s.gCpu.sp →
        printedCells s.gCpu.stack s.gCpu.fp.toNat (s.gCpu.sp.toNat + 1) =
          saved ++ c.frame.operands.reverse) ∧
      (s.gCpu.sp < 0 → saved ++ c.frame.operands.reverse = []) := by
  have holds := h.layout.holds
  have top := holds.top
  have below := h.layout.below
  obtain ⟨size_lt, _, sp_ge, sp_lt, fp_nonneg, fp_lt, _, _, _, _⟩ := h.range
  have fp_eq := Int.toNat_of_nonneg fp_nonneg
  cases callers : c.callers with
  | nil =>
      rw [callers, base] at top holds
      refine ⟨[], rfl, fun sp_nonneg => ?_, fun empty => ?_⟩
      · rw [List.nil_append]
        refine printedCells_eq (by rw [List.length_reverse]; omega) fun k w found => ?_
        rw [fp_eq, ← holds.operand_reverse found, Int.sub_add_cancel]
      · have none : c.frame.operands = [] := List.eq_nil_of_length_eq_zero (by omega)
        rw [none, List.reverse_nil, List.nil_append]
  | cons r rest =>
      rw [callers] at top holds below
      rw [base] at top holds
      obtain ⟨_, fp', lv', linkage, _⟩ := below
      let stack := s.gCpu.stack
      let fp := s.gCpu.fp
      refine ⟨[stack fp, stack (fp + 1), stack (fp + 2), stack (fp + 3)],
        ⟨_, _, _, _, rfl, linkage.nv, linkage.pc⟩, fun sp_nonneg => ?_, fun empty => by omega⟩
      refine printedCells_eq ?_ fun k w found => ?_
      · rw [List.length_append, List.length_reverse]
        simp only [List.length_cons, List.length_nil]
        omega
      · rw [fp_eq]
        obtain below | ⟨k, rfl⟩ : k < 4 ∨ ∃ d, k = d + 4 :=
          (lt_or_ge k 4).imp_right fun least => ⟨k - 4, by omega⟩
        · obtain rfl | rfl | rfl | rfl : k = 0 ∨ k = 1 ∨ k = 2 ∨ k = 3 := by omega
          all_goals simpa [stack, fp] using found
        · have operand : c.frame.operands.reverse[k]? = some w := by simpa using found
          rw [← holds.operand_reverse operand]
          congr 1
          omega

/-- The line of the stack: the saved words, and the operands from the bottom. -/
theorem Represents.showsStack (h : Represents im wide s c) (env : Env) (n : Nat) :
    ∃ saved, SavedWords c.callers saved ∧ printFrameStack.run env { s with clock := n } =
      .done (saved ++ c.frame.operands.reverse) { s with clock := n } [] := by
  obtain ⟨saved, words, cells, none⟩ := h.stackCells
  obtain ⟨size_lt, _, sp_ge, sp_lt, fp_nonneg, fp_lt, _, _, _, _⟩ := h.range
  refine ⟨saved, words, ?_⟩
  rw [printFrameStack, run_bind, run_get, Outcome.andThen_done, Outcome.prepend_nil]
  dsimp only
  split
  · rename_i sp_nonneg
    rw [uint32_of_lt fp_nonneg (by omega), uint32_of_lt sp_nonneg (by omega),
      printCells_run env _ (by show _ ≤ s.gCpu.stackSize; omega)]
    exact congrArg (Outcome.done · _ _) (cells sp_nonneg)
  · rw [none (by omega)]
    rfl

end Info

section Backtrace

variable {im : Image} {c c' : Config}

/-- The records of the frames: for each caller the call that it waits for, and main. -/
def ShowsCalls (im : Image) : List Suspension → List (Entry Word) → Prop
  | [], calls => calls = [mainEntry]
  | r :: callers, calls => ∃ e rest, calls = e :: rest ∧ e.label.toInt = im.method (r.pc - 2) ∧
      e.items.length = im.numArgs (r.pc - 2) ∧ ShowsCalls im callers rest

variable {env : Env} {s t : State} {calls : List (Entry Word)} {a : Int} {op : Op} {n : Nat}

/-- A call adds its record in front of the caller. -/
theorem ShowsCalls.call (shows : ShowsCalls im c.callers calls) (h : Represents im false s c)
    (executes : s.Executes a .invokevirtual) (invokes : (s.atOp a).gCpu.Invokes) :
    ShowsCalls im (waiting im (a + 1) c :: c.callers) ((s.atOp a).gCpu.invocation :: calls) := by
  have low := (opAddrFrom_bounds executes.found).2.1
  obtain ⟨argument, -, ⟨method_nonneg, -⟩, header, -⟩ := invokes
  have code {i : Int} (nonneg : 0 ≤ i) (inside : i < s.gCpu.codeMemSize) :
      im.code i = s.gCpu.codeMem i := by
    rw [← h.image]
    exact Image.code_of nonneg inside
  have argument : a + 1 + 2 ≤ s.gCpu.codeMemSize := argument
  have short : im.short (a + 1) = (s.atOp a).gCpu.short (a + 1) := by
    rw [Image.short, code (by omega) (by omega), code (i := a + 1 + 1) (by omega) (by omega)]
    rfl
  have method : im.method (a + 1) = (s.atOp a).gCpu.methodAddress := by
    rw [Image.method, short, ← h.image]
    rfl
  have header : (s.atOp a).gCpu.methodAddress + 4 ≤ s.gCpu.codeMemSize := header
  refine ⟨_, calls, rfl, ?_, ?_, shows⟩
  · rw [waiting, Int.add_sub_cancel, method]
    rfl
  · rw [length_invocation, waiting, Int.add_sub_cancel, Image.numArgs, method, Image.short,
      code method_nonneg (by omega), code (i := _ + 1) (by omega) (by omega)]
    rfl

/-- A return takes off the caller that goes on. -/
theorem leave_returns {x : Setting} :
    (leave.run x c).Returns fun _ c' => ∃ r, c.callers = r :: c'.callers ∧ c'.pc = r.pc := by
  rw [leave, run_bind]
  have pops : (pop.run x c).Returns fun _ c' => c'.callers = c.callers :=
    (pop_keeps (outer_callers _) x c rfl fun _ _ => trivial).1
  refine pops.andThen fun w c' same => ?_
  rw [run_bind, run_get, Outcome.andThen_done, Outcome.prepend_nil, same]
  cases callers : c.callers with
  | nil => exact Outcome.returns_stopped
  | cons r rest =>
      dsimp only
      rw [run_bind, run_ask, Outcome.andThen_done, Outcome.prepend_nil]
      split
      · exact Outcome.returns_stopped
      · exact Outcome.returns_done.mpr ⟨r, rfl, rfl⟩

/-- A turn changes the records as it changes the callers. -/
theorem turn_shows (shows : ShowsCalls im c.callers calls) (h : Represents im false s c)
    (taken : turn env s = some t) (w : Word) :
    (perform im w c).Returns fun _ c' => ShowsCalls im c'.callers (recordCall s calls) := by
  obtain ⟨a, found, running, ⟨op, u, es, executes, exec, same⟩ | ⟨unknown, same⟩⟩ :=
    turn_cases taken
  · obtain ⟨opAddr, decoded⟩ := h.decodes executes
    rw [perform_op _ opAddr decoded]
    have last {P : Config → Prop} {o : Outcome Config Empty Fault Unit}
        (here : o.Returns fun _ c' => P c') :
        (o.andThen fun _ c' => (.done true c' [] : End)).Returns fun _ c' => P c' :=
      here.andThen fun _ _ final => Outcome.returns_done.mpr final
    by_cases calls : op = .invokevirtual
    · subst calls
      obtain ⟨_, b, fs, execution⟩ := turn_eq_some taken
      have invokes := (invoked_of_step h.range executes execution).1
      rw [recordCall_call executes]
      refine last (invoke_calls.returns fun _ c' _ final => ?_)
      subst final
      exact shows.call h executes invokes
    by_cases returns : op = .ireturn
    · subst returns
      rw [recordCall_ret executes]
      refine last (leave_returns.mono fun _ c' final => ?_)
      obtain ⟨r, callers, -⟩ := final
      have callers : c.callers = r :: c'.callers := callers
      rw [callers] at shows
      obtain ⟨e, rest, rfl, -, -, shows⟩ := shows
      exact shows
    · have noCall : s.gCpu.op? ≠ some .invokevirtual := by
        rw [executes.op?]
        exact fun here => calls (Option.some.inj here)
      have noReturn : s.gCpu.op? ≠ some .ireturn := by
        rw [executes.op?]
        exact fun here => returns (Option.some.inj here)
      rw [recordCall_other noCall noReturn]
      have keeps := @exec_keepsCallers c.callers _ calls returns
      refine last ((keeps _ { c with pc := a + 1 } rfl fun _ _ => trivial).1.mono
        fun _ c' same => ?_)
      rw [same]
      exact shows
  · have none : s.gCpu.op? = none := by rw [Cpu.op?, found, Option.bind_some, unknown]
    rw [recordCall_other (by simp [none]) (by simp [none]), perform, opAddr?_eq h, found]
    dsimp only
    rw [opcode_eq h found, unknown]
    exact Outcome.returns_done.mpr shows

theorem answers_succ_last {u : State} (taken : advance (turn env) n s = some t)
    (last : turn env t = some u) :
    answers env (n + 1) s = answers env n s ++ [u.gCpu.stack u.gCpu.sp] := by
  induction n generalizing s with
  | zero =>
      injection taken with same
      subst same
      simp only [answers, last, Option.elim_some, List.nil_append]
  | succ n ih =>
      obtain ⟨v, first, rest⟩ := advance_succ_eq_some.mp taken
      rw [answers, first, Option.elim_some, ih rest, answers, first]
      rfl

/-- After each number of turns, the records are those of the frames. The induction is on the
number of turns; each turn changes both in the same way. -/
theorem after_showsCalls {file : List Byte} {s₀ : State} (started : after env file 0 = some s₀)
    (reached : after env file n = some s) :
    (run (Image.of s₀.gCpu) (answers env n s₀) (start s₀.gCpu.nv.toNat env.stdin)).Satisfies
      (fun _ c _ => Represents (Image.of s₀.gCpu) false s c ∧
        ShowsCalls (Image.of s₀.gCpu) c.callers (invocations env file n))
      fun f _ _ => f = .undisciplined := by
  induction n generalizing s with
  | zero =>
      rw [started] at reached
      obtain rfl := Option.some.inj reached
      exact ⟨start_represents started, rfl⟩
  | succ n ih =>
      obtain ⟨t, earlier, taken⟩ := Option.bind_eq_some_iff.mp reached
      rw [answers_succ_last (advance_of_after started earlier) taken, run_append, invocations,
        earlier]
      refine (ih earlier).andThen fun _ c es here => ?_
      obtain ⟨related, shows⟩ := here
      rw [run, ended_eq related, (turn_eq_some taken).1, if_neg Bool.false_ne_true]
      refine Outcome.Satisfies.andThen
        ((turn_follows related taken).and_returns (turn_shows shows related taken _)) ?_
      exact fun _ c' _ final => final

/-- The phase of the program is still the one in which it was started. -/
theorem sessionAfter_progState {r : DbgEnv} {file : List Byte} {d : DebugData} {path : String}
    {brkpts : List Word} {log : Nat → Bool} {x : Session}
    (reached : sessionAfter r file d path brkpts log n = some x) : x.dbg.progState = .started := by
  induction n generalizing x with
  | zero =>
      obtain ⟨s, loaded, started⟩ := Option.bind_eq_some_iff.mp reached
      obtain ⟨es, init⟩ := init_of_after loaded
      rw [execStart_run r path brkpts (started_of_init init).noOutput] at started
      cases told : (tellBreakpoint false).run r (Session.loaded r s d path brkpts) with
      | stopped e y es =>
          rw [told] at started
          contradiction
      | done _ y es =>
          rw [told] at started
          obtain rfl := Option.some.inj started
          rfl
  | succ n ih =>
      obtain ⟨y, earlier, taken⟩ := Option.bind_eq_some_iff.mp reached
      split at taken
      · contradiction
      · cases run : (dbgStep (log n)).run r y with
        | stopped e z es =>
            rw [run] at taken
            contradiction
        | done _ z es =>
            rw [run] at taken
            obtain rfl := Option.some.inj taken
            obtain ⟨_, u, _, _, step, report, _⟩ := run_bind_done.mp run
            obtain ⟨v, _, _, _, _, history, _, rfl⟩ := stepWithHistory_done step
            rw [(tellBreakpoint_done report).1, ← ih earlier]
            exact (createCallHistory_bookkeeps.done history).1.dbg.progState

/-- In every session whose steps show the debugger what they do, with memory for the names of
functions, `info frame` shows the current frame, and the call history has one record for each. -/
theorem sessionAfter_shows {r : DbgEnv} {file : List Byte} {d : DebugData} {path : String}
    {brkpts : List Word} {log : Nat → Bool} {s₀ : State} {x : Session}
    (granted : ∀ n, r.memory n = true) (started : after r.vm file 0 = some s₀)
    (visible : ∀ m < n, ∀ y, sessionAfter r file d path brkpts log m = some y →
      Visible r y (sessionCalls r file d path brkpts log m))
    (reached : sessionAfter r file d path brkpts log n = some x) :
    (run (Image.of s₀.gCpu) (answers r.vm n s₀) (start s₀.gCpu.nv.toNat r.vm.stdin)).Satisfies
      (fun _ c _ =>
        (∃ calls, ShowsCalls (Image.of s₀.gCpu) c.callers calls ∧ x.dbg.Holds calls ∧
          Mirrors r x calls) ∧
        ∃ saved, SavedWords c.callers saved ∧
          (execInfo (ascii ['f', 'r', 'a', 'm', 'e'])).run r x =
            .done () x [.console (.info
              (.frame (saved ++ c.frame.operands.reverse) c.frame.vars))])
      fun f _ _ => f = .undisciplined := by
  obtain ⟨_, holds, _, follows⟩ := sessionAfter_holds visible reached
  obtain ⟨here, same⟩ := follows granted
  refine (after_showsCalls started here).mono (fun _ c _ shown => ⟨?_, ?_⟩) fun _ _ _ left => left
  · rw [← same] at shown
    exact ⟨_, shown.2, holds, holds.mirrors⟩
  · obtain ⟨saved, words, stack⟩ := shown.1.showsStack r.forLookup x.requests
    have localVars := shown.1.showsLocalVars r.forLookup x.requests
    have state := sessionAfter_progState reached
    refine ⟨saved, words, ?_⟩
    rw [execInfo, run_bind, run_get, Outcome.andThen_done, Outcome.prepend_nil,
      if_neg (by simp [state]), if_pos rfl, if_neg (by simp [state]),
      run_bind_of_done _ (lookUp_done stack)]
    refine (congrArg (Outcome.prepend _) (run_bind_of_done _ (lookUp_done localVars))).trans ?_
    rfl

/-- In the method of `successor`, with 1 and the argument 65 as its operands. -/
theorem sessionAfter_shows_successor : ∃ r : DbgEnv, r.vm = Env.twoBytes ∧ ∃ s₀ x saved,
    after r.vm successor 0 = some s₀ ∧
    sessionAfter r successor .init "successor" [] (fun _ => true) 4 = some x ∧
    (execInfo (ascii ['f', 'r', 'a', 'm', 'e'])).run r x =
      .done () x [.console (.info (.frame (saved ++ [1, 65]) [65]))] ∧
    ∃ calls, ShowsCalls (Image.of s₀.gCpu) [⟨⟨[], []⟩, 4⟩] calls ∧ x.dbg.Holds calls := by
  let r : DbgEnv := { DbgEnv.quiet with vm := Env.twoBytes }
  let c : Config := ⟨14, ⟨[65], [65, 1]⟩, [⟨⟨[], []⟩, 4⟩], [66], [], false, false⟩
  let session (m : Nat) := sessionAfter r successor .init "successor" [] (fun _ => true) m
  have check : (after r.vm successor 0).any (fun s₀ =>
      let machine := run (Image.of s₀.gCpu) (answers r.vm 4 s₀) (start s₀.gCpu.nv.toNat [65, 66])
      decide (machine.value? = some () ∧ machine.state = c)) = true := by
    decide +kernel
  have steps : (∀ m < 4, (session m).all fun y => decide (Visible r y
      (sessionCalls r successor .init "successor" [] (fun _ => true) m))) ∧
      (session 4).isSome = true := by
    decide +kernel
  obtain ⟨s₀, started, facts⟩ := (Option.any_eq_true _ _).mp check
  obtain ⟨done, state⟩ := of_decide_eq_true facts
  obtain ⟨x, reached⟩ := Option.isSome_iff_exists.mp steps.2
  have shows := sessionAfter_shows (fun _ => rfl) started (fun m below y earlier => ?_) reached
  · rw [show r.vm.stdin = [65, 66] from rfl, Outcome.eq_done_of_value? done, state] at shows
    obtain ⟨⟨calls, records, holds, _⟩, saved, _, shown⟩ := shows
    exact ⟨r, rfl, s₀, x, saved, started, reached, shown, calls, records, holds⟩
  · have here := steps.1 m below
    rw [show session m = some y from earlier] at here
    exact of_decide_eq_true here

end Backtrace

end Ijvm.Frames
