import Ijvm.Debugger.LoadTests

/-!
# When a session of the debugger releases each block once

Every command does what the verdict on it says, and so does a whole session.
-/

namespace Ijvm.Blocks

open Transcript Program Ownership

section Running

/-- The vitals while a program is loaded. -/
def Vitals.running (state : ProgState) (p : Progress) : Vitals :=
  { Vitals.alike .live p.collected.ptr state with
    callHistory := if p.historyGone then .released else .live
    quitFlag := p.quit }

variable {state : ProgState} {p : Progress}

theorem Vitals.running_whole (kept : p.collected ≠ .before) : (Vitals.running state p).Whole := by
  obtain ⟨c, gone, quit, quits⟩ := p
  cases c with
  | never | since => exact ⟨Ptr.noConfusion, Ptr.noConfusion, Ptr.noConfusion, Ptr.noConfusion⟩
  | before => contradiction

theorem Action.exec_at (action : Action) (p : Progress) :
    Ends Access.Sound (At (.running state p)) action.exec
      ((p.after (action.verdict p.collected)).ending fun p' _ => At (.running state p')) := by
  obtain ⟨c, gone, quit, quits⟩ := p
  cases action with
  | collect granted =>
      cases c with
      | before => cases granted <;> exact arrGc_breaks _ rfl
      | never | since =>
          cases granted with
          | true => exact arrGc_at Ptr.noConfusion Ptr.noConfusion
          | false => exact arrGc_exits (Vitals.running_whole Collected.noConfusion)
  | growStack granted =>
      cases granted <;> exact realloc_at (o := .stack) _ rfl Ptr.noConfusion
  | growArrays granted => exact marrResize_at granted (by simp [Owner.vital]) (by decide)
  | growConnections granted => exact marrResize_at granted (by simp [Owner.vital]) (by decide)
  | error =>
      cases c with
      | before => exact destroyIjvmNow_breaks fun whole => whole.markedArrays rfl
      | never | since => exact destroyIjvmNow_at (Vitals.running_whole Collected.noConfusion)

theorem Progress.after_bind (p : Progress) (v : Verdict Collected)
    (next : Collected → Verdict Collected) :
    p.after (v.bind next) = (p.after v).bind fun p' => p'.after (next p'.collected) := by
  cases v <;> rfl

theorem execAll_at (actions : List Action) (p : Progress) :
    Ends Access.Sound (At (.running state p)) (execAll actions)
      ((p.after (actionsVerdict actions p.collected)).ending fun p' _ =>
        At (.running state p')) := by
  induction actions generalizing p with
  | nil => exact .pure fun _ h => h
  | cons action actions ih =>
      rw [actionsVerdict, Progress.after_bind]
      exact (action.exec_at p).bind_verdict fun p' _ => ih p'

/-- While a program runs, everything may be read but two tables. -/
theorem useAll_running {os : List Owner} (marks : Owner.markedArrays ∉ os)
    (history : Owner.callHistory ∉ os) :
    Ends Access.Sound (At (.running state p)) (useAll os : BlockM Unit)
      (.goes fun _ => At (.running state p)) := by
  refine useAll_at fun o member => ?_
  cases o with
  | markedArrays | callHistory => contradiction
  | _ => simp [Vitals.ptr, Vitals.running, Vitals.alike]

/-- A function that goes on with the call history. -/
theorem history_at {m : BlockM Unit} {v : Verdict Progress}
    (kept : p.historyGone = false →
      Ends Access.Sound (At (.running state p)) m (v.ending fun p' _ => At (.running state p')))
    (gone : p.historyGone = true → Ends Access.Sound (At (.running state p)) m .breaks) :
    Ends Access.Sound (At (.running state p)) m
      ((if p.historyGone then Verdict.broken else v).ending fun p' _ =>
        At (.running state p')) := by
  cases h : p.historyGone with
  | false => exact kept h
  | true => exact gone h

theorem callHistory_gone (gone : p.historyGone = true) :
    (Vitals.running state p).ptr .callHistory = some .released := by
  simp [Vitals.ptr, Vitals.running, gone]

theorem callHistory_kept (kept : p.historyGone = false) :
    (Vitals.running state p).ptr .callHistory = some .live := by
  simp [Vitals.ptr, Vitals.running, kept]

theorem use_callHistory_at (kept : p.historyGone = false) :
    Ends Access.Sound (At (.running state p)) (use .callHistory : BlockM Unit)
      (.goes fun _ => At (.running state p)) := by
  refine use_at ?_
  rw [callHistory_kept kept]
  simp

theorem grown_at {answer : Reallocation} (kept : p.historyGone = false) :
    Ends Access.Sound (At (.running state p))
      (do
        realloc .callHistory answer
        match answer with
        | .granted => use .callHistory
        | .refused | .emptied => setQuitFlag true)
      (.goes fun _ => At (.running state (p.resized answer))) := by
  obtain ⟨c, gone, quit, quits⟩ := p
  obtain rfl : gone = false := kept
  have resized := realloc_at (v := .running state ⟨c, false, quit, quits⟩) (o := .callHistory)
    (p := .live) answer rfl Ptr.noConfusion
  apply resized.bind
  intro _
  cases answer with
  | granted => exact use_callHistory_at (p := ⟨c, false, quit, quits⟩) rfl
  | refused | emptied => exact setQuitFlag_at true

theorem createCallHistory_at (history : HistoryUse) (p : Progress) :
    Ends Access.Sound (At (.running state p)) (createCallHistory history)
      ((history.verdict p).ending fun p' _ => At (.running state p')) := by
  apply (useAll_running (by decide) (by decide)).bind
  intro _
  cases history with
  | untouched => exact .pure fun _ h => h
  | used =>
      refine history_at use_callHistory_at fun gone => ?_
      exact use_at_breaks (callHistory_gone gone)
  | grown answer =>
      refine history_at grown_at fun gone => ?_
      exact (realloc_at_breaks answer (callHistory_gone gone)).breaks_bind

theorem printFuncCalls_at (report : Report) (p : Progress) :
    Ends Access.Sound (At (.running state p)) (printFuncCalls report)
      ((reportVerdict report p).ending fun p' _ => At (.running state p')) := by
  cases report with
  | none => exact .pure fun _ h => h
  | some collections =>
      refine history_at (fun kept => ?_) fun gone => ?_
      · have read : Ends Access.Sound (At (.running state p))
            (useAll [.callHistory, .funcAddr, .funcNames, .funcNamesStart] : BlockM Unit)
            (.goes fun _ => At (.running state p)) :=
          (use_callHistory_at kept).bind fun _ => useAll_running (by decide) (by decide)
        exact read.bind fun _ => execAll_at _ p
      · exact (use_at_breaks (callHistory_gone gone)).breaks_bind.breaks_bind

theorem reportBreakpoint_at (report : Report) (p : Progress) :
    Ends Access.Sound (At (.running state p)) (reportBreakpoint report)
      ((reportVerdict report p).ending fun p' _ => At (.running state p')) :=
  (use_at (by simp [Vitals.ptr])).bind fun _ => printFuncCalls_at report p

theorem dbgStep_at (turn : Turn) (p : Progress) :
    Ends Access.Sound (At (.running state p)) (dbgStep turn)
      ((turn.verdict p).ending fun p' _ => At (.running state p')) := by
  have fetched (p : Progress) : Ends Access.Sound (At (.running state p))
      (use .codeMem : BlockM Unit) (.goes fun _ => At (.running state p)) :=
    use_at (by simp [Vitals.ptr, Vitals.running, Vitals.alike])
  have stepped (p : Progress) : Ends Access.Sound (At (.running state p)) (step turn.actions)
      ((p.after (actionsVerdict turn.actions p.collected)).ending fun p' _ =>
        At (.running state p')) :=
    (useAll_running (by decide) (by decide)).bind fun _ => execAll_at turn.actions p
  apply (fetched p).bind
  intro _
  refine (createCallHistory_at turn.history p).bind_verdict fun p' _ => ?_
  refine (stepped p').bind_verdict fun p'' _ => ?_
  exact (fetched p'').bind fun _ => reportBreakpoint_at turn.report p''

theorem dbgSteps_at (turns : List Turn) (p : Progress) :
    Ends Access.Sound (At (.running state p)) (dbgSteps turns)
      ((turnsVerdict turns p).ending fun p' _ => At (.running state p')) := by
  induction turns generalizing p with
  | nil => exact .pure fun _ h => h
  | cons turn turns ih => exact (dbgStep_at turn p).bind_verdict fun p' _ => ih p'

end Running

section Commands

/-- Between two commands: what the situation says, or the loop is about to end. -/
def Between : Option Situation → Desk → Prop
  | some s, x => At s.vitals x
  | none, x => x.rest.quitFlag = true

theorem At.progState {v : Vitals} {x : Desk} (h : At v x) : x.rest.progState = v.progState := by
  rw [← h.vitals]
  rfl

theorem At.quitFlag {v : Vitals} {x : Desk} (h : At v x) : x.rest.quitFlag = v.quitFlag := by
  rw [← h.vitals]
  rfl

/-- A function that first looks at `prog_state`. -/
theorem look {α : Type} {v : Vitals} {f : Desk → BlockM α} {ending : Ending Desk α}
    (next : ∀ x, x.rest.progState = v.progState → Ends Access.Sound (At v) (f x) ending) :
    Ends Access.Sound (At v) (get >>= f) ending :=
  .get_bind fun x h => (next x h.progState).weaken fun _ same => same ▸ h

theorem execCollections_at (collections : List Bool) (stage : Stage) (c : Collected) :
    Ends Access.Sound (At (Situation.loaded stage c).vitals) (execAll (collections.map .collect))
      ((collectionsVerdict collections c).ending fun c' _ =>
        At (Situation.loaded stage c').vitals) := by
  have ran : Ends Access.Sound (At (.running stage.progState c.start))
      (execAll (collections.map .collect))
      ((c.start.after (collectionsVerdict collections c)).ending fun p _ =>
        At (.running stage.progState p)) := execAll_at _ c.start
  cases v : collectionsVerdict collections c with
  | goes | finished | broken =>
      rw [v] at ran
      exact ran

/-- Collections between two commands. -/
theorem collect_at (collections : List Bool) (stage : Stage) (c : Collected) :
    Ends Access.Sound (At (Situation.loaded stage c).vitals) (execAll (collections.map .collect))
      (((Situation.loaded stage c).collect collections).ending fun s _ => At s.vitals) :=
  (execCollections_at collections stage c).map_verdict fun _ _ _ h => h

theorem strDup_at (copy : Copy) (stage : Stage) (c : Collected) :
    Ends Access.Sound (At (Situation.loaded stage c).vitals) (strDup copy)
      ((collectionsVerdict copy.collections c).ending fun c' _ =>
        At (Situation.loaded stage c').vitals) := by
  rw [← Verdict.bind_goes (collectionsVerdict copy.collections c)]
  exact (execCollections_at copy.collections stage c).bind_verdict fun _ _ => .pure fun _ h => h

/-- A copy between two commands, and what follows it. -/
theorem strDup_bind {γ : Type} {f : Bool → BlockM Unit} {copy : Copy} {stage : Stage}
    {c : Collected} {k : Collected → Verdict γ} {R : γ → Unit → Desk → Prop}
    (next : ∀ c, Ends Access.Sound (At (Situation.loaded stage c).vitals) (f copy.copied)
      ((k c).ending R)) :
    Ends Access.Sound (At (Situation.loaded stage c).vitals) (strDup copy >>= f)
      (((collectionsVerdict copy.collections c).bind k).ending R) := by
  simp only [strDup, bind_assoc, pure_bind]
  exact (execCollections_at copy.collections stage c).bind_verdict fun c' _ => next c'

theorem printFuncCalls_between (report : Report) (stage : Stage) (c : Collected) :
    Ends Access.Sound (At (Situation.loaded stage c).vitals) (printFuncCalls report)
      ((collectionsVerdict (report.getD []) c).ending fun c' _ =>
        At (Situation.loaded stage c').vitals) := by
  cases report with
  | none => exact .pure fun _ h => h
  | some collections =>
      have read : Ends Access.Sound (At (Situation.loaded stage c).vitals)
          (useAll [.callHistory, .funcAddr, .funcNames, .funcNamesStart] : BlockM Unit)
          (.goes fun _ => At (Situation.loaded stage c).vitals) :=
        useAll_at (by simp [Vitals.ptr, Situation.vitals, Vitals.alike])
      exact read.bind fun _ => execCollections_at collections stage c

/-- A pointer that has not been kept is assigned to. -/
theorem assign_sameBut {v : Vitals} {o : Owner} {p : Ptr} (other : o.vital = false)
    (sound : p ≠ .released) :
    Ends Access.Sound (fun y => ∃ x, At v x ∧ SameBut o x y) (assign o p : BlockM Unit)
      (.goes fun _ => At v) := by
  refine assign_ends ?_
  rintro y ⟨x, h, same⟩
  have set := h.set (o := o) fun _ => sound
  rwa [v.set_of_not_vital p other, same.set_eq p] at set

theorem dbgRun_at (turns : List Turn) (ended : Bool) (s : Situation) :
    Ends Access.Sound (At s.vitals) (dbgRun turns ended)
      ((s.run turns ended).ending fun t _ => Between t) := by
  apply look
  intro x state
  cases s with
  | blank | lost =>
      rw [state]
      exact .pure fun _ h => h
  | loaded stage c =>
      cases stage with
      | loaded | finished =>
          rw [state]
          exact .pure fun _ h => h
      | started =>
          rw [state]
          refine (dbgSteps_at turns c.start).bind_verdict fun p _ => ?_
          -- The state is set even if the session is about to end.
          have last : Ends Access.Sound (At (.running .started p))
              (if ended then setProgState .finished else pure ())
              (.goes fun _ => At (.running (if ended then .finished else .started) p)) := by
            cases ended with
            | true => exact setProgState_at .finished
            | false => exact .pure fun _ h => h
          cases quit : p.quit with
          | true => exact last.mono fun _ _ h => h.quitFlag.trans quit
          | false =>
              have kept : p.historyGone = false := by
                by_contra gone
                rw [p.quits (by simpa using gone)] at quit
                contradiction
              have same (state : ProgState) : Vitals.running state p =
                  .alike .live p.collected.ptr state := by
                simp [Vitals.running, kept, quit, Vitals.alike]
              refine last.mono fun _ _ h => ?_
              rw [same] at h
              cases ended with
              | true | false => exact h

theorem execBreak_at (answer : Reallocation) (labels : Copy) (s : Situation) :
    Ends Access.Sound (At s.vitals) (execBreak answer labels)
      ((s.break answer labels).ending fun t _ => Between t) := by
  apply look
  intro x state
  cases s with
  | blank | lost =>
      rw [state]
      exact .pure fun _ h => h
  | loaded stage c =>
      have abandoned (answer : Reallocation) :
          Ends Access.Sound (At (Situation.loaded stage c).vitals)
            (do realloc .brkptAddrs answer; assign .brkptAddrs .null; setQuitFlag true)
            (.goes fun _ => Between none) := by
        have resized : Ends Access.Sound (At (Situation.loaded stage c).vitals)
            (realloc .brkptAddrs answer : BlockM Unit)
            (.goes fun _ y => ∃ x, At (Situation.loaded stage c).vitals x ∧
              SameBut .brkptAddrs x y) :=
          realloc_ends (fun _ h => h.calm .brkptAddrs rfl) fun x h => ⟨x, h, .set_self x _⟩
        apply resized.bind
        intro _
        apply (assign_sameBut rfl Ptr.noConfusion).bind
        intro _
        exact (setQuitFlag_at true).mono fun _ _ h => h.quitFlag
      have named : Ends Access.Sound (At (Situation.loaded stage c).vitals)
          (do
            useAll debugData
            if ← strDup labels then
              use .brkptAddrs
            else
              Program.stop .crash)
          (((Situation.loaded stage c).break .granted labels).ending fun t _ => Between t) := by
        apply (useAll_at (by simp [debugData, Vitals.ptr])).bind
        intro _
        rw [Situation.break, if_pos rfl]
        apply strDup_bind
        intro c'
        cases labels.copied with
        | true => exact use_at (by simp [Vitals.ptr])
        | false => exact .stop _
      have changed : Ends Access.Sound (At (Situation.loaded stage c).vitals)
          (do
            realloc .brkptAddrs answer
            match answer with
            | .granted =>
                useAll debugData
                if ← strDup labels then
                  use .brkptAddrs
                else
                  Program.stop .crash
            | .refused | .emptied =>
                assign .brkptAddrs .null
                setQuitFlag true)
          (((Situation.loaded stage c).break answer labels).ending fun t _ => Between t) := by
        cases answer with
        | granted => exact (realloc_other rfl Reallocation.noConfusion).bind fun _ => named
        | refused => exact abandoned .refused
        | emptied => exact abandoned .emptied
      rw [state]
      cases stage with
      | loaded | started | finished => exact changed

theorem execBacktrace_at (report : Report) (s : Situation) :
    Ends Access.Sound (At s.vitals) (execBacktrace report)
      ((s.backtrace report).ending fun t _ => At t.vitals) := by
  apply look
  intro x state
  cases s with
  | blank | lost =>
      rw [state]
      exact .pure fun _ h => h
  | loaded stage c =>
      rw [state]
      cases stage with
      | loaded => exact .pure fun _ h => h
      | started | finished => exact (printFuncCalls_between report _ c).map_verdict fun _ _ _ h => h

theorem execInfo_at (collections : List Bool) (s : Situation) :
    Ends Access.Sound (At s.vitals) (execInfo collections)
      ((s.collect collections).ending fun t _ => At t.vitals) := by
  apply look
  intro x state
  cases s with
  | blank | lost =>
      rw [state]
      exact .pure fun _ h => h
  | loaded stage c =>
      rw [state]
      have told : Ends Access.Sound (At (Situation.loaded stage c).vitals)
          (do
            useAll [.brkptAddrs, .funcAddr, .funcNames, .funcNamesStart]
            execAll (collections.map .collect))
          (((Situation.loaded stage c).collect collections).ending fun t _ => At t.vitals) :=
        (useAll_at (by simp [Vitals.ptr])).bind fun _ => collect_at collections stage c
      cases stage with
      | loaded | started | finished => exact told

/-- `quit` frees what is left. -/
theorem execQuit_ends {v : Vitals} (whole : v.Whole) (history : v.callHistory ≠ .released) :
    Ends Access.Sound (At v) execQuit (.goes fun _ => Between none) := by
  have data := freeAll_atBut (v := v.freed) [] debugData
    (by simp [debugData, Owner.vital]) (by decide) (by simp)
  apply (destroyIjvm_at whole).bind
  intro _
  apply (data.weaken fun _ h => h.but).bind
  intro _
  apply (destroyDebugger_atBut (v := v.freed) history debugData (by decide)).bind
  intro _
  exact .modify fun _ _ => rfl

theorem execQuit_at (s : Situation) :
    Ends Access.Sound (At s.vitals) execQuit (s.quit.ending fun t _ => Between t) := by
  cases s with
  | blank =>
      exact execQuit_ends (Vitals.whole_alike.mpr ⟨Ptr.noConfusion, Ptr.noConfusion⟩)
        Ptr.noConfusion
  | lost => exact (destroyIjvm_breaks fun whole => whole.stack rfl).breaks_bind
  | loaded stage c =>
      cases c with
      | never | since =>
          exact execQuit_ends (Vitals.whole_alike.mpr ⟨Ptr.noConfusion, Ptr.noConfusion⟩)
            Ptr.noConfusion
      | before => exact (destroyIjvm_breaks fun whole => whole.markedArrays rfl).breaks_bind

/-- `destroy_ijvm` and the reset of the symbols, before a load. -/
theorem unload_bind {v : Vitals} {α : Type} {f : BlockM α} {ending : Ending Desk α}
    (whole : v.Whole) (next : Ends Access.Sound (At v.freed) f ending) :
    Ends Access.Sound (At v) (do destroyIjvm; destroyDebugData; initDebugData; f) ending := by
  apply (destroyIjvm_at whole).bind
  intro _
  apply destroyDebugData_at.bind_pair
  intro _
  exact next

section Ignoring

theorem marrDestroy_ignores {o map values : Owner} (others : o ∉ [map, values]) :
    Ignores o (marrDestroy map values) :=
  .bind (freeAll_ignores others) fun _ => clearAll_ignores

theorem destroyIjvm_ignores {o : Owner} (machine : o ∉ [Owner.stack, .codeMem, .constMem,
    .markedArrays, .arrMap, .arrValues, .netMap, .netValues]) : Ignores o destroyIjvm := by
  simp only [List.mem_cons, List.not_mem_nil, or_false, not_or] at machine
  obtain ⟨stack, codeMem, constMem, marked, arrMap, arrValues, netMap, netValues⟩ := machine
  have net : Ignores o netDestroy :=
    .bind (useAll_ignores (by simp [netMap, netValues])) fun _ =>
      marrDestroy_ignores (by simp [netMap, netValues])
  have arr : Ignores o arrDestroy :=
    .bind (useAll_ignores (by simp [arrMap, arrValues])) fun _ =>
      .bind (marrDestroy_ignores (by simp [arrMap, arrValues])) fun _ =>
        free_ignores (Ne.symm marked)
  have cpu : Ignores o cpuDestroy :=
    .bind (free_ignores (Ne.symm stack)) fun _ =>
      .bind (free_ignores (Ne.symm codeMem)) fun _ => free_ignores (Ne.symm constMem)
  exact .bind net fun _ => .bind arr fun _ => cpu

/-- The collector does not look at the path of the program. -/
theorem strDup_ignores (copy : Copy) : Ignores .lastProgPath (strDup copy) := by
  have collects (granted : Bool) : Ignores .lastProgPath (arrGc granted) := by
    refine .bind (free_ignores (by decide)) fun _ => .bind assign_ignores fun _ => ?_
    cases granted with
    | true => exact useAll_ignores (by decide)
    | false =>
        exact .bind (destroyIjvm_ignores (by decide)) fun _ => .stop fun _ _ h => h
  have all (collections : List Bool) :
      Ignores .lastProgPath (execAll (collections.map .collect)) := by
    induction collections with
    | nil => exact .pure fun _ _ h => h
    | cons granted collections ih => exact .bind (collects granted) fun _ => ih
  exact .bind (all copy.collections) fun _ => .pure fun _ _ h => h

end Ignoring

theorem saveLastProg_at (first second : Copy) (stage : Stage) (c : Collected) :
    Ends Access.Sound (At (Situation.loaded stage c).vitals) (saveLastProg first second)
      ((Situation.save first second (.loaded stage c)).ending fun s _ => At s.vitals) := by
  apply strDup_bind
  intro c'
  have freed : Ends Access.Sound (At (Situation.loaded stage c').vitals)
      (free .lastProgPath : BlockM Unit) (.goes fun _ y =>
        ∃ x, At (Situation.loaded stage c').vitals x ∧ SameBut .lastProgPath x y) :=
    free_ends (fun _ h => h.calm .lastProgPath rfl) fun x h => ⟨x, h, .set_self x _⟩
  apply freed.bind
  intro _
  cases first.copied with
  | false => exact .stop _
  | true =>
      -- While the second copy is made, the pointer may be released.
      have copied := ends_of_ignores (strDup_at second stage c') (strDup_ignores second)
      refine copied.bind_verdict fun c'' again => ?_
      refine assign_sameBut rfl ?_
      cases again <;> exact Ptr.noConfusion

/-- A load over a program, by `file` or by `start`. -/
theorem again_bind {o : Load} (stage : Stage) (c : Collected) {state : ProgState}
    {prepare succeed : BlockM Unit} (next : Situation → Verdict Situation)
    (lost : next .lost = .goes .lost)
    (prepare_at : ∀ cpu marks, Ends Access.Sound (At (.alike cpu marks stage.progState)) prepare
      (.goes fun _ => At (.alike cpu marks state)))
    (succeed_at : ∀ c, Ends Access.Sound (At (.alike .live (Collected.ptr c) state)) succeed
      ((next (.loaded .loaded c)).ending fun s _ => At s.vitals)) :
    Ends Access.Sound (At (Situation.loaded stage c).vitals)
      (do destroyIjvm; destroyDebugData; initDebugData; prepare; attempt o succeed)
      (((o.extent.again c).bind next).ending fun s _ => At s.vitals) := by
  by_cases kept : c = .before
  · subst kept
    have broken : o.extent.again .before = .broken := by cases o.extent <;> rfl
    rw [broken]
    exact (destroyIjvm_breaks fun whole => whole.markedArrays rfl).breaks_bind
  · have whole : (Situation.loaded stage c).vitals.Whole := by
      cases c with
      | never | since => exact Vitals.whole_alike.mpr ⟨Ptr.noConfusion, Ptr.noConfusion⟩
      | before => contradiction
    apply unload_bind whole
    exact (prepare_at .released c.ptr.freed).bind fun _ => attempt_again kept lost succeed_at

theorem execFile_at (o : Load) (first second : Copy) (s : Situation) :
    Ends Access.Sound (At s.vitals) (execFile o first second)
      ((s.file o first second).ending fun t _ => At t.vitals) := by
  have succeed_at (c : Collected) : Ends Access.Sound (At (.alike .live c.ptr .empty))
      (do setProgState .loaded; saveLastProg first second)
      ((Situation.save first second (.loaded .loaded c)).ending fun s _ => At s.vitals) :=
    (setProgState_at .loaded).bind fun _ => saveLastProg_at first second .loaded c
  cases s with
  | blank =>
      apply unload_bind (Vitals.whole_alike.mpr ⟨Ptr.noConfusion, Ptr.noConfusion⟩)
      apply (destroyDebugger_at Ptr.noConfusion).bind_pair
      intro _
      exact attempt_first rfl rfl (succeed_at .never)
  | loaded stage c =>
      have loaded := again_bind (o := o) stage c (Situation.save first second) rfl
        (fun _ _ => destroyDebugger_at Ptr.noConfusion) succeed_at
      simp only [bind_assoc] at loaded
      exact loaded
  | lost => exact (destroyIjvm_breaks fun whole => whole.stack rfl).breaks_bind

theorem restartDebugger_at (o : Load) (stage : Stage) (c : Collected) :
    Ends Access.Sound (At (Situation.loaded stage c).vitals) (restartDebugger o)
      ((o.extent.again c).ending fun s _ => At s.vitals) := by
  have restarted := again_bind (o := o) stage c .goes rfl
    (fun _ _ => use_at (o := .lastProgPath) (by simp [Vitals.ptr])) fun c => setProgState_at .loaded
  rwa [Verdict.bind_goes] at restarted

/-- The second half of `exec_start`. -/
def enterProgram (report : Report) : BlockM Unit := do
  match (← get).rest.progState with
  | .loaded =>
      use .lastProgPath
      reportBreakpoint report
      setProgState .started
  | .empty | .started | .finished => pure ()

theorem enterProgram_at (report : Report) (s : Situation) :
    Ends Access.Sound (At s.vitals) (enterProgram report)
      ((s.enter report).ending fun t _ => At t.vitals) := by
  apply look
  intro x state
  cases s with
  | blank | lost =>
      rw [state]
      exact .pure fun _ h => h
  | loaded stage c =>
      cases stage with
      | loaded =>
          rw [state]
          apply Ends.bind (use_at (o := .lastProgPath) (by simp [Vitals.ptr]))
          intro _
          have told : Ends Access.Sound (At (Situation.loaded .loaded c).vitals)
              (reportBreakpoint report) ((collectionsVerdict (report.getD []) c).ending fun c' _ =>
                At (Situation.loaded .loaded c').vitals) :=
            (use_at (by simp [Vitals.ptr])).bind fun _ => printFuncCalls_between report .loaded c
          exact told.bind_verdict fun c' _ => setProgState_at .started
      | started | finished =>
          rw [state]
          exact .pure fun _ h => h

theorem execStart_at (o : Load) (report : Report) (s : Situation) :
    Ends Access.Sound (At s.vitals) (execStart o report)
      ((s.start o report).ending fun t _ => At t.vitals) := by
  apply look
  intro x state
  cases s with
  | blank | lost =>
      rw [state]
      exact enterProgram_at report _
  | loaded stage c =>
      cases stage with
      | loaded =>
          rw [state]
          exact enterProgram_at report _
      | started | finished =>
          rw [state]
          exact (restartDebugger_at o _ c).bind_verdict fun t _ => enterProgram_at report t

/-- A command in a situation does what its verdict says. -/
theorem command_at (command : Command) (s : Situation) :
    Ends Access.Sound (At s.vitals) command.exec
      ((command.verdict s).ending fun t _ => Between t) := by
  cases command with
  | file o first second =>
      exact (execFile_at o first second s).map_verdict fun _ _ _ h => h
  | start o report => exact (execStart_at o report s).map_verdict fun _ _ _ h => h
  | run o report turns ended =>
      exact (execStart_at o report s).bind_verdict fun t _ => dbgRun_at turns ended t
  | step turn ended => exact dbgRun_at [turn] ended s
  | «continue» turns ended => exact dbgRun_at turns ended s
  | «break» answer labels => exact execBreak_at answer labels s
  | backtrace report => exact (execBacktrace_at report s).map_verdict fun _ _ _ h => h
  | info collections => exact (execInfo_at collections s).map_verdict fun _ _ _ h => h
  | quit => exact execQuit_at s

theorem Situation.quitFlag (s : Situation) : s.vitals.quitFlag = false := by
  cases s <;> rfl

theorem commandLoop_at (commands : List Command) (s : Option Situation) :
    Ends Access.Sound (Between s) (commandLoop commands)
      ((session commands s).ending fun _ _ _ => True) := by
  induction commands generalizing s with
  | nil => exact .pure fun _ _ => trivial
  | cons command commands ih =>
      cases s with
      | none =>
          refine .get_bind fun x quit => ?_
          rw [show x.rest.quitFlag = true from quit]
          exact .pure fun _ _ => trivial
      | some s =>
          refine .get_bind fun x between => ?_
          rw [At.quitFlag between, s.quitFlag]
          have ran := (command_at command s).bind_verdict (k := session commands) fun t _ => ih t
          exact ran.weaken fun _ same => same ▸ between

/-- The session starts with nothing loaded. -/
theorem main_ends (commands : List Command) :
    Ends Access.Sound (fun x => x = Desk.zero) (main commands)
      ((session commands (some .blank)).ending fun _ _ _ => True) := by
  have initialised : Ends Access.Sound (fun x => x = Desk.zero)
      (do initDebugData; initDebugger) (.goes fun _ => At Situation.blank.vitals) := by
    rintro r x rfl
    refine ⟨(), _, [.used .callHistory .live], rfl, ⟨rfl, fun o _ => ?_⟩,
      List.forall_mem_singleton.mpr Ptr.noConfusion⟩
    cases o <;> exact Ptr.noConfusion
  exact initialised.bind_pair fun _ => commandLoop_at commands (some .blank)

/-- Every block is released once, and not used after that, in exactly the sessions that the
verdict does not reject. -/
theorem releasedOnce_iff (commands : List Command) :
    ReleasedOnce commands ↔ session commands (some .blank) ≠ .broken :=
  keeps_iff_of_ends (main_ends commands) rfl

/-- A file whose binary and symbols can be loaded. -/
def Load.good : Load where
  header := true
  constAlloc := true
  constRead := true
  codeHeader := true
  codeAlloc := true
  codeRead := true
  scan := true
  stackAlloc := true
  symbols :=
    { opens := true
      skips := true
      func := ⟨.some, .some, .some, true⟩
      sec := ⟨.some, .some, .some, true⟩ }

/-- A copy that gets memory at once. -/
def Copy.good : Copy where
  collections := []
  copied := true

/-- A program is loaded, and then a file is asked for that is not there. -/
def fileTwice : List Command :=
  [.file .good .good .good, .file (.ofFile none true true .good) .good .good]

/-- `init_ijvm` frees the stack of the program again. -/
theorem released_twice : ¬ ReleasedOnce fileTwice := by
  intro once
  have twice : Access.freed Owner.stack .released ∈
      ((main fileTwice).run () Desk.zero).events := by
    decide
  exact once _ twice rfl

end Commands

end Ijvm.Blocks
