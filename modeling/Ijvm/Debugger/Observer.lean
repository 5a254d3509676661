import Ijvm.Debugger.Display

/-!
# The debugger as an observer

The machine of a session and the one that runs on its own pass through the same states:
`Follows` relates a part of a session to the states from the `k`-th on. It is kept by
sequences of programs, so that it lifts from one debugger step to the loop of `continue`
and to the commands, as long as the calls of `dbg_step` meet `Watched`.
-/

namespace Ijvm

open Transcript Program Records

/-- The states in which `step` was entered. -/
def entered (es : List DbgEvent) : List State :=
  es.filterMap fun
    | .entered s => some s
    | _ => none

/-- In a state from which the machine goes on, the bookkeeping reads code memory, the
stack and the history in bounds only. -/
def DbgEvent.Passive (env : Env) : DbgEvent → Prop
  | .own here e => turn env here ≠ none → ∃ i n, e = .code i n ∧ 0 ≤ i ∧ i < n
  | .argument here i n => turn env here ≠ none → 0 ≤ i ∧ i < n
  | .history here i n => turn env here ≠ none → i < n
  | _ => True

/-- A debugger step that can keep the history: a call has fewer than 32768 arguments and
its record fits, or a single step was asked for and the history is refused more memory; a
return finds a record. -/
structure Session.Watched (r : DbgEnv) (x : Session) (stepLog : Bool) : Prop where
  call : x.vm.gCpu.codeMem x.vm.gCpu.pc = Op.invokevirtual.code →
    (x.vm.atOp x.vm.gCpu.pc).gCpu.methodArgs < 32768 ∧
        HasRoom r x.dbg ((x.vm.atOp x.vm.gCpu.pc).gCpu.methodArgs + 2) ∨
      stepLog = true ∧ CannotGrow r x.dbg (x.vm.atOp x.vm.gCpu.pc).gCpu.callElements
  ret : x.vm.gCpu.codeMem x.vm.gCpu.pc = Op.ireturn.code → x.dbg.callHistoryTop ≠ 0

/-- A call of `dbg_step` in a state from which the machine goes on can keep the history, and a
lookup of a name stays in its table and is granted its memory. -/
def DbgEvent.Watched (r : DbgEnv) : DbgEvent → Prop
  | .stepping x stepLog => turn r.vm x.vm ≠ none → x.Watched r stepLog
  | .naming x addr => x.Named r addr
  | _ => True

instance (r : DbgEnv) (x : Session) (stepLog : Bool) : Decidable (x.Watched r stepLog) :=
  decidable_of_iff (_ ∧ _) ⟨fun h => ⟨h.1, h.2⟩, fun h => ⟨h.call, h.ret⟩⟩

instance (r : DbgEnv) : (e : DbgEvent) → Decidable (e.Watched r)
  | .stepping x stepLog => inferInstanceAs (Decidable (turn r.vm x.vm ≠ none → x.Watched r stepLog))
  | .naming x addr => inferInstanceAs (Decidable (x.Named r addr))
  | .vm _ | .own _ _ | .argument _ _ _ | .history _ _ _ | .entered _ | .lookup _ | .console _ =>
      .isTrue trivial

/-- A part of a session that starts in the `k`-th state of the run. It enters `step` in
the next states of the run only, and not in a finished one; its bookkeeping is passive;
it returns in the state that the run has reached, and it stops only where the run cannot
go on, or after `fuel` steps at least. -/
structure Follows {α : Type} (env : Env) (file : List Byte) (fuel k : Nat)
    (o : Outcome Session DbgEvent Stop α) (Q : Nat → Session → Prop) : Prop where
  states : ∀ (i : Nat) t, (entered o.events)[i]? = some t →
    after env file (k + i) = some t ∧ finished t.gCpu = false
  passive : ∀ e ∈ o.events, e.Passive env
  done : ∀ a x es, o = .done a x es →
    after env file (k + (entered es).length) = some x.vm ∧ Q (entered es).length x
  stopped : ∀ e x es, o = .stopped e x es →
    after env file (k + (entered es).length + 1) = none ∨
      e = .outOfFuel ∧ fuel ≤ (entered es).length

/-- A part of a session that follows the run if its steps can keep the history. -/
def Tracks {α : Type} (r : DbgEnv) (file : List Byte) (fuel k : Nat)
    (o : Outcome Session DbgEvent Stop α) (Q : Nat → Session → Prop) : Prop :=
  (∀ e ∈ o.events, e.Watched r) → Follows r.vm file fuel k o Q

section Events

theorem entered_append (es fs : List DbgEvent) : entered (es ++ fs) = entered es ++ entered fs :=
  List.filterMap_append

theorem entered_eq_nil {es : List DbgEvent} (none : ∀ s, .entered s ∉ es) : entered es = [] := by
  unfold entered
  rw [List.filterMap_eq_nil_iff]
  intro e member
  cases e with
  | entered s => exact absurd member (none s)
  | _ => rfl

theorem entered_of_harmless {s : State} {es : List DbgEvent} (harmless : ∀ e ∈ es, e.Harmless s) :
    entered es = [] :=
  entered_eq_nil fun t member => harmless (.entered t) member

theorem entered_of_at {s : State} {es : List DbgEvent} (h : ∀ e ∈ es, e.At s) : entered es = [] :=
  entered_eq_nil fun t member => h (.entered t) member

theorem entered_vm (es : List Event) : entered (es.map DbgEvent.vm) = [] := by
  apply entered_eq_nil
  intro t member
  simp at member

theorem DbgEvent.Harmless.passive {env : Env} {s : State} {e : DbgEvent} (h : e.Harmless s) :
    e.Passive env := by
  cases e with
  | own | argument | history => exact fun _ => h.2
  | console | naming | lookup => trivial
  | _ => exact h.elim

theorem DbgEvent.At.passive {env : Env} {s : State} {e : DbgEvent} (h : e.At s)
    (last : turn env s = none) : e.Passive env := by
  cases e with
  | own | argument | history =>
      obtain rfl := h
      exact fun goes => absurd last goes
  | console => trivial
  | _ => exact h.elim

end Events

section Composition

variable {α β : Type} {r : DbgEnv} {file : List Byte} {fuel k : Nat}
  {o : Outcome Session DbgEvent Stop α} {Q R : Nat → Session → Prop}

/-- A part that does not step the machine. -/
theorem Tracks.of_done {a : α} {x : Session} {es : List DbgEvent} (quiet : entered es = [])
    (passive : ∀ e ∈ es, e.Passive r.vm) (here : after r.vm file k = some x.vm) (post : Q 0 x) :
    Tracks r file fuel k (.done a x es) Q := by
  refine fun _ => ⟨?_, passive, ?_, by simp⟩
  · intro i t member
    rw [Outcome.events_done, quiet] at member
    contradiction
  · rintro _ _ _ ⟨⟩
    rw [quiet]
    exact ⟨here, post⟩

/-- A part that stops before it steps the machine. -/
theorem Tracks.of_stopped {e : Stop} {x : Session} {es : List DbgEvent} (quiet : entered es = [])
    (passive : ∀ e ∈ es, e.Passive r.vm) (last : after r.vm file (k + 1) = none) :
    Tracks r file fuel k (.stopped e x es : Outcome Session DbgEvent Stop α) Q := by
  refine fun _ => ⟨?_, passive, by simp, ?_⟩
  · intro i t member
    rw [Outcome.events_stopped, quiet] at member
    contradiction
  · rintro _ _ _ ⟨⟩
    rw [quiet]
    exact Or.inl last

/-- Earlier bookkeeping. -/
theorem Tracks.prepend {es : List DbgEvent} (h : Tracks r file fuel k o Q)
    (quiet : entered es = []) (passive : ∀ e ∈ es, e.Passive r.vm) :
    Tracks r file fuel k (o.prepend es) Q := by
  intro watched
  rw [Outcome.events_prepend, List.forall_mem_append] at watched
  obtain ⟨states, passive', done, stopped⟩ := h watched.2
  refine ⟨?_, ?_, ?_, ?_⟩
  · intro i t member
    rw [Outcome.events_prepend, entered_append, quiet, List.nil_append] at member
    exact states i t member
  · rw [Outcome.events_prepend, List.forall_mem_append]
    exact ⟨passive, passive'⟩
  · intro a x fs eq
    obtain ⟨gs, rfl, rfl⟩ := Outcome.prepend_eq_done.mp eq
    rw [entered_append, quiet, List.nil_append]
    exact done a x gs rfl
  · intro e x fs eq
    obtain ⟨gs, rfl, rfl⟩ := Outcome.prepend_eq_stopped.mp eq
    rw [entered_append, quiet, List.nil_append]
    exact stopped e x gs rfl

/-- A sequence follows the run if each part does, the second from the state that the
first has reached. -/
theorem Tracks.andThen {f : α → Session → Outcome Session DbgEvent Stop β}
    (first : Tracks r file fuel k o Q)
    (next : ∀ a x n, after r.vm file (k + n) = some x.vm → Q n x →
      Tracks r file (fuel - n) (k + n) (f a x) fun m => R (n + m)) :
    Tracks r file fuel k (o.andThen f) R := by
  intro watched
  cases o with
  | stopped e x es =>
      obtain ⟨states, passive, _, stopped⟩ := first watched
      refine ⟨states, passive, by simp, ?_⟩
      rintro _ _ _ ⟨⟩
      exact stopped e x es rfl
  | done a x es =>
      rw [Outcome.andThen_done, Outcome.events_prepend, List.forall_mem_append] at watched
      obtain ⟨states, passive, done, _⟩ := first watched.1
      obtain ⟨here, reached⟩ := done a x es rfl
      obtain ⟨states', passive', done', stopped'⟩ := next a x _ here reached watched.2
      rw [Outcome.andThen_done]
      refine ⟨?_, ?_, ?_, ?_⟩
      · intro i t member
        rw [Outcome.events_prepend, entered_append] at member
        rcases Nat.lt_or_ge i (entered es).length with early | late
        · rw [List.getElem?_append_left early] at member
          exact states i t member
        · rw [List.getElem?_append_right late] at member
          have found := states' _ t member
          rwa [Nat.add_assoc, Nat.add_sub_cancel' late] at found
      · rw [Outcome.events_prepend, List.forall_mem_append]
        exact ⟨passive, passive'⟩
      · intro b y fs eq
        obtain ⟨gs, same, rfl⟩ := Outcome.prepend_eq_done.mp eq
        rw [entered_append, List.length_append, ← Nat.add_assoc]
        exact done' b y gs same
      · intro e y fs eq
        obtain ⟨gs, same, rfl⟩ := Outcome.prepend_eq_stopped.mp eq
        rw [entered_append, List.length_append, ← Nat.add_assoc]
        refine (stopped' e y gs same).imp_right fun ⟨reason, enough⟩ => ⟨reason, ?_⟩
        omega

theorem Tracks.mono {fuel' : Nat} {Q' : Nat → Session → Prop} (h : Tracks r file fuel k o Q)
    (le : fuel' ≤ fuel) (post : ∀ n x, Q n x → Q' n x) : Tracks r file fuel' k o Q' := by
  intro watched
  obtain ⟨states, passive, done, stopped⟩ := h watched
  refine ⟨states, passive, fun a x es eq => ?_, fun e x es eq => ?_⟩
  · exact (done a x es eq).imp_right (post _ x)
  · exact (stopped e x es eq).imp_right fun ⟨reason, enough⟩ => ⟨reason, Nat.le_trans le enough⟩

end Composition

section Stepping

variable {r : DbgEnv} {file : List Byte} {fuel k : Nat} {x : Session} {log : Bool} {s' : State}
  {b : Bool} {es : List Event}

/-- Between two steps, the history can be read, and written unless the debugger is about
to quit. -/
def Session.Tidy (x : Session) : Prop :=
  ∃ calls, x.dbg.Recorded calls ∧
    (x.dbg.quitFlag = false → x.dbg.callHistorySize = x.dbg.allocated)

/-- Keeping the history up to date in a step that the machine completes. -/
theorem createCallHistory_watched (range : x.vm.gCpu.InRange)
    (execution : step.run r.vm x.vm = .done b s' es)
    (active : x.dbg.quitFlag = false) (tidy : x.Tidy) (watched : x.Watched r log) :
    ∃ y fs, createCallHistory.run r x = .done () y fs ∧ x.Kept y ∧
      (∀ e ∈ fs, e.Harmless x.vm) ∧ y.Tidy ∧ (log = false → y.dbg.quitFlag = false) := by
  obtain ⟨calls, recorded, sized⟩ := tidy
  have holds : x.dbg.Holds calls := ⟨recorded, sized active⟩
  by_cases refused : x.vm.gCpu.codeMem x.vm.gCpu.pc = Op.invokevirtual.code ∧ log = true ∧
      CannotGrow r x.dbg (x.vm.atOp x.vm.gCpu.pc).gCpu.callElements
  · obtain ⟨call, single, refused⟩ := refused
    obtain ⟨y, fs, run, kept, quitFlag, recorded', harmless⟩ := createCallHistory_refused range
      execution call refused holds
    refine ⟨y, fs, run, kept, harmless, ⟨calls, recorded', fun unset => ?_⟩, fun unset => ?_⟩
    · rw [quitFlag] at unset
      contradiction
    · rw [single] at unset
      contradiction
  · have fits (call : x.vm.gCpu.codeMem x.vm.gCpu.pc = Op.invokevirtual.code) :
        (x.vm.atOp x.vm.gCpu.pc).gCpu.methodArgs < 32768 ∧
          HasRoom r x.dbg ((x.vm.atOp x.vm.gCpu.pc).gCpu.methodArgs + 2) :=
      (watched.call call).resolve_right fun no => refused ⟨call, no⟩
    have deep (ret : x.vm.gCpu.codeMem x.vm.gCpu.pc = Op.ireturn.code) : calls ≠ [] := by
      rintro rfl
      exact watched.ret ret recorded.stored
    obtain ⟨y, fs, run, kept, quitFlag, holds', harmless⟩ := createCallHistory_run range
      execution fits deep holds
    exact ⟨y, fs, run, kept, harmless, ⟨_, holds'.toRecorded, fun _ => holds'.sized⟩,
      fun _ => quitFlag.trans active⟩

/-- A state from which the machine goes on is not finished, so that PC is in code memory. -/
theorem pc_passive {s : State} :
    DbgEvent.Passive r.vm (.own s (.code s.gCpu.pc s.gCpu.codeMemSize)) := by
  intro goes
  obtain ⟨t, taken⟩ := Option.ne_none_iff_exists'.mp goes
  exact ⟨_, _, rfl, pc_bounds (turn_eq_some taken).1⟩

/-- The call of `step` enters the machine in its current state, once. -/
theorem enterStep_tracks (here : after r.vm file k = some x.vm)
    (running : finished x.vm.gCpu = false) :
    Tracks r file fuel k (enterStep.run r x) fun n y =>
      n = 1 ∧ turn r.vm x.vm = some y.vm ∧ y.dbg = x.dbg := by
  have next : after r.vm file (k + 1) = turn r.vm x.vm := by rw [after, here, Option.bind_some]
  have events (es : List Event) : entered (.entered x.vm :: es.map .vm) = [x.vm] :=
    congrArg (x.vm :: ·) (entered_vm es)
  have states (i : Nat) (t : State) (member : [x.vm][i]? = some t) :
      after r.vm file (k + i) = some t ∧ finished t.gCpu = false := by
    cases i with
    | zero =>
        obtain rfl := Option.some.inj member
        exact ⟨here, running⟩
    | succ i => contradiction
  have passive (es : List Event) :
      ∀ e ∈ (DbgEvent.entered x.vm :: es.map DbgEvent.vm), e.Passive r.vm := by
    simp [DbgEvent.Passive]
  intro _
  rw [enterStep_run]
  cases execution : step.run r.vm x.vm with
  | stopped e s es =>
      refine ⟨fun i t member => ?_, passive es, by simp, ?_⟩
      · exact states i t ((events es) ▸ member)
      · rintro _ _ _ ⟨⟩
        have halted : turn r.vm x.vm = none := by simp [turn, running, execution]
        refine Or.inl ?_
        show after r.vm file (k + (entered (.entered x.vm :: es.map .vm)).length + 1) = none
        rw [events es, List.length_singleton, after, next, halted, Option.bind_none]
  | done b s es =>
      have moved : turn r.vm x.vm = some s := by simp [turn, running, execution]
      simp only [Outcome.embed_done, Outcome.andThen_done, Outcome.prepend_done, List.append_nil,
        List.singleton_append]
      refine ⟨fun i t member => ?_, passive es, ?_, by simp⟩
      · exact states i t ((events es) ▸ member)
      · rintro _ _ _ ⟨⟩
        rw [events es]
        exact ⟨next.trans moved, rfl, moved, rfl⟩

/-- Keeping the history up to date, also in a step that the machine does not complete. -/
theorem createCallHistory_tracks (here : after r.vm file k = some x.vm)
    (active : x.dbg.quitFlag = false) (tidy : x.Tidy)
    (watched : turn r.vm x.vm ≠ none → x.Watched r log) :
    Tracks r file fuel k (createCallHistory.run r x) fun n y => n = 0 ∧ x.Kept y ∧
      (turn r.vm x.vm ≠ none → y.Tidy ∧ (log = false → y.dbg.quitFlag = false)) := by
  cases goes : turn r.vm x.vm with
  | some s =>
      obtain ⟨_, b, es, execution⟩ := turn_eq_some goes
      obtain ⟨y, fs, run, kept, harmless, tidy', quitFlag⟩ := createCallHistory_watched
        (reachable_of_after here).inRange execution active tidy (watched (by simp [goes]))
      rw [run]
      exact .of_done (entered_of_harmless harmless) (fun e member => (harmless e member).passive)
        (kept.vm ▸ here) ⟨rfl, kept, fun _ => ⟨tidy', quitFlag⟩⟩
  | none =>
      cases run : createCallHistory.run r x with
      | done _ y fs =>
          obtain ⟨kept, quiet⟩ := createCallHistory_bookkeeps.done run
          exact .of_done (entered_of_at quiet) (fun e member => (quiet e member).passive goes)
            (kept.vm ▸ here) ⟨rfl, kept, fun no => absurd rfl no⟩
      | stopped e y fs =>
          have quiet := createCallHistory_bookkeeps.stopped run
          have last : after r.vm file (k + 1) = none := by rw [after, here, Option.bind_some, goes]
          exact .of_stopped (entered_of_at quiet) (fun e member => (quiet e member).passive goes)
            last

/-- Printing a call looks up its name. -/
theorem naming_mem {calls : List (Entry Word)} {e : Entry Word} (recorded : x.dbg.Recorded calls)
    (first : e ∈ calls.head?) : .naming x e.label ∈ ((printFuncCalls 1).run r x).events := by
  obtain ⟨calls, rfl⟩ : ∃ rest, calls = e :: rest := List.head?_eq_some_iff.mp first
  obtain ⟨⟨base, size, label, _⟩, inside, _⟩ := recorded
  unfold Entry.size at size
  have cell : x.dbg.callHistoryTop - 1 < x.dbg.allocated := by omega
  have here : x.dbg.callHistoryTop - 1 = base + e.items.length + 1 := by omega
  rw [printFuncCalls_run, printFuncCallsFuel, if_pos ⟨by omega, Or.inl (by decide)⟩, run_bind,
    readHistory_run cell, Outcome.andThen_done, here, label, Outcome.events_prepend, run_bind]
  refine List.mem_append_right _ (Outcome.mem_events_andThen ?_)
  rw [nameCall_eq, Outcome.events_prepend]
  exact List.mem_append_left _ (List.mem_singleton_self _)

/-- A message about a breakpoint only counts requests. -/
theorem tellBreakpoint_tracks {calls : List (Entry Word)} {decodes : Bool}
    (here : after r.vm file k = some x.vm) (recorded : x.dbg.Recorded calls) :
    Tracks r file fuel k ((tellBreakpoint decodes).run r x) fun n y =>
      n = 0 ∧ ∃ m, y = { x with requests := m } := by
  intro watched
  have named : breakpointNumber x.dbg.brkpts x.vm.gCpu.pc ≠ 0 →
      ∀ e ∈ calls.head?, x.Named r e.label := by
    intro there e first
    refine watched (.naming x e.label) ?_
    obtain ⟨op, tell⟩ := tellBreakpoint_there r decodes there
    rw [tell, Outcome.events_prepend]
    exact List.mem_append_right _ (Outcome.mem_events_andThen (naming_mem recorded first))
  obtain ⟨m, es, told, shown⟩ := tellBreakpoint_run decodes recorded named
  rw [told] at watched ⊢
  refine Tracks.of_done ?_ ?_ here ⟨rfl, m, rfl⟩ watched
  · apply entered_eq_nil
    intro t member
    rcases shown _ member with harmless | same
    · exact harmless
    · contradiction
  · intro e member
    rcases shown e member with harmless | rfl
    · exact harmless.passive
    · exact pc_passive

/-- A debugger step follows one step of the run. -/
theorem dbgStep_tracks (here : after r.vm file k = some x.vm)
    (running : finished x.vm.gCpu = false) (active : x.dbg.quitFlag = false) (tidy : x.Tidy) :
    Tracks r file fuel k ((dbgStep log).run r x) fun n y => n = 1 ∧ y.Tidy ∧
      y.dbg.progState = x.dbg.progState ∧ (log = false → y.dbg.quitFlag = false) := by
  intro watched
  have meets : turn r.vm x.vm ≠ none → x.Watched r log := by
    refine watched (.stepping x log) ?_
    rw [dbgStep_run, stepWithHistory_run]
    exact Outcome.mem_events_andThen (by simp)
  have steps : Tracks r file fuel k ((stepWithHistory log).run r x) fun n y => n = 1 ∧ y.Tidy ∧
      y.dbg.progState = x.dbg.progState ∧ (log = false → y.dbg.quitFlag = false) := by
    rw [stepWithHistory_run]
    refine Tracks.prepend (.andThen
      (createCallHistory_tracks here active tidy meets) ?_) rfl ?_
    · rintro _ y n _ ⟨rfl, kept, kept'⟩
      refine .prepend ((enterStep_tracks (kept.vm ▸ here) (kept.vm ▸ running)).mono (Nat.le_refl _)
        ?_) ?_ ?_
      · rintro n z ⟨rfl, taken, same⟩
        obtain ⟨⟨calls, recorded, sized⟩, quitFlag⟩ := kept' (by rw [← kept.vm, taken]; simp)
        rw [← same] at recorded sized quitFlag
        exact ⟨rfl, ⟨calls, recorded, sized⟩, by rw [same, kept.dbg.progState], quitFlag⟩
      · cases log with
        | false => rfl
        | true => rfl
      · cases log with
        | false => simp
        | true => simp [DbgEvent.Passive]
    · rw [List.forall_mem_cons, List.forall_mem_singleton]
      exact ⟨trivial, pc_passive⟩
  rw [dbgStep_run] at watched ⊢
  refine Tracks.andThen steps ?_ watched
  rintro _ y n there ⟨rfl, ⟨calls, recorded, sized⟩, progState, quitFlag⟩
  refine (tellBreakpoint_tracks there recorded).mono (Nat.le_refl _) ?_
  rintro _ z ⟨rfl, m, rfl⟩
  exact ⟨rfl, ⟨calls, recorded, sized⟩, progState, quitFlag⟩

end Stepping

section Commands

variable {r : DbgEnv} {file : List Byte} {fuel k : Nat} {x : Session}

/-- The loop of `continue` follows the run for as many steps as it makes. The induction is
on the bound of the loop. -/
theorem dbgLoop_tracks (here : after r.vm file k = some x.vm)
    (running : finished x.vm.gCpu = false) (active : x.dbg.quitFlag = false) (tidy : x.Tidy) :
    Tracks r file fuel k ((dbgLoop fuel).run r x) fun _ y =>
      y.Tidy ∧ y.dbg.progState = x.dbg.progState := by
  induction fuel generalizing k x with
  | zero =>
      refine fun _ => ⟨by simp [dbgLoop, entered], by simp [dbgLoop], by simp [dbgLoop], ?_⟩
      rintro _ _ _ ⟨⟩
      exact Or.inr ⟨rfl, Nat.zero_le _⟩
  | succ fuel ih =>
      rw [dbgLoop, Program.run_bind]
      refine .andThen (dbgStep_tracks here running active tidy) ?_
      rintro _ y n there ⟨rfl, tidy', progState, quitFlag⟩
      simp only [Program.run_bind, Program.run_get, atBreakpoint_run, Outcome.andThen_done,
        Outcome.prepend_nil]
      split
      · rename_i goesOn
        have running' : finished y.vm.gCpu = false := by
          rcases goesOn with ⟨_, running'⟩ | quits
          · exact running'
          · rw [quitFlag rfl] at quits
            contradiction
        exact (ih there running' (quitFlag rfl) tidy').mono (Nat.le_refl _)
          fun _ z post => ⟨post.1, post.2.trans progState⟩
      · exact .of_done rfl (by simp) there ⟨tidy', progState⟩

/-- Between two commands after `start`, the debugger knows whether the machine has
finished. -/
structure Session.Ready (x : Session) : Prop where
  tidy : x.Tidy
  begun : x.dbg.progState = .started ∨ x.dbg.progState = .finished
  running : x.dbg.progState = .started → finished x.vm.gCpu = false

theorem noteFinished_tracks (here : after r.vm file k = some x.vm) (tidy : x.Tidy)
    (started : x.dbg.progState = .started) :
    Tracks r file fuel k (noteFinished.run r x) fun _ y => y.Ready := by
  rw [noteFinished, Program.run_bind, Program.run_get, Outcome.andThen_done, Outcome.prepend_nil]
  split
  · obtain ⟨calls, recorded, sized⟩ := tidy
    refine .of_done rfl (by simp) here ⟨⟨calls, ?_, sized⟩, Or.inr rfl, fun h => by contradiction⟩
    exact ⟨recorded.stored, recorded.inside, recorded.bound⟩
  · rename_i running
    exact .of_done rfl (by simp) here ⟨tidy, Or.inl started, fun _ => by simpa using running⟩

/-- `step` and `continue` follow the run. -/
theorem exec_tracks {command : Command} (drives : command = .step ∨ command = .continue)
    (here : after r.vm file k = some x.vm) (active : x.dbg.quitFlag = false) (ready : x.Ready) :
    Tracks r file fuel k ((command.exec fuel).run r x) fun _ y => y.Ready := by
  have idle : Tracks r file fuel k ((print .notRunning).run r x) fun _ y => y.Ready :=
    .of_done rfl (by simp [DbgEvent.Passive]) here ready
  obtain ⟨tidy, begun, running⟩ := ready
  have guarded (run : DBG Unit) (tracks : x.dbg.progState = .started →
      Tracks r file fuel k (run.run r x) fun _ y => y.Ready) :
      Tracks r file fuel k ((execWhenStarted run).run r x) fun _ y => y.Ready := by
    rw [execWhenStarted, Program.run_bind, Program.run_get, Outcome.andThen_done,
      Outcome.prepend_nil]
    rcases begun with started | done
    · rw [started]
      exact tracks started
    · rw [done]
      exact idle
  rcases drives with rfl | rfl
  · apply guarded _
    intro started
    refine .andThen (dbgStep_tracks here (running started) active tidy) ?_
    rintro _ y n there ⟨_, tidy', progState, _⟩
    exact noteFinished_tracks there tidy' (progState.trans started)
  · apply guarded _
    intro started
    refine .andThen (dbgLoop_tracks here (running started) active tidy) ?_
    rintro _ y n there ⟨tidy', progState⟩
    exact noteFinished_tracks there tidy' (progState.trans started)

/-- The commands after `start` follow the run, until the debugger quits. The induction is
on the commands. -/
theorem commandLoop_tracks {commands : List Command} {bound : Nat} (le : bound ≤ fuel)
    (drives : ∀ c ∈ commands, c = .step ∨ c = .continue)
    (here : after r.vm file k = some x.vm) (ready : commands ≠ [] → x.Ready) :
    Tracks r file bound k ((commandLoop fuel commands).run r x) fun _ _ => True := by
  induction commands generalizing k x bound with
  | nil => exact .of_done rfl (by simp) here trivial
  | cons c commands ih =>
      rw [List.forall_mem_cons] at drives
      rw [commandLoop, Program.run_bind, Program.run_get, Outcome.andThen_done, Outcome.prepend_nil]
      split
      · exact .of_done rfl (by simp) here trivial
      · rename_i active
        have active : x.dbg.quitFlag = false := by simpa using active
        rw [Program.run_bind]
        refine .andThen ((exec_tracks drives.1 here active (ready (by simp))).mono le
          fun _ _ post => post) fun _ y n there post => ?_
        exact ih (by omega) drives.2 there fun _ => post

end Commands

end Ijvm
