import Ijvm.Debugger.Mirror

/-!
# Sessions with all commands, and their restarts

`file` starts with a new debugger state, in which the call history holds main only.
`start` and `run` load the last program again when it has been started, and keep the
debugger state, so that the breakpoints stay, but the call history stays too: the calls in
which the old run was stopped remain below those of the new one.
-/

namespace Ijvm

open Transcript Program Records

section Commands

def copyPath (path : String) : DBG (Option String) := do
  match ← lookUp (onMachine (copyString (ascii path.toList))) with
  | some _ => return some path
  | none => return none

/-- `save_last_prog`. The path is copied twice, and the second copy is the one that stays. -/
def saveLastProg (path : String) : DBG Unit := do
  match ← copyPath path with
  | none => Program.stop .undefined
  | some path =>
      let lastProgPath ← copyPath path
      modifyDbg fun d => { d with lastProgPath }

def execFile (path : String) : DBG Unit := do
  onVm destroyIjvm
  clearDebugData
  initDebugger
  if ← loadProgram (some path) then
    modifyDbg fun d => { d with progState := .loaded }
    saveLastProg path
  else
    onVm destroyIjvm
    clearDebugData
    initDebugger

/-- `exec_break` with its argument as it was entered, a label or a number; `granted` is whether the
list of breakpoints can grow. The messages about the breakpoint are left out. -/
def execBreak (offset : List Byte) (granted : Bool) : DBG Unit := do
  let x ← get
  if x.dbg.progState = .empty then
    print .notLoaded
  else if granted = false then
    -- The list is lost, and the debugger reads no further command.
    modifyDbg fun d => { d with quitFlag := true, brkpts := [] }
  else
    let symbAddr ← lookUp (onMachine (labelNameToAddr x.debugData offset))
    let offsetNum := if symbAddr = notFound then BitVec.ofInt 32 (strtol offset) else symbAddr
    modifyDbg fun d => { d with brkpts := d.brkpts ++ [offsetNum] }

def execInfo (about : List Byte) : DBG Unit := do
  let x ← get
  if x.dbg.progState = .empty then
    print (.info .programEmpty)
  else if about = ascii ['f', 'r', 'a', 'm', 'e'] then
    if x.dbg.progState ≠ .started then
      print (.info .notRunning)
    else
      let stack ← lookUp printFrameStack
      let localVars ← lookUp printFrameLocalVars
      print (.info (.frame stack localVars))
  else if about = ascii ['b', 'r', 'e', 'a', 'k'] then
    print (.info (.breakpoints (← lookUp (printAllBreakpoints x.debugData 1 x.dbg.brkpts))))
  else
    print (.info .invalidArgument)

/-- `exec_input`, whose messages are left out. -/
def execInput (path : String) : DBG Unit := do
  let state := (← get).dbg.progState
  if state = .loaded ∨ state = .started then
    let r ← Program.ask
    match r.files path with
    | some bytes => onVm (modify fun s => { s with inFile := bytes })
    | none => pure ()

def execRun (fuel : Nat) : DBG Unit := do
  execStart
  if (← get).dbg.progState = .started then
    dbgRun fuel false

/-- `exec_quit`; the call history and the breakpoints that it frees are not read again. -/
def execQuit : DBG Unit := do
  onVm destroyIjvm
  clearDebugData
  modifyDbg fun d => { d with quitFlag := true }

/-- What the user can enter. `other` is HELP and what is no command: they only print. -/
inductive Request where
  | step | «continue» | backtrace | run | start | quit | other
  | info (about : List Byte)
  | «break» (offset : List Byte) (granted : Bool)
  | input (path : String)
  | file (path : String)

def Request.exec (fuel : Nat) : Request → DBG Unit
  | .step => execStep fuel
  | .continue => execContinue fuel
  | .backtrace => execBacktrace
  | .info about => execInfo about
  | .break offset granted => execBreak offset granted
  | .run => execRun fuel
  | .input path => execInput path
  | .file path => execFile path
  | .start => execStart
  | .quit => execQuit
  | .other => pure ()

/-- The copy of the last line, which an empty one stands for. The null pointer is no line. -/
def copyLine (line : List Byte) : DBG (List Byte) := do
  match ← lookUp (onMachine (copyString line)) with
  | some line => return line
  | none => Program.stop .undefined

/-- `start` in a session whose program was started before: the session before and, if the
program could be loaded again, the one in which it has been started. -/
def restartsOfStart (r : DbgEnv) (x : Session) : List (Session × Session) :=
  if x.dbg.progState = .started ∨ x.dbg.progState = .finished then
    match execStart.run r x with
    | .done _ y _ => if y.dbg.progState = .started then [(x, y)] else []
    | .stopped .. => []
  else []

/-- The restart in a request, if there is one. -/
def Request.restarts (r : DbgEnv) (x : Session) : Request → List (Session × Session)
  | .start | .run => restartsOfStart r x
  | _ => []

/-- The sessions that `main` can reach, with the restarts on the way. In between, it copies the
lines that are repeated. -/
inductive Driven (r : DbgEnv) : Session → List (Session × Session) → Prop where
  | main : Driven r (Session.fresh r) []
  | command {x y : Session} {restarts : List (Session × Session)} {c : Request} {fuel : Nat}
      {es : List DbgEvent} (before : Driven r x restarts) (active : x.dbg.quitFlag = false)
      (run : (c.exec fuel).run r x = .done () y es) : Driven r y (restarts ++ c.restarts r x)
  | repeated {x y : Session} {restarts : List (Session × Session)} {line copy : List Byte}
      {es : List DbgEvent} (before : Driven r x restarts) (active : x.dbg.quitFlag = false)
      (run : (copyLine line).run r x = .done copy y es) : Driven r y restarts

end Commands

section Keeping

variable {J : DebuggerState → Prop}

/-- The program preserves what `J` says about the state of the debugger. -/
abbrev KeepsDebugger (J : DebuggerState → Prop) {α : Type} (m : DBG α) : Prop :=
  Keeps (fun _ => True) (fun x => J x.dbg) (fun _ => True) m

theorem onMachine_keepsDebugger {α : Type} (m : VM α) : KeepsDebugger J (onVm m) :=
  onVm_keeps (J := fun d _ => J d) m

theorem lookUp_keepsDebugger {α : Type} (m : LOOKUP α) : KeepsDebugger J (lookUp m) :=
  lookUp_keeps (J := fun d _ => J d) m

theorem clearDebugData_keepsDebugger : KeepsDebugger J clearDebugData := .modify fun _ kept => kept

theorem requestMemory_keepsDebugger : KeepsDebugger J requestMemory :=
  fun _ _ kept _ => ⟨Outcome.returns_done.mpr kept, fun _ _ => trivial⟩

theorem onDebugData_keepsDebugger {α : Type} (m : Loading α) : KeepsDebugger J (onDebugData m) := by
  apply Ensures.of_satisfies
  intro r x kept
  have run : (onDebugData m).run r x = (m.run r.memory x.forLoading).embed
    (fun l => { x with debugData := l.debugData, requests := l.clock })
    fun n => .console (.symbols n) := rfl
  rw [run]
  cases m.run r.memory x.forLoading with
  | done a s es => exact ⟨kept, fun _ _ => trivial⟩
  | stopped e s es => exact fun _ _ => trivial

theorem loadProgram_keepsDebugger (path : Option String) : KeepsDebugger J (loadProgram path) :=
  .bind .ask fun _ => .bind (onMachine_keepsDebugger _) fun _ =>
    .ite (fun _ => onDebugData_keepsDebugger _) fun _ => .pure _

theorem copyPath_keepsDebugger (path : String) : KeepsDebugger J (copyPath path) := by
  refine .bind (lookUp_keepsDebugger _) fun copy => ?_
  cases copy with
  | some _ => exact .pure _
  | none => exact .pure _

/-- The state of the debugger is a new one. -/
theorem initDebugger_fresh (fresh : ∀ r n, J { DebuggerState.init r with reallocs := n }) :
    Ensures (fun _ => True) (fun _ => True) (fun _ => True) initDebugger fun _ y => J y.dbg := by
  refine .bind (requestMemory_keepsDebugger (J := fun _ => True)) fun granted =>
    .ite (fun _ => .bind Keeps.ask fun r => .modify fun _ _ => fresh r _) fun _ => .stop _

end Keeping

section Restarting

/-- The call history and the breakpoints are the same. -/
structure DebuggerState.SameCalls (d d' : DebuggerState) : Prop where
  callHistory : d'.callHistory = d.callHistory
  callHistoryTop : d'.callHistoryTop = d.callHistoryTop
  brkpts : d'.brkpts = d.brkpts

/-- The call history decodes to the record of main. -/
def DebuggerState.MainOnly (d : DebuggerState) : Prop :=
  Stored BitVec.toNat d.callHistory d.callHistoryTop [mainEntry]

variable {d d' : DebuggerState} {r : DbgEnv} {x y : Session}

theorem DebuggerState.SameCalls.mainOnly_iff (same : d.SameCalls d') :
    d'.MainOnly ↔ d.MainOnly := by
  rw [DebuggerState.MainOnly, DebuggerState.MainOnly, same.callHistory, same.callHistoryTop]

theorem mainOnly_init (r : DbgEnv) : (DebuggerState.init r).MainOnly := ⟨0, rfl, rfl, rfl, rfl, rfl⟩

/-- A restart that succeeds does not touch the call history; one that fails leaves no
program. -/
theorem restartDebugger_keeps (d : DebuggerState) :
    Ensures (fun _ => True) (fun y => d.SameCalls y.dbg) (fun _ => True) restartDebugger
      fun _ y => y.dbg.progState = .empty ∨ d.SameCalls y.dbg := by
  refine .bind (onMachine_keepsDebugger _) fun _ => .bind clearDebugData_keepsDebugger fun _ =>
    .bind Keeps.get fun _ => .bind (loadProgram_keepsDebugger _) fun _ => .ite (fun _ => ?_)
    fun _ => ?_
  · refine .bind (print_keeps _) fun _ => .modify fun y same => .inr ?_
    exact ⟨same.callHistory, same.callHistoryTop, same.brkpts⟩
  · refine .bind (onMachine_keepsDebugger _) fun _ => .bind clearDebugData_keepsDebugger fun _ => ?_
    apply Ensures.bind (Q := fun _ y => y.dbg.progState = .empty)
    · refine (initDebugger_fresh (J := fun d => d.progState = .empty) fun _ _ => rfl).mono ?_ ?_
      · exact fun _ _ => trivial
      · exact fun _ _ empty => empty
    · exact fun _ => (print_keeps _).mono (fun _ h => h) fun _ _ h => .inl h

/-- What follows the restart. -/
theorem execStart_keeps (d : DebuggerState) :
    Ensures (fun _ => True) (fun y => d.SameCalls y.dbg) (fun _ => True) execStart
      fun _ y => y.dbg.progState = .started → d.SameCalls y.dbg := by
  have rest : Ensures (fun _ => True)
      (fun y => y.dbg.progState = .empty ∨ d.SameCalls y.dbg) (fun _ => True)
      (do
        let state := (← get).dbg.progState
        if state = .loaded then
          onVm setOutput
          print (.starting (← get).dbg.lastProgPath)
          tellBreakpoint false
          modifyDbg fun d => { d with progState := .started }
        else if state = .empty then
          print .notLoaded : DBG Unit)
      fun _ y => y.dbg.progState = .started → d.SameCalls y.dbg := by
    refine .get_bind fun z reached => .ite (fun loaded => ?_) fun _ => .ite (fun empty => ?_)
      fun nonempty => ?_
    · have same : d.SameCalls z.dbg := reached.resolve_left (by simp [loaded])
      refine Ensures.mono (P := fun y => d.SameCalls y.dbg) ?_ (fun y here => here ▸ same)
        fun _ _ h => h
      have tells : KeepsDebugger d.SameCalls (tellBreakpoint false) :=
        Looks.debugger (J := fun d' _ => d.SameCalls d') fun kept => tellBreakpoint_looks kept false
      refine .bind (onMachine_keepsDebugger _) fun _ => .bind Keeps.get fun _ =>
        .bind (print_keeps _) fun _ => .bind tells fun _ => .modify fun y same _ => ?_
      exact ⟨same.callHistory, same.callHistoryTop, same.brkpts⟩
    · refine (print_keeps (I := fun y => y = z) _).mono (fun _ here => here) ?_
      rintro _ _ rfl started
      rw [empty] at started
      contradiction
    · refine .pure ?_
      rintro _ rfl _
      exact reached.resolve_left nonempty
  apply Ensures.bind Keeps.get
  intro z
  refine .ite (fun _ => ?_) fun _ => ?_
  · exact .bind (restartDebugger_keeps d) fun _ => rest
  · exact rest.mono (fun _ h => .inr h) fun _ _ h => h

/-- Right after a restart, the call history and the breakpoints are those from before. -/
theorem sameCalls_of_restartsOfStart {p : Session × Session} (restart : p ∈ restartsOfStart r x) :
    p.1 = x ∧ x.dbg.SameCalls p.2.dbg := by
  unfold restartsOfStart at restart
  split at restart
  · have keeps := (execStart_keeps x.dbg r x ⟨rfl, rfl, rfl⟩ fun _ _ => trivial).1
    cases run : execStart.run r x with
    | done _ y es =>
        rw [run] at restart
        dsimp only at restart
        split at restart
        · rename_i started
          obtain rfl := List.mem_singleton.mp restart
          exact ⟨rfl, keeps _ _ _ run started⟩
        · exact absurd restart List.not_mem_nil
    | stopped e y es =>
        rw [run] at restart
        exact absurd restart List.not_mem_nil
  · exact absurd restart List.not_mem_nil

theorem sameCalls_of_restart {c : Request} {p : Session × Session}
    (restart : p ∈ c.restarts r x) : p.1 = x ∧ x.dbg.SameCalls p.2.dbg := by
  cases c with
  | start => exact sameCalls_of_restartsOfStart restart
  | run => exact sameCalls_of_restartsOfStart restart
  | _ => exact absurd restart List.not_mem_nil

/-- `file` forgets the calls of the program before, whether it succeeds or not. -/
theorem execFile_mainOnly (path : String) :
    Ensures (fun _ => True) (fun _ => True) (fun _ => True) (execFile path)
      fun _ y => y.dbg.MainOnly := by
  have afresh : Ensures (fun _ => True) (fun _ => True) (fun _ => True)
      (do onVm destroyIjvm; clearDebugData; initDebugger : DBG Unit) fun _ y => y.dbg.MainOnly :=
    .bind (onMachine_keepsDebugger (J := fun _ => True) _) fun _ =>
      .bind (clearDebugData_keepsDebugger (J := fun _ => True)) fun _ =>
      initDebugger_fresh fun r _ => mainOnly_init r
  have saves : KeepsDebugger DebuggerState.MainOnly (saveLastProg path) := by
    refine .bind (copyPath_keepsDebugger _) fun copy => ?_
    cases copy with
    | none => exact .stop _
    | some path =>
        exact .bind (copyPath_keepsDebugger _) fun _ => .modify fun _ mainOnly => mainOnly
  refine .bind (onMachine_keepsDebugger (J := fun _ => True) _) fun _ =>
    .bind (clearDebugData_keepsDebugger (J := fun _ => True)) fun _ =>
    .bind (initDebugger_fresh (J := DebuggerState.MainOnly) fun r _ => mainOnly_init r) fun _ =>
    .bind (loadProgram_keepsDebugger _) fun _ => .ite (fun _ => ?_) fun _ => ?_
  · exact .bind (.modify fun _ mainOnly => mainOnly) fun _ => saves
  · exact afresh.mono (fun _ _ => trivial) fun _ _ h => h

/-- Where the steps of the first run show the debugger what they do, a restart leaves the
calls that were active below the history of the new run. -/
theorem restart_keeps_calls {file : List Byte} {d : DebugData} {path : String}
    {brkpts : List Word} {log : Nat → Bool} {k : Nat}
    (visible : ∀ m < k, ∀ y, sessionAfter r file d path brkpts log m = some y →
      Visible r y (sessionCalls r file d path brkpts log m))
    (reached : sessionAfter r file d path brkpts log k = some x) {p : Session × Session}
    (restart : p ∈ restartsOfStart r x) :
    Stored BitVec.toNat p.2.dbg.callHistory p.2.dbg.callHistoryTop
      (sessionCalls r file d path brkpts log k) := by
  have holds := (sessionAfter_holds visible reached).holds
  obtain ⟨_, same⟩ := sameCalls_of_restartsOfStart restart
  rw [same.callHistory, same.callHistoryTop]
  exact holds.stored

end Restarting

section Running

variable {r : DbgEnv} {x : Session}

/-- The session after these requests, the last one first, if none of them stops. -/
def drive (r : DbgEnv) (fuel : Nat) : List Request → Option (Session × List (Session × Session))
  | [] => some (Session.fresh r, [])
  | c :: cs => (drive r fuel cs).bind fun p =>
      if p.1.dbg.quitFlag = true then none
      else match (c.exec fuel).run r p.1 with
        | .done _ y _ => some (y, p.2 ++ c.restarts r p.1)
        | .stopped .. => none

theorem driven_of_drive {fuel : Nat} {cs : List Request}
    {p : Session × List (Session × Session)} (run : drive r fuel cs = some p) :
    Driven r p.1 p.2 := by
  induction cs generalizing p with
  | nil =>
      obtain rfl := Option.some.inj run
      exact .main
  | cons c cs ih =>
      obtain ⟨q, earlier, taken⟩ := Option.bind_eq_some_iff.mp run
      split at taken
      · contradiction
      · rename_i active
        cases execution : (c.exec fuel).run r q.1 with
        | stopped e y es =>
            rw [execution] at taken
            contradiction
        | done _ y es =>
            rw [execution] at taken
            obtain rfl := Option.some.inj taken
            exact .command (ih earlier) (by simpa using active) execution

/-- Surroundings in which every path leads to this file. -/
def DbgEnv.holding (file : List Byte) : DbgEnv := { DbgEnv.quiet with files := fun _ => some file }

/-- In every session, the backtrace starts afresh at every restart exactly if, before each
restart, the call history holds main only. The induction is on the commands. -/
theorem restarts_afresh_iff {restarts : List (Session × Session)} (driven : Driven r x restarts) :
    (∀ p ∈ restarts, p.2.dbg.MainOnly ∧ p.2.dbg.brkpts = p.1.dbg.brkpts) ↔
      ∀ p ∈ restarts, p.1.dbg.MainOnly := by
  induction driven with
  | main => simp
  | @command x y restarts c fuel es before active run ih =>
      have here : (∀ p ∈ c.restarts r x, p.2.dbg.MainOnly ∧ p.2.dbg.brkpts = p.1.dbg.brkpts) ↔
          ∀ p ∈ c.restarts r x, p.1.dbg.MainOnly := by
        refine forall₂_congr fun p restart => ?_
        obtain ⟨same, kept⟩ := sameCalls_of_restart restart
        rw [same]
        exact ⟨fun h => kept.mainOnly_iff.mp h.1, fun h => ⟨kept.mainOnly_iff.mpr h, kept.brkpts⟩⟩
      rw [List.forall_mem_append, List.forall_mem_append, ih, here]
  | repeated _ _ _ ih => exact ih

/-- A program that is restarted before its first step. -/
theorem restarts_afresh_iff_callSeven :
    ∃ x restarts, restarts ≠ [] ∧ Driven (DbgEnv.holding callSeven) x restarts ∧
      ((∀ p ∈ restarts, p.2.dbg.MainOnly ∧ p.2.dbg.brkpts = p.1.dbg.brkpts) ↔
        ∀ p ∈ restarts, p.1.dbg.MainOnly) := by
  have check : (drive (DbgEnv.holding callSeven) 10 [.start, .start, .break [0x35] true,
      .file "seven"]).any (fun p => decide (p.2.length = 1)) = true := by decide +kernel
  obtain ⟨p, run, one⟩ := (Option.any_eq_true _ _).mp check
  have driven := driven_of_drive run
  refine ⟨p.1, p.2, ?_, driven, restarts_afresh_iff driven⟩
  intro empty
  rw [empty] at one
  contradiction

/-- A program that is restarted inside a call. -/
theorem restart_not_afresh :
    ¬ ∀ r x restarts, Driven r x restarts →
      ∀ p ∈ restarts, p.2.dbg.MainOnly ∧ p.2.dbg.brkpts = p.1.dbg.brkpts := by
  intro afresh
  have check : (drive (DbgEnv.holding callSeven) 10
      [.start, .step, .step, .start, .file "seven"]).any
        (fun p => p.2.any fun q => decide (q.2.dbg.callHistoryTop = 5)) = true := by
    decide +kernel
  obtain ⟨p, run, found⟩ := (Option.any_eq_true _ _).mp check
  obtain ⟨q, member, top⟩ := List.any_eq_true.mp found
  obtain ⟨⟨base, size, _, _, _, bottom⟩, _⟩ := afresh _ _ _ (driven_of_drive run) q member
  rw [of_decide_eq_true top, show base = 0 from bottom] at size
  contradiction

end Running

end Ijvm
