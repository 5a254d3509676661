import Ijvm.Debugger.Restart
import Ijvm.Sessions.Forgetting
import Ijvm.Transcript.Partial

/-!
# The phases of a debugger session

The debugger remembers in one variable whether a program is loaded, started or finished. In
every session, whatever the user enters, that variable tells the truth about the machine each
time the next command is read: without a program, the machine has no arrays and no
connections; with one, the machine was initialized with the file at the remembered path and
stepped from there, only ever from a state that is not finished, and `finished` says that the
program has ended. A step that runs on after the end is made only once the quit flag is set.
-/

namespace Ijvm

open Transcript Program

/-- The machine has been loaded with the file from a state without arrays and connections, and
has then made `k` steps. In between, its output was started afresh, its input exchanged, and its
arrays collected for a string of the debugger. -/
inductive Continues (env : Env) (file : List Byte) : Nat → State → Prop where
  | load {s t : State} {es : List Event} (released : s.Released)
      (init : (initIjvm (some file)).run env s = .done 0 t es) : Continues env file 0 t
  | output {k : Nat} {s : State} (before : Continues env file k s) :
      Continues env file k { s with outFile := [] }
  | input {k : Nat} {s : State} (bytes : List Byte) (before : Continues env file k s) :
      Continues env file k { s with inFile := bytes }
  | collection {k n : Nat} {s t : State} (before : Continues env file k s)
      (collected : Collected s n t) : Continues env file k { t with clock := s.clock }
  | step {k : Nat} {s t : State} {b : Bool} {es : List Event} (before : Continues env file k s)
      (goes : k = 0 ∨ finished s.gCpu = false) (execution : step.run env s = .done b t es) :
      Continues env file (k + 1) t

/-- The debug data are those that the loader reads from the file. -/
def SymbolsOf (r : DbgEnv) (file : List Byte) (d : DebugData) : Prop :=
  ∃ l l' es, (loadDebugData (some file)).run r.memory l = .done true l' es ∧ l'.debugData = d

/-- The machine of the session runs the program of the file at a path, and has made `k` steps. The
debugger remembers this path if there was memory for it. -/
def Session.Runs (r : DbgEnv) (k : Nat) (x : Session) : Prop :=
  ∃ path file, (x.dbg.lastProgPath = some path ∨ x.dbg.lastProgPath = none) ∧
    r.files path = some file ∧ SymbolsOf r file x.debugData ∧ Continues r.vm file k x.vm

/-- What the state of the program says about the machine. -/
def Session.Phase (r : DbgEnv) (x : Session) : Prop :=
  match x.dbg.progState with
  | .empty => x.dbg.lastProgPath = none ∧ x.vm.Released
  | .loaded => x.Runs r 0
  | .started => ∃ k, x.Runs r k ∧ (k = 0 ∨ finished x.vm.gCpu = false)
  | .finished => ∃ k, x.Runs r (k + 1) ∧ finished x.vm.gCpu = true

/-- The debugger reads no further command, or is right about the machine. -/
def Session.Truthful (r : DbgEnv) (x : Session) : Prop := x.dbg.quitFlag = false → x.Phase r

section Collecting

variable {r : DbgEnv} {P : Session → Prop} {x : Session} {k : Nat}

/-- The assertion is not touched by the lookups of the debugger: it does not count their requests,
and holds after each collection. -/
structure Lasting (P : Session → Prop) : Prop where
  counts : ∀ x n, P x → P { x with requests := n }
  collects : ∀ x n t, P x → Collected x.vm n t → P { x with vm := { t with clock := x.vm.clock } }

/-- A lasting assertion is kept by what only looks at the machine. -/
theorem Lasting.leads {α : Type} {m : DBG α} (lasting : Lasting P)
    (looks : ∀ {J : DebuggerState → DebugData → Prop} {K : State → Prop}, KeptByLookups K →
      Looks J K m) : Leads r P m fun _ => P := by
  intro x holds a y es run
  have kept : KeptByLookups fun s => ∀ n, P { x with vm := s, requests := n } := fun c =>
    keptByCopies_of (fun _ holds => holds) fun s _ t collected holds n => by
      have collected' : Collected { s with clock := c } _ { t with clock := c + 1 } :=
        ⟨by rw [collected.frame], collected.survivors, collected.count⟩
      exact lasting.collects { x with vm := { s with clock := c }, requests := n } _
        { t with clock := c + 1 } (holds n) collected'
  have final := (looks (J := fun d labels => d = x.dbg ∧ labels = x.debugData) kept r x
    ⟨⟨rfl, rfl⟩, fun n => lasting.counts x n holds⟩ fun _ _ => trivial).1 a y es run
  obtain ⟨⟨dbg, debugData⟩, machine⟩ := final
  rw [← dbg, ← debugData] at machine
  exact machine y.requests

theorem Session.Runs.collect {n : Nat} {t : State} (runs : x.Runs r k)
    (collected : Collected x.vm n t) :
    { x with vm := { t with clock := x.vm.clock } }.Runs r k := by
  obtain ⟨path, file, last, holds, symbols, continues⟩ := runs
  exact ⟨path, file, last, holds, symbols, .collection continues collected⟩

theorem Collected.released {s t : State} {n : Nat} (collected : Collected s n t)
    (released : s.Released) : t.Released := by
  obtain ⟨frame, survivors, _⟩ := collected
  have arrays : t.arrMem = .none := by
    have size := survivors.size_eq
    have map := survivors.map_length
    have values := survivors.values_length
    rw [released.1] at size map values
    cases arrays : t.arrMem with
    | mk n used cells =>
        rw [arrays] at size map values
        obtain rfl : n = 0 := size
        obtain rfl := List.length_eq_zero_iff.mp map
        obtain rfl := List.length_eq_zero_iff.mp values
        rfl
  refine ⟨arrays, ?_⟩
  rw [frame]
  exact released.2

theorem lasting_truthful : Lasting (Session.Truthful r) where
  counts _ _ truthful := truthful
  collects x n t truthful collected active := by
    have phase := truthful active
    unfold Session.Phase at phase ⊢
    cases state : x.dbg.progState with
    | empty =>
        rw [state] at phase
        exact ⟨phase.1, collected.released phase.2⟩
    | loaded =>
        rw [state] at phase
        exact phase.collect collected
    | started =>
        rw [state] at phase
        obtain ⟨k, runs, goes⟩ := phase
        refine ⟨k, runs.collect collected, goes.imp_right fun running => ?_⟩
        rwa [show ({ t with clock := x.vm.clock } : State).gCpu = x.vm.gCpu from collected.cpu_eq]
    | finished =>
        rw [state] at phase
        obtain ⟨k, runs, ended⟩ := phase
        refine ⟨k, runs.collect collected, ?_⟩
        rwa [show ({ t with clock := x.vm.clock } : State).gCpu = x.vm.gCpu from collected.cpu_eq]

end Collecting

section Stepping

variable {r : DbgEnv} {x y : Session} {k : Nat}

theorem Session.Runs.congr (runs : x.Runs r k) (vm : y.vm = x.vm)
    (debugData : y.debugData = x.debugData)
    (lastProgPath : y.dbg.lastProgPath = x.dbg.lastProgPath) : y.Runs r k := by
  obtain ⟨path, file, last, holds, symbols, continues⟩ := runs
  refine ⟨path, file, by rwa [lastProgPath], holds, by rwa [debugData], by rwa [vm]⟩

theorem Session.Phase.congr (phase : x.Phase r) (vm : y.vm = x.vm)
    (debugData : y.debugData = x.debugData) (progState : y.dbg.progState = x.dbg.progState)
    (lastProgPath : y.dbg.lastProgPath = x.dbg.lastProgPath) : y.Phase r := by
  unfold Session.Phase at phase ⊢
  rw [progState]
  cases state : x.dbg.progState with
  | empty =>
      rw [state] at phase
      exact ⟨lastProgPath.trans phase.1, vm ▸ phase.2⟩
  | loaded =>
      rw [state] at phase
      exact phase.congr vm debugData lastProgPath
  | started =>
      rw [state] at phase
      obtain ⟨k, runs, goes⟩ := phase
      exact ⟨k, runs.congr vm debugData lastProgPath, by rwa [vm]⟩
  | finished =>
      rw [state] at phase
      obtain ⟨k, runs, ended⟩ := phase
      exact ⟨k, runs.congr vm debugData lastProgPath, by rwa [vm]⟩

/-- The machine may make its next step, or no further command is read. -/
def Session.MayStep (r : DbgEnv) (x : Session) : Prop :=
  x.dbg.progState = .started ∧ (x.dbg.quitFlag = false →
    ∃ k, x.Runs r k ∧ (k = 0 ∨ finished x.vm.gCpu = false))

/-- The machine has just made a step, or no further command is read. -/
def Session.Stepped (r : DbgEnv) (x : Session) : Prop :=
  x.dbg.progState = .started ∧ (x.dbg.quitFlag = false → ∃ k, x.Runs r (k + 1))

theorem Session.MayStep.congr (may : x.MayStep r) (same : x.Kept y) : y.MayStep r := by
  refine ⟨same.dbg.progState.trans may.1, fun active => ?_⟩
  obtain ⟨k, runs, goes⟩ := may.2 <|
    Bool.eq_false_iff.mpr fun set => by simp [same.dbg.quitFlag set] at active
  exact ⟨k, runs.congr same.vm same.debugData same.dbg.lastProgPath, by rwa [same.vm]⟩

theorem lasting_stepped : Lasting (Session.Stepped r) where
  counts _ _ stepped := stepped
  collects _ _ _ stepped collected :=
    ⟨stepped.1, fun active => (stepped.2 active).imp fun _ runs => runs.collect collected⟩

theorem enterStep_steps : Leads r (Session.MayStep r) enterStep fun _ => Session.Stepped r := by
  refine .get_bind fun x may => .bind (Q := fun _ y => y = x) ?_ fun _ =>
    .bind (Q := fun _ => Session.Stepped r) ?_ fun _ => .pure fun _ h => h
  · exact fun _ here => Outcome.returns_done.mpr here
  · intro y here
    subst y
    rw [onVm_run]
    cases execution : step.run r.vm x.vm with
    | stopped e s es => exact Outcome.returns_stopped
    | done b s es =>
        refine Outcome.returns_done.mpr ⟨may.1, fun active => ?_⟩
        obtain ⟨k, ⟨path, file, last, holds, symbols, continues⟩, goes⟩ := may.2 active
        exact ⟨k, path, file, last, holds, symbols, .step continues goes execution⟩

/-- One step of the debugger is one step of the machine. -/
theorem dbgStep_steps (log : Bool) :
    Leads r (Session.MayStep r) (dbgStep log) fun _ => Session.Stepped r := by
  have history : Leads r (Session.MayStep r) createCallHistory fun _ => Session.MayStep r :=
    fun x may _ _ _ run => may.congr (createCallHistory_bookkeeps.done run).1
  have steps : Leads r (Session.MayStep r) (stepWithHistory log) fun _ => Session.Stepped r := by
    refine .bind (.of_ensures Keeps.get) fun _ =>
      .bind (.of_ensures (Keeps.emit fun _ _ _ => trivial)) fun _ =>
      .bind (.of_ensures codeAtPc_keeps) fun _ => .bind history fun _ =>
      .ite (fun _ => ?_) fun _ => enterStep_steps
    exact .bind (.of_ensures Keeps.get) fun _ => .bind (.of_ensures (print_keeps _)) fun _ =>
      enterStep_steps
  exact .bind steps fun _ => lasting_stepped.leads fun kept => tellBreakpoint_looks kept true

/-- The loop of `continue`. It goes on after the end of the program only with the quit flag
set. -/
theorem dbgLoop_steps (fuel : Nat) :
    Leads r (Session.MayStep r) (dbgLoop fuel) fun _ => Session.Stepped r := by
  induction fuel with
  | zero => exact .stop _
  | succ fuel ih =>
      refine .bind (dbgStep_steps false) fun _ => .get_bind fun x stepped =>
        .bind (Q := fun _ y => y = x) (.of_ensures atBreakpoint_keeps) fun n =>
        .ite (fun goes => ih.mono ?_ fun _ _ h => h) fun _ => .pure ?_
      · rintro _ rfl
        refine ⟨stepped.1, fun active => ?_⟩
        obtain ⟨k, runs⟩ := stepped.2 active
        have unfinished := goes.resolve_right (by simp [active])
        exact ⟨k + 1, runs, .inr unfinished.2⟩
      · rintro _ rfl
        exact stepped

/-- After a step, the end of the program is noted. -/
theorem noteFinished_truthful :
    Leads r (Session.Stepped r) noteFinished fun _ => Session.Truthful r := by
  refine .get_bind fun x stepped => .ite (fun ended => .modify ?_) fun goes => .pure ?_
  · rintro _ rfl active
    obtain ⟨k, runs⟩ := stepped.2 active
    exact ⟨k, runs, ended⟩
  · rintro _ rfl active
    obtain ⟨k, runs⟩ := stepped.2 active
    unfold Session.Phase
    rw [stepped.1]
    exact ⟨k + 1, runs, .inr (by simpa using goes)⟩

theorem dbgRun_truthful (fuel : Nat) (single : Bool) :
    Leads r (Session.MayStep r) (dbgRun fuel single) fun _ => Session.Truthful r :=
  .ite (fun _ => .bind (dbgStep_steps true) fun _ => noteFinished_truthful)
    fun _ => .bind (dbgLoop_steps fuel) fun _ => noteFinished_truthful

end Stepping

section Loading

variable {r : DbgEnv} {J : DebuggerState → Prop}

/-- A part of the machine leaves the debugger alone. -/
theorem onVm_leads {α : Type} {m : VM α} {P : State → Prop} {Q : α → State → Prop}
    (h : Leads r.vm P m Q) :
    Leads r (fun x => P x.vm ∧ J x.dbg) (onVm m) fun a y => Q a y.vm ∧ J y.dbg := by
  rintro x ⟨start, kept⟩
  rw [onVm_run]
  cases run : m.run r.vm x.vm with
  | stopped e s es => exact Outcome.returns_stopped
  | done a s es => exact Outcome.returns_done.mpr ⟨h x.vm start a s es run, kept⟩

/-- `destroy_ijvm`, `destroy_debug_data` and what follows them. -/
theorem destroy_then {α : Type} {m : DBG α} {Q : α → Session → Prop}
    (rest : Leads r (fun x => x.vm.Released ∧ J x.dbg) m Q) :
    Leads r (fun x => J x.dbg) (do onVm destroyIjvm; clearDebugData; m) Q :=
  .bind ((onVm_leads (P := fun _ => True) (.of_ensures destroyIjvm_releases)).mono
    (fun _ kept => ⟨trivial, kept⟩) fun _ _ h => h) fun _ =>
    .bind (Q := fun _ x => x.vm.Released ∧ J x.dbg) (.modify fun _ h => h) fun _ => rest

/-- A file that cannot be opened is refused. -/
theorem file_of_init {env : Env} {file : Option (List Byte)} {s t : State} {es : List Event}
    (init : (initIjvm file).run env s = .done 0 t es) : ∃ bytes, file = some bytes := by
  cases file with
  | some bytes => exact ⟨bytes, rfl⟩
  | none =>
      rw [initIjvm, show loadBin none = pure false from rfl, run_bind, run_pure,
        Outcome.andThen_done, if_pos (by decide), run_bind] at init
      cases destroy : destroyIjvm.run env s with
      | stopped e u fs =>
          rw [destroy] at init
          contradiction
      | done a u fs =>
          rw [destroy, Outcome.andThen_done, run_pure] at init
          injection init with code
          exact absurd code (by decide)

/-- The session runs the program of the file at the path from its start. -/
def Session.Loads (r : DbgEnv) (path : Option String) (x : Session) : Prop :=
  ∃ p file, path = some p ∧ r.files p = some file ∧ SymbolsOf r file x.debugData ∧
    Continues r.vm file 0 x.vm

/-- A program is loaded together with its symbols. -/
theorem loadProgram_leads (path : Option String) :
    Leads r (fun x => x.vm.Released ∧ J x.dbg) (loadProgram path)
      fun loaded y => (loaded = true → y.Loads r path) ∧ J y.dbg := by
  rintro x ⟨released, kept⟩ loaded y es run
  obtain ⟨_, _, _, fs, asked, run, _⟩ := run_bind_done.mp run
  injection asked with surroundings same
  subst surroundings same
  obtain ⟨code, z, gs, hs, init, run, _⟩ := run_bind_done.mp run
  rw [onVm_run] at init
  cases execution : (initIjvm (path.bind r.files)).run r.vm x.vm with
  | stopped e s es =>
      rw [execution] at init
      contradiction
  | done code' s es =>
      rw [execution] at init
      injection init with same here
      subst same here
      split at run
      · rename_i zero
        subst zero
        obtain ⟨file, found⟩ := file_of_init execution
        obtain ⟨p, last, holds⟩ := Option.bind_eq_some_iff.mp found
        rw [found] at execution run
        have debugData : (onDebugData (loadDebugData (some file))).run r { x with vm := s } =
          ((loadDebugData (some file)).run r.memory { x with vm := s }.forLoading).embed
            (fun l => { x with vm := s, debugData := l.debugData, requests := l.clock })
            fun n => .console (.symbols n) := rfl
        rw [debugData] at run
        cases symbols : (loadDebugData (some file)).run r.memory { x with vm := s }.forLoading with
        | stopped e l es =>
            rw [symbols] at run
            contradiction
        | done good l es =>
            rw [symbols] at run
            injection run with same here
            subst same here
            refine ⟨?_, kept⟩
            rintro rfl
            exact ⟨p, file, last, holds, ⟨_, l, _, symbols, rfl⟩, .load released execution⟩
      · injection run with same here
        subst same here
        exact ⟨fun wrong => by contradiction, kept⟩

/-- The debugger is set up afresh. -/
theorem initDebugger_leads : Leads r (fun x => x.vm.Released ∧ True) initDebugger
    fun _ y => y.vm.Released ∧ ∃ n, y.dbg = { DebuggerState.init r with reallocs := n } := by
  rintro x ⟨released, _⟩ a y es run
  obtain ⟨granted, z, _, _, request, run, _⟩ := run_bind_done.mp run
  injection request with _ same
  subst same
  split at run
  · injection run with _ same
    subst same
    exact ⟨released, _, rfl⟩
  · contradiction

/-- No program is loaded, and the machine is empty. -/
theorem phase_empty {x : Session} (released : x.vm.Released) (none : x.dbg.lastProgPath = .none)
    (empty : x.dbg.progState = .empty) : x.Phase r := by
  unfold Session.Phase
  rw [empty]
  exact ⟨none, released⟩

theorem phase_loaded {x : Session} (loaded : x.dbg.progState = .loaded) :
    x.Phase r ↔ x.Runs r 0 := by
  unfold Session.Phase
  rw [loaded]

/-- Afterwards the program is loaded afresh, or there is none. -/
def Session.Afresh (r : DbgEnv) (x : Session) : Prop :=
  (x.dbg.progState = .loaded ∨ x.dbg.progState = .empty) ∧ x.Phase r

/-- After a failure, the debugger forgets its program. -/
theorem forget_afresh : Leads r (fun x => x.vm.Released ∧ True) initDebugger
    fun _ => Session.Afresh r := by
  refine initDebugger_leads.mono (fun _ h => h) ?_
  rintro _ y ⟨released, n, fresh⟩
  refine ⟨.inr ?_, phase_empty released ?_ ?_⟩
  · rw [fresh]
    rfl
  · rw [fresh]
    rfl
  · rw [fresh]
    rfl

theorem restartDebugger_afresh :
    Leads r (fun _ => True) restartDebugger fun _ => Session.Afresh r := by
  refine destroy_then (J := fun _ => True) (.get_bind fun x released => ?_)
  refine .bind (Q := fun loaded y => (loaded = true → y.Loads r x.dbg.lastProgPath) ∧
    y.dbg = x.dbg) ?_ fun loaded => .ite (fun success => ?_) fun _ => ?_
  · refine (loadProgram_leads (J := fun d => d = x.dbg) _).mono ?_ fun _ _ h => h
    rintro _ rfl
    exact ⟨released.1, rfl⟩
  · refine .bind (.of_ensures (print_keeps _)) fun _ => .modify fun y here => ⟨.inl rfl, ?_⟩
    obtain ⟨p, file, last, holds, symbols, continues⟩ := here.1 success
    refine (phase_loaded rfl).mpr ⟨p, file, .inl ?_, holds, symbols, continues⟩
    show y.dbg.lastProgPath = some p
    rw [here.2, last]
  · exact Leads.mono (P := fun _ => True) (destroy_then (J := fun _ => True)
      (.bind forget_afresh fun _ => .of_ensures (print_keeps _))) (fun _ _ => trivial)
      fun _ _ h => h

end Loading

section Requests

variable {r : DbgEnv} {x : Session}

theorem Session.Afresh.truthful (afresh : x.Afresh r) : x.Truthful r := fun _ => afresh.2

theorem execWhenStarted_truthful {run : DBG Unit}
    (runs : Leads r (Session.MayStep r) run fun _ => Session.Truthful r) :
    Leads r (Session.Truthful r) (execWhenStarted run) fun _ => Session.Truthful r := by
  refine .get_bind fun x truthful => ?_
  have still (c : Console) : Leads r (· = x) (print c) fun _ => Session.Truthful r := by
    refine (Leads.of_ensures (print_keeps c)).mono (fun _ h => h) ?_
    rintro _ _ rfl
    exact truthful
  cases state : x.dbg.progState with
  | started =>
      refine runs.mono ?_ fun _ _ h => h
      rintro _ rfl
      refine ⟨state, fun active => ?_⟩
      have phase := truthful active
      unfold Session.Phase at phase
      rwa [state] at phase
  | loaded => exact still .notRunning
  | finished => exact still .notRunning
  | empty => exact still .notLoaded

theorem lasting_loaded : Lasting fun x => x.dbg.quitFlag = false → x.Runs r 0 where
  counts _ _ runs := runs
  collects _ _ _ runs collected active := (runs active).collect collected

/-- What follows the restart in `start`. -/
theorem execStart_truthful :
    Leads r (Session.Truthful r) execStart fun _ => Session.Truthful r := by
  have printing {α : Type} {m : DBG α} (keeps : ∀ I, Keeps (fun _ => True) I (fun _ => True) m)
      {P : Session → Prop} : Leads r P m fun _ => P := .of_ensures (keeps P)
  have rest : Leads r (Session.Truthful r)
      (do
        let state := (← get).dbg.progState
        if state = .loaded then
          onVm setOutput
          print (.starting (← get).dbg.lastProgPath)
          tellBreakpoint false
          modifyDbg fun d => { d with progState := .started }
        else if state = .empty then
          print .notLoaded : DBG Unit)
      fun _ => Session.Truthful r := by
    refine .get_bind fun z truthful => .ite (fun loaded => ?_) fun _ => .ite (fun _ => ?_)
      fun _ => ?_
    · refine .bind (Q := fun _ x => x.dbg.quitFlag = false → x.Runs r 0) ?_ fun _ =>
        .bind (printing fun _ => .get) fun _ => .bind (printing fun _ => print_keeps _) fun _ =>
        .bind (lasting_loaded.leads fun kept => tellBreakpoint_looks kept false) fun _ =>
        .modify fun x runs active => ⟨0, (runs active).congr rfl rfl rfl, .inl rfl⟩
      rintro _ rfl
      refine Outcome.returns_done.mpr fun active => ?_
      obtain ⟨path, file, last, holds, symbols, continues⟩ :=
        (phase_loaded loaded).mp (truthful active)
      exact ⟨path, file, last, holds, symbols, .output continues⟩
    · exact (printing fun _ => print_keeps _).mono (fun _ here => here ▸ truthful) fun _ _ h => h
    · exact .pure fun _ here => here ▸ truthful
  refine .get_bind fun z truthful => .ite (fun _ => ?_) fun _ => ?_
  · exact .bind (restartDebugger_afresh.mono (fun _ _ => trivial) fun _ _ h => h.truthful)
      fun _ => rest
  · exact rest.mono (fun _ here => here ▸ truthful) fun _ _ h => h

theorem execRun_truthful (fuel : Nat) :
    Leads r (Session.Truthful r) (execRun fuel) fun _ => Session.Truthful r := by
  refine .bind execStart_truthful fun _ => .get_bind fun x truthful => .ite (fun started => ?_)
    fun _ => .pure fun _ here => here ▸ truthful
  refine (dbgRun_truthful fuel false).mono ?_ fun _ _ h => h
  rintro _ rfl
  refine ⟨started, fun active => ?_⟩
  have phase := truthful active
  unfold Session.Phase at phase
  rwa [started] at phase

/-- The program at the path is loaded, and its path is being remembered. -/
def Session.Saving (r : DbgEnv) (path : String) (x : Session) : Prop :=
  x.dbg.progState = .loaded ∧ x.Loads r (some path)

theorem lasting_saving (path : String) : Lasting (Session.Saving r path) where
  counts _ _ saving := saving
  collects _ _ _ saving collected := by
    obtain ⟨loaded, p, file, last, holds, symbols, continues⟩ := saving
    exact ⟨loaded, p, file, last, holds, symbols, .collection continues collected⟩

theorem copyPath_leads {P : Session → Prop} (lasting : Lasting P) (path : String) :
    Leads r P (copyPath path) fun copy y => (copy = some path ∨ copy = none) ∧ P y := by
  refine .bind (lasting.leads fun kept => lookUp_looks fun c => onMachine_keeps (kept c _))
    fun copy => ?_
  cases copy with
  | some _ => exact .pure fun _ h => ⟨.inl rfl, h⟩
  | none => exact .pure fun _ h => ⟨.inr rfl, h⟩

theorem saveLastProg_truthful (path : String) :
    Leads r (Session.Saving r path) (saveLastProg path) fun _ => Session.Truthful r := by
  refine .bind (copyPath_leads (lasting_saving path) path) fun copy => ?_
  cases copy with
  | none => exact .stop _
  | some again =>
      rintro x ⟨same, saving⟩
      obtain rfl : again = path := by simpa using same
      refine Leads.bind (copyPath_leads (lasting_saving again) again)
        (fun copy => .modify ?_) x saving
      rintro y ⟨copied, loaded, p, file, last, holds, symbols, continues⟩ _
      obtain rfl := Option.some.inj last
      refine (phase_loaded ?_).mpr ⟨again, file, copied, holds, symbols, continues⟩
      exact loaded

theorem execFile_truthful (path : String) :
    Leads r (Session.Truthful r) (execFile path) fun _ => Session.Truthful r := by
  refine Leads.mono (P := fun _ => True) (destroy_then (J := fun _ => True) ?_)
    (fun _ _ => trivial) fun _ _ h => h
  refine .bind (Q := fun _ x => x.vm.Released ∧ True)
    (initDebugger_leads.mono (fun _ h => h) fun _ _ h => ⟨h.1, trivial⟩) fun _ =>
    .bind (loadProgram_leads (J := fun _ => True) (some path)) fun loaded =>
    .ite (fun success => ?_) fun _ => ?_
  · exact .bind (Q := fun _ => Session.Saving r path)
      (.modify fun y here => ⟨rfl, here.1 success⟩) fun _ => saveLastProg_truthful path
  · exact Leads.mono (P := fun _ => True) (destroy_then (J := fun _ => True) forget_afresh)
      (fun _ _ => trivial) fun _ _ h => h.truthful

/-- Another input for the machine. -/
theorem Session.Runs.input {k : Nat} (runs : x.Runs r k) (bytes : List Byte) :
    { x with vm := { x.vm with inFile := bytes } }.Runs r k := by
  obtain ⟨path, file, last, holds, symbols, continues⟩ := runs
  exact ⟨path, file, last, holds, symbols, .input bytes continues⟩

theorem execInput_truthful (path : String) :
    Leads r (Session.Truthful r) (execInput path) fun _ => Session.Truthful r := by
  refine .get_bind fun x truthful => .ite (fun running => .ask_bind ?_)
    fun _ => .pure fun _ here => here ▸ truthful
  cases r.files path with
  | none => exact .pure fun _ here => here ▸ truthful
  | some bytes =>
      rintro _ rfl
      refine Outcome.returns_done.mpr fun active => ?_
      have phase := truthful active
      unfold Session.Phase at phase ⊢
      rcases running with loaded | started
      · rw [loaded] at phase ⊢
        exact phase.input bytes
      · rw [started] at phase ⊢
        obtain ⟨k, runs, goes⟩ := phase
        exact ⟨k, runs.input bytes, goes⟩

theorem execBreak_truthful (offset : List Byte) (granted : Bool) :
    Leads r (Session.Truthful r) (execBreak offset granted) fun _ => Session.Truthful r := by
  refine .bind (.of_ensures Keeps.get) fun _ => .ite (fun _ => .of_ensures (print_keeps _)) fun _ =>
    .ite (fun _ => .modify ?_) fun _ => .bind (lasting_truthful.leads fun kept =>
      lookUp_looks fun c => onMachine_keeps (labelNameToAddr_keeps (kept c) _ _))
      fun _ => .modify ?_
  · intro x truthful active
    contradiction
  · exact fun x truthful active => (truthful active).congr rfl rfl rfl rfl

theorem execInfo_truthful (about : List Byte) :
    Leads r (Session.Truthful r) (execInfo about) fun _ => Session.Truthful r := by
  have prints (c : Console) : Leads r (Session.Truthful r) (print c) fun _ => Session.Truthful r :=
    .of_ensures (print_keeps c)
  have shows {α : Type} {m : LOOKUP α}
      (keeps : ∀ {I : State → Prop}, KeptByCopies I → Keeps (fun _ => True) I (fun _ => True) m) :
      Leads r (Session.Truthful r) (lookUp m) fun _ => Session.Truthful r :=
    lasting_truthful.leads fun kept => lookUp_looks fun c => keeps (kept c)
  refine .bind (.of_ensures Keeps.get) fun _ => .ite (fun _ => prints _) fun _ =>
    .ite (fun _ => .ite (fun _ => prints _) fun _ => ?_) fun _ =>
    .ite (fun _ => ?_) fun _ => prints _
  · exact .bind (shows fun _ => printFrameStack_keeps) fun _ =>
      .bind (shows fun _ => printFrameLocalVars_keeps) fun _ => prints _
  · exact .bind (shows fun kept => printAllBreakpoints_keeps kept _ _ _) fun _ => prints _

theorem execQuit_truthful : Leads r (Session.Truthful r) execQuit fun _ => Session.Truthful r := by
  refine Leads.mono (P := fun _ => True) (destroy_then (J := fun _ => True) (.modify ?_))
    (fun _ _ => trivial) fun _ _ h => h
  intro x _ active
  contradiction

theorem execBacktrace_truthful :
    Leads r (Session.Truthful r) execBacktrace fun _ => Session.Truthful r :=
  .bind (.of_ensures Keeps.get) fun _ =>
    .ite (fun _ => lasting_truthful.leads fun kept => printFuncCalls_looks kept 0)
    fun _ => .of_ensures (print_keeps _)

theorem copyLine_truthful (line : List Byte) :
    Leads r (Session.Truthful r) (copyLine line) fun _ => Session.Truthful r := by
  refine .bind (lasting_truthful.leads fun kept => lookUp_looks fun c => onMachine_keeps (kept c _))
    fun copy => ?_
  cases copy with
  | some _ => exact .pure fun _ h => h
  | none => exact .stop _

/-- Every command keeps the debugger right about the machine. -/
theorem exec_truthful (fuel : Nat) (c : Request) :
    Leads r (Session.Truthful r) (c.exec fuel) fun _ => Session.Truthful r := by
  cases c with
  | step => exact execWhenStarted_truthful (dbgRun_truthful fuel true)
  | «continue» => exact execWhenStarted_truthful (dbgRun_truthful fuel false)
  | backtrace => exact execBacktrace_truthful
  | run => exact execRun_truthful fuel
  | start => exact execStart_truthful
  | quit => exact execQuit_truthful
  | other => exact .pure fun _ h => h
  | info about => exact execInfo_truthful about
  | «break» offset granted => exact execBreak_truthful offset granted
  | input path => exact execInput_truthful path
  | file path => exact execFile_truthful path

/-- The commands keep the debugger truthful. The induction is on the commands. -/
theorem Driven.truthful {restarts : List (Session × Session)} (driven : Driven r x restarts) :
    x.Truthful r := by
  induction driven with
  | main => exact fun _ => phase_empty ⟨rfl, rfl⟩ rfl rfl
  | command before _ run ih => exact exec_truthful _ _ _ ih _ _ _ run
  | repeated before _ run ih => exact copyLine_truthful _ _ ih _ _ _ run

/-- Whenever the debugger reads the next command, what it remembers about its program is true
of the machine. -/
theorem driven_phase {restarts : List (Session × Session)} (driven : Driven r x restarts)
    (active : x.dbg.quitFlag = false) : x.Phase r :=
  driven.truthful active

/-- After `file`, `start` and `step`, the program has made steps and is not at its end. -/
theorem driven_phase_callSeven : ∃ x restarts k, Driven (DbgEnv.holding callSeven) x restarts ∧
    x.dbg.progState = .started ∧ x.Runs (DbgEnv.holding callSeven) k ∧
    (k = 0 ∨ finished x.vm.gCpu = false) := by
  have check : (drive (DbgEnv.holding callSeven) 10 [.step, .start, .file "seven"]).any
      (fun p => decide (p.1.dbg.quitFlag = false ∧ p.1.dbg.progState = .started)) = true := by
    decide +kernel
  obtain ⟨p, run, facts⟩ := (Option.any_eq_true _ _).mp check
  obtain ⟨active, started⟩ := of_decide_eq_true facts
  have driven := driven_of_drive run
  have phase := driven_phase driven active
  unfold Session.Phase at phase
  rw [started] at phase
  obtain ⟨k, runs, goes⟩ := phase
  exact ⟨p.1, p.2, k, driven, started, runs, goes⟩

end Requests

end Ijvm
