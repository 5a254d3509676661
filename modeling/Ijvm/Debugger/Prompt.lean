import Ijvm.Debugger.Decoder
import Ijvm.Debugger.Labels
import Ijvm.Debugger.Phases

/-!
# The prompt of the debugger

The loop of `main` reads lines until the quit flag is set. An empty line stands for a copy of the
last line that was not empty, if there is one. At the end of the input `readline` returns the
null pointer, whose length is asked for next. The sessions are those of a heap in which no block
is released twice.
-/

namespace Ijvm

open Transcript Program

def pathOf (path : List Byte) : String := String.ofList (path.map fun b => Char.ofNat b.toNat)

/-- The call that a command leads to. -/
def Entered.request (granted : Bool) : Entered → Request
  | .bare .step => .step
  | .bare .continue => .continue
  | .bare .backtrace => .backtrace
  | .bare .run => .run
  | .bare .start => .start
  | .bare .help => .other
  | .bare .quit => .quit
  | .unary .info about => .info about
  | .unary .break offset => .break offset granted
  | .unary .input path => .input (pathOf path)
  | .unary .file path => .file (pathOf path)

/-- A line that is typed, and whether the list of breakpoints can grow then. -/
structure Typed where
  line : List Byte
  granted : Bool

/-- Decode a line and call its command. -/
def execLine (fuel : Nat) (typed : Typed) : DBG Unit := do
  match cmdDecoder typed.line with
  | .command c => (c.request typed.granted).exec fuel
  | .undefined _ => Request.exec fuel .other
  | .nullCommand => Program.stop .undefined

/-- The loop of `main`; `history` holds the lines so far. -/
def promptLoop (fuel : Nat) : List Typed → List (List Byte) → DBG Unit
  | [], _ => do
      if (← get).dbg.quitFlag = true then
        return ()
      else
        Program.stop .undefined
  | typed :: inputs, history => do
      if (← get).dbg.quitFlag = true then
        return ()
      else if typed.line = [] then
        match history.getLast? with
        | none => promptLoop fuel inputs history
        | some last =>
            let line ← copyLine last
            execLine fuel { typed with line }
            promptLoop fuel inputs history
      else
        execLine fuel typed
        promptLoop fuel inputs (history ++ [typed.line])

/-- A line that is executed, and whether it is a copy of an earlier one. -/
structure Executed extends Typed where
  again : Bool

def Executed.exec (fuel : Nat) (executed : Executed) : DBG Unit := do
  if executed.again then
    let line ← copyLine executed.line
    execLine fuel { executed.toTyped with line }
  else
    execLine fuel executed.toTyped

/-- The lines that are executed: an empty one is the last that was not empty, or nothing. -/
def repeated : Option (List Byte) → List Typed → List Executed
  | _, [] => []
  | last, typed :: inputs =>
      if typed.line = [] then
        match last with
        | none => repeated none inputs
        | some line => { typed with line, again := true } :: repeated last inputs
      else { typed with again := false } :: repeated (some typed.line) inputs

/-- The session in which the prompt appears after these lines have been executed. -/
inductive Prompted (r : DbgEnv) (fuel : Nat) : List Executed → Session → Prop where
  | main : Prompted r fuel [] (Session.fresh r)
  | line {x y : Session} {lines : List Executed} {executed : Executed} {es : List DbgEvent}
      (before : Prompted r fuel lines x) (active : x.dbg.quitFlag = false)
      (run : (executed.exec fuel).run r x = .done () y es) :
      Prompted r fuel (lines ++ [executed]) y

section Prompts

variable {r : DbgEnv} {fuel : Nat} {x y : Session} {lines : List Executed} {inputs : List Typed}
  {history : List (List Byte)}

/-- A line is one request of the user. -/
theorem execLine_request {typed : Typed} {es : List DbgEvent}
    (run : (execLine fuel typed).run r x = .done () y es) :
    ∃ c : Request, ∃ fs, (c.exec fuel).run r x = .done () y fs := by
  rw [execLine] at run
  cases decoded : cmdDecoder typed.line with
  | command c =>
      rw [decoded] at run
      exact ⟨_, es, run⟩
  | undefined cmd =>
      rw [decoded] at run
      exact ⟨.other, es, run⟩
  | nullCommand =>
      rw [decoded] at run
      contradiction

theorem copyLine_keepsDebugger {J : DebuggerState → Prop} (line : List Byte) :
    KeepsDebugger J (copyLine line) := by
  refine .bind (lookUp_keepsDebugger _) fun copy => ?_
  cases copy with
  | some _ => exact .pure _
  | none => exact .stop _

/-- The copy of a line leaves the quit flag alone. -/
theorem copyLine_active {line copy : List Byte} {es : List DbgEvent}
    (run : (copyLine line).run r x = .done copy y es) (active : x.dbg.quitFlag = false) :
    y.dbg.quitFlag = false :=
  (copyLine_keepsDebugger (J := fun d => d.quitFlag = false) line r x active
    fun _ _ => trivial).1 copy y es run

/-- Every session at the prompt is one that commands drive. -/
theorem Prompted.driven (prompted : Prompted r fuel lines x) :
    ∃ restarts, Driven r x restarts := by
  induction prompted with
  | main => exact ⟨[], .main⟩
  | line _ active run ih =>
      obtain ⟨restarts, driven⟩ := ih
      rw [Executed.exec] at run
      split at run
      · obtain ⟨copy, z, _, _, copied, run, _⟩ := run_bind_done.mp run
        obtain ⟨c, fs, run⟩ := execLine_request run
        exact ⟨_, (driven.repeated active copied).command (copyLine_active copied active) run⟩
      · obtain ⟨c, fs, run⟩ := execLine_request run
        exact ⟨_, driven.command active run⟩

/-- At the prompt, the state of the program is the one of the machine. -/
theorem Prompted.phase (prompted : Prompted r fuel lines x)
    (active : x.dbg.quitFlag = false) : x.Phase r := by
  obtain ⟨restarts, driven⟩ := prompted.driven
  exact driven.truthful active

/-- The executed lines that follow on a session. -/
inductive Goes (r : DbgEnv) (fuel : Nat) : Session → List Executed → Session → Prop where
  | done {x : Session} : Goes r fuel x [] x
  | line {x y z : Session} {executed : Executed} {lines : List Executed} {es : List DbgEvent}
      (active : x.dbg.quitFlag = false) (run : (executed.exec fuel).run r x = .done () y es)
      (rest : Goes r fuel y lines z) : Goes r fuel x (executed :: lines) z

theorem Prompted.append {earlier : List Executed} (prompted : Prompted r fuel earlier x)
    (goes : Goes r fuel x lines y) : Prompted r fuel (earlier ++ lines) y := by
  induction goes generalizing earlier with
  | done => rwa [List.append_nil]
  | line active run _ ih =>
      rw [List.append_cons]
      exact ih (prompted.line active run)

theorem Goes.append {z : Session} {executed : Executed} {es : List DbgEvent}
    (goes : Goes r fuel x lines y) (active : y.dbg.quitFlag = false)
    (run : (executed.exec fuel).run r y = .done () z es) :
    Goes r fuel x (lines ++ [executed]) z := by
  induction goes with
  | done => exact .line active run .done
  | line active' run' _ ih => exact .line active' run' (ih active run)

theorem Prompted.goes (prompted : Prompted r fuel lines x) :
    Goes r fuel (Session.fresh r) lines x := by
  induction prompted with
  | main => exact .done
  | line _ active run ih => exact ih.append active run

/-- The debugger quits in a session that some of the next lines lead to. -/
def Quits (r : DbgEnv) (fuel : Nat) (x : Session) (upcoming : List Executed) (y : Session) : Prop :=
  ∃ lines, lines <+: upcoming ∧ Goes r fuel x lines y ∧ y.dbg.quitFlag = true

theorem quits_of_set (set : x.dbg.quitFlag = true) {upcoming : List Executed} :
    Quits r fuel x upcoming y ↔ y = x := by
  constructor
  · rintro ⟨lines, _, goes, _⟩
    cases goes with
    | done => rfl
    | line active =>
        rw [set] at active
        contradiction
  · rintro rfl
    exact ⟨[], List.nil_prefix, .done, set⟩

theorem quits_nil (active : x.dbg.quitFlag = false) : ¬ Quits r fuel x [] y := by
  rintro ⟨lines, upto, goes, set⟩
  obtain rfl := List.prefix_nil.mp upto
  cases goes
  rw [active] at set
  contradiction

theorem quits_cons (active : x.dbg.quitFlag = false) {executed : Executed}
    {upcoming : List Executed} :
    Quits r fuel x (executed :: upcoming) y ↔
      ∃ z es, (executed.exec fuel).run r x = .done () z es ∧ Quits r fuel z upcoming y := by
  constructor
  · rintro ⟨lines, upto, goes, set⟩
    cases goes with
    | done =>
        rw [active] at set
        contradiction
    | line _ run rest =>
        obtain ⟨rfl, later⟩ := List.cons_prefix_cons.mp upto
        exact ⟨_, _, run, _, later, rest, set⟩
  · rintro ⟨z, es, run, lines, upto, rest, set⟩
    exact ⟨executed :: lines, List.cons_prefix_cons.mpr ⟨rfl, upto⟩, .line active run rest, set⟩

/-- A line, and then the loop. -/
theorem exec_then (executed : Executed) {rest : DBG Unit} :
    (∃ es, (do executed.exec fuel; rest).run r x = .done () y es) ↔
      ∃ z es, (executed.exec fuel).run r x = .done () z es ∧
        ∃ fs, rest.run r z = .done () y fs := by
  constructor
  · rintro ⟨es, run⟩
    obtain ⟨_, z, fs, gs, first, rest, _⟩ := run_bind_done.mp run
    exact ⟨z, fs, first, gs, rest⟩
  · rintro ⟨z, es, first, fs, rest⟩
    exact ⟨es ++ fs, run_bind_done.mpr ⟨(), z, es, fs, first, rest, rfl⟩⟩

theorem repeated_of_ne {last : Option (List Byte)} {typed : Typed} (new : typed.line ≠ []) :
    repeated last (typed :: inputs) =
      { typed with again := false } :: repeated (some typed.line) inputs := by
  cases last <;> simp [repeated, new]

/-- A line that is repeated is copied and executed. -/
theorem exec_again {typed : Typed} {line : List Byte} {rest : DBG Unit} :
    (do let line ← copyLine line; execLine fuel { typed with line }; rest : DBG Unit) =
      (do Executed.exec fuel { typed with line, again := true }; rest) := by
  rw [Executed.exec, if_pos rfl, bind_assoc]

/-- The loop from any session on. The induction is on the lines that are typed. -/
theorem promptLoop_quits : (∃ es, (promptLoop fuel inputs history).run r x = .done () y es) ↔
    Quits r fuel x (repeated history.getLast? inputs) y := by
  induction inputs generalizing x history with
  | nil =>
      rw [promptLoop, run_bind, run_get, Outcome.andThen_done, Outcome.prepend_nil]
      by_cases set : x.dbg.quitFlag = true
      · rw [if_pos set, quits_of_set set, run_pure]
        simp [eq_comm]
      · rw [if_neg set, run_stop]
        simp [repeated, quits_nil (Bool.eq_false_iff.mpr set)]
  | cons typed inputs ih =>
      rw [promptLoop, run_bind, run_get, Outcome.andThen_done, Outcome.prepend_nil]
      by_cases set : x.dbg.quitFlag = true
      · rw [if_pos set, quits_of_set set, run_pure]
        simp [eq_comm]
      have active := Bool.eq_false_iff.mpr set
      rw [if_neg set]
      by_cases again : typed.line = []
      · rw [if_pos again]
        cases last : history.getLast? with
        | none =>
            have next := @ih x history
            rw [last] at next
            rw [repeated, if_pos again]
            exact next
        | some line =>
            rw [repeated, if_pos again, quits_cons active]
            dsimp only
            rw [exec_again]
            refine (exec_then _).trans (exists₂_congr fun z es => and_congr_right fun _ => ?_)
            have next := @ih z history
            rwa [last] at next
      · rw [if_neg again, repeated_of_ne again, quits_cons active]
        refine (exec_then { typed with again := false }).trans ?_
        refine exists₂_congr fun z es => and_congr_right fun _ => ?_
        rw [ih, List.getLast?_concat]

end Prompts

end Ijvm
