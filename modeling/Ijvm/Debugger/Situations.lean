import Ijvm.Debugger.Vitals

/-!
# Loading a program in the debugger

A `Situation` is what one has to know of the commands so far to tell whether the next one is
safe: whether a program is loaded, and whether the collector has run. The verdict on a
session follows it from command to command, and while a program runs also whether the call
history has been freed. What a load does to the blocks depends on where it ends, and on
whether there was a program before.
-/

namespace Ijvm.Blocks

open Transcript Program Ownership

section Specification

/-- Whether the collector has run: never, since the last load, or only before it. -/
inductive Collected where
  | never | since | before
  deriving DecidableEq, Repr

/-- How far a loaded program has come. -/
inductive Stage where
  | loaded | started | finished
  deriving DecidableEq, Repr

/-- Between two commands no program has been loaded yet, one is loaded, or the last load has
failed at the symbols. -/
inductive Situation where
  | blank
  | loaded (stage : Stage) (collected : Collected)
  | lost
  deriving DecidableEq, Repr

/-- Where a load ends: before `const_mem` has a block, at the end of `load_bin`, in
`init_stack` for two reasons, in `load_debug_data` for two reasons, of which the first is that
`realloc` has freed an array of symbols, or with success. -/
inductive Extent where
  | header | words | scan | stack | emptied | symbols | complete
  deriving DecidableEq, Repr

def Symbols.emptied (o : Symbols) : Bool := o.opens && (o.func.emptied || o.sec.emptied)

def Symbols.loads (o : Symbols) : Bool := o.opens && (o.skips && o.func.reads && o.sec.reads)

def Load.extent (o : Load) : Extent :=
  if !(o.header && o.constAlloc) then .header
  else if !(o.constRead && o.codeHeader && o.codeAlloc && o.codeRead) then .words
  else if !o.scan then .scan
  else if !o.stackAlloc then .stack
  else if o.symbols.emptied then .emptied
  else if !o.symbols.loads then .symbols
  else .complete

/-- A load after which nothing has been loaded before: once `const_mem` has a block,
`init_ijvm` and its caller both free it. -/
def Extent.first : Extent → Verdict Situation
  | header => .goes .blank
  | words | emptied => .broken
  | scan | stack => .finished
  | symbols => .goes .lost
  | complete => .goes (.loaded .loaded .never)

/-- A load over a program. Its blocks are freed, and most failures free them again. -/
def Extent.again : Extent → Collected → Verdict Situation
  | _, .before => .broken
  | header, _ | words, _ | scan, _ | emptied, _ => .broken
  | stack, .never => .finished
  | stack, .since => .broken
  | symbols, .never => .goes .lost
  | symbols, .since => .broken
  | complete, .never => .goes (.loaded .loaded .never)
  | complete, .since => .goes (.loaded .loaded .before)

/-- The collector and an error stop free the table of marks. -/
def Action.verdict : Action → Collected → Verdict Collected
  | collect _, .before => .broken
  | collect true, .never | collect true, .since => .goes .since
  | collect false, .never | collect false, .since => .finished
  | error, .before => .broken
  | error, .never | error, .since => .finished
  | growStack _, c | growArrays _, c | growConnections _, c => .goes c

def actionsVerdict : List Action → Collected → Verdict Collected
  | [], c => .goes c
  | action :: actions, c => (action.verdict c).bind (actionsVerdict actions)

/-- The collections of `str_dup`. -/
def collectionsVerdict (collections : List Bool) : Collected → Verdict Collected :=
  actionsVerdict (collections.map .collect)

/-- What one has to know while a program runs: whether the collector has run, whether the call
history has been freed, and whether the session is about to end. -/
structure Progress where
  collected : Collected
  historyGone : Bool
  quit : Bool
  quits : historyGone = true → quit = true

def Collected.start (c : Collected) : Progress where
  collected := c
  historyGone := false
  quit := false
  quits := id

def Progress.after (p : Progress) (v : Verdict Collected) : Verdict Progress :=
  v.bind fun c => .goes { p with collected := c }

/-- The call history after `realloc`; without a block the session ends. -/
def Progress.resized (p : Progress) : Reallocation → Progress
  | .granted => p
  | .refused => { p with quit := true, quits := fun _ => rfl }
  | .emptied => { p with historyGone := true, quit := true, quits := id }

def HistoryUse.verdict : HistoryUse → Progress → Verdict Progress
  | untouched, p => .goes p
  | used, p => if p.historyGone then .broken else .goes p
  | grown answer, p => if p.historyGone then .broken else .goes (p.resized answer)

def reportVerdict : Report → Progress → Verdict Progress
  | none, p => .goes p
  | some collections, p =>
      if p.historyGone then .broken
      else p.after (collectionsVerdict collections p.collected)

def Turn.verdict (turn : Turn) (p : Progress) : Verdict Progress :=
  (turn.history.verdict p).bind fun p =>
    (p.after (actionsVerdict turn.actions p.collected)).bind (reportVerdict turn.report)

def turnsVerdict : List Turn → Progress → Verdict Progress
  | [], p => .goes p
  | turn :: turns, p => (turn.verdict p).bind (turnsVerdict turns)

namespace Situation

/-- Copies of strings between two commands. -/
def collect (collections : List Bool) : Situation → Verdict Situation
  | loaded stage c => (collectionsVerdict collections c).bind fun c => .goes (loaded stage c)
  | s => .goes s

/-- The verdict on `save_last_prog`, which is called if a program has been loaded. -/
def save (first second : Copy) : Situation → Verdict Situation
  | loaded stage c => (collectionsVerdict first.collections c).bind fun c =>
      if first.copied then (loaded stage c).collect second.collections else .finished
  | s => .goes s

def file (o : Load) (first second : Copy) : Situation → Verdict Situation
  | blank => o.extent.first.bind (save first second)
  | loaded _ c => (o.extent.again c).bind (save first second)
  | lost => .broken

def enter (report : Report) : Situation → Verdict Situation
  | loaded .loaded c => (loaded .started c).collect (report.getD [])
  | s => .goes s

def start (o : Load) (report : Report) : Situation → Verdict Situation
  | loaded .started c | loaded .finished c => (o.extent.again c).bind (enter report)
  | s => s.enter report

/-- The verdict on `dbg_run`; there is no situation after the last command. -/
def run (turns : List Turn) (ended : Bool) : Situation → Verdict (Option Situation)
  | loaded .started c => (turnsVerdict turns c.start).bind fun p =>
      .goes (if p.quit then none
        else some (loaded (if ended then .finished else .started) p.collected))
  | s => .goes (some s)

/-- The verdict on `exec_break`. -/
def «break» (answer : Reallocation) (labels : Copy) : Situation → Verdict (Option Situation)
  | loaded stage c =>
      if answer = .granted then
        (collectionsVerdict labels.collections c).bind fun c =>
          if labels.copied then .goes (some (loaded stage c)) else .finished
      else .goes none
  | s => .goes (some s)

def backtrace (report : Report) : Situation → Verdict Situation
  | loaded .loaded c => .goes (loaded .loaded c)
  | s => s.collect (report.getD [])

def quit : Situation → Verdict (Option Situation)
  | loaded _ .before | lost => .broken
  | blank | loaded _ .never | loaded _ .since => .goes none

end Situation

def Command.verdict : Command → Situation → Verdict (Option Situation)
  | file o first second, s => (s.file o first second).bind fun s => .goes (some s)
  | start o report, s => (s.start o report).bind fun s => .goes (some s)
  | run o report turns ended, s => (s.start o report).bind (Situation.run turns ended)
  | step turn ended, s => s.run [turn] ended
  | .continue turns ended, s => s.run turns ended
  | .break answer labels, s => s.break answer labels
  | backtrace report, s => (s.backtrace report).bind fun s => .goes (some s)
  | info collections, s => (s.collect collections).bind fun s => .goes (some s)
  | quit, s => s.quit

def session : List Command → Option Situation → Verdict Unit
  | [], _ | _ :: _, none => .goes ()
  | command :: commands, some s => (command.verdict s).bind (session commands)

end Specification

section Loading

variable {v : Vitals} {o : Load}

def Load.binary (o : Load) : Bool :=
  o.header && (o.constAlloc && o.constRead) && (o.codeHeader && o.codeAlloc && o.codeRead)

def Load.installed (o : Load) (v : Vitals) : Vitals :=
  { v with
    constMem := if o.header then .allocated o.constAlloc else v.constMem
    codeMem := if o.header && (o.constAlloc && o.constRead) && o.codeHeader then
      .allocated o.codeAlloc else v.codeMem }

theorem loadConsts_at (o : Load) :
    Ends Access.Sound (At v) (loadConsts o)
      (.goes fun b x => b = (o.constAlloc && o.constRead) ∧
        At { v with constMem := .allocated o.constAlloc } x) := by
  apply (malloc_at .constMem o.constAlloc).bind
  intro _
  cases granted : o.constAlloc with
  | false => exact .pure fun _ h => ⟨rfl, h⟩
  | true =>
      apply (use_at (o := .constMem) (by simp [Vitals.ptr, Vitals.set, Ptr.allocated])).bind
      intro _
      exact .pure fun _ h => ⟨rfl, h⟩

theorem loadCode_at (o : Load) :
    Ends Access.Sound (At v) (loadCode o)
      (.goes fun b x => b = (o.codeHeader && o.codeAlloc && o.codeRead) ∧
        At { v with codeMem := if o.codeHeader then .allocated o.codeAlloc else v.codeMem } x) := by
  cases header : o.codeHeader with
  | false =>
      rw [loadCode, header]
      exact .pure fun _ h => ⟨rfl, h⟩
  | true =>
      rw [loadCode, header]
      apply (malloc_at .codeMem o.codeAlloc).bind
      intro _
      cases granted : o.codeAlloc with
      | false => exact .pure fun _ h => ⟨rfl, h⟩
      | true =>
          apply (use_at (o := .codeMem) (by simp [Vitals.ptr, Vitals.set, Ptr.allocated])).bind
          intro _
          exact .pure fun _ h => ⟨rfl, h⟩

theorem loadBin_at (o : Load) :
    Ends Access.Sound (At v) (loadBin o)
      (.goes fun b x => b = o.binary ∧ At (o.installed v) x) := by
  cases header : o.header with
  | false =>
      rw [loadBin, header]
      exact .pure fun _ h => by simpa [Load.binary, Load.installed, header] using h
  | true =>
      rw [loadBin, header]
      apply (loadConsts_at o).bind_eq
      cases consts : o.constAlloc && o.constRead with
      | false =>
          exact .pure fun _ h => by simpa [Load.binary, Load.installed, header, consts] using h
      | true =>
          apply (loadCode_at o).mono
          rintro b x ⟨rfl, h⟩
          simpa [Load.binary, Load.installed, header, consts] using h

/-- What is known of a load that ends there. -/
inductive Load.Reaches (o : Load) : Extent → Prop where
  | header (missing : (o.header && o.constAlloc) = false) : Reaches o .header
  | words (header : o.header = true) (constAlloc : o.constAlloc = true)
      (missing : o.binary = false) : Reaches o .words
  | scan (binary : o.binary = true) (refused : o.scan = false) : Reaches o .scan
  | stack (binary : o.binary = true) (scan : o.scan = true) (refused : o.stackAlloc = false) :
      Reaches o .stack
  | emptied (binary : o.binary = true) (scan : o.scan = true) (stackAlloc : o.stackAlloc = true)
      (emptied : o.symbols.emptied = true) : Reaches o .emptied
  | symbols (binary : o.binary = true) (scan : o.scan = true) (stackAlloc : o.stackAlloc = true)
      (kept : o.symbols.emptied = false) (missing : o.symbols.loads = false) : Reaches o .symbols
  | complete (binary : o.binary = true) (scan : o.scan = true) (stackAlloc : o.stackAlloc = true)
      (kept : o.symbols.emptied = false) (symbols : o.symbols.loads = true) : Reaches o .complete

theorem Load.reaches_extent (o : Load) : o.Reaches o.extent := by
  rw [Load.extent]
  split_ifs with header words scan stack emptied symbols
  · exact .header (by grind)
  · exact .words (by grind) (by grind) (by grind [Load.binary])
  · exact .scan (by grind [Load.binary]) (by simpa using scan)
  · exact .stack (by grind [Load.binary]) (by simpa using scan) (by simpa using stack)
  · exact .emptied (by grind [Load.binary]) (by simpa using scan) (by simpa using stack) emptied
  · exact .symbols (by grind [Load.binary]) (by simpa using scan) (by simpa using stack)
      (by simpa using emptied) (by simpa using symbols)
  · exact .complete (by grind [Load.binary]) (by simpa using scan) (by simpa using stack)
      (by simpa using emptied) (by simpa using symbols)

theorem Load.binary_of_header (missing : (o.header && o.constAlloc) = false) :
    o.binary = false := by
  grind [Load.binary]

theorem Load.installed_binary (binary : o.binary = true) :
    o.installed v = { v with constMem := .live, codeMem := .live } := by
  simp only [Load.binary, Bool.and_eq_true] at binary
  obtain ⟨⟨header, consts⟩, ⟨codeHeader, codeAlloc⟩, _⟩ := binary
  simp [Load.installed, header, consts, codeHeader, codeAlloc, Ptr.allocated]

theorem Load.installed_constMem (header : o.header = true) (constAlloc : o.constAlloc = true) :
    (o.installed v).constMem = .live := by
  simp [Load.installed, header, constAlloc, Ptr.allocated]

theorem Load.installed_codeMem (sound : v.codeMem ≠ .released) :
    (o.installed v).codeMem ≠ .released := by
  rw [Load.installed, Ptr.allocated]
  split_ifs <;> first | exact sound | exact Ptr.noConfusion

/-- The vitals when `init_stack` gives up. -/
def Load.unstacked (o : Load) (v : Vitals) : Vitals :=
  if o.scan then { v with stack := .null } else v

theorem scanMain_at (codeMem : v.codeMem ≠ .released) (constMem : v.constMem ≠ .released) :
    Ends Access.Sound (At v) (useAll [.codeMem, .constMem] : BlockM Unit) (.goes fun _ => At v) :=
  useAll_at (by simp [Vitals.ptr, codeMem, constMem])

theorem initStack_at (codeMem : v.codeMem ≠ .released) (constMem : v.constMem ≠ .released)
    (scan : o.scan = true) (stackAlloc : o.stackAlloc = true) :
    Ends Access.Sound (At v) (initStack o) (.goes fun _ => At { v with stack := .live }) := by
  apply (scanMain_at codeMem constMem).bind
  intro _
  rw [scan, stackAlloc]
  apply (malloc_at .stack true).bind
  intro _
  exact use_at (v := { v with stack := .live }) (by simp [Vitals.ptr])

/-- `init_stack` gives up like any other error stop. -/
theorem initStack_gives_up {ending : Ending Desk Unit} (codeMem : v.codeMem ≠ .released)
    (constMem : v.constMem ≠ .released) (refused : (o.scan && o.stackAlloc) = false)
    (stops : Ends Access.Sound (At (o.unstacked v)) destroyIjvmNow ending) :
    Ends Access.Sound (At v) (initStack o) ending := by
  apply (scanMain_at codeMem constMem).bind
  intro _
  cases scan : o.scan with
  | false =>
      rw [Load.unstacked, scan] at stops
      exact stops
  | true =>
      rw [scan, Bool.true_and] at refused
      rw [Load.unstacked, scan] at stops
      rw [refused]
      exact (malloc_at .stack false).bind fun _ => stops

/-- The array, if it has been freed. -/
def Growth.stale (o : Owner) : Growth → List Owner
  | .emptied => [o]
  | .none | .some => []

theorem Growth.stale_subset (o : Owner) (g : Growth) : g.stale o ⊆ [o] := by
  cases g <;> simp [Growth.stale]

theorem grow_stale {os : List Owner} {o : Owner} (g : Growth) (other : o.vital = false)
    (fresh : o ∉ os) :
    Ends Access.Sound (Stale os v) (grow o g) (.goes fun _ => Stale (g.stale o ++ os) v) := by
  cases g with
  | none => exact .pure fun _ h => h
  | some => exact realloc_stale other fresh Reallocation.noConfusion
  | emptied =>
      refine fun r x h => ⟨(), (x.set o .live).set o .released,
        [.freed o (x.ptr o), .freed o .live], ?_, ?_, ?_⟩
      · simp [grow, realloc, run_bind, Outcome.andThen, Outcome.prepend, Reallocation.after,
          Ptr.freed]
      · have live := h.set (p := .live) other fresh
        exact live.set (p := .released) other fresh
      · have sound : x.ptr o ≠ .released := fun stale => fresh ((h.released o other).mp stale)
        simp [Access.Sound, sound]

/-- The arrays of a block that have been freed. -/
def SymbolBlock.stale (addr names namesStart : Owner) (o : SymbolBlock) : List Owner :=
  o.names.stale names ++ (o.namesStart.stale namesStart ++ o.addr.stale addr)

theorem readSymbolBlock_stale (os : List Owner) (addr names namesStart : Owner) (o : SymbolBlock)
    (others : ∀ p ∈ [addr, names, namesStart], p.vital = false)
    (distinct : [addr, names, namesStart].Nodup) (fresh : ∀ p ∈ [addr, names, namesStart], p ∉ os) :
    Ends Access.Sound (Stale os v) (readSymbolBlock addr names namesStart o)
      (.goes fun b x => b = o.reads ∧ Stale (o.stale addr names namesStart ++ os) v x) := by
  have addr_subset := o.addr.stale_subset addr
  have start_subset := o.namesStart.stale_subset namesStart
  apply (grow_stale o.addr (others addr (by simp)) (fresh addr (by simp))).bind
  intro _
  apply (grow_stale o.namesStart (others namesStart (by simp)) (by grind)).bind
  intro _
  apply (grow_stale o.names (others names (by simp)) (by grind)).bind
  intro _
  refine .pure fun _ h => ⟨rfl, ?_⟩
  rwa [SymbolBlock.stale, List.append_assoc, List.append_assoc]

theorem Growth.stale_eq_nil_iff {o : Owner} {g : Growth} :
    g.stale o = [] ↔ (g == .emptied) = false := by
  cases g <;> simp [Growth.stale]

theorem SymbolBlock.stale_eq_nil_iff {addr names namesStart : Owner} {o : SymbolBlock} :
    o.stale addr names namesStart = [] ↔ o.emptied = false := by
  simp only [SymbolBlock.stale, SymbolBlock.emptied, List.append_eq_nil_iff,
    Growth.stale_eq_nil_iff, Bool.or_eq_false_iff]
  tauto

theorem SymbolBlock.stale_subset (addr names namesStart : Owner) (o : SymbolBlock) :
    o.stale addr names namesStart ⊆ [addr, names, namesStart] := by
  have := o.addr.stale_subset addr
  have := o.names.stale_subset names
  have := o.namesStart.stale_subset namesStart
  grind [SymbolBlock.stale]

/-- The arrays of the two symbol tables that have been freed. -/
def Symbols.stale (o : Symbols) : List Owner :=
  o.sec.stale .secAddr .secNames .secNamesStart ++
    (o.func.stale .funcAddr .funcNames .funcNamesStart ++ [])

theorem Symbols.stale_eq_nil_iff {o : Symbols} :
    o.stale = [] ↔ (o.func.emptied || o.sec.emptied) = false := by
  simp only [Symbols.stale, List.append_eq_nil_iff, SymbolBlock.stale_eq_nil_iff,
    Bool.or_eq_false_iff]
  tauto

theorem Symbols.stale_subset (o : Symbols) : o.stale ⊆ debugData := by
  have func := o.func.stale_subset .funcAddr .funcNames .funcNamesStart
  have sec := o.sec.stale_subset .secAddr .secNames .secNamesStart
  grind [Symbols.stale, debugData]

/-- What follows the two reads. -/
theorem readSymbolBlocks_bind {o : Symbols} {f : Bool → Bool → BlockM Bool}
    {ending : Ending Desk Bool}
    (next : Ends Access.Sound (Stale o.stale v) (f o.func.reads o.sec.reads) ending) :
    Ends Access.Sound (At v) (do
      let func ← readSymbolBlock .funcAddr .funcNames .funcNamesStart o.func
      let sec ← readSymbolBlock .secAddr .secNames .secNamesStart o.sec
      f func sec) ending := by
  have func := readSymbolBlock_stale (v := v) [] .funcAddr .funcNames .funcNamesStart o.func
    (by simp [Owner.vital]) (by decide) (by simp)
  apply Ends.bind_eq (func.weaken fun _ => stale_nil_iff.mpr)
  have subset := o.func.stale_subset .funcAddr .funcNames .funcNamesStart
  apply (readSymbolBlock_stale _ _ _ _ o.sec (by simp [Owner.vital]) (by decide) ?_).bind_eq next
  grind

theorem loadDebugData_at (o : Symbols) (kept : o.emptied = false) :
    Ends Access.Sound (At v) (loadDebugData o) (.goes fun b x => b = o.loads ∧ At v x) := by
  cases opens : o.opens with
  | false =>
      rw [loadDebugData, opens]
      exact .pure fun _ h => ⟨by rw [Symbols.loads, opens]; rfl, h⟩
  | true =>
      rw [loadDebugData, opens]
      apply readSymbolBlocks_bind
      rw [Symbols.emptied, opens, Bool.true_and] at kept
      rw [Symbols.stale_eq_nil_iff.mpr kept]
      apply Ends.weaken (P := At v) ?_ fun _ => stale_nil_iff.mp
      cases read : o.skips && o.func.reads && o.sec.reads with
      | true =>
          refine .pure fun _ h => ⟨?_, h⟩
          rw [Symbols.loads, opens, read]
          rfl
      | false =>
          apply destroyDebugData_at.bind_pair
          intro _
          refine .pure fun _ h => ⟨?_, h⟩
          rw [Symbols.loads, opens, read]
          rfl

/-- An array of symbols that `realloc` has freed is freed again. -/
theorem loadDebugData_breaks (o : Symbols) (emptied : o.emptied = true) :
    Ends Access.Sound (At v) (loadDebugData o) .breaks := by
  obtain ⟨opens, emptied⟩ := Bool.and_eq_true_iff.mp emptied
  have fails : (o.skips && o.func.reads && o.sec.reads) = false := by
    grind [SymbolBlock.reads]
  rw [loadDebugData, opens]
  apply readSymbolBlocks_bind
  rw [fails]
  apply Ends.breaks_bind
  apply freeAll_breaks
  rintro x ⟨_, released⟩
  have stale : o.stale ≠ [] := fun none => by
    rw [Symbols.stale_eq_nil_iff.mp none] at emptied
    contradiction
  obtain ⟨p, member⟩ := List.exists_mem_of_ne_nil _ stale
  have others : ∀ q ∈ debugData, q.vital = false := by simp [debugData, Owner.vital]
  have data := o.stale_subset member
  exact ⟨p, data, (released p (others p data)).mpr member⟩

/-- A failure of `load_bin`: `init_ijvm` frees what there is. -/
theorem reload_fails (missing : o.binary = false) (whole : (o.installed v).Whole) :
    Ends Access.Sound (At v) (reload o)
      (.goes fun b x => b = false ∧ At (o.installed v).freed x) := by
  have loaded := loadBin_at (v := v) o
  rw [missing] at loaded
  have failed : Ends Access.Sound (At v) (initIjvm o)
      (.goes fun b x => b = false ∧ At (o.installed v).freed x) :=
    loaded.bind_eq ((destroyIjvm_at whole).bind fun _ => .pure fun _ h => ⟨rfl, h⟩)
  exact failed.bind_eq (.pure fun _ h => ⟨rfl, h⟩)

theorem reload_fails_breaks (missing : o.binary = false) (broken : ¬ (o.installed v).Whole) :
    Ends Access.Sound (At v) (reload o) .breaks := by
  have loaded := loadBin_at (v := v) o
  rw [missing] at loaded
  have failed : Ends Access.Sound (At v) (initIjvm o) .breaks :=
    loaded.bind_eq (destroyIjvm_breaks broken).breaks_bind
  exact failed.breaks_bind

def Vitals.binary (v : Vitals) : Vitals := { v with constMem := .live, codeMem := .live }

theorem loadBin_loads (binary : o.binary = true) :
    Ends Access.Sound (At v) (loadBin o) (.goes fun b x => b = true ∧ At v.binary x) := by
  have loaded := loadBin_at (v := v) o
  rwa [binary, Load.installed_binary binary] at loaded

theorem reload_exits (binary : o.binary = true) (refused : (o.scan && o.stackAlloc) = false)
    (whole : (o.unstacked v.binary).Whole) : Ends Access.Sound (At v) (reload o) .exits := by
  have stopped : Ends Access.Sound (At v) (initIjvm o) .exits :=
    (loadBin_loads binary).bind_eq <| .exits_bind <|
      initStack_gives_up Ptr.noConfusion Ptr.noConfusion refused (destroyIjvmNow_at whole)
  exact stopped.exits_bind

theorem reload_breaks (binary : o.binary = true) (refused : (o.scan && o.stackAlloc) = false)
    (broken : ¬ (o.unstacked v.binary).Whole) : Ends Access.Sound (At v) (reload o) .breaks := by
  have stopped : Ends Access.Sound (At v) (initIjvm o) .breaks :=
    (loadBin_loads binary).bind_eq <| .breaks_bind <|
      initStack_gives_up Ptr.noConfusion Ptr.noConfusion refused (destroyIjvmNow_breaks broken)
  exact stopped.breaks_bind

theorem initIjvm_loads (binary : o.binary = true) (scan : o.scan = true)
    (stackAlloc : o.stackAlloc = true) :
    Ends Access.Sound (At v) (initIjvm o)
      (.goes fun b x => b = true ∧ At { v.binary with stack := .live } x) :=
  (loadBin_loads binary).bind_eq <|
    (initStack_at Ptr.noConfusion Ptr.noConfusion scan stackAlloc).bind fun _ =>
      .pure fun _ h => ⟨rfl, h⟩

/-- With the binary loaded, it depends on the symbols. -/
theorem reload_at (binary : o.binary = true) (scan : o.scan = true)
    (stackAlloc : o.stackAlloc = true) (kept : o.symbols.emptied = false) :
    Ends Access.Sound (At v) (reload o)
      (.goes fun b x => b = o.symbols.loads ∧ At { v.binary with stack := .live } x) :=
  (initIjvm_loads binary scan stackAlloc).bind_eq (loadDebugData_at o.symbols kept)

theorem reload_emptied (binary : o.binary = true) (scan : o.scan = true)
    (stackAlloc : o.stackAlloc = true) (emptied : o.symbols.emptied = true) :
    Ends Access.Sound (At v) (reload o) .breaks :=
  (initIjvm_loads binary scan stackAlloc).bind_eq (loadDebugData_breaks o.symbols emptied)

/-- What `exec_file` and `restart_debugger` do after a load that has failed. -/
def giveUp : BlockM Unit := do
  destroyIjvm
  destroyDebugData
  initDebugData
  destroyDebugger
  initDebugger

theorem giveUp_at (whole : v.Whole) (history : v.callHistory ≠ .released) :
    Ends Access.Sound (At v) giveUp (.goes fun _ => At v.freed.initial) := by
  apply (destroyIjvm_at whole).bind
  intro _
  apply destroyDebugData_at.bind_pair
  intro _
  exact destroyDebugger_at history

theorem giveUp_breaks (broken : ¬ v.Whole) : Ends Access.Sound (At v) giveUp .breaks :=
  (destroyIjvm_breaks broken).breaks_bind

/-- A load, and what its caller does then. -/
def attempt (o : Load) (succeed : BlockM Unit) : BlockM Unit := do
  if ← reload o then
    succeed
  else
    giveUp

end Loading

section Situations

/-- Vitals with the pointers of the CPU alike, in a session that goes on. -/
def Vitals.alike (cpu marks : Ptr) (state : ProgState) : Vitals where
  stack := cpu
  codeMem := cpu
  constMem := cpu
  markedArrays := marks
  callHistory := .live
  progState := state
  quitFlag := false

def Collected.ptr : Collected → Ptr
  | never => .null
  | since => .live
  | before => .released

def Stage.progState : Stage → ProgState
  | loaded => .loaded
  | started => .started
  | finished => .finished

/-- What holds of the pointers between two commands. -/
def Situation.vitals : Situation → Vitals
  | blank => .alike .null .null .empty
  | loaded stage c => .alike .live c.ptr stage.progState
  | lost => .alike .released .null .empty

variable {o : Load} {state : ProgState} {succeed : BlockM Unit}
  {next : Situation → Verdict Situation}

theorem Vitals.whole_alike {cpu marks : Ptr} :
    (Vitals.alike cpu marks state).Whole ↔ marks ≠ .released ∧ cpu ≠ .released :=
  ⟨fun whole => ⟨whole.markedArrays, whole.stack⟩, fun ⟨marks, cpu⟩ => ⟨marks, cpu, cpu, cpu⟩⟩

/-- The first load: nothing has been allocated yet. -/
theorem attempt_first (blank : next .blank = .goes .blank) (lost : next .lost = .goes .lost)
    (succeed_at : Ends Access.Sound (At (.alike .live .null state)) succeed
      ((next (.loaded .loaded .never)).ending fun s _ => At s.vitals)) :
    Ends Access.Sound (At (.alike .null .null state)) (attempt o succeed)
      ((o.extent.first.bind next).ending fun s _ => At s.vitals) := by
  have reached := o.reaches_extent
  generalize o.extent = extent at reached
  cases reached with
  | header missing =>
      have same : o.installed (.alike .null .null state) = .alike .null .null state := by
        cases header : o.header with
        | false => simp [Load.installed, header]
        | true =>
            rw [header, Bool.true_and] at missing
            simp [Load.installed, header, missing, Vitals.alike, Ptr.allocated]
      have whole : (Vitals.alike .null .null state).Whole := by simp [Vitals.whole_alike]
      have failed := reload_fails (v := .alike .null .null state) (Load.binary_of_header missing)
        (by rwa [same])
      rw [same] at failed
      rw [Extent.first, Verdict.bind, blank]
      exact failed.bind_eq (giveUp_at whole Ptr.noConfusion)
  | words header constAlloc missing =>
      have constMem := Load.installed_constMem (v := .alike .null .null state) header constAlloc
      have whole : (o.installed (.alike .null .null state)).Whole :=
        ⟨Ptr.noConfusion, Ptr.noConfusion, Load.installed_codeMem Ptr.noConfusion,
          constMem ▸ Ptr.noConfusion⟩
      apply (reload_fails missing whole).bind_eq
      exact giveUp_breaks fun again => again.constMem (congrArg Ptr.freed constMem)
  | scan binary refused =>
      refine (reload_exits binary (by rw [refused]; rfl) ?_).exits_bind
      rw [Load.unstacked, refused]
      exact ⟨Ptr.noConfusion, Ptr.noConfusion, Ptr.noConfusion, Ptr.noConfusion⟩
  | stack binary scan refused =>
      refine (reload_exits binary (by rw [refused, Bool.and_false]) ?_).exits_bind
      rw [Load.unstacked, scan]
      exact ⟨Ptr.noConfusion, Ptr.noConfusion, Ptr.noConfusion, Ptr.noConfusion⟩
  | emptied binary scan stackAlloc emptied =>
      exact (reload_emptied binary scan stackAlloc emptied).breaks_bind
  | symbols binary scan stackAlloc kept missing =>
      have loaded := reload_at (v := .alike .null .null state) binary scan stackAlloc kept
      rw [missing] at loaded
      rw [Extent.first, Verdict.bind, lost]
      exact loaded.bind_eq (giveUp_at
        (Vitals.whole_alike.mpr ⟨Ptr.noConfusion, Ptr.noConfusion⟩) Ptr.noConfusion)
  | complete binary scan stackAlloc kept symbols =>
      have loaded := reload_at (v := .alike .null .null state) binary scan stackAlloc kept
      rw [symbols] at loaded
      exact loaded.bind_eq succeed_at

/-- Before the stack is allocated, a load over a program cannot fail safely. -/
theorem Extent.again_early {extent : Extent} (c : Collected)
    (early : extent = .header ∨ extent = .words ∨ extent = .scan) : extent.again c = .broken := by
  obtain rfl | rfl | rfl := early <;> cases c <;> rfl

/-- A load over a program: its blocks have been freed. -/
theorem attempt_again {c : Collected} (kept : c ≠ .before) (lost : next .lost = .goes .lost)
    (succeed_at : ∀ c, Ends Access.Sound (At (.alike .live (Collected.ptr c) state)) succeed
      ((next (.loaded .loaded c)).ending fun s _ => At s.vitals)) :
    Ends Access.Sound (At (.alike .released c.ptr.freed state)) (attempt o succeed)
      (((o.extent.again c).bind next).ending fun s _ => At s.vitals) := by
  have reached := o.reaches_extent
  generalize o.extent = extent at reached
  -- The stack stays released until `init_stack`.
  have unloaded (missing : o.binary = false) :
      Ends Access.Sound (At (.alike .released c.ptr.freed state)) (attempt o succeed) .breaks :=
    (reload_fails_breaks missing fun whole => whole.stack rfl).breaks_bind
  cases reached with
  | header missing =>
      rw [Extent.again_early c (.inl rfl)]
      exact unloaded (Load.binary_of_header missing)
  | words header constAlloc missing =>
      rw [Extent.again_early c (.inr (.inl rfl))]
      exact unloaded missing
  | scan binary refused =>
      rw [Extent.again_early c (.inr (.inr rfl))]
      refine (reload_breaks binary (by rw [refused]; rfl) fun whole => ?_).breaks_bind
      rw [Load.unstacked, refused] at whole
      exact whole.stack rfl
  | stack binary scan refused =>
      cases c with
      | never =>
          refine (reload_exits binary (by rw [refused, Bool.and_false]) ?_).exits_bind
          rw [Load.unstacked, scan]
          exact ⟨Ptr.noConfusion, Ptr.noConfusion, Ptr.noConfusion, Ptr.noConfusion⟩
      | since =>
          refine (reload_breaks binary (by rw [refused, Bool.and_false]) ?_).breaks_bind
          rw [Load.unstacked, scan]
          exact fun whole => whole.markedArrays rfl
      | before => contradiction
  | emptied binary scan stackAlloc emptied =>
      have broken : Extent.emptied.again c = .broken := by cases c <;> rfl
      rw [broken]
      exact (reload_emptied binary scan stackAlloc emptied).breaks_bind
  | symbols binary scan stackAlloc unemptied missing =>
      have loaded :=
        reload_at (v := .alike .released c.ptr.freed state) binary scan stackAlloc unemptied
      rw [missing] at loaded
      cases c with
      | never =>
          rw [Extent.again, Verdict.bind, lost]
          exact loaded.bind_eq (giveUp_at
            (Vitals.whole_alike.mpr ⟨Ptr.noConfusion, Ptr.noConfusion⟩) Ptr.noConfusion)
      | since => exact loaded.bind_eq (giveUp_breaks fun whole => whole.markedArrays rfl)
      | before => contradiction
  | complete binary scan stackAlloc unemptied symbols =>
      have loaded :=
        reload_at (v := .alike .released c.ptr.freed state) binary scan stackAlloc unemptied
      rw [symbols] at loaded
      cases c with
      | never => exact loaded.bind_eq (succeed_at .never)
      | since => exact loaded.bind_eq (succeed_at .before)
      | before => contradiction

end Situations

end Ijvm.Blocks
