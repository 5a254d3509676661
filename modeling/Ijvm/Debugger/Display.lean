import Ijvm.Debugger.Bookkeeping

/-!
# What the debugger shows

Printing the call history leaves it alone; a lookup of a name may collect the arrays of the
machine, or have no meaning. A history that holds its records is printed without leaving its
memory, and as far as the names can be looked up, printing all of it shows exactly these records.
-/

namespace Ijvm

open Transcript Program Records

section Naming

variable {r : DbgEnv} {x : Session} {addr : Word}

/-- The lookup of the name returns. -/
def Session.Nameable (r : DbgEnv) (x : Session) (addr : Word) : Prop :=
  Ijvm.Nameable r.forLookup x.forLookup x.debugData addr

def Session.named (r : DbgEnv) (x : Session) (addr : Word) : Session :=
  x.afterLookup ((addrToFuncName x.debugData addr).run r.forLookup x.forLookup).state

/-- All these names can be looked up, one after the other. -/
def NamesAll (r : DbgEnv) : Session → List Word → Prop
  | _, [] => True
  | x, addr :: addrs => x.Nameable r addr ∧ NamesAll r (x.named r addr) addrs

/-- A lookup that collects nothing: it stays in the table, and a name is granted its memory. -/
def Session.Named (r : DbgEnv) (x : Session) (addr : Word) : Prop :=
  ¬ x.debugData.Precedes addr ∧ (x.debugData.Names addr → r.memory x.requests = true)

instance (r : DbgEnv) (x : Session) (addr : Word) : Decidable (x.Named r addr) :=
  inferInstanceAs (Decidable (_ ∧ _))

/-- The records that a transcript shows, with their numbers. -/
def shownCalls (es : List DbgEvent) : List (Option Nat × Entry Word) :=
  es.filterMap fun
    | .console (.funcCall number label _ items) => some (number, { label, items })
    | _ => none

theorem shownCalls_append (es fs : List DbgEvent) :
    shownCalls (es ++ fs) = shownCalls es ++ shownCalls fs := List.filterMap_append

theorem shownCalls_lookup (es : List LookupEvent) :
    shownCalls (es.map DbgEvent.lookup) = [] := by
  unfold shownCalls
  rw [List.filterMap_eq_nil_iff]
  simp

/-- A lookup in a session is one of the machine and the table. -/
theorem nameCall_eq (r : DbgEnv) (x : Session) (addr : Word) :
    (nameCall addr).run r x =
      (((addrToFuncName x.debugData addr).run r.forLookup x.forLookup).embed x.afterLookup
        DbgEvent.lookup).prepend [.naming x addr] := by
  rw [nameCall, run_bind, run_get, Outcome.andThen_done, Outcome.prepend_nil, run_bind, run_emit,
    Outcome.andThen_done, lookUp_run]

/-- The two ends of a lookup. -/
theorem nameCall_cases (r : DbgEnv) (x : Session) (addr : Word) :
    (x.Nameable r addr ∧ ∃ name es, (nameCall addr).run r x = .done name (x.named r addr) es ∧
        (∀ e ∈ es, e.Harmless x.vm) ∧ shownCalls es = []) ∨
      ¬ x.Nameable r addr ∧ ((nameCall addr).run r x).isDone = false := by
  rw [nameCall_eq, Session.Nameable, ← addrToFuncName_returns_iff, Session.named]
  cases (addrToFuncName x.debugData addr).run r.forLookup x.forLookup with
  | done name t es =>
      refine Or.inl ⟨⟨name, t, es, rfl⟩, name, _, rfl, ?_, shownCalls_lookup es⟩
      simp [DbgEvent.Harmless]
  | stopped e t es => exact Or.inr ⟨by simp, rfl⟩

/-- A lookup that collects nothing returns, and only counts its request. -/
theorem Session.Named.nameable (named : x.Named r addr) :
    x.Nameable r addr ∧ ∃ n, x.named r addr = { x with requests := n } := by
  obtain ⟨name, n, es, run⟩ : ∃ name n es, (addrToFuncName x.debugData addr).run r.forLookup
      x.forLookup = .done name { x.forLookup with clock := n } es :=
    addrToFuncName_granted named.1 named.2
  refine ⟨addrToFuncName_returns_iff.mp ⟨_, _, _, run⟩, n, ?_⟩
  rw [Session.named, run]
  rfl

end Naming

section Looking

variable {I : Session → Prop} {J : DebuggerState → DebugData → Prop} {K : State → Prop}

/-- Lookups preserve `K`, whatever they count and collect. -/
def KeptByLookups (K : State → Prop) : Prop := ∀ c, KeptByCopies fun s => K { s with clock := c }

theorem keptByLookups_cpu (P : Cpu → Prop) : KeptByLookups fun s => P s.gCpu :=
  fun _ => keptByCopies_cpu P

/-- The program preserves what `J` says about the debugger and `K` about the machine. -/
abbrev Looks (J : DebuggerState → DebugData → Prop) (K : State → Prop) {α : Type} (m : DBG α) :
    Prop :=
  Keeps (fun _ => True) (fun x => J x.dbg x.debugData ∧ K x.vm) (fun _ => True) m

theorem lookUp_looks {α : Type} {m : LOOKUP α}
    (kept : ∀ c, Keeps (fun _ => True) (fun s => K { s with clock := c }) (fun _ => True) m) :
    Looks J K (lookUp m) := by
  apply Ensures.of_satisfies
  rintro r x ⟨debugger, machine⟩
  have spec := (kept x.vm.clock r.forLookup x.forLookup machine fun _ _ => trivial).1
  rw [lookUp_run]
  cases run : m.run r.forLookup x.forLookup with
  | done a s es => exact ⟨⟨debugger, spec a s es run⟩, fun _ _ => trivial⟩
  | stopped e s es => exact fun _ _ => trivial

theorem lookUp_keeps {α : Type} (m : LOOKUP α) :
    Keeps (fun _ => True) (fun x => J x.dbg x.debugData) (fun _ => True) (lookUp m) :=
  Ensures.mono (lookUp_looks (K := fun _ => True) fun _ _ _ _ _ =>
    ⟨fun _ _ _ _ => trivial, fun _ _ => trivial⟩) (fun _ kept => ⟨kept, trivial⟩) fun _ _ kept =>
    kept.1

theorem nameCall_looks (kept : KeptByLookups K) (addr : Word) : Looks J K (nameCall addr) :=
  .bind .get fun _ => .bind (.emit fun _ _ _ => trivial) fun _ =>
    lookUp_looks fun c => addrToFuncName_keeps (kept c) _ _

theorem readHistory_keeps (i : Nat) : Keeps (fun _ => True) I (fun _ => True) (readHistory i) :=
  .bind .get fun _ => .bind (.emit fun _ _ _ => trivial) fun _ =>
    .ite (fun _ => .pure _) fun _ => .stop _

theorem readArguments_keeps (offset n : Nat) :
    Keeps (fun _ => True) I (fun _ => True) (readArguments offset n) := by
  induction n generalizing offset with
  | zero => exact .pure _
  | succ n ih => exact .bind (readHistory_keeps _) fun _ => .bind (ih _) fun _ => .pure _

theorem print_keeps (c : Console) : Keeps (fun _ => True) I (fun _ => True) (print c) :=
  .emit fun _ _ _ => trivial

theorem printFuncCallsFuel_looks (kept : KeptByLookups K) (n fuel printed offset : Nat) :
    Looks J K (printFuncCallsFuel n fuel printed offset) := by
  induction fuel generalizing printed offset with
  | zero => exact .stop _
  | succ fuel ih =>
      refine .ite (fun _ => .bind (readHistory_keeps _) fun _ => .bind (nameCall_looks kept _)
        fun _ => ?_) fun _ => .pure _
      refine .ite (fun _ => .bind (readHistory_keeps _) fun _ => ?_) fun _ =>
        .bind (print_keeps _) fun _ => ih _ _
      exact .bind (readArguments_keeps _ _) fun _ => .bind (print_keeps _) fun _ => ih _ _

/-- Printing calls leaves the debugger alone, whatever the history holds. -/
theorem printFuncCalls_looks (kept : KeptByLookups K) (n : Nat) : Looks J K (printFuncCalls n) :=
  .bind .get fun _ => printFuncCallsFuel_looks kept _ _ _ _

theorem atBreakpoint_keeps : Keeps (fun _ => True) I (fun _ => True) atBreakpoint :=
  .bind .get fun _ => .pure _

theorem codeAtPc_keeps : Keeps (fun _ => True) I (fun _ => True) codeAtPc := by
  apply Ensures.of_satisfies
  intro r x kept
  rw [codeAtPc_run]
  exact ⟨kept, fun _ _ => trivial⟩

theorem printBreakpointMsg_looks (kept : KeptByLookups K) (id : Nat) :
    Looks J K (printBreakpointMsg id) :=
  .bind (print_keeps _) fun _ => printFuncCalls_looks kept _

theorem tellBreakpoint_looks (kept : KeptByLookups K) (decodes : Bool) :
    Looks J K (tellBreakpoint decodes) := by
  refine .bind atBreakpoint_keeps fun _ => .ite (fun _ => .bind ?_ fun _ =>
    .bind atBreakpoint_keeps fun _ => .bind (printBreakpointMsg_looks kept _) fun _ =>
    .bind .get fun _ => print_keeps _) fun _ => .pure _
  cases decodes with
  | true => exact .bind codeAtPc_keeps fun _ => .pure _
  | false => exact .pure _

/-- What leaves the debugger alone whatever it preserves of the machine. -/
theorem Looks.debugger {α : Type} {m : DBG α}
    (looks : ∀ {K : State → Prop}, KeptByLookups K → Looks J K m) :
    Keeps (fun _ => True) (fun x => J x.dbg x.debugData) (fun _ => True) m :=
  Ensures.mono (looks (keptByLookups_cpu fun _ => True)) (fun _ kept => ⟨kept, trivial⟩)
    fun _ _ kept => kept.1

/-- The machine leaves the debugger alone. -/
theorem onVm_keeps {α : Type} (m : VM α) :
    Keeps (fun _ => True) (fun x => J x.dbg x.debugData) (fun _ => True) (onVm m) := by
  apply Ensures.of_satisfies
  intro r x kept
  rw [onVm_run]
  cases m.run r.vm x.vm with
  | done a s es => exact ⟨kept, fun _ _ => trivial⟩
  | stopped e s es => exact fun _ _ => trivial

end Looking

section Printing

variable {r : DbgEnv} {x : Session} {calls : List (Entry Word)}

/-- The arguments of a stored record. -/
theorem readArguments_run (r : DbgEnv) (x : Session) {n offset : Nat} (le : n ≤ offset)
    (inside : offset ≤ x.dbg.allocated) (bound : x.dbg.allocated < 2 ^ 32) :
    ∃ es, (readArguments offset n).run r x =
        .done (itemsAt x.dbg.callHistory (offset - n) n, offset - n) x es ∧ shownCalls es = [] ∧
      ∀ e ∈ es, e.Harmless x.vm := by
  induction n generalizing offset with
  | zero => exact ⟨[], rfl, rfl, by simp⟩
  | succ n ih =>
      have below : uint32 (offset - 1) = offset - 1 := by
        rw [uint32_of_lt (by omega) (by omega)]
        omega
      have le' : n ≤ offset - 1 := by omega
      have cell : offset - 1 < x.dbg.allocated := by omega
      obtain ⟨es, run, quiet, harmless⟩ := ih le' (by omega)
      refine ⟨.history x.vm (offset - 1) x.dbg.allocated :: es, ?_, quiet, ?_⟩
      · have base : offset - 1 - n = offset - (n + 1) := by omega
        have here : offset - 1 = offset - (n + 1) + n := by omega
        simp only [readArguments, run_bind, below, readHistory_run cell, Outcome.andThen_done, run,
          run_pure, Outcome.prepend_done, List.append_nil, List.singleton_append, base,
          itemsAt_succ]
        rw [← here]
      · rw [List.forall_mem_cons]
        exact ⟨⟨rfl, cell⟩, harmless⟩

/-- The number in front of the next record, when all are printed. -/
def numberAfter (n printed : Nat) : Option Nat := if n = 0 then some (printed + 1) else none

/-- One turn of the printing loop shows the highest record, once its name is known. -/
theorem printFuncCallsFuel_succ (r : DbgEnv) (n fuel printed : Nat) {offset : Nat} {e : Entry Word}
    (stored : Stored BitVec.toNat x.dbg.callHistory offset (e :: calls))
    (more : printed ≠ n ∨ n = 0) (inside : offset ≤ x.dbg.allocated)
    (bound : x.dbg.allocated < 2 ^ 32) :
    (x.Nameable r e.label ∧ ∃ es, (printFuncCallsFuel n (fuel + 1) printed offset).run r x =
        ((printFuncCallsFuel n fuel (printed + 1) (offset - e.size)).run r
          (x.named r e.label)).prepend es ∧
      shownCalls es = [(numberAfter n printed, e)] ∧
      ∀ ev ∈ es, ev.Harmless x.vm ∨ ev.Harmless (x.named r e.label).vm) ∨
    ¬ x.Nameable r e.label ∧
      ((printFuncCallsFuel n (fuel + 1) printed offset).run r x).isDone = false := by
  obtain ⟨base, size, label, number, items, rest⟩ := stored
  unfold Entry.size at size
  have first : offset - 1 = base + e.items.length + 1 := by omega
  have second : base + e.items.length + 1 - 1 = base + e.items.length := rfl
  have lower : offset - e.size = base := by
    unfold Entry.size
    omega
  have cell : base + e.items.length + 1 < x.dbg.allocated := by omega
  rw [printFuncCallsFuel, if_pos ⟨by omega, more⟩, run_bind, first, readHistory_run cell,
    Outcome.andThen_done, label]
  rcases nameCall_cases r x e.label with ⟨nameable, name, es, look, harmless, quiet⟩ | ⟨no, stops⟩
  · refine Or.inl ⟨nameable, ?_⟩
    have cell' : base + e.items.length < (x.named r e.label).dbg.allocated := by
      show _ < x.dbg.allocated
      omega
    obtain ⟨fs, read, quiet', harmless'⟩ := readArguments_run r (x.named r e.label)
      (Nat.le_add_left e.items.length base) (by show _ ≤ x.dbg.allocated; omega) bound
    rw [Nat.add_sub_cancel] at read
    change (readArguments _ _).run r _ = .done (itemsAt x.dbg.callHistory _ _, _) _ _ at read
    rw [items] at read
    rw [run_bind_of_done _ look, if_pos (by omega), run_bind, second, readHistory_run cell',
      Outcome.andThen_done]
    change ∃ es', Outcome.prepend _ (Outcome.prepend _ (Outcome.prepend _ (Program.run
      (readArguments _ (x.dbg.callHistory _).toNat >>= _) r _))) = _ ∧ _
    rw [number, run_bind_of_done _ read, run_bind, run_print, Outcome.andThen_done, lower]
    simp only [Outcome.prepend_prepend]
    refine ⟨_, rfl, ?_, ?_⟩
    · simp only [shownCalls_append, quiet, quiet']
      rfl
    · simp only [List.forall_mem_append, List.forall_mem_singleton]
      exact ⟨Or.inl ⟨rfl, cell⟩, fun ev member => Or.inl (harmless ev member),
        Or.inr ⟨rfl, cell'⟩, fun ev member => Or.inr (harmless' ev member), Or.inl trivial⟩
  · refine Or.inr ⟨no, ?_⟩
    rw [run_bind]
    cases run : (nameCall e.label).run r x with
    | done name y es =>
        rw [run] at stops
        contradiction
    | stopped reason y es => rfl

/-- The records that are printed, if `printed` of `n` are already, or all of them. -/
def toPrint (n printed : Nat) (calls : List (Entry Word)) : List (Entry Word) :=
  if n = 0 then calls else calls.take (n - printed)

/-- Printing calls shows the highest records, as far as their names can be looked up. The
induction is on the records. -/
theorem printFuncCallsFuel_cases (r : DbgEnv) {n printed fuel offset : Nat}
    (le : n ≠ 0 → printed ≤ n)
    (stored : Stored BitVec.toNat x.dbg.callHistory offset calls) (enough : offset < fuel)
    (inside : offset ≤ x.dbg.allocated) (bound : x.dbg.allocated < 2 ^ 32) :
    (NamesAll r x ((toPrint n printed calls).map Entry.label) ∧
      ∃ y es, (printFuncCallsFuel n fuel printed offset).run r x = .done () y es ∧
        shownCalls es = (toPrint n printed calls).mapIdx fun i e =>
          (numberAfter n (printed + i), e)) ∨
    ¬ NamesAll r x ((toPrint n printed calls).map Entry.label) ∧
      ((printFuncCallsFuel n fuel printed offset).run r x).isDone = false := by
  obtain ⟨fuel, rfl⟩ := Nat.exists_eq_succ_of_ne_zero (by omega : fuel ≠ 0)
  induction calls generalizing fuel printed offset x with
  | nil =>
      obtain rfl : offset = 0 := stored
      have none : toPrint n printed [] = [] := by simp [toPrint]
      rw [none]
      exact Or.inl ⟨trivial, x, [], rfl, rfl⟩
  | cons e calls ih =>
      by_cases last : n ≠ 0 ∧ printed = n
      · have none : toPrint n printed (e :: calls) = [] := by simp [toPrint, last]
        rw [none]
        refine Or.inl ⟨trivial, x, [], ?_, rfl⟩
        rw [printFuncCallsFuel, if_neg (by omega)]
        rfl
      · have more : printed ≠ n ∨ n = 0 := by omega
        have next : toPrint n printed (e :: calls) = e :: toPrint n (printed + 1) calls := by
          unfold toPrint
          split
          · rfl
          · obtain ⟨k, some⟩ := Nat.exists_eq_succ_of_ne_zero (by omega : n - printed ≠ 0)
            have fewer : n - (printed + 1) = k := by omega
            rw [some, fewer, List.take_succ_cons]
        obtain ⟨size, _, rest⟩ := stored.pop
        have smaller : 0 < e.size := Nat.succ_pos _
        rw [next, List.map_cons, NamesAll]
        rcases printFuncCallsFuel_succ r n fuel printed stored more inside bound with
          ⟨nameable, es, turn, shown, _⟩ | ⟨no, stops⟩
        · obtain ⟨fuel, rfl⟩ := Nat.exists_eq_succ_of_ne_zero (by omega : fuel ≠ 0)
          have later := ih (x := x.named r e.label) (show n ≠ 0 → printed + 1 ≤ n by omega) rest
            (by show _ ≤ x.dbg.allocated; omega) bound fuel (by omega)
          rw [and_iff_right nameable, turn]
          refine later.imp (fun ⟨all, y, fs, run, shown'⟩ => ⟨all, y, es ++ fs, ?_, ?_⟩)
            fun ⟨no, stops⟩ => ⟨no, ?_⟩
          · rw [run, Outcome.prepend_done]
          · rw [shownCalls_append, shown, shown', List.mapIdx_cons]
            simp only [Nat.add_zero, Nat.add_assoc, Nat.add_comm 1]
            rfl
          · cases run : (printFuncCallsFuel n (fuel + 1) (printed + 1) (offset - e.size)).run r
              (x.named r e.label) with
            | done a y fs =>
                rw [run] at stops
                contradiction
            | stopped reason y fs => rfl
        · exact Or.inr ⟨fun all => no all.1, stops⟩

def numbered (calls : List (Entry Word)) : List (Option Nat × Entry Word) :=
  calls.mapIdx fun i e => (some (i + 1), e)

theorem printFuncCalls_run (n : Nat) :
    (printFuncCalls n).run r x =
      (printFuncCallsFuel n (x.dbg.callHistoryTop + 1) 0 x.dbg.callHistoryTop).run r x := by
  rw [printFuncCalls, run_bind, run_get, Outcome.andThen_done, Outcome.prepend_nil]

/-- The name of the innermost record can be looked up if it is printed. -/
theorem nameable_of_printed {y : Session} {es : List DbgEvent} (recorded : x.dbg.Recorded calls)
    (run : (printFuncCalls 1).run r x = .done () y es) :
    ∀ e ∈ calls.head?, x.Nameable r e.label := by
  intro e first
  obtain ⟨calls, rfl⟩ : ∃ rest, calls = e :: rest := List.head?_eq_some_iff.mp first
  rw [printFuncCalls_run] at run
  rcases printFuncCallsFuel_cases r (fun _ => Nat.zero_le 1) recorded.stored (Nat.lt_succ_self _)
    recorded.inside recorded.bound with ⟨all, _⟩ | ⟨_, stops⟩
  · exact all.1
  · rw [run] at stops
    contradiction

/-- Printing one call shows the innermost record. -/
theorem printFuncCalls_one (recorded : x.dbg.Recorded calls)
    (named : ∀ e ∈ calls.head?, x.Named r e.label) :
    ∃ n es, (printFuncCalls 1).run r x = .done () { x with requests := n } es ∧
      ∀ e ∈ es, e.Harmless x.vm := by
  obtain ⟨stored, inside, bound⟩ := recorded
  rw [printFuncCalls_run]
  cases calls with
  | nil =>
      rw [show x.dbg.callHistoryTop = 0 from stored]
      exact ⟨x.requests, [], rfl, by simp⟩
  | cons e calls =>
      obtain ⟨nameable, n, same⟩ := (named e rfl).nameable
      rcases printFuncCallsFuel_succ r 1 x.dbg.callHistoryTop 0 stored (Or.inl (by decide)) inside
        bound with ⟨_, es, turn, _, harmless⟩ | ⟨no, _⟩
      · have size := stored.pop.1
        unfold Entry.size at size
        obtain ⟨top, eq⟩ := Nat.exists_eq_succ_of_ne_zero (n := x.dbg.callHistoryTop) (by omega)
        rw [turn, eq, printFuncCallsFuel, if_neg (by simp), same]
        rw [same] at harmless
        exact ⟨n, _, rfl, by simpa using harmless⟩
      · exact absurd nameable no

theorem atBreakpoint_run (r : DbgEnv) (x : Session) :
    atBreakpoint.run r x = .done (breakpointNumber x.dbg.brkpts x.vm.gCpu.pc) x [] := rfl

/-- What the message about a breakpoint shows and reads before the call. -/
def breakpointEvents (decodes : Bool) (x : Session) : List DbgEvent :=
  (if decodes then [.own x.vm (.code x.vm.gCpu.pc x.vm.gCpu.codeMemSize)] else []) ++
    [.console (.breakpoint (breakpointNumber x.dbg.brkpts x.vm.gCpu.pc))]

/-- At a breakpoint, the innermost call is printed. -/
theorem tellBreakpoint_there (r : DbgEnv) (decodes : Bool)
    (there : breakpointNumber x.dbg.brkpts x.vm.gCpu.pc ≠ 0) :
    ∃ op, (tellBreakpoint decodes).run r x = (((printFuncCalls 1).run r x).andThen fun _ y =>
      .done () y [.console (.stoppedAt y.vm.gCpu.pc op)]).prepend (breakpointEvents decodes x) := by
  rw [tellBreakpoint, run_bind, atBreakpoint_run, Outcome.andThen_done, Outcome.prepend_nil,
    if_pos there]
  cases decodes with
  | true =>
      refine ⟨some (opDecode (x.vm.gCpu.codeMem x.vm.gCpu.pc)), ?_⟩
      simp [breakpointEvents, opAtPc, codeAtPc_run, atBreakpoint_run, printBreakpointMsg,
        Outcome.prepend_prepend]
  | false =>
      refine ⟨none, ?_⟩
      simp [breakpointEvents, opAtPc, atBreakpoint_run, printBreakpointMsg]

theorem tellBreakpoint_elsewhere (r : DbgEnv) (decodes : Bool)
    (elsewhere : ¬ breakpointNumber x.dbg.brkpts x.vm.gCpu.pc ≠ 0) :
    (tellBreakpoint decodes).run r x = .done () x [] := by
  rw [tellBreakpoint, run_bind, atBreakpoint_run, Outcome.andThen_done, Outcome.prepend_nil,
    if_neg elsewhere, run_pure]

/-- Telling about a breakpoint reads the byte at PC and the innermost record. -/
theorem tellBreakpoint_run (decodes : Bool) (recorded : x.dbg.Recorded calls)
    (named : breakpointNumber x.dbg.brkpts x.vm.gCpu.pc ≠ 0 →
      ∀ e ∈ calls.head?, x.Named r e.label) :
    ∃ n es, (tellBreakpoint decodes).run r x = .done () { x with requests := n } es ∧ ∀ e ∈ es,
      e.Harmless x.vm ∨ e = .own x.vm (.code x.vm.gCpu.pc x.vm.gCpu.codeMemSize) := by
  by_cases there : breakpointNumber x.dbg.brkpts x.vm.gCpu.pc ≠ 0
  · obtain ⟨n, es, run, harmless⟩ := printFuncCalls_one recorded (named there)
    obtain ⟨op, tell⟩ := tellBreakpoint_there r decodes there
    rw [tell, run]
    refine ⟨n, _, rfl, ?_⟩
    simp only [breakpointEvents, List.forall_mem_append, List.forall_mem_singleton]
    refine ⟨⟨?_, Or.inl trivial⟩, fun e member => Or.inl (harmless e member), Or.inl trivial⟩
    cases decodes <;> simp
  · exact ⟨x.requests, [], tellBreakpoint_elsewhere r decodes there, by simp⟩

/-- With memory for its name, a message that returns only counts requests. -/
theorem tellBreakpoint_granted {decodes : Bool} {y : Session} {es : List DbgEvent}
    (recorded : x.dbg.Recorded calls) (granted : r.memory x.requests = true)
    (told : (tellBreakpoint decodes).run r x = .done () y es) :
    ∃ n, y = { x with requests := n } := by
  have named : breakpointNumber x.dbg.brkpts x.vm.gCpu.pc ≠ 0 →
      ∀ e ∈ calls.head?, x.Named r e.label := by
    intro there e first
    obtain ⟨op, tell⟩ := tellBreakpoint_there r decodes there
    rw [tell] at told
    obtain ⟨_, told, _⟩ := Outcome.prepend_eq_done.mp told
    cases run : (printFuncCalls 1).run r x with
    | done a z fs => exact ⟨(nameable_of_printed recorded run e first).1, fun _ => granted⟩
    | stopped reason z fs =>
        rw [run] at told
        contradiction
  obtain ⟨n, fs, run, _⟩ := tellBreakpoint_run decodes recorded named
  injection told.symm.trans run with _ same
  exact ⟨n, same⟩

/-- Arguments are read if there are as many words below, and only then. -/
theorem readArguments_isDone (r : DbgEnv) {n offset : Nat} (inside : offset ≤ x.dbg.allocated)
    (bound : x.dbg.allocated < 2 ^ 32) :
    ((readArguments offset n).run r x).isDone = true ↔ n ≤ offset := by
  constructor
  · induction n generalizing offset with
    | zero => exact fun _ => Nat.zero_le _
    | succ n ih =>
        intro returns
        obtain ⟨_, y, es, run⟩ := Outcome.isDone_iff.mp returns
        obtain ⟨w, z, fs, gs, read, rest, _⟩ := run_bind_done.mp run
        by_cases below : uint32 (offset - 1) < x.dbg.allocated
        · rw [readHistory_run below] at read
          injection read with _ same
          subst same
          obtain ⟨ws, u, hs, is, args, _⟩ := run_bind_done.mp rest
          have lower : uint32 (offset - 1) = offset - 1 := by
            unfold uint32 at *
            omega
          have fewer : n ≤ uint32 (offset - 1) := ih (Nat.le_of_lt below) (by rw [args]; rfl)
          unfold uint32 at *
          omega
        · rw [readHistory_outside below] at read
          contradiction
  · intro le
    obtain ⟨es, run, _⟩ := readArguments_run r x le inside bound
    rw [run, Outcome.isDone_done]

/-- The words at the top of the history are a record that can be printed. -/
structure Session.TellsCall (r : DbgEnv) (x : Session) : Prop where
  inside : x.dbg.callHistoryTop ≤ x.dbg.allocated
  nameable : 0 < x.dbg.callHistoryTop →
    x.Nameable r (x.dbg.callHistory (x.dbg.callHistoryTop - 1))
  arguments : 2 ≤ x.dbg.callHistoryTop →
    (x.dbg.callHistory (x.dbg.callHistoryTop - 2)).toNat ≤ x.dbg.callHistoryTop - 2

/-- One call is printed if there is a record, and only then, whatever the history holds. -/
theorem printFuncCalls_one_iff (r : DbgEnv) (bound : x.dbg.allocated < 2 ^ 32) :
    ((printFuncCalls 1).run r x).isDone = true ↔ x.TellsCall r := by
  have ends (fuel offset : Nat) (y : Session) :
      (printFuncCallsFuel 1 (fuel + 1) 1 offset).run r y = .done () y [] := by
    rw [printFuncCallsFuel, if_neg (by simp)]
    rfl
  rw [printFuncCalls_run]
  cases top : x.dbg.callHistoryTop with
  | zero => exact iff_of_true rfl ⟨by omega, fun some => by omega, fun some => by omega⟩
  | succ k =>
      rw [printFuncCallsFuel, if_pos ⟨by omega, Or.inl (by decide)⟩, Nat.add_sub_cancel]
      by_cases inside : k < x.dbg.allocated
      swap
      · rw [run_bind, readHistory_outside inside]
        exact iff_of_false nofun fun tells => inside (by have := tells.inside; omega)
      rw [run_bind_of_done _ (readHistory_run inside), Outcome.isDone_prepend]
      rcases nameCall_cases r x (x.dbg.callHistory k) with
        ⟨nameable, name, es, look, _⟩ | ⟨no, stops⟩
      swap
      · refine iff_of_false ?_ fun tells => no ?_
        · intro returns
          obtain ⟨_, y, es, run⟩ := Outcome.isDone_iff.mp returns
          obtain ⟨_, z, fs, gs, look, _⟩ := run_bind_done.mp run
          rw [look] at stops
          contradiction
        · have nameable := tells.nameable (by omega)
          rwa [top, Nat.add_sub_cancel] at nameable
      rw [run_bind_of_done _ look, Outcome.isDone_prepend]
      cases k with
      | zero =>
          rw [if_neg (by omega), run_bind, run_print, Outcome.andThen_done, ends]
          refine iff_of_true rfl ⟨by omega, fun _ => ?_, fun some => by omega⟩
          rwa [top]
      | succ k =>
          have cell : k < (x.named r (x.dbg.callHistory (k + 1))).dbg.allocated := by
            show k < x.dbg.allocated
            omega
          rw [if_pos (by omega), Nat.add_sub_cancel, run_bind_of_done _ (readHistory_run cell),
            Outcome.isDone_prepend]
          have args := readArguments_isDone r (x := x.named r (x.dbg.callHistory (k + 1)))
            (n := (x.dbg.callHistory k).toNat) (Nat.le_of_lt cell) bound
          constructor
          · intro returns
            obtain ⟨_, y, fs, run⟩ := Outcome.isDone_iff.mp returns
            obtain ⟨_, z, gs, hs, read, _⟩ := run_bind_done.mp run
            have le := args.mp (Outcome.isDone_iff.mpr ⟨_, _, _, read⟩)
            refine ⟨by omega, fun _ => ?_, fun _ => ?_⟩
            · rwa [top, Nat.add_sub_cancel]
            · rwa [top, show k + 1 + 1 - 2 = k by omega]
          · intro tells
            have le := tells.arguments (by omega)
            rw [top, show k + 1 + 1 - 2 = k by omega] at le
            obtain ⟨ws, z, fs, read⟩ := Outcome.isDone_iff.mp (args.mpr le)
            refine (congrArg Outcome.isDone (run_bind_of_done _ read)).trans ?_
            rw [Outcome.isDone_prepend, run_bind, run_print, Outcome.andThen_done, ends]
            rfl

/-- A message about a breakpoint returns if the record on top can be printed, and only then. -/
theorem tellBreakpoint_isDone (r : DbgEnv) (decodes : Bool) (bound : x.dbg.allocated < 2 ^ 32) :
    ((tellBreakpoint decodes).run r x).isDone = true ↔
      (breakpointNumber x.dbg.brkpts x.vm.gCpu.pc ≠ 0 → x.TellsCall r) := by
  by_cases there : breakpointNumber x.dbg.brkpts x.vm.gCpu.pc ≠ 0
  · obtain ⟨op, tell⟩ := tellBreakpoint_there r decodes there
    rw [forall_prop_of_true there, ← printFuncCalls_one_iff r bound, tell, Outcome.isDone_prepend]
    cases (printFuncCalls 1).run r x with
    | done a y es => simp
    | stopped e y es => simp
  · rw [tellBreakpoint_elsewhere r decodes there]
    exact iff_of_true rfl fun at_ => absurd at_ there

/-- The message about a breakpoint leaves the debugger and the processor alone. -/
theorem tellBreakpoint_done {decodes : Bool} {y : Session} {es : List DbgEvent}
    (told : (tellBreakpoint decodes).run r x = .done () y es) :
    y.dbg = x.dbg ∧ y.debugData = x.debugData ∧ y.vm.gCpu = x.vm.gCpu := by
  have kept := (tellBreakpoint_looks (J := fun d labels => d = x.dbg ∧ labels = x.debugData)
    (keptByLookups_cpu (· = x.vm.gCpu)) decodes r x ⟨⟨rfl, rfl⟩, rfl⟩ fun _ _ => trivial).1 () y es
    told
  exact ⟨kept.1.1, kept.1.2, kept.2⟩

/-- A debugger step first keeps the history up to date, and then calls `step`. -/
theorem stepWithHistory_run (r : DbgEnv) (x : Session) (log : Bool) :
    (stepWithHistory log).run r x = ((createCallHistory.run r x).andThen fun _ y =>
      (enterStep.run r y).prepend
        (if log then [.console (.traced y.vm.gCpu.pc (opDecode (x.vm.gCpu.codeMem x.vm.gCpu.pc)))]
        else [])).prepend
      [.stepping x log, .own x.vm (.code x.vm.gCpu.pc x.vm.gCpu.codeMemSize)] := by
  cases log with
  | false => simp [stepWithHistory, codeAtPc_run, Outcome.prepend_prepend]
  | true => simp [stepWithHistory, codeAtPc_run, Outcome.prepend_prepend]

theorem dbgStep_run (r : DbgEnv) (x : Session) (log : Bool) :
    (dbgStep log).run r x =
      ((stepWithHistory log).run r x).andThen fun _ y => reportBreakpoint.run r y := rfl

theorem enterStep_run (r : DbgEnv) (x : Session) :
    enterStep.run r x = (((step.run r.vm x.vm).embed (fun s => { x with vm := s }) .vm).andThen
      fun _ y => .done () y []).prepend [.entered x.vm] := by
  simp [enterStep, onVm_run]

def mainEntry : Entry Word := { label := 0, items := [] }

theorem holds_loaded (r : DbgEnv) (s : State) (d : DebugData) (path : String)
    (brkpts : List Word) : (Session.loaded r s d path brkpts).dbg.Holds [mainEntry] :=
  ⟨⟨⟨0, rfl, rfl, rfl, rfl, rfl⟩, Nat.le_refl _, show 2 < 2 ^ 32 by decide⟩, rfl⟩

/-- The session in which the program has been started. -/
def Session.begun (x : Session) : Session :=
  { x with dbg := { x.dbg with progState := .started } }

theorem Session.begun_holds (holds : x.dbg.Holds calls) : x.begun.dbg.Holds calls :=
  ⟨⟨holds.stored, holds.inside, holds.bound⟩, holds.sized⟩

/-- The first `start` tells about a breakpoint, and notes that the program runs. -/
theorem execStart_run {s : State} {d : DebugData} (r : DbgEnv) (path : String)
    (brkpts : List Word) (closed : s.outFile = []) :
    execStart.run r (Session.loaded r s d path brkpts) =
      (((tellBreakpoint false).run r (Session.loaded r s d path brkpts)).andThen fun _ y =>
        .done () y.begun []).prepend [.console (.starting (some path))] := by
  have opened : (onVm setOutput).run r (Session.loaded r s d path brkpts) =
      .done () (Session.loaded r s d path brkpts) [] := by
    show Outcome.done () { Session.loaded r s d path brkpts with vm := { s with outFile := [] } } []
      = _
    rw [← closed]
    rfl
  have state : (Session.loaded r s d path brkpts).dbg.progState = .loaded := rfl
  simp only [execStart, run_bind, run_get, Outcome.andThen_done, state, Outcome.prepend_nil]
  rw [if_neg (by decide)]
  simp only [run_bind, run_get, Outcome.andThen_done, state, Outcome.prepend_nil]
  rw [if_pos trivial]
  simp only [run_bind, run_get, opened, run_print, run_modifyDbg, Outcome.andThen_done,
    Outcome.prepend_nil]
  rfl

end Printing

/-- The symbols of `callSeven`: main at 0 and its method at 6. -/
def sevenLabels : DebugData where
  funcLabel := { num := 2, addr := [0, 6], names := [0x6D, 0, 0x66, 0], namesStart := [0, 2] }
  secLabel := .init

end Ijvm
