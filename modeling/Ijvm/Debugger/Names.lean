import Ijvm.Debugger.Lookup

/-!
# What a lookup of a name does

The search for the function around an address stops at the first label that is not smaller, and
copies its name or the one before. It returns unless it goes back from the first label or the
copy stops the machine. The processor is left alone; without memory for the copy, the collector
has run.
-/

namespace Ijvm

open Transcript Program

namespace DebugData

def funcAddr (d : DebugData) (i : Nat) : Word := d.funcLabel.addr.getD i 0

/-- A lookup of the address goes back from the first label, out of the table, whose size is a
`uint32_t`. -/
def Precedes (d : DebugData) (addr : Word) : Prop :=
  d.funcLabel.num ≠ 0 ∧ addr < d.funcAddr 0 ∧ d.funcLabel.num < 2 ^ 32

/-- A lookup of the address copies a name: some label is not smaller. -/
def Names (d : DebugData) (addr : Word) : Prop := ∃ k, k < d.funcLabel.num ∧ addr ≤ d.funcAddr k

instance (d : DebugData) (addr : Word) : Decidable (d.Precedes addr) :=
  inferInstanceAs (Decidable (_ ∧ _))

instance (d : DebugData) (addr : Word) : Decidable (d.Names addr) :=
  decidable_of_iff (∃ k ∈ List.range d.funcLabel.num, addr ≤ d.funcAddr k)
    (exists_congr fun _ => and_congr_left fun _ => List.mem_range)

end DebugData

/-- `str_dup` returns, with a copy or without. -/
def CopyReturns (env : Env) (s : State) : Prop :=
  ∃ copy t es, (copyString []).run env s = .done copy t es

/-- A lookup of the address stays in the table, and `str_dup` returns if there is a name. -/
def Nameable (env : Env) (s : State) (d : DebugData) (addr : Word) : Prop :=
  ¬ d.Precedes addr ∧ (d.Names addr → CopyReturns env s)

section Copies

variable {env : Env} {s t : State}

/-- What is copied makes no difference for the machine. -/
theorem strDupFuel_eq (fuel : Nat) (src : List Byte) :
    strDupFuel fuel src = Option.map (fun _ => src) <$> strDupFuel fuel [] := by
  induction fuel with
  | zero => rfl
  | succ fuel ih =>
      rw [strDupFuel, strDupFuel, map_bind]
      congr 1
      funext granted
      split
      · rfl
      · rw [map_bind]
        congr 1
        funext n
        split
        · exact ih
        · rfl

theorem copyString_eq (src : List Byte) :
    copyString src = Option.map (fun _ => src) <$> copyString [] := by
  rw [copyString, copyString, map_bind]
  congr 1
  funext s
  exact strDupFuel_eq _ src

theorem copyReturns_iff (src : List Byte) :
    (∃ copy t es, (copyString src).run env s = .done copy t es) ↔ CopyReturns env s := by
  rw [copyString_eq, CopyReturns, run_map]
  cases (copyString []).run env s with
  | done copy t es => simp
  | stopped e t es => simp

/-- With memory, a copy only asks for it. -/
theorem copyString_granted (src : List Byte) (granted : env.alloc s.clock = true) :
    (copyString src).run env s = .done (some src) { s with clock := s.clock + 1 } [] := by
  rw [copyString, run_bind, run_get, Outcome.andThen_done, Outcome.prepend_nil, strDupFuel,
    run_bind, run_allocate, Outcome.andThen_done, Outcome.prepend_nil, if_pos granted]
  rfl

/-- Every copy of a string preserves `I`, whatever it has to collect. -/
def KeptByCopies (I : State → Prop) : Prop :=
  ∀ src, Keeps (fun _ => True) I (fun _ => True) (copyString src)

theorem keptByCopies_of {I : State → Prop}
    (ticks : ∀ s, I s → I { s with clock := s.clock + 1 })
    (collects : ∀ s n t, Collected s n t → I s → I t) : KeptByCopies I := by
  intro src
  have collection : Keeps (fun _ => True) I (fun _ => True) arrGc := by
    apply Ensures.of_satisfies
    intro env s kept
    cases run : arrGc.run env s with
    | done n t es => exact ⟨collects s n t (Collected.of_done run).2 kept, fun _ _ => trivial⟩
    | stopped e t es => exact fun _ _ => trivial
  have attempts (fuel : Nat) : Keeps (fun _ => True) I (fun _ => True) (strDupFuel fuel src) := by
    induction fuel with
    | zero => exact .stop _
    | succ fuel ih =>
        refine .bind (.bind .ask fun _ => .get_bind fun s kept => .bind ?_ fun _ => .pure _)
          fun _ => .ite (fun _ => .pure _) fun _ =>
            .bind collection fun _ => .ite (fun _ => ih) fun _ => .pure _
        exact fun _ _ _ _ => ⟨Outcome.returns_done.mpr (ticks s kept), by simp⟩
  exact .bind .get fun _ => attempts _

/-- A collection leaves the processor alone, and so does a copy. -/
theorem keptByCopies_cpu (P : Cpu → Prop) : KeptByCopies fun s => P s.gCpu :=
  keptByCopies_of (fun _ kept => kept) fun _ _ _ collected kept => collected.cpu_eq ▸ kept

end Copies

section Search

variable {env : Env} {s : State} {d : DebugData} {addr : Word}

theorem onMachine_run {α : Type} (m : VM α) :
    (onMachine m).run env s = (m.run env s).embed (fun t => t) .vm := rfl

theorem onMachine_keeps {α : Type} {m : VM α} {I : State → Prop}
    (kept : Keeps (fun _ => True) I (fun _ => True) m) :
    Keeps (fun _ => True) I (fun _ => True) (onMachine m) := by
  apply Ensures.of_satisfies
  intro env s here
  have spec := (kept env s here fun _ _ => trivial).1
  rw [onMachine_run]
  cases run : m.run env s with
  | done a t es => exact ⟨spec a t es run, fun _ _ => trivial⟩
  | stopped e t es => exact fun _ _ => trivial

theorem readFuncAddr_run (i : Nat) :
    (readFuncAddr d i).run env s = .done (d.funcAddr i) s [.label i d.funcLabel.num] := rfl

theorem copyFuncName_run {i : Nat} (inside : i < d.funcLabel.num) :
    (copyFuncName d i).run env s =
      (((copyString (getFuncName d i)).run env s).embed (fun t => t) .vm).prepend
        [.label i d.funcLabel.num,
          .name (d.funcLabel.namesStart.getD i 0) d.funcLabel.names.length] := by
  rw [copyFuncName, run_bind, run_emit, Outcome.andThen_done, if_pos inside, run_bind, run_emit,
    Outcome.andThen_done, onMachine_run, Outcome.prepend_prepend, List.singleton_append]

/-- Outside the table, there is no name to copy. -/
theorem copyFuncName_outside {i : Nat} (outside : ¬ i < d.funcLabel.num) :
    (copyFuncName d i).run env s = .stopped .undefined s [.label i d.funcLabel.num] := by
  rw [copyFuncName, run_bind, run_emit, Outcome.andThen_done, if_neg outside]
  rfl

/-- The search stops at the first label that is not smaller. The induction is on the labels
that are left; the ones before them are smaller. -/
theorem searchFuncName_run (env : Env) (s : State) (addr : Word) {i n : Nat}
    (rest : i + n = d.funcLabel.num)
    (smaller : ∀ j, j < i → d.funcAddr j < addr) :
    ∃ es, (∀ e ∈ es, e.Inside) ∧
      ((∃ k, k < d.funcLabel.num ∧ (∀ j, j < k → d.funcAddr j < addr) ∧ addr ≤ d.funcAddr k ∧
          (searchFuncName d addr i n).run env s =
            ((copyFuncName d (if addr = d.funcAddr k then k else uint32 (k - 1))).run env
              s).prepend es) ∨
        (∀ j, j < d.funcLabel.num → d.funcAddr j < addr) ∧
          (searchFuncName d addr i n).run env s = .done none s es) := by
  induction n generalizing i with
  | zero =>
      refine ⟨[], by simp, Or.inr ⟨fun j below => smaller j (by omega), rfl⟩⟩
  | succ n ih =>
      have inside : LookupEvent.Inside (.label i d.funcLabel.num) := by
        show i < d.funcLabel.num
        omega
      simp only [searchFuncName, run_bind, readFuncAddr_run, Outcome.andThen_done]
      by_cases same : addr = d.funcAddr i
      · refine ⟨[.label i d.funcLabel.num], by simpa using inside, Or.inl ⟨i, inside, smaller, ?_⟩⟩
        rw [if_pos same, if_pos same]
        exact ⟨BitVec.le_of_eq same, rfl⟩
      · by_cases before : addr < d.funcAddr i
        · refine ⟨[.label i d.funcLabel.num, .label i d.funcLabel.num], by simpa using inside,
            Or.inl ⟨i, inside, smaller, BitVec.le_of_lt before, ?_⟩⟩
          rw [if_neg same, if_neg same]
          simp only [run_bind, readFuncAddr_run, Outcome.andThen_done, if_pos before,
            Outcome.prepend_prepend, List.singleton_append]
        · have larger : d.funcAddr i < addr := by bv_omega
          obtain ⟨es, all, found⟩ := ih (i := i + 1) (by omega) fun j below => by
            rcases Nat.lt_succ_iff_lt_or_eq.mp below with lower | rfl
            · exact smaller j lower
            · exact larger
          refine ⟨[.label i d.funcLabel.num, .label i d.funcLabel.num] ++ es, ?_, ?_⟩
          · rw [List.forall_mem_append]
            exact ⟨by simpa using inside, all⟩
          · rw [if_neg same]
            simp only [run_bind, readFuncAddr_run, Outcome.andThen_done, if_neg before,
              Outcome.prepend_prepend, List.singleton_append]
            rcases found with ⟨k, lt, smaller', le, run⟩ | ⟨smaller', run⟩
            · refine Or.inl ⟨k, lt, smaller', le, ?_⟩
              rw [run, Outcome.prepend_prepend]
            · refine Or.inr ⟨smaller', ?_⟩
              rw [run, Outcome.prepend_done]

/-- What a lookup does: it finds no name, leaves the table, or copies a name. -/
theorem addrToFuncName_run (env : Env) (s : State) (d : DebugData) (addr : Word) :
    ∃ es, (∀ e ∈ es, e.Inside) ∧
      (¬ d.Names addr ∧ ¬ d.Precedes addr ∧ (addrToFuncName d addr).run env s = .done none s es ∨
        d.Precedes addr ∧ (addrToFuncName d addr).run env s =
          ((copyFuncName d (2 ^ 32 - 1)).run env s).prepend es ∨
        d.Names addr ∧ ¬ d.Precedes addr ∧ ∃ i < d.funcLabel.num,
          (addrToFuncName d addr).run env s = ((copyFuncName d i).run env s).prepend es) := by
  by_cases empty : d.funcLabel.num = 0
  · refine ⟨[], by simp, Or.inl ⟨?_, fun before => before.1 empty, ?_⟩⟩
    · rintro ⟨k, below, _⟩
      omega
    · rw [addrToFuncName, if_pos empty]
      rfl
  · obtain ⟨es, inside, found⟩ := searchFuncName_run env s addr (Nat.zero_add d.funcLabel.num)
      fun j below => absurd below (Nat.not_lt_zero j)
    refine ⟨es, inside, ?_⟩
    rw [addrToFuncName, if_neg empty]
    rcases found with ⟨k, lt, smaller, le, run⟩ | ⟨smaller, run⟩
    · have behind (pos : 0 < k) : ¬ d.Precedes addr := fun before => by
        have := smaller 0 pos
        have := before.2.1
        bv_omega
      rw [run]
      by_cases same : addr = d.funcAddr k
      · rw [if_pos same]
        refine Or.inr (Or.inr ⟨⟨k, lt, le⟩, ?_, k, lt, rfl⟩)
        rcases Nat.eq_zero_or_pos k with rfl | pos
        · rintro ⟨_, before, _⟩
          bv_omega
        · exact behind pos
      · rw [if_neg same]
        rcases Nat.eq_zero_or_pos k with rfl | pos
        · have before : addr < d.funcAddr 0 := by bv_omega
          by_cases countable : d.funcLabel.num < 2 ^ 32
          · exact Or.inr (Or.inl ⟨⟨empty, before, countable⟩, rfl⟩)
          · refine Or.inr (Or.inr ⟨⟨0, lt, le⟩, fun out => countable out.2.2, 2 ^ 32 - 1, ?_, rfl⟩)
            omega
        · refine Or.inr (Or.inr ⟨⟨k, lt, le⟩, behind pos, uint32 (k - 1), ?_, rfl⟩)
          unfold uint32
          omega
    · refine Or.inl ⟨?_, ?_, run⟩
      · rintro ⟨k, lt, le⟩
        have := smaller k lt
        bv_omega
      · rintro ⟨_, before, _⟩
        have := smaller 0 (by omega)
        bv_omega

/-- A lookup returns if the address does not precede the labels and the copy returns, and only
then. -/
theorem addrToFuncName_returns_iff : (∃ name t es, (addrToFuncName d addr).run env s =
    .done name t es) ↔ Nameable env s d addr := by
  obtain ⟨es, _, ⟨nameless, behind, run⟩ | ⟨before, run⟩ | ⟨names, behind, i, inside, run⟩⟩ :=
    addrToFuncName_run env s d addr
  · exact iff_of_true ⟨_, _, _, run⟩ ⟨behind, fun names => absurd names nameless⟩
  · refine iff_of_false ?_ fun nameable => nameable.1 before
    have countable := before.2.2
    rw [run, copyFuncName_outside (by omega)]
    simp
  · rw [Nameable, and_iff_right behind, forall_prop_of_true names,
      ← copyReturns_iff (getFuncName d i), run, copyFuncName_run inside]
    cases (copyString (getFuncName d i)).run env s with
    | done name t es => simp
    | stopped e t es => simp

/-- With memory for the name, a lookup leaves the machine as it is. -/
theorem addrToFuncName_granted (behind : ¬ d.Precedes addr)
    (granted : d.Names addr → env.alloc s.clock = true) :
    ∃ name n es, (addrToFuncName d addr).run env s = .done name { s with clock := n } es := by
  obtain ⟨es, _, ⟨_, _, run⟩ | ⟨before, _⟩ | ⟨names, _, i, inside, run⟩⟩ :=
    addrToFuncName_run env s d addr
  · exact ⟨none, s.clock, es, run⟩
  · exact absurd before behind
  · rw [copyFuncName_run inside, copyString_granted _ (granted names)] at run
    exact ⟨_, _, _, run⟩

theorem copyFuncName_keeps {I : State → Prop} (kept : KeptByCopies I) (i : Nat) :
    Keeps (fun _ => True) I (fun _ => True) (copyFuncName d i) := by
  refine .bind (.emit fun _ _ _ => trivial) fun _ => .ite (fun _ => ?_) fun _ => .stop _
  exact .bind (.emit fun _ _ _ => trivial) fun _ => onMachine_keeps (kept _)

/-- A lookup preserves what every copy preserves. -/
theorem addrToFuncName_keeps {I : State → Prop} (kept : KeptByCopies I) (d : DebugData)
    (addr : Word) : Keeps (fun _ => True) I (fun _ => True) (addrToFuncName d addr) := by
  have read (i : Nat) : Keeps (fun _ => True) I (fun _ => True) (readFuncAddr d i) :=
    .bind (.emit fun _ _ _ => trivial) fun _ => .pure _
  have search (i n : Nat) :
      Keeps (fun _ => True) I (fun _ => True) (searchFuncName d addr i n) := by
    induction n generalizing i with
    | zero => exact .pure _
    | succ n ih =>
        exact .bind (read i) fun _ => .ite (fun _ => copyFuncName_keeps kept i) fun _ =>
          .bind (read i) fun _ => .ite (fun _ => copyFuncName_keeps kept _) fun _ => ih (i + 1)
  exact .ite (fun _ => .pure _) fun _ => search _ _

/-- Looking for a label preserves it, too. -/
theorem labelNameToAddr_keeps {I : State → Prop} (kept : KeptByCopies I) (d : DebugData)
    (labelName : List Byte) :
    Keeps (fun _ => True) I (fun _ => True) (labelNameToAddr d labelName) := by
  have search (names : Nat → List Byte) (addrs : List Word) (i n : Nat) :
      Keeps (fun _ => True) I (fun _ => True) (searchLabel names addrs labelName i n) := by
    induction n generalizing i with
    | zero => exact .pure _
    | succ n ih =>
        refine .bind (kept (names i)) fun name => ?_
        cases name with
        | none => exact .stop _
        | some name => exact .ite (fun _ => .pure _) fun _ => ih (i + 1)
  exact .ite (fun _ => .pure _) fun _ => .bind (search _ _ _ _) fun _ =>
    .ite (fun _ => .pure _) fun _ => .bind (search _ _ _ _) fun _ => .pure _

end Search

end Ijvm
