import Ijvm.Debugger.Names

/-!
# The function around an address

In a table with ascending addresses, the function around an address is the one of the last
label whose address is not larger. The search stops at the first label that is not smaller:
it finds the function unless the address lies before the first label, where it takes the
label before that one, or after the last one, where it gives up.
-/

namespace Ijvm

open Transcript Program

namespace DebugData

/-- A table of function labels in ascending order, with the starts of their names. -/
structure Ascending (d : DebugData) : Prop where
  num_lt : d.funcLabel.num < 2 ^ 32
  names : ∀ i, i < d.funcLabel.num → d.funcLabel.namesStart.getD i 0 < d.funcLabel.names.length
  ascending : ∀ i j, i < j → j < d.funcLabel.num → d.funcAddr i < d.funcAddr j

/-- The last label whose address is at most `addr`. -/
def LastLabel (d : DebugData) (addr : Word) (i : Nat) : Prop :=
  i < d.funcLabel.num ∧ d.funcAddr i ≤ addr ∧
    ∀ j, i < j → j < d.funcLabel.num → addr < d.funcAddr j

end DebugData

/-- The lookup returns the name of the last label whose address is at most `addr`, or `??`
if there is none, and stays inside the tables. -/
def FindsFunction (env : Env) (s : State) (d : DebugData) (addr : Word) : Prop :=
  ∃ r t es, (addrToFuncName d addr).run env s = .done r t es ∧ (∀ e ∈ es, e.Inside) ∧
    (r = none ↔ d.funcLabel.num = 0 ∨ addr < d.funcAddr 0) ∧
    ∀ i, d.LastLabel addr i → r = some (getFuncName d i)

/-- `str_dup` gets memory for a copy of the string. -/
def Copied (env : Env) (s : State) (src : List Byte) : Prop :=
  ∃ t es, (copyString src).run env s = .done (some src) t es

section Search

variable {env : Env} {s : State} {d : DebugData} {addr : Word}

theorem lastLabel_unique {i j : Nat} (h : d.LastLabel addr i) (h' : d.LastLabel addr j) :
    i = j := by
  obtain ⟨lt, le, after⟩ := h
  obtain ⟨lt', le', after'⟩ := h'
  rcases Nat.lt_trichotomy i j with below | same | above
  · have := after j below lt'
    bv_omega
  · exact same
  · have := after' i above lt
    bv_omega

/-- Copying the name of the right label gives the right result, if there is memory. -/
theorem finds_iff_copied {i : Nat} (ascending : d.Ascending) (last : d.LastLabel addr i)
    (first : ¬ addr < d.funcAddr 0) {es : List LookupEvent} (inside : ∀ e ∈ es, e.Inside)
    (run : (addrToFuncName d addr).run env s = ((copyFuncName d i).run env s).prepend es) :
    FindsFunction env s d addr ↔ Copied env s (getFuncName d i) := by
  have some : ¬ (d.funcLabel.num = 0 ∨ addr < d.funcAddr 0) := by
    have := last.1
    rintro (none | before)
    · omega
    · exact first before
  rw [copyFuncName_run last.1] at run
  constructor
  · rintro ⟨r, t, fs, run', _, _, name⟩
    obtain rfl := name i last
    rw [run] at run'
    obtain ⟨gs, rest, _⟩ := Outcome.prepend_eq_done.mp run'
    obtain ⟨hs, rest, _⟩ := Outcome.prepend_eq_done.mp rest
    cases copy : (copyString (getFuncName d i)).run env s with
    | stopped e u is =>
        rw [copy] at rest
        contradiction
    | done r u is =>
        rw [copy] at rest
        injection rest with same
        exact ⟨u, is, by rw [copy, same]⟩
  · rintro ⟨t, gs, copy⟩
    rw [copy] at run
    refine ⟨_, t, _, run, ?_, iff_of_false (Option.some_ne_none _) some, ?_⟩
    · simp only [List.forall_mem_append, List.forall_mem_cons, List.forall_mem_map]
      exact ⟨inside, ⟨last.1, ascending.names i last.1, List.forall_mem_nil _⟩, fun _ _ => trivial⟩
    · intro j last'
      rw [lastLabel_unique last' last]

end Search

/-- The table is empty, or the address lies between its first and its last label and there
is memory for the name. -/
def Findable (env : Env) (s : State) (d : DebugData) (addr : Word) : Prop :=
  d.funcLabel.num = 0 ∨
    d.funcAddr 0 ≤ addr ∧ addr ≤ d.funcAddr (d.funcLabel.num - 1) ∧
      ∀ i, d.LastLabel addr i → Copied env s (getFuncName d i)

section Found

variable {env : Env} {s : State} {d : DebugData} {addr : Word}

theorem findsFunction_of_empty (empty : d.funcLabel.num = 0) : FindsFunction env s d addr := by
  refine ⟨none, s, [], ?_, by simp, by simp [empty], ?_⟩
  · rw [addrToFuncName, if_pos empty]
    rfl
  · rintro i ⟨lt, _⟩
    omega

/-- Before the first label, the name is read in front of the table. -/
theorem not_findsFunction_before (ascending : d.Ascending) {es : List LookupEvent}
    (run : (addrToFuncName d addr).run env s =
      ((copyFuncName d (2 ^ 32 - 1)).run env s).prepend es) :
    ¬ FindsFunction env s d addr := by
  have bound := ascending.num_lt
  rintro ⟨r, t, fs, run', _⟩
  rw [copyFuncName_outside (by omega)] at run
  exact absurd (run'.symm.trans run) (by simp)

/-- After the last label, the search gives up. -/
theorem not_findsFunction_after (some : d.funcLabel.num ≠ 0)
    (after : d.funcAddr (d.funcLabel.num - 1) < addr) {es : List LookupEvent}
    (run : (addrToFuncName d addr).run env s = .done none s es) :
    ¬ FindsFunction env s d addr := by
  rintro ⟨r, t, fs, run', _, _, name⟩
  injection run.symm.trans run' with gaveUp
  have last : d.LastLabel addr (d.funcLabel.num - 1) :=
    ⟨by omega, BitVec.le_of_lt after, fun j above inside => by omega⟩
  rw [name _ last] at gaveUp
  contradiction

/-- What a lookup in a table with labels does, by the place of the address. -/
theorem addrToFuncName_cases (env : Env) (s : State) (addr : Word) (ascending : d.Ascending)
    (some : d.funcLabel.num ≠ 0) :
    ∃ es, (∀ e ∈ es, e.Inside) ∧
      ((addr < d.funcAddr 0 ∧ (addrToFuncName d addr).run env s =
          ((copyFuncName d (2 ^ 32 - 1)).run env s).prepend es) ∨
        (∃ i, d.LastLabel addr i ∧ ¬ addr < d.funcAddr 0 ∧
          addr ≤ d.funcAddr (d.funcLabel.num - 1) ∧
          (addrToFuncName d addr).run env s = ((copyFuncName d i).run env s).prepend es) ∨
        (d.funcAddr (d.funcLabel.num - 1) < addr ∧
          (addrToFuncName d addr).run env s = .done none s es)) := by
  obtain ⟨es, inside, found⟩ := searchFuncName_run env s addr (Nat.zero_add d.funcLabel.num)
    fun j below => absurd below (Nat.not_lt_zero j)
  refine ⟨es, inside, ?_⟩
  rw [addrToFuncName, if_neg some]
  rcases found with ⟨k, lt, smaller, le, run⟩ | ⟨smaller, run⟩
  · have upTo : d.funcAddr k ≤ d.funcAddr (d.funcLabel.num - 1) := by
      rcases Nat.lt_or_ge k (d.funcLabel.num - 1) with below | last
      · exact BitVec.le_of_lt (ascending.ascending k _ below (by omega))
      · obtain rfl : k = d.funcLabel.num - 1 := by omega
        exact BitVec.le_refl _
    by_cases same : addr = d.funcAddr k
    · rw [if_pos same] at run
      refine Or.inr (Or.inl ⟨k, ⟨lt, BitVec.le_of_eq same.symm, fun j above inside => ?_⟩, ?_, ?_,
        run⟩)
      · rw [same]
        exact ascending.ascending k j above inside
      · intro before
        rcases Nat.eq_zero_or_pos k with rfl | pos
        · bv_omega
        · have := smaller 0 pos
          bv_omega
      · rw [same]
        exact upTo
    · rw [if_neg same] at run
      have before : addr < d.funcAddr k := by bv_omega
      rcases Nat.eq_zero_or_pos k with rfl | pos
      · exact Or.inl ⟨before, run⟩
      · have previous : uint32 (k - 1) = k - 1 := by
          have := ascending.num_lt
          rw [uint32_of_lt (by omega) (by omega)]
          omega
        rw [previous] at run
        refine Or.inr (Or.inl ⟨k - 1, ⟨by omega, ?_, fun j above inside => ?_⟩, ?_, ?_, run⟩)
        · exact BitVec.le_of_lt (smaller (k - 1) (by omega))
        · rcases Nat.lt_or_ge k j with later | here
          · have := ascending.ascending k j later inside
            bv_omega
          · obtain rfl : j = k := by omega
            exact before
        · have := smaller 0 pos
          bv_omega
        · bv_omega
  · exact Or.inr (Or.inr ⟨smaller _ (by omega), run⟩)

end Found

/-- In a table with ascending addresses, a lookup finds the function around an address
between the first and the last label, if there is memory for its name. -/
theorem findsFunction_iff (env : Env) (s : State) {d : DebugData} (addr : Word)
    (ascending : d.Ascending) : FindsFunction env s d addr ↔ Findable env s d addr := by
  by_cases none : d.funcLabel.num = 0
  · exact iff_of_true (findsFunction_of_empty none) (Or.inl none)
  · rw [Findable, or_iff_right none]
    obtain ⟨es, inside, ⟨before, run⟩ | ⟨i, last, notBefore, upTo, run⟩ | ⟨after, run⟩⟩ :=
      addrToFuncName_cases env s addr ascending none
    · refine iff_of_false (not_findsFunction_before ascending run) ?_
      rintro ⟨from0, _⟩
      bv_omega
    · rw [finds_iff_copied ascending last notBefore inside run]
      constructor
      · intro copied
        refine ⟨by bv_omega, upTo, fun j last' => ?_⟩
        rw [lastLabel_unique last' last]
        exact copied
      · rintro ⟨_, _, copied⟩
        exact copied i last
    · refine iff_of_false (not_findsFunction_after none after run) ?_
      rintro ⟨_, upTo, _⟩
      bv_omega

/-- One function at the address 4. -/
def oneFunction : DebugData where
  funcLabel := { num := 1, addr := [4], names := [0x66, 0], namesStart := [0] }
  secLabel := .init

theorem oneFunction_ascending : oneFunction.Ascending where
  num_lt := by decide
  names := by decide
  ascending i j below inside := by
    have : j < 1 := inside
    omega

theorem findsFunction_iff_oneFunction :
    FindsFunction Env.quiet State.fresh oneFunction 4 ↔
      Findable Env.quiet State.fresh oneFunction 4 :=
  findsFunction_iff Env.quiet State.fresh 4 oneFunction_ascending

/-- Behind its label, the last function is not found. -/
theorem insideLastFunction_notFound : ¬ ∀ env s (d : DebugData) addr, d.Ascending →
    FindsFunction env s d addr := by
  intro finds
  have after : (addrToFuncName oneFunction 6).run Env.quiet State.fresh =
      .done none State.fresh [.label 0 1, .label 0 1] := rfl
  exact not_findsFunction_after (by decide) (by decide) after
    (finds Env.quiet State.fresh oneFunction 6 oneFunction_ascending)

end Ijvm
