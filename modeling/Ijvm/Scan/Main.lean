import Ijvm.Scan.Text

/-!
# The scan counts the variables of the main method

The main method extends to the first address that one of its calls goes to, or to the end
of the code. The scan cannot know this address in advance: it stops at the smallest target
of the calls that it has passed, which is never inside the main method, and at its end is
the end of the main method itself. Only a last instruction of one byte can be left out,
which uses no variable.
-/

namespace Ijvm

open Transcript

/-- `n` is one more than the largest index of a variable in the text, or 0 if there is
none. -/
def Cpu.CountsVariables (c : Cpu) (ks : List Instr) (n : Int) : Prop :=
  (∀ k ∈ ks, k.op.isVariable = true → (k.index c : Int) < n) ∧
    (n = 0 ∨ ∃ k ∈ ks, k.op.isVariable = true ∧ n = k.index c + 1)

/-- The main method consists of the instructions `ks` and ends at `m`. -/
structure Cpu.MainText (c : Cpu) (m : Nat) (ks : List Instr) : Prop where
  text : c.Text 0 m ks
  wide : ∀ k ∈ ks, k.wide = true → k.op.isVariable = true
  index : ∀ k ∈ ks, k.op.isVariable = true → k.index c < 32768
  constant : ∀ k ∈ ks, k.op = .invokevirtual → c.HasConstant (c.constIndex k.opcodeAt)
  target : ∀ k ∈ ks, k.op = .invokevirtual → (m : Int) ≤ c.callTarget k.opcodeAt
  ending : ((m : Int) < c.codeMemSize ∧
      ∃ k ∈ ks, k.op = .invokevirtual ∧ c.callTarget k.opcodeAt = m) ∨
    ((m : Int) = c.codeMemSize ∧ ∀ k ∈ ks, k.op ≠ .invokevirtual)

section Counting

/-- The count is the largest of its start and the numbers after the indices. -/
theorem foldl_countAfter (is : List Int) (n : Int) :
    n ≤ is.foldl Scan.countAfter n ∧ (∀ i ∈ is, i < is.foldl Scan.countAfter n) ∧
      (is.foldl Scan.countAfter n = n ∨ ∃ i ∈ is, is.foldl Scan.countAfter n = i + 1) := by
  induction is generalizing n with
  | nil => simp
  | cons i is ih =>
      obtain ⟨le, all, value⟩ := ih (Scan.countAfter n i)
      have step : n ≤ Scan.countAfter n i ∧ i < Scan.countAfter n i ∧
          (Scan.countAfter n i = n ∨ Scan.countAfter n i = i + 1) := by
        unfold Scan.countAfter
        split <;> omega
      rw [List.foldl_cons]
      refine ⟨by omega, ?_, ?_⟩
      · intro j member
        rcases List.mem_cons.mp member with rfl | later
        · omega
        · exact all j later
      · rcases value with same | ⟨j, member, eq⟩
        · rcases step.2.2 with old | new
          · exact Or.inl (same.trans old)
          · exact Or.inr ⟨i, List.mem_cons_self, same.trans new⟩
        · exact Or.inr ⟨j, List.mem_cons_of_mem i member, eq⟩

theorem mem_readings {c : Cpu} {ks : List Instr} {i : Int} :
    i ∈ (readings c ks).map VarUse.index ↔
      ∃ k ∈ ks, k.op.isVariable = true ∧ i = k.index c := by
  simp only [readings, List.mem_map, List.mem_flatMap, Instr.reading]
  constructor
  · rintro ⟨p, ⟨k, member, used⟩, rfl⟩
    split at used
    · rename_i isVariable
      rw [List.mem_singleton] at used
      exact ⟨k, ‹_›, isVariable, by rw [used]⟩
    · contradiction
  · rintro ⟨k, member, isVariable, rfl⟩
    exact ⟨⟨k.opcodeAt, k.wide, k.index c⟩, ⟨k, member, by rw [if_pos isVariable]; simp⟩, rfl⟩

theorem countsVariables_readings (c : Cpu) (ks : List Instr) :
    c.CountsVariables ks (((readings c ks).map VarUse.index).foldl Scan.countAfter 0) := by
  obtain ⟨_, all, value⟩ := foldl_countAfter ((readings c ks).map VarUse.index) 0
  constructor
  · intro k member isVariable
    exact all _ (mem_readings.mpr ⟨k, member, isVariable, rfl⟩)
  · rcases value with none | ⟨i, used, eq⟩
    · exact Or.inl none
    · obtain ⟨k, member, isVariable, rfl⟩ := mem_readings.mp used
      exact Or.inr ⟨k, member, isVariable, eq⟩

end Counting

section Scanning

variable {c : Cpu} {m : Nat}

/-- An empty range holds no instruction. -/
theorem Cpu.Text.eq_nil {a : Nat} {ks : List Instr} (h : c.Text a a ks) : ks = [] := by
  cases h with
  | nil => rfl
  | @cons k _ ks holds rest =>
      have := rest.le
      have := k.opcodeAt_lt_next
      have := k.start_le_opcodeAt
      omega

section KnownEnd

variable {l : Scan} {k : Instr}

/-- No call moves the known end of the main method in front of its end `m`. -/
theorem le_next_first (holds : c.Holds k) (bound : m ≤ l.addrFirstMethodAfterMain)
    (target : k.op = .invokevirtual → (m : Int) ≤ c.callTarget k.opcodeAt) :
    m ≤ ((l.atOpcode k).next c).addrFirstMethodAfterMain := by
  rw [Scan.next_atOpcode_first holds]
  split
  · rename_i call
    have := target call
    unfold Cpu.endAfter
    split <;> omega
  · exact bound

/-- The end is known behind a call of the method there, and stays known. -/
theorem next_first_eq (holds : c.Holds k) (bound : m ≤ l.addrFirstMethodAfterMain)
    (target : k.op = .invokevirtual → (m : Int) ≤ c.callTarget k.opcodeAt) (positive : 0 < m)
    (more : (m : Int) < c.codeMemSize)
    (known : l.addrFirstMethodAfterMain = m ∨
      (k.op = .invokevirtual ∧ c.callTarget k.opcodeAt = m)) :
    ((l.atOpcode k).next c).addrFirstMethodAfterMain = m := by
  rw [Scan.next_atOpcode_first holds]
  split
  · rename_i call
    have := target call
    have known := known.imp_right And.right
    unfold Cpu.endAfter
    split <;> omega
  · rename_i noCall
    exact known.resolve_right fun call => noCall call.1

/-- The scan stops in front of a last instruction of one byte, which uses no variable. -/
theorem extracts_last {ks : List Instr} (rest : c.Text k.next m ks) (here : l.i = k.start)
    (wide : k.wide = true → k.op.isVariable = true) (bound : m ≤ l.addrFirstMethodAfterMain)
    (past : l.addrFirstMethodAfterMain < k.opcodeAt + 2) (small : m < sizeMaxUint32) :
    Scan.Extracts c l (readings c (k :: ks)) := by
  have le := rest.le
  have advances := k.opcodeAt_lt_next
  have last : k.next = m := by omega
  have noVariable : k.op.isVariable ≠ true := by
    intro isVariable
    have := Instr.next_of_isVariable isVariable
    omega
  have noPrefix : k.prefixes = 0 := by
    by_contra prefixed
    exact noVariable (wide (by simp [Instr.wide]; omega))
  have opcode : k.opcodeAt = k.start := by rw [Instr.opcodeAt, noPrefix, Nat.add_zero]
  rw [last] at rest
  have none : readings c (k :: ks) = [] := by
    simp [readings, rest.eq_nil, Instr.reading, noVariable]
  rw [none]
  exact .past ⟨by omega, by omega⟩

end KnownEnd

/-- From an instruction boundary in the main method, the scan meets the uses of variables
in the rest of it. -/
theorem extracts_main {a : Nat} {ks : List Instr} {l : Scan} (text : c.Text a m ks)
    (here : l.i = a) (unprefixed : l.nextWide = false) (bound : m ≤ l.addrFirstMethodAfterMain)
    (inside : (m : Int) ≤ c.codeMemSize) (small : m < sizeMaxUint32)
    (wide : ∀ k ∈ ks, k.wide = true → k.op.isVariable = true)
    (index : ∀ k ∈ ks, k.op.isVariable = true → k.index c < 32768)
    (constant : ∀ k ∈ ks, k.op = .invokevirtual → c.HasConstant (c.constIndex k.opcodeAt))
    (target : ∀ k ∈ ks, k.op = .invokevirtual → (m : Int) ≤ c.callTarget k.opcodeAt)
    (ending : (m : Int) = c.codeMemSize ∨ ((m : Int) < c.codeMemSize ∧
      (l.addrFirstMethodAfterMain = m ∨
        ∃ k ∈ ks, k.op = .invokevirtual ∧ c.callTarget k.opcodeAt = m))) :
    Scan.Extracts c l (readings c ks) := by
  induction text generalizing l with
  | nil a =>
      rcases ending with all | ⟨_, known | ⟨k, member, _⟩⟩
      · exact .outside (Scan.not_inside_iff.mpr (by omega))
      · exact .past ⟨by omega, by omega⟩
      · contradiction
  | @cons k b ks holds rest ih =>
      have le := rest.le
      have advances := k.opcodeAt_lt_next
      have starts := k.start_le_opcodeAt
      have later {P : Instr → Prop} (all : ∀ k' ∈ k :: ks, P k') : ∀ k' ∈ ks, P k' :=
        fun k' member => all k' (List.mem_cons_of_mem k member)
      by_cases before : k.opcodeAt + 2 ≤ l.addrFirstMethodAfterMain
      · have unchanged : l.Unchanged k := fun _ pending => absurd pending (by simp [unprefixed])
        have reads := Scan.reading_atOpcode holds unchanged (index k List.mem_cons_self)
        have call := target k List.mem_cons_self
        rw [Scan.extracts_instr_iff holds here (by omega) before (constant k List.mem_cons_self)]
        refine ⟨readings c ks, by rw [reads]; rfl, ?_⟩
        refine ih (Scan.next_atOpcode_i holds unchanged) ?_ (le_next_first holds bound call) inside
          small (later wide) (later index) (later constant) (later target) ?_
        · -- No prefix stays pending: it belongs to an instruction on a variable.
          rw [Scan.next_atOpcode_nextWide holds, unprefixed, Bool.false_or]
          cases prefixed : k.wide with
          | false => rfl
          | true => simp [wide k List.mem_cons_self prefixed]
        · have known := next_first_eq holds bound call (by omega)
          refine ending.imp_right fun ⟨more, reached⟩ => ⟨more, ?_⟩
          rcases reached with reached | ⟨k', member, calls, same⟩
          · exact Or.inl (known more (Or.inl reached))
          · rcases List.mem_cons.mp member with rfl | member
            · exact Or.inl (known more (Or.inr ⟨calls, same⟩))
            · exact Or.inr ⟨k', member, calls, same⟩
      · exact extracts_last rest here (wide k List.mem_cons_self) bound (by omega) small

end Scanning

/-- The scan returns one more than the largest index of a variable that the main method
uses, or 0 if it uses none, whatever follows the main method. -/
theorem getNumLocalVarsMain_counts {env : Env} {s : State} {m : Nat} {ks : List Instr}
    (fits : CodeFits s) (main : s.gCpu.MainText m ks) :
    ∃ n es, getNumLocalVarsMain.run env s = .done n s es ∧ s.gCpu.CountsVariables ks n := by
  have inside : (m : Int) ≤ s.gCpu.codeMemSize := by
    rcases main.ending with ⟨more, _⟩ | ⟨all, _⟩
    · exact Int.le_of_lt more
    · exact Int.le_of_eq all
  have small : m < sizeMaxUint32 := by
    unfold CodeFits at fits
    rw [sizeMaxUint32]
    omega
  have extracts : Scan.Extracts s.gCpu Scan.start (readings s.gCpu ks) := by
    refine extracts_main main.text rfl rfl (Nat.le_of_lt small) inside small
      main.wide main.index main.constant main.target ?_
    rcases main.ending with ⟨more, call⟩ | ⟨all, _⟩
    · exact Or.inr ⟨more, Or.inr call⟩
    · exact Or.inl all
  obtain ⟨es, run⟩ := extracts.returns env
  exact ⟨_, es, run, countsVariables_readings s.gCpu ks⟩

/-- The main method uses the variable 256 and calls a method at 10 that uses the variable
300. -/
def callAtTen : State :=
  { State.fresh with gCpu := { State.fresh.gCpu with
      codeMemSize := 17, constMemSize := 4, constMem := [10]
      codeMem := fun i => [0xC4, 0x15, 1, 0, 0x10, 1, 0xB6, 0, 0, 0xFF,
        0, 1, 0, 0, 0xC4, 0x15, 1].getD i.toNat 0 } }

/-- The instructions of the main method at `callAtTen`. -/
def callAtTenMain : List Instr :=
  [⟨0, 1, .iload⟩, ⟨4, 0, .bipush⟩, ⟨6, 0, .invokevirtual⟩, ⟨9, 0, .halt⟩]

theorem callAtTen_mainText : callAtTen.gCpu.MainText 10 callAtTenMain where
  text := by
    refine .cons (k := ⟨0, 1, .iload⟩) ⟨?_, rfl, nofun⟩ ?_
    · intro j _ below
      obtain rfl : j = 0 := Nat.lt_one_iff.mp below
      rfl
    refine .cons (k := ⟨4, 0, .bipush⟩) (.unprefixed rfl nofun) ?_
    refine .cons (k := ⟨6, 0, .invokevirtual⟩) (.unprefixed rfl nofun) ?_
    exact .cons (k := ⟨9, 0, .halt⟩) (.unprefixed rfl nofun) (.nil 10)
  wide := by decide
  index := by decide
  constant := by decide
  target := by decide
  ending := Or.inl ⟨by decide, ⟨6, 0, .invokevirtual⟩, by decide, rfl, rfl⟩

theorem getNumLocalVarsMain_counts_callAtTen :
    ∃ n es, getNumLocalVarsMain.run Env.quiet callAtTen = .done n callAtTen es ∧
      callAtTen.gCpu.CountsVariables callAtTenMain n :=
  getNumLocalVarsMain_counts (by unfold CodeFits; decide) callAtTen_mainText

end Ijvm
