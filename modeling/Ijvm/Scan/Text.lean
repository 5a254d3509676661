import Ijvm.Scan.Turns

/-!
# Code that consists of whole instructions

`Cpu.Text` describes a range of code memory as a list of instructions, each of them any
number of WIDE prefixes, an opcode and the operand bytes that belong to it. The scan takes
one turn for each prefix and one for the opcode. If no prefix is pending from an earlier
instruction, it reads the index that the instruction uses.
-/

namespace Ijvm

open Transcript

/-- An instruction in code memory: WIDE prefixes from `start` on, then the opcode. -/
structure Instr where
  start : Nat
  prefixes : Nat
  op : Op
deriving DecidableEq

namespace Instr

def opcodeAt (k : Instr) : Nat := k.start + k.prefixes

def wide (k : Instr) : Bool := decide (0 < k.prefixes)

def next (k : Instr) : Nat := k.opcodeAt + 1 + k.op.operandBytes k.wide

/-- The index of a local variable in the instruction, one byte or two unsigned bytes. -/
def index (c : Cpu) (k : Instr) : Nat :=
  if k.wide then (c.short (k.opcodeAt + 1)).toNat else (c.codeMem (k.opcodeAt + 1)).toNat

/-- The use of a variable by the instruction, if it uses one. -/
def reading (c : Cpu) (k : Instr) : List VarUse :=
  if k.op.isVariable then [⟨k.opcodeAt, k.wide, k.index c⟩] else []

theorem opcodeAt_lt_next (k : Instr) : k.opcodeAt < k.next := by
  unfold next
  omega

theorem start_le_opcodeAt (k : Instr) : k.start ≤ k.opcodeAt := Nat.le_add_right _ _

/-- The index takes at least one byte. -/
theorem next_of_isVariable {k : Instr} (h : k.op.isVariable = true) : k.opcodeAt + 2 ≤ k.next := by
  have bytes : 1 ≤ k.op.operandBytes k.wide := by
    cases op : k.op with
    | iload | istore | iinc => cases k.wide <;> decide
    | _ => rw [op] at h; contradiction
  unfold next
  omega

end Instr

/-- The instruction stands in code memory. -/
structure Cpu.Holds (c : Cpu) (k : Instr) : Prop where
  prefixed : ∀ j, k.start ≤ j → j < k.opcodeAt → c.codeMem j = Op.wide.code
  opcode : c.codeMem k.opcodeAt = k.op.code
  plain : k.op ≠ .wide

theorem Cpu.Holds.unprefixed {c : Cpu} {a : Nat} {op : Op} (opcode : c.codeMem a = op.code)
    (plain : op ≠ .wide) : c.Holds ⟨a, 0, op⟩ :=
  ⟨fun _ above below => absurd below (Nat.not_lt.mpr above), opcode, plain⟩

/-- The bytes from `a` on and before `b` are these instructions. -/
inductive Cpu.Text (c : Cpu) : Nat → Nat → List Instr → Prop
  | nil (a : Nat) : Text c a a []
  | cons {k : Instr} {b : Nat} {ks : List Instr} (holds : c.Holds k) (rest : Text c k.next b ks) :
      Text c k.start b (k :: ks)

theorem Cpu.Text.le {c : Cpu} {a b : Nat} {ks : List Instr} (h : c.Text a b ks) : a ≤ b := by
  induction h with
  | nil a => exact Nat.le_refl a
  | @cons k b ks holds rest ih =>
      have := k.opcodeAt_lt_next
      have := k.start_le_opcodeAt
      omega

/-- The uses of variables in a text. -/
def readings (c : Cpu) (ks : List Instr) : List VarUse := ks.flatMap (Instr.reading c)

section Scanning

variable {c : Cpu}

theorem Cpu.opAt?_code {a : Int} {op : Op} (h : c.codeMem a = op.code) : c.opAt? a = some op := by
  rw [Cpu.opAt?, h, Op.ofByte?_code]

namespace Scan

/-- The loop variables at the opcode of an instruction, after its prefixes. -/
def atOpcode (l : Scan) (k : Instr) : Scan :=
  { l with i := k.opcodeAt, nextWide := l.nextWide || k.wide }

/-- The turns at prefixes only set the flag. -/
theorem extracts_prefixes_iff {n : Nat} {l : Scan} {us : List VarUse}
    (prefixed : ∀ j, l.i ≤ j → j < l.i + n → c.codeMem j = Op.wide.code)
    (inside : (l.i : Int) + n ≤ c.codeMemSize) (before : l.i + n + 1 ≤ l.addrFirstMethodAfterMain) :
    Extracts c l us ↔
      Extracts c { l with i := l.i + n, nextWide := l.nextWide || decide (0 < n) } us := by
  induction n generalizing l with
  | zero => simp
  | succ n ih =>
      have wide := Cpu.opAt?_code (prefixed l.i (Nat.le_refl _) (by omega))
      have next : l.next c = { l with i := l.i + 1, nextWide := true } := by
        simp [Scan.next, wide, Scan.nextAt, Op.operandBytes, Op.isVariable]
      have none : l.reading c = [] := by
        simp [Scan.reading, wide, Op.isVariable]
      rw [extracts_turn_iff (by unfold Inside; omega) (by unfold Past; omega)
        (by simp [Fatal, wide]), none, next]
      simp only [List.nil_append, exists_eq_left']
      rw [ih ?_ ?_ ?_]
      · simp [Nat.add_right_comm, Nat.add_assoc]
      · exact fun j above below => prefixed j (by simp at above; omega) (by simp at below; omega)
      · dsimp only
        omega
      · dsimp only
        omega

section Instructions

variable {k : Instr} {l : Scan}

theorem opAt?_atOpcode (holds : c.Holds k) : c.opAt? (l.atOpcode k).i = some k.op :=
  Cpu.opAt?_code holds.opcode

/-- The turns at an instruction that is in front of the end. -/
theorem extracts_instr_iff {us : List VarUse} (holds : c.Holds k) (here : l.i = k.start)
    (inside : (k.opcodeAt : Int) < c.codeMemSize)
    (before : k.opcodeAt + 2 ≤ l.addrFirstMethodAfterMain)
    (valid : k.op = .invokevirtual → c.HasConstant (c.constIndex k.opcodeAt)) :
    Extracts c l us ↔
      ∃ us', us = (l.atOpcode k).reading c ++ us' ∧ Extracts c ((l.atOpcode k).next c) us' := by
  have opcodeAt : l.i + k.prefixes = k.opcodeAt := by rw [here, Instr.opcodeAt]
  rw [extracts_prefixes_iff (n := k.prefixes) ?_ (by omega) (by omega), opcodeAt]
  · refine extracts_turn_iff (l := l.atOpcode k) inside ?_ ?_
    · rintro ⟨_, past⟩
      simp only [atOpcode] at past
      omega
    · rintro ⟨call, invalid⟩
      rw [opAt?_atOpcode holds] at call
      exact invalid (valid (Option.some.inj call))
  · intro j above below
    exact holds.prefixed j (by omega) (by omega)

/-- A prefix that is still pending does not change the width of the index. -/
def Unchanged (l : Scan) (k : Instr) : Prop :=
  k.op.isVariable = true → l.nextWide = true → k.wide = true

theorem nextWide_atOpcode (unchanged : l.Unchanged k) (isVariable : k.op.isVariable = true) :
    (l.atOpcode k).nextWide = k.wide := by
  simp only [atOpcode]
  cases pending : l.nextWide with
  | false => exact Bool.false_or _
  | true => rw [unchanged isVariable pending, Bool.or_self]

/-- The scan reads the index of the instruction, unless it is too large for a signed
number. -/
theorem reading_atOpcode (holds : c.Holds k) (unchanged : l.Unchanged k)
    (small : k.op.isVariable = true → k.index c < 32768) :
    (l.atOpcode k).reading c = k.reading c := by
  unfold reading Instr.reading
  rw [opAt?_atOpcode holds, Option.any_some]
  split
  · rename_i isVariable
    have index := small isVariable
    have width := nextWide_atOpcode unchanged isVariable
    unfold varIndex Instr.index at *
    rw [width]
    cases wide : k.wide with
    | false => rfl
    | true =>
        rw [wide, if_pos rfl] at index
        rw [if_pos rfl, if_pos rfl, BitVec.toInt_eq_toNat_cond,
          show (l.atOpcode k).i = k.opcodeAt from rfl, if_pos (by omega)]
  · rfl

theorem next_atOpcode_i (holds : c.Holds k) (unchanged : l.Unchanged k) :
    ((l.atOpcode k).next c).i = k.next := by
  have bytes : k.op.operandBytes (l.atOpcode k).nextWide = k.op.operandBytes k.wide := by
    cases isVariable : k.op.isVariable with
    | false =>
        rw [Op.operandBytes_of_not_isVariable isVariable,
          Op.operandBytes_of_not_isVariable isVariable k.wide]
    | true => rw [nextWide_atOpcode unchanged isVariable]
  rw [Scan.next, opAt?_atOpcode holds]
  dsimp only [nextAt]
  rw [bytes]
  rfl

theorem next_atOpcode_first (holds : c.Holds k) :
    ((l.atOpcode k).next c).addrFirstMethodAfterMain =
      if k.op = .invokevirtual then c.endAfter l.addrFirstMethodAfterMain (c.callTarget k.opcodeAt)
      else l.addrFirstMethodAfterMain := by
  rw [Scan.next, opAt?_atOpcode holds]
  rfl

theorem next_atOpcode_nextWide (holds : c.Holds k) :
    ((l.atOpcode k).next c).nextWide = ((l.nextWide || k.wide) && !k.op.isVariable) := by
  rw [Scan.next, opAt?_atOpcode holds]
  simp [nextAt, atOpcode, holds.plain]

end Instructions

end Scan

end Scanning

end Ijvm
