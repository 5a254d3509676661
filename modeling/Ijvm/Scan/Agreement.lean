import Ijvm.Scan.Main
import Ijvm.Code.Sequence

/-!
# The scan and `step` on the same instructions

The scan keeps the flag of a WIDE prefix until the next use of a variable; `step` drops it
with the instruction that the prefix belongs to. The scan reads a wide index as a signed
number; ILOAD and ISTORE read it as an unsigned one. `ClearFrom` excludes both, and is
exactly the condition under which the two read the same uses of variables.
-/

namespace Ijvm

open Transcript

/-- The scan reads the use of a variable as `step` does, if a prefix is pending or not. -/
def Instr.Clear (c : Cpu) (pending : Bool) (k : Instr) : Prop :=
  k.op.isVariable = true → (pending = true → k.wide = true) ∧ k.index c < 32768

/-- No prefix of another instruction reaches an unprefixed use of a variable, and no wide
index is too large for a signed number. -/
def ClearFrom (c : Cpu) : Bool → List Instr → Prop
  | _, [] => True
  | pending, k :: ks =>
      k.Clear c pending ∧ ClearFrom c ((pending || k.wide) && !k.op.isVariable) ks

/-- The scan and `step` agree on every use of a variable, and the count of the scan is above
every index. -/
def ScanAgrees (env : Env) (s : State) : Prop :=
  ∃ us n es, DecodesInOrder (s.withPc 0) us ∧ Scan.Extracts s.gCpu Scan.start us ∧
    getNumLocalVarsMain.run env s = .done n s es ∧ ∀ u ∈ us, u.index < n

/-- A use of a variable without its width. -/
def VarUse.pair (u : VarUse) : Nat × Int := (u.opcodeAt, u.index)

/-- The scan and `step` agree on the addresses and the indices. -/
def ScanAgreesOnPairs (s : State) : Prop :=
  ∃ us us', DecodesInOrder (s.withPc 0) us ∧ Scan.Extracts s.gCpu Scan.start us' ∧
    us'.map VarUse.pair = us.map VarUse.pair

/-- The use of the variable 0 by an unprefixed instruction, with another byte 0 behind the
index. -/
def Instr.Zeroed (c : Cpu) (k : Instr) : Prop :=
  k.op.isVariable = true ∧ k.wide = false ∧ c.short (k.opcodeAt + 1) = 0

instance (c : Cpu) : DecidablePred (Instr.Zeroed c) := fun _ => inferInstanceAs (Decidable (_ ∧ _))

section Decoding

variable {s : State} {k : Instr}

theorem opAddrFrom_prefixed {codeMem : Int → Byte} {size pc : Int} {n fuel : Nat}
    (prefixed : ∀ j : Int, pc ≤ j → j < pc + n → codeMem j = Op.wide.code)
    (opcode : codeMem (pc + n) ≠ Op.wide.code) (nonneg : 0 ≤ pc) (inside : pc + n < size)
    (enough : n < fuel) : opAddrFrom codeMem size fuel pc = some (pc + n) := by
  induction n generalizing pc fuel with
  | zero =>
      obtain ⟨fuel, rfl⟩ : ∃ f, fuel = f + 1 := ⟨fuel - 1, by omega⟩
      rw [Int.natCast_zero, Int.add_zero] at *
      rw [opAddrFrom, if_neg (by omega), if_neg opcode]
  | succ n ih =>
      obtain ⟨fuel, rfl⟩ : ∃ f, fuel = f + 1 := ⟨fuel - 1, by omega⟩
      have shift : pc + ((n + 1 : Nat) : Int) = pc + 1 + n := by omega
      rw [shift] at opcode inside ⊢
      rw [opAddrFrom, if_neg (by omega), if_pos (prefixed pc (by omega) (by omega))]
      exact ih (fun j above below => prefixed j (by omega) (by omega)) opcode (by omega) inside
        (by omega)

/-- The instruction in the text is the next one of `step`. -/
theorem Cpu.Holds.executes (holds : s.gCpu.Holds k)
    (inside : (k.opcodeAt : Int) < s.gCpu.codeMemSize) :
    (s.withPc k.start).Executes k.opcodeAt k.op := by
  have decoded := Cpu.opAt?_code holds.opcode
  have address : (k.start : Int) + k.prefixes = k.opcodeAt := by
    rw [Instr.opcodeAt, Int.natCast_add]
  refine ⟨?_, decoded⟩
  rw [← address]
  refine opAddrFrom_prefixed ?_ ?_ (Int.natCast_nonneg _) ?_ ?_
  · intro j above below
    obtain ⟨i, rfl⟩ := Int.eq_ofNat_of_zero_le (show 0 ≤ j by simp [State.withPc] at above; omega)
    simp only [State.withPc] at above below
    exact holds.prefixed i (by omega) (by omega)
  · intro wide
    simp only [State.withPc, address] at wide
    rw [Cpu.opAt?, wide, Op.ofByte?_code] at decoded
    exact holds.plain (Option.some.inj decoded).symm
  · simp only [State.withPc]
    omega
  · simp only [State.withPc]
    omega

theorem Instr.atOp_nextOpWide (unprefixed : s.nextOpWide = false) (k : Instr) :
    ((s.withPc k.start).atOp k.opcodeAt).nextOpWide = k.wide := by
  have same : (k.opcodeAt : Int) ≠ k.start ↔ 0 < k.prefixes := by
    rw [Instr.opcodeAt]
    omega
  simp only [State.atOp, State.withPc, unprefixed, Bool.false_or, Instr.wide]
  exact decide_eq_decide.mpr same

/-- The use of a variable that `step` decodes. -/
theorem Instr.uses_eq (unprefixed : s.nextOpWide = false)
    (inside : (k.next : Int) ≤ s.gCpu.codeMemSize) :
    ((s.withPc k.start).atOp k.opcodeAt).uses k.op = k.reading s.gCpu := by
  have flag := Instr.atOp_nextOpWide unprefixed k
  have pc : ((s.withPc k.start).atOp k.opcodeAt).gCpu.pc = k.opcodeAt + 1 := rfl
  have size : ((s.withPc k.start).atOp k.opcodeAt).gCpu.codeMemSize = s.gCpu.codeMemSize := rfl
  by_cases isVariable : k.op.isVariable = true
  swap
  · rw [State.uses, Instr.reading, if_neg isVariable, if_neg isVariable]
  have bytes : k.opcodeAt + 1 + (if k.wide then 2 else 1) ≤ k.next := by
    unfold Instr.next
    cases op : k.op with
    | iload | istore | iinc => cases k.wide <;> simp [Op.operandBytes]
    | _ => rw [op] at isVariable; contradiction
  have index : ((s.withPc k.start).atOp k.opcodeAt).varIndex? = some (k.index s.gCpu : Int) := by
    unfold State.varIndex? Instr.index
    dsimp only
    rw [flag, pc, size]
    cases wide : k.wide with
    | false =>
        rw [wide, if_neg Bool.false_ne_true] at bytes
        rw [if_neg Bool.false_ne_true, if_pos (by omega), if_neg Bool.false_ne_true]
        rfl
    | true =>
        rw [wide, if_pos rfl] at bytes
        rw [if_pos rfl, if_pos (by omega), if_pos rfl]
        rfl
  rw [State.uses, Instr.reading, if_pos isVariable, if_pos isVariable, flag, index, pc,
    Int.add_sub_cancel, Int.toNat_natCast, Option.getD_some]

/-- `step` goes through a text instruction by instruction. -/
theorem Cpu.Text.decodes {a m : Nat} {ks : List Instr} (text : s.gCpu.Text a m ks)
    (whole : (m : Int) = s.gCpu.codeMemSize) (unprefixed : s.nextOpWide = false) :
    DecodesInOrder (s.withPc a) (readings s.gCpu ks) := by
  induction text with
  | nil a => exact .ended (Int.le_of_eq whole.symm)
  | @cons k b ks holds rest ih =>
      have le := rest.le
      have advances := k.opcodeAt_lt_next
      have decoded := Instr.uses_eq (k := k) unprefixed (by omega)
      have next : (k.opcodeAt : Int) + 1 +
          k.op.operandBytes ((s.withPc k.start).atOp k.opcodeAt).nextOpWide = k.next := by
        rw [Instr.atOp_nextOpWide unprefixed, Instr.next]
        omega
      rw [show readings s.gCpu (k :: ks) = k.reading s.gCpu ++ readings s.gCpu ks from rfl,
        ← decoded]
      refine .step (holds.executes (by omega)) ?_
      rw [next]
      exact ih whole

/-- The instructions of a text stand in it. -/
theorem Cpu.Text.mem {c : Cpu} {a m : Nat} {ks : List Instr} (text : c.Text a m ks)
    (member : k ∈ ks) : c.Holds k ∧ k.next ≤ m := by
  induction text with
  | nil a => exact absurd member List.not_mem_nil
  | cons holds rest ih =>
      rcases List.mem_cons.mp member with rfl | later
      · exact ⟨holds, rest.le⟩
      · exact ih later

/-- In a text that is executed in order, a step that returns goes from each instruction to the one
behind it, as `DecodesInOrder` does. -/
theorem Cpu.Text.step_next {env : Env} {a m : Nat} {ks : List Instr} (text : s.gCpu.Text a m ks)
    (whole : (m : Int) = s.gCpu.codeMemSize) (sequential : ∀ k ∈ ks, k.op.sequential = true)
    (unprefixed : s.nextOpWide = false) (sized : s.gCpu.Sized) (member : k ∈ ks)
    (here : s.gCpu.pc = k.start) :
    (step.run env s).Returns fun _ t => t.nextOpWide = false ∧ t.gCpu.pc = k.next := by
  obtain ⟨holds, le⟩ := text.mem member
  have advances := k.opcodeAt_lt_next
  have executes := holds.executes (by omega)
  have same : s.withPc k.start = s := by
    rw [← here]
    rfl
  have flag := Instr.atOp_nextOpWide unprefixed k
  rw [same] at executes flag
  refine (step_sequential executes (sequential k member) unprefixed sized).mono fun _ t final => ?_
  refine ⟨final.1, ?_⟩
  rw [final.2, flag, Instr.next]
  omega

end Decoding

section Scanning

variable {c : Cpu} {m : Nat}

theorem joinBytes_toNat (high low : Byte) :
    (joinBytes high low).toNat = high.toNat * 256 + low.toNat := by
  have h := high.isLt
  have join := Nat.shiftLeft_add_eq_or_of_lt low.isLt high.toNat
  rw [joinBytes, BitVec.toNat_or, BitVec.toNat_shiftLeft, BitVec.toNat_setWidth,
    BitVec.toNat_setWidth, Nat.shiftLeft_eq, Nat.mod_eq_of_lt (by omega),
    Nat.mod_eq_of_lt (by omega), Nat.mod_eq_of_lt (by omega), ← Nat.shiftLeft_eq, ← join,
    Nat.shiftLeft_eq]

/-- The scan of clear instructions meets their uses of variables. -/
theorem extracts_of_clear {a : Nat} {ks : List Instr} {l : Scan} (text : c.Text a m ks)
    (here : l.i = a) (first : l.addrFirstMethodAfterMain = sizeMaxUint32)
    (whole : (m : Int) = c.codeMemSize) (fits : c.codeMemSize < 2 ^ 31)
    (noCall : ∀ k ∈ ks, k.op ≠ .invokevirtual) (clear : ClearFrom c l.nextWide ks) :
    Scan.Extracts c l (readings c ks) := by
  induction text generalizing l with
  | nil a => exact .outside (Scan.not_inside_iff.mpr (by omega))
  | @cons k b ks holds rest ih =>
      have le := rest.le
      have advances := k.opcodeAt_lt_next
      have noCall' := noCall k List.mem_cons_self
      have unchanged : l.Unchanged k := fun isVariable => (clear.1 isVariable).1
      rw [Scan.extracts_instr_iff holds here (by omega) (by rw [first, sizeMaxUint32]; omega)
        (fun call => absurd call noCall')]
      refine ⟨readings c ks, ?_, ?_⟩
      · rw [Scan.reading_atOpcode holds unchanged fun isVariable => (clear.1 isVariable).2]
        rfl
      · refine ih (Scan.next_atOpcode_i holds unchanged) ?_ whole
          (fun k' member => noCall k' (List.mem_cons_of_mem k member)) ?_
        · rw [Scan.next_atOpcode_first holds, if_neg noCall', first]
        · rw [Scan.next_atOpcode_nextWide holds]
          exact clear.2

/-- Where the scan reads the index of an instruction that is not clear, it has joined two
bytes 0. -/
theorem zeroed_of_unclear {k : Instr} {l : Scan} (isVariable : k.op.isVariable = true)
    (unclear : ¬ k.Clear c l.nextWide) (same : (l.atOpcode k).varIndex c = k.index c) :
    k.Zeroed c ∧ (l.atOpcode k).nextWide ≠ k.wide := by
  have flag : (l.atOpcode k).nextWide = (l.nextWide || k.wide) := rfl
  have at' : (l.atOpcode k).i = k.opcodeAt := rfl
  have bound := (c.short (k.opcodeAt + 1)).isLt
  have signed := BitVec.toInt_eq_toNat_cond (c.short (k.opcodeAt + 1))
  unfold Scan.varIndex Instr.index at same
  rw [flag, at'] at same
  cases wide : k.wide with
  | true =>
      -- The index is too large for a signed number.
      have large : ¬ (c.short (k.opcodeAt + 1)).toNat < 32768 := by
        intro small
        exact unclear fun _ => ⟨fun _ => wide, by rw [Instr.index, wide, if_pos rfl]; exact small⟩
      rw [wide, Bool.or_true, if_pos rfl, if_pos rfl, signed] at same
      split at same <;> omega
  | false =>
      -- The prefix of another instruction is pending.
      have high := (c.codeMem (k.opcodeAt + 1)).isLt
      have pending : l.nextWide = true := by
        by_contra none
        refine unclear fun _ => ⟨fun pending => absurd pending none, ?_⟩
        rw [Instr.index, wide, if_neg Bool.false_ne_true]
        omega
      have joined : (c.short (k.opcodeAt + 1)).toNat =
          (c.codeMem (k.opcodeAt + 1)).toNat * 256 + (c.codeMem (k.opcodeAt + 1 + 1)).toNat :=
        joinBytes_toNat _ _
      rw [wide, pending, Bool.true_or, if_pos rfl, if_neg Bool.false_ne_true, signed] at same
      have zero : (c.short (k.opcodeAt + 1)).toNat = 0 := by
        split at same <;> omega
      exact ⟨⟨isVariable, wide, BitVec.eq_of_toNat_eq zero⟩, by rw [flag, pending]; simp⟩

/-- The scan meets other uses than `step` if the instructions are not clear. Only with two
bytes 0 behind an opcode does it meet the same addresses and indices. -/
theorem clear_of_extracts {a : Nat} {ks : List Instr} {l : Scan} {us : List VarUse}
    (text : c.Text a m ks) (here : l.i = a) (first : l.addrFirstMethodAfterMain = sizeMaxUint32)
    (whole : (m : Int) = c.codeMemSize) (fits : c.codeMemSize < 2 ^ 31)
    (noCall : ∀ k ∈ ks, k.op ≠ .invokevirtual) (extracts : Scan.Extracts c l us)
    (pairs : us.map VarUse.pair = (readings c ks).map VarUse.pair) :
    ClearFrom c l.nextWide ks ∨ (us ≠ readings c ks ∧ ∃ k ∈ ks, k.Zeroed c) := by
  induction text generalizing l us with
  | nil a => exact Or.inl trivial
  | @cons k b ks holds rest ih =>
      have le := rest.le
      have advances := k.opcodeAt_lt_next
      have noCall' := noCall k List.mem_cons_self
      obtain ⟨us', rfl, extracts'⟩ := (Scan.extracts_instr_iff holds here (by omega)
        (by rw [first, sizeMaxUint32]; omega) fun call => absurd call noCall').mp extracts
      have split : readings c (k :: ks) = k.reading c ++ readings c ks := rfl
      by_cases clear : k.Clear c l.nextWide
      · -- The turns at this instruction are those of `step`.
        have unchanged : l.Unchanged k := fun isVariable => (clear isVariable).1
        have same := Scan.reading_atOpcode holds unchanged fun isVariable => (clear isVariable).2
        rw [split, same, List.map_append, List.map_append, List.append_cancel_left_eq] at pairs
        rcases ih (Scan.next_atOpcode_i holds unchanged)
          (by rw [Scan.next_atOpcode_first holds, if_neg noCall', first]) whole
          (fun k' member => noCall k' (List.mem_cons_of_mem k member)) extracts' pairs with
          clears | ⟨differ, k', member, zeroed⟩
        · rw [Scan.next_atOpcode_nextWide holds] at clears
          exact Or.inl ⟨clear, clears⟩
        · refine Or.inr ⟨?_, k', List.mem_cons_of_mem k member, zeroed⟩
          rw [split, same]
          exact fun eq => differ (List.append_cancel_left eq)
      · obtain ⟨isVariable, _⟩ := Classical.not_imp.mp clear
        have met : (l.atOpcode k).reading c =
            [⟨k.opcodeAt, (l.atOpcode k).nextWide, (l.atOpcode k).varIndex c⟩] := by
          rw [Scan.reading, Scan.opAt?_atOpcode holds, Option.any_some, if_pos isVariable]
          rfl
        have used : k.reading c = [⟨k.opcodeAt, k.wide, k.index c⟩] := if_pos isVariable
        rw [split, met, used] at pairs ⊢
        have index : (l.atOpcode k).varIndex c = k.index c :=
          congrArg Prod.snd (List.cons.inj pairs).1
        obtain ⟨zeroed, width⟩ := zeroed_of_unclear isVariable clear index
        exact Or.inr ⟨fun eq => width (congrArg VarUse.wide (List.cons.inj eq).1), k,
          List.mem_cons_self, zeroed⟩

end Scanning

theorem noCall_of_sequential {ks : List Instr} (sequential : ∀ k ∈ ks, k.op.sequential = true) :
    ∀ k ∈ ks, k.op ≠ .invokevirtual := by
  intro k member call
  have := sequential k member
  rw [call] at this
  contradiction

section Agreement

variable {env : Env} {s : State} {m : Nat} {ks : List Instr}

theorem clear_or_zeroed_of_pairs (fits : CodeFits s) (unprefixed : s.nextOpWide = false)
    (text : s.gCpu.Text 0 m ks) (whole : (m : Int) = s.gCpu.codeMemSize)
    (sequential : ∀ k ∈ ks, k.op.sequential = true) (pairs : ScanAgreesOnPairs s) :
    ClearFrom s.gCpu false ks ∨ ∃ k ∈ ks, k.Zeroed s.gCpu := by
  obtain ⟨us, us', decoded, extracts, same⟩ := pairs
  obtain rfl := decoded.unique (text.decodes whole unprefixed)
  exact (clear_of_extracts text rfl rfl whole fits (noCall_of_sequential sequential) extracts
    same).imp_right And.right

/-- On instructions that are executed in order, the scan agrees with `step` exactly if they
are clear. Where it agrees on addresses and indices only, it has joined two bytes 0. -/
theorem scan_agreement (fits : CodeFits s) (unprefixed : s.nextOpWide = false)
    (text : s.gCpu.Text 0 m ks) (whole : (m : Int) = s.gCpu.codeMemSize)
    (sequential : ∀ k ∈ ks, k.op.sequential = true) :
    (ScanAgrees env s ↔ ClearFrom s.gCpu false ks) ∧
      (ScanAgreesOnPairs s → ClearFrom s.gCpu false ks ∨ ∃ k ∈ ks, k.Zeroed s.gCpu) := by
  have decodes : DecodesInOrder (s.withPc 0) (readings s.gCpu ks) := text.decodes whole unprefixed
  have noCall := noCall_of_sequential sequential
  refine ⟨⟨?_, ?_⟩, clear_or_zeroed_of_pairs fits unprefixed text whole sequential⟩
  · rintro ⟨us, _, _, decoded, extracts, _, _⟩
    obtain rfl := decoded.unique decodes
    exact (clear_of_extracts text rfl rfl whole fits noCall extracts rfl).resolve_right
      fun ⟨differ, _⟩ => differ rfl
  · intro clear
    have extracts := extracts_of_clear (l := Scan.start) text rfl rfl whole fits noCall clear
    obtain ⟨es, run⟩ := extracts.returns env
    obtain ⟨_, above, _⟩ := foldl_countAfter ((readings s.gCpu ks).map VarUse.index) 0
    exact ⟨_, _, es, decodes, extracts, run, fun u member =>
      above u.index (List.mem_map_of_mem member)⟩

end Agreement

/-- A prefix before NOP, then a use of the variable 1. -/
def prefixedNop : State :=
  { State.fresh with gCpu := { State.fresh.gCpu with
      codeMemSize := 5
      codeMem := fun i => [0xC4, 0x00, 0x15, 1, 0x00].getD i.toNat 0 } }

def prefixedNopText : List Instr := [⟨0, 1, .nop⟩, ⟨2, 0, .iload⟩, ⟨4, 0, .nop⟩]

theorem prefixedNop_text : prefixedNop.gCpu.Text 0 5 prefixedNopText := by
  refine .cons (k := ⟨0, 1, .nop⟩) ⟨?_, rfl, nofun⟩ ?_
  · intro j _ below
    obtain rfl : j = 0 := Nat.lt_one_iff.mp below
    rfl
  refine .cons (k := ⟨2, 0, .iload⟩) (.unprefixed rfl nofun) ?_
  exact .cons (k := ⟨4, 0, .nop⟩) (.unprefixed rfl nofun) (.nil 5)

/-- The scan reads the index 256 where `step` reads 1. -/
theorem scan_disagrees_prefixedNop : ¬ ∀ (s : State) (m : Nat) (ks : List Instr), CodeFits s →
    s.nextOpWide = false → s.gCpu.Text 0 m ks → (m : Int) = s.gCpu.codeMemSize →
      (∀ k ∈ ks, k.op.sequential = true) → ScanAgreesOnPairs s := by
  intro agrees
  have pairs := agrees prefixedNop 5 prefixedNopText (by unfold CodeFits; decide) rfl
    prefixedNop_text rfl (by decide)
  have noZero : ¬ ∃ k ∈ prefixedNopText, k.Zeroed prefixedNop.gCpu := by decide
  have clear := (clear_or_zeroed_of_pairs (by unfold CodeFits; decide) rfl prefixedNop_text rfl
    (by decide) pairs).resolve_right noZero
  have wide := (clear.2.1 rfl).1 rfl
  contradiction

theorem scan_agreement_prefixedNop :
    (ScanAgrees Env.quiet prefixedNop ↔ ClearFrom prefixedNop.gCpu false prefixedNopText) ∧
      (ScanAgreesOnPairs prefixedNop → ClearFrom prefixedNop.gCpu false prefixedNopText ∨
        ∃ k ∈ prefixedNopText, k.Zeroed prefixedNop.gCpu) :=
  scan_agreement (by unfold CodeFits; decide) rfl prefixedNop_text rfl (by decide)

end Ijvm
