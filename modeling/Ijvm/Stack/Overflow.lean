import Ijvm.Machine.Exact
import Ijvm.Stack.Bounds
import Ijvm.Stack.Ladder
import Ijvm.Code.Branches
import Ijvm.Code.Fetch

/-!
# Computations that overflow

The sums and differences on `sp` and `fp` stay inside an `int`, since the stack has at most
`2 ^ 30` cells. ISUB and IINC overflow on operands that are far apart, the bounds check of an
array on the largest index, and a jump or the fetch of an argument at the end of a code that
is almost as large as an `int` can count. `Op.Fits` is the exact condition for each
instruction, and a run is exact as far as each of its steps meets its condition.
-/

namespace Ijvm

open Transcript Program

/-- The CPU without the top of its stack. -/
def Cpu.dropped (c : Cpu) : Cpu := { c with sp := c.sp - 1 }

/-- The minuend is at most `2 ^ 31` below the subtrahend, and less than that above. -/
def Subtracts (a b : Word) : Prop := b.toInt - 2 ^ 31 ≤ a.toInt ∧ a.toInt < b.toInt + 2 ^ 31

/-- The variable is not closer to a limit of `int` than the constant takes it. -/
def Increments (old : Word) (c : Byte) : Prop :=
  -2 ^ 31 - c.toInt ≤ old.toInt ∧ old.toInt < 2 ^ 31 - c.toInt

/-- The reference is that of an array, so that the index is compared with its size. -/
def State.Refers (s : State) (r : Word) : Prop :=
  isArrRef r = true ∧ refToIndex r < s.arrMem.size ∧ s.arrMem.flag (refToIndex r) = true ∧
    s.arrMem.value (refToIndex r) ≠ []

/-- The largest index of all is not used with this array. -/
def State.Indexes (s : State) (r i : Word) : Prop := s.Refers r → i.toInt < 2 ^ 31 - 1

/-- The target of a taken branch, and what is read before it, can be counted. -/
def Cpu.Branches (c : Cpu) (op : Op) : Prop :=
  c.Counts 2 ∧ (c.pc + 2 ≤ c.codeMemSize → op.Taken c → c.Counts (2 + (c.short c.pc - 3).toInt))

/-- The computations of the instruction do not overflow, in the state in which it is
executed. -/
def Op.Fits (t : State) : Op → Prop
  | .bipush => t.gCpu.Counts 1
  | .ldcW => t.gCpu.Counts 2
  | .iload => t.gCpu.Counts t.indexBytes
  | .istore => ¬ t.gCpu.Empty → t.gCpu.Counts t.indexBytes
  | .isub =>
      ¬ t.gCpu.Empty → ¬ t.gCpu.dropped.Empty →
        Subtracts (t.gCpu.stack (t.gCpu.sp - 1)) (t.gCpu.stack t.gCpu.sp)
  | .iinc =>
      t.gCpu.Counts t.indexBytes ∧
        (t.gCpu.pc + t.indexBytes ≤ t.gCpu.codeMemSize → t.gCpu.Counts (t.indexBytes + 1)) ∧
        ∀ i, t.incIndex? = some i → 0 ≤ i → i < t.gCpu.nv →
          Increments (t.gCpu.stack (t.gCpu.lv + i)) (t.gCpu.codeMem (t.gCpu.pc + t.indexBytes))
  | .ifeq => t.gCpu.Branches .ifeq
  | .iflt => t.gCpu.Branches .iflt
  | .icmpeq => t.gCpu.Branches .icmpeq
  | .goto => t.gCpu.Branches .goto
  | .invokevirtual =>
      t.gCpu.Counts 2 ∧ (t.gCpu.Calls → t.gCpu.methodAddress + 2 < 2 ^ 31 ∧
        (t.gCpu.methodAddress + 2 ≤ t.gCpu.codeMemSize → t.gCpu.methodAddress + 4 < 2 ^ 31))
  | .iaload =>
      ¬ t.gCpu.Empty → ¬ t.gCpu.dropped.Empty →
        t.Indexes (t.gCpu.stack t.gCpu.sp) (t.gCpu.stack (t.gCpu.sp - 1))
  | .iastore =>
      ¬ t.gCpu.Empty → ¬ t.gCpu.dropped.Empty → ¬ t.gCpu.dropped.dropped.Empty →
        t.Indexes (t.gCpu.stack t.gCpu.sp) (t.gCpu.stack (t.gCpu.sp - 1))
  | _ => True

/-- The run overflows nowhere exactly if `p` holds. -/
abbrev Exactly {α : Type} (o : Outcome State Event Stop α) (p : Prop) : Prop :=
  o.Decided Event.exact (fun _ _ => True) p

theorem Exactly.of_exact {α : Type} {m : VM α} (h : Exact m) (env : Env) (s : State) :
    Exactly (m.run env s) True :=
  ⟨fun _ _ _ _ => trivial, iff_true_intro (h.events env s)⟩

section Steps

variable {env : Env} {t : State} {β : Type} {p : Prop}

/-- Behind a program counter that is not negative, only the upper limit counts. -/
theorem Cpu.isInt_pc_iff {c : Cpu} (low : 0 ≤ c.pc) {n : Int} (near : -2 ^ 31 ≤ n) :
    IsInt (c.pc + n) ↔ c.Counts n :=
  and_iff_right (by omega)

theorem signed_then (v : Int) {f : Unit → VM β} (next : Exactly ((f ()).run env t) p) :
    Exactly ((signed v >>= f).run env t) (IsInt v ∧ p) := by
  rw [run_bind, run_signed, Outcome.andThen_done]
  exact next.prepend.congr (and_congr_left fun _ => List.forall_mem_singleton)

theorem pop_then (access : StackAccess) {f : Word → VM β}
    (next : ¬ t.gCpu.Empty → Exactly ((f (t.gCpu.stack t.gCpu.sp)).run env
      { t with gCpu := t.gCpu.dropped }) p) :
    Exactly ((stackPop access >>= f).run env t) (¬ t.gCpu.Empty → p) := by
  by_cases empty : t.gCpu.Empty
  · rw [run_bind, stackPop_empty _ empty, Outcome.andThen_stopped]
    exact Outcome.Decided.of_stopped (by simp) fun operand => absurd empty operand
  · rw [run_bind, stackPop_done _ empty, Outcome.andThen_done]
    refine ((next empty).prepend_kept (by simp [Event.exact])).congr ?_
    exact ⟨fun holds _ => holds, fun holds => holds empty⟩

/-- What follows computes nothing. -/
theorem then_exact {α : Type} {m : VM α} {f : α → VM β} (h : Exactly (m.run env t) p)
    (next : ∀ a, Exact (f a)) : Exactly ((m >>= f).run env t) p := by
  rw [run_bind]
  exact h.andThen fun a u _ => Exactly.of_exact (next a) env u

theorem argReads_exact {c : Cpu} {k : Nat} : ∀ e ∈ c.argReads k, e.exact := by
  intro e member
  obtain ⟨i, _, rfl, _⟩ := mem_argReads member
  trivial

/-- The tests of the fetches are computations, their reads are none. -/
theorem exact_rules : FetchRules env Event.exact (fun t => 0 ≤ t.gCpu.pc) (fun _ => True) where
  byte {α f p t} low next := by
    have counts : IsInt (t.gCpu.pc + 1) ↔ t.gCpu.Counts 1 := Cpu.isInt_pc_iff low (by decide)
    rw [run_bind, getArgByte_run]
    by_cases inside : t.gCpu.pc + 1 ≤ t.gCpu.codeMemSize
    · rw [if_neg (by omega), Outcome.andThen_done]
      have nonneg : 0 ≤ t.gCpu.pc + 1 := by omega
      refine (next inside nonneg).prepend.congr ?_
      simp [Event.exact, counts, inside]
    · rw [if_pos (by omega), Outcome.andThen_stopped]
      refine ⟨Outcome.returns_stopped, ?_⟩
      rw [and_iff_left fun inside' => absurd inside' inside, ← counts]
      exact List.forall_mem_cons.trans (and_iff_left argReads_exact)
  short {α f p t} low next := by
    have counts : IsInt (t.gCpu.pc + 2) ↔ t.gCpu.Counts 2 := Cpu.isInt_pc_iff low (by decide)
    rw [run_bind, getArgShort_run]
    by_cases inside : t.gCpu.pc + 2 ≤ t.gCpu.codeMemSize
    · rw [if_neg (by omega), Outcome.andThen_done]
      have nonneg : 0 ≤ t.gCpu.pc + 2 := by omega
      refine (next inside nonneg).prepend.congr ?_
      simp [Event.exact, counts, inside]
    · rw [if_pos (by omega), Outcome.andThen_stopped]
      refine ⟨Outcome.returns_stopped, ?_⟩
      rw [and_iff_left fun inside' => absurd inside' inside, ← counts]
      exact List.forall_mem_cons.trans (and_iff_left argReads_exact)

theorem argByte_then {f : Byte → VM β} (low : 0 ≤ t.gCpu.pc)
    (next : t.gCpu.pc + 1 ≤ t.gCpu.codeMemSize →
      Exactly ((f (t.gCpu.codeMem t.gCpu.pc)).run env (t.withPc (t.gCpu.pc + 1))) p) :
    Exactly ((getArgByte >>= f).run env t)
      (t.gCpu.Counts 1 ∧ (t.gCpu.pc + 1 ≤ t.gCpu.codeMemSize → p)) :=
  exact_rules.byte low fun inside _ => next inside

theorem argShort_then {f : BitVec 16 → VM β} (low : 0 ≤ t.gCpu.pc)
    (next : t.gCpu.pc + 2 ≤ t.gCpu.codeMemSize →
      Exactly ((f (t.gCpu.short t.gCpu.pc)).run env (t.withPc (t.gCpu.pc + 2))) p) :
    Exactly ((getArgShort >>= f).run env t)
      (t.gCpu.Counts 2 ∧ (t.gCpu.pc + 2 ≤ t.gCpu.codeMemSize → p)) :=
  exact_rules.short low fun inside _ => next inside

/-- An instruction that computes nothing once it has the index of a variable. -/
theorem varIndex_then {f : Int → VM β} (low : 0 ≤ t.gCpu.pc) (next : ∀ i, Exact (f i)) :
    Exactly ((getVarIndex >>= f).run env t) (t.gCpu.Counts t.indexBytes) :=
  exact_rules.varIndex low fun i u _ => Exactly.of_exact (next i) env u

end Steps

section Instructions

variable {env : Env} {t : State}

theorem local_exact (i : Int) : Exact (getLocalVariable i) :=
  .bind .get fun _ => .ite (.stop _) (.bind (.emit (by simp [Event.exact])) fun _ => .pure _)

theorem update_exact (v : Word) (i : Int) : Exact (updateLocalVariable v i) :=
  .bind .get fun _ => .ite (.stop _) (.bind (.emit (by simp [Event.exact])) fun _ => .modify _)

theorem constant_exact (i : Int) : Exact (getConstant i) :=
  .bind .get fun _ => .ite (.stop _) (.pure _)

/-- Operations on two operands that compute nothing in an `int`. -/
theorem binary_exact (f : Word → Word → Word) : Exact (execBinary (fun _ _ => []) f) :=
  .bind (stackPop_exact _) fun _ => .bind (stackPop_exact _) fun _ =>
    .bind (.emit (by simp)) fun _ => pushLast_exact _

theorem isInt_sub_iff (a b : Word) : IsInt (a.toInt - b.toInt) ↔ Subtracts a b := by
  rw [IsInt, Subtracts]
  omega

theorem isInt_add_iff (old : Word) (c : Byte) :
    IsInt (old.toInt + c.toInt) ↔ Increments old c := by
  rw [IsInt, Increments]
  omega

theorem isub_exactly : Exactly (execOpIsub.run env t) (Op.isub.Fits t) := by
  refine pop_then .pop fun _ => pop_then .pop fun _ => ?_
  rw [run_bind, run_emit, Outcome.andThen_done]
  refine (Exactly.of_exact (pushLast_exact _) env _).prepend.congr ?_
  rw [and_iff_left trivial, ← isInt_sub_iff]
  exact List.forall_mem_singleton

theorem increment_exactly (range : t.gCpu.InRange) (i : Int) (c : Byte) :
    Exactly ((increment i c).run env t)
      (0 ≤ i → i < t.gCpu.nv → Increments (t.gCpu.stack (t.gCpu.lv + i)) c) := by
  rw [increment, run_bind, getLocalVariable_run]
  by_cases inside : 0 ≤ i ∧ i < t.gCpu.nv
  · obtain ⟨size_lt, _, _, _, _, _, lv_nonneg, lv_lt, _, nv_lt⟩ := range
    have offset : (t.gCpu.lv + i) % 2 ^ 32 = t.gCpu.lv + i :=
      Int.emod_eq_of_lt (by omega) (by omega)
    rw [if_neg (by omega), Outcome.andThen_done, offset]
    refine ((signed_then _ (Exactly.of_exact (update_exact _ i) env t)).prepend_kept
      (by simp [Event.exact])).congr ?_
    rw [and_iff_left trivial, isInt_add_iff]
    exact ⟨fun fits _ _ => fits, fun fits => fits inside.1 inside.2⟩
  · rw [if_pos (by omega), Outcome.andThen_stopped]
    exact Outcome.Decided.of_stopped (by simp) fun low high => absurd ⟨low, high⟩ inside

/-- IINC behind its index, which is `i` and takes `n` bytes. -/
theorem constantByte_exactly (range : t.gCpu.InRange) {n : Int} (low : 0 ≤ t.gCpu.pc + n)
    (i : Int) :
    Exactly ((getArgByte >>= increment i).run env (t.withPc (t.gCpu.pc + n)))
      (t.gCpu.Counts (n + 1) ∧ (t.gCpu.pc + n + 1 ≤ t.gCpu.codeMemSize → 0 ≤ i → i < t.gCpu.nv →
        Increments (t.gCpu.stack (t.gCpu.lv + i)) (t.gCpu.codeMem (t.gCpu.pc + n)))) := by
  refine (argByte_then (t := t.withPc (t.gCpu.pc + n)) low fun _ =>
    increment_exactly (t := t.withPc (t.gCpu.pc + n + 1)) (range.withPc _) i _).congr ?_
  have counts : (t.withPc (t.gCpu.pc + n)).gCpu.Counts 1 ↔ t.gCpu.Counts (n + 1) := by
    rw [Cpu.Counts, Cpu.Counts, ← Int.add_assoc]
    rfl
  rw [counts]
  rfl

/-- What holds of an index that was read, with more to read behind it. -/
theorem forall_read_iff {near far c : Prop} [Decidable far] (within : far → near) {i : Int}
    {q : Int → Prop} : (near → c ∧ (far → q i)) ↔
      (near → c) ∧ ∀ j, (if far then some i else none) = some j → q j := by
  constructor
  · intro h
    refine ⟨fun first => (h first).1, fun j read => ?_⟩
    split at read
    · rename_i last
      rw [← Option.some.inj read]
      exact (h (within last)).2 last
    · contradiction
  · intro h first
    exact ⟨h.1 first, fun last => h.2 i (if_pos last)⟩

theorem iinc_exactly (range : t.gCpu.InRange) (low : 0 ≤ t.gCpu.pc) :
    Exactly (execOpIinc.run env t) (Op.iinc.Fits t) := by
  rw [execOpIinc, run_bind, run_get, Outcome.andThen_done, Outcome.prepend_nil]
  unfold Op.Fits State.indexBytes State.incIndex?
  by_cases wide : t.nextOpWide = true
  · rw [if_pos wide, bind_map_left]
    refine (argShort_then low fun _ => constantByte_exactly range (n := 2) (by omega) _).congr ?_
    have last : t.gCpu.pc + 2 + 1 = t.gCpu.pc + 3 := Int.add_assoc ..
    simp only [wide, if_true, last]
    exact and_congr_right fun _ => forall_read_iff (by omega) (q := fun i => 0 ≤ i →
      i < t.gCpu.nv → Increments (t.gCpu.stack (t.gCpu.lv + i)) _)
  · rw [if_neg wide, bind_map_left]
    rw [Bool.not_eq_true] at wide
    refine (argByte_then low fun _ => constantByte_exactly range (n := 1) (by omega) _).congr ?_
    have last : t.gCpu.pc + 1 + 1 = t.gCpu.pc + 2 := Int.add_assoc ..
    simp only [wide, Bool.false_eq_true, if_false, last]
    exact and_congr_right fun _ => forall_read_iff (by omega) (q := fun i => 0 ≤ i →
      i < t.gCpu.nv → Increments (t.gCpu.stack (t.gCpu.lv + i)) _)

theorem jump_exactly (low : 0 ≤ t.gCpu.pc) {offset : Int} (near : -2 ^ 31 ≤ offset) :
    Exactly ((jump offset).run env t) (t.gCpu.Counts offset) := by
  have counts : IsInt (t.gCpu.pc + offset) ↔ t.gCpu.Counts offset := Cpu.isInt_pc_iff low near
  rw [jump_run]
  split
  · exact ⟨Outcome.returns_stopped, List.forall_mem_singleton.trans counts⟩
  · exact ⟨fun _ _ _ _ => trivial, List.forall_mem_singleton.trans counts⟩

/-- A branch that takes its operands with `operands`, and then jumps if it is taken. -/
theorem branch_exactly {op : Op} (low : 0 ≤ t.gCpu.pc) {m : Int → VM Unit}
    (rest : ∀ offset, -2 ^ 15 ≤ offset → Exactly ((m offset).run env (t.withPc (t.gCpu.pc + 2)))
      (op.Taken t.gCpu → t.gCpu.Counts (2 + offset))) :
    Exactly ((getJumpOffset >>= m).run env t) (t.gCpu.Branches op) := by
  have near (d : BitVec 16) : -2 ^ 15 ≤ d.toInt := BitVec.le_toInt d
  rw [getJumpOffset, bind_assoc]
  simp only [pure_bind]
  exact argShort_then low fun _ => rest _ (near _)

theorem jump_taken {u : State} (low : 0 ≤ t.gCpu.pc) (pc : u.gCpu.pc = t.gCpu.pc + 2) {offset : Int}
    (near : -2 ^ 15 ≤ offset) :
    Exactly ((jump offset).run env u) (t.gCpu.Counts (2 + offset)) := by
  refine (jump_exactly (by omega) (by omega)).congr ?_
  rw [Cpu.Counts, Cpu.Counts]
  omega

/-- A jump under a condition. -/
theorem jump_if {u : State} {c : Prop} [Decidable c] (low : 0 ≤ t.gCpu.pc)
    (pc : u.gCpu.pc = t.gCpu.pc + 2) {offset : Int} (near : -2 ^ 15 ≤ offset) :
    Exactly ((if c then jump offset else pure ()).run env u)
      (c → t.gCpu.Counts (2 + offset)) := by
  by_cases taken : c
  · rw [if_pos taken]
    exact (jump_taken low pc near).congr (imp_iff_right taken).symm
  · rw [if_neg taken]
    exact (Exactly.of_exact (.pure ()) env u).congr (iff_of_true trivial fun h => absurd h taken)

theorem goto_exactly (low : 0 ≤ t.gCpu.pc) :
    Exactly (execOpGoto.run env t) (Op.goto.Fits t) :=
  branch_exactly low fun _ near => (jump_taken low rfl near).congr (imp_iff_right trivial).symm

theorem ifeq_exactly (low : 0 ≤ t.gCpu.pc) :
    Exactly (execOpIfeq.run env t) (Op.ifeq.Fits t) :=
  branch_exactly low fun _ near =>
    (pop_then .pop fun _ => jump_if low rfl near).congr and_imp.symm

theorem iflt_exactly (low : 0 ≤ t.gCpu.pc) :
    Exactly (execOpIflt.run env t) (Op.iflt.Fits t) :=
  branch_exactly low fun _ near =>
    (pop_then .pop fun _ => jump_if low rfl near).congr and_imp.symm

theorem icmpeq_exactly (low : 0 ≤ t.gCpu.pc) :
    Exactly (execOpIcmpeq.run env t) (Op.icmpeq.Fits t) :=
  branch_exactly low fun _ near =>
    (pop_then .pop fun _ => pop_then .pop fun _ => jump_if low rfl near).congr
      (by simp only [Op.Taken, and_imp]; rfl)

theorem bounds_exactly (r i : Word) :
    Exactly ((arrCheckBounds r i).run env t) (t.Indexes r i) := by
  have largest : IsInt (i.toInt + 1) ↔ i.toInt < 2 ^ 31 - 1 := by
    have low : -2 ^ 31 ≤ i.toInt := BitVec.le_toInt i
    rw [IsInt]
    omega
  by_cases tagged : isArrRef r = true
  swap
  · rw [arrCheckBounds, if_pos (by simpa using tagged)]
    exact (Exactly.of_exact (.stop _) env t).congr
      (iff_of_true trivial fun refers => absurd refers.1 tagged)
  rw [arrCheckBounds, if_neg (by simp [tagged]), run_bind, marrGetElement, run_bind, run_get,
    Outcome.andThen_done, Outcome.prepend_nil]
  have missing {e : Err} (not : ¬ t.Refers r) :
      Exactly (.stopped (.error e) t [] : Outcome State Event Stop Unit) (t.Indexes r i) :=
    .of_stopped (by simp) fun refers => absurd refers not
  by_cases beyond : refToIndex r ≥ t.arrMem.size
  · rw [if_pos (show refToIndex r ≥ (arrMem.get t).size from beyond)]
    exact missing fun refers => absurd refers.2.1 (Nat.not_lt.mpr beyond)
  rw [if_neg (show ¬ refToIndex r ≥ (arrMem.get t).size from beyond)]
  by_cases claimed : t.arrMem.flag (refToIndex r) = true
  swap
  · rw [if_pos (show (arrMem.get t).flag (refToIndex r) ≠ true from claimed)]
    exact missing fun refers => claimed refers.2.2.1
  rw [if_neg (show ¬ (arrMem.get t).flag (refToIndex r) ≠ true from not_not.mpr claimed), run_pure,
    Outcome.andThen_done, Outcome.prepend_nil]
  by_cases null : t.arrMem.value (refToIndex r) = []
  · rw [if_pos (show (arrMem.get t).value (refToIndex r) = [] from null)]
    exact missing fun refers => refers.2.2.2 null
  rw [if_neg (show ¬ (arrMem.get t).value (refToIndex r) = [] from null)]
  refine (signed_then _ (Exactly.of_exact (.ite (.stop _) (.pure _)) env t)).congr ?_
  rw [and_iff_left trivial, largest]
  exact (imp_iff_right ⟨tagged, Nat.lt_of_not_le beyond, claimed, null⟩).symm

theorem iaload_exactly : Exactly (execOpIaload.run env t) (Op.iaload.Fits t) := by
  refine pop_then .pop fun _ => pop_then .pop fun _ => then_exact ?_ fun _ => pushLast_exact _
  exact then_exact (bounds_exactly _ _) fun _ => .bind (marrGetElement_exact arrMem _) fun _ =>
    .pure _

theorem iastore_exactly : Exactly (execOpIastore.run env t) (Op.iastore.Fits t) := by
  refine pop_then .pop fun _ => pop_then .pop fun _ => pop_then .pop fun _ => ?_
  exact then_exact (bounds_exactly _ _) fun _ => .bind (marrGetElement_exact arrMem _) fun _ =>
    .modify _

end Instructions

section Frames

variable {env : Env} {t : State}

/-- The stack has at most `2 ^ 30` cells, and `sp` is one of them, or below them. -/
structure Cpu.Compact (c : Cpu) : Prop where
  size_le : c.stackSize ≤ 2 ^ 30
  sp_ge : -1 ≤ c.sp
  sp_lt : c.sp < c.stackSize

theorem pushLinkage_exact (oldPc : Int) : Exact (pushLinkage oldPc) := by
  have push {e : State → Word} {rest : VM Bool} (next : Exact rest) :
      Exact (get >>= fun s => stackPush (e s) >>= fun b =>
        if b ≠ true then Pure.pure false else rest) :=
    .bind .get fun _ => .bind (stackPush_exact _) fun _ => .ite (.pure _) next
  exact push (push (push (stackPush_exact _)))

theorem clearCells_exact (start : Int) (n : Nat) : Exact (clearCells start n) := by
  refine .bind .get fun _ => .bind (.emit fun e member => ?_) fun _ => .modify _
  obtain ⟨k, _, rfl⟩ := List.mem_map.mp member
  trivial

/-- What a call pushes above the local variables, and the registers of its frame. -/
theorem framing_exactly (sized : t.gCpu.Sized) (sp_ge : -1 ≤ t.gCpu.sp)
    (sp_le : t.gCpu.sp ≤ 2 ^ 30 + 2 ^ 16) (oldPc : Int) {numArgs numLocals : Nat}
    (args : numArgs < 2 ^ 16) (locals : numLocals < 2 ^ 16) :
    Exactly ((do
      if (← pushLinkage oldPc) ≠ true then
        destroyIjvmNow .invokePush
      else
        setFrame numArgs numLocals
        let lv := (← get).gCpu.lv
        if lv < 0 then
          destroyIjvmNow .invokeArgs
        else
          clearCells (lv + numArgs) numLocals : VM Unit).run env t) True := by
  have exact := (pushLinkage_exact oldPc).events env t
  have spec : Invoking t.gCpu ((pushLinkage oldPc).run env t) fun b u =>
      b = true ∧ Linked t.gCpu oldPc u.gCpu ∧ u.nextOpWide = t.nextOpWide :=
    pushLinkage_invoking sized (Int.le_refl _) oldPc
  rw [run_bind]
  cases run : (pushLinkage oldPc).run env t with
  | stopped r u es =>
      rw [run] at exact
      exact .of_stopped exact trivial
  | done b u es =>
      rw [run] at exact spec
      obtain ⟨⟨rfl, linked, _⟩, _⟩ := spec
      have sp : u.gCpu.sp = t.gCpu.sp + 4 := by rw [linked.eq]
      rw [Outcome.andThen_done, if_neg (by simp)]
      refine Outcome.Decided.prepend_kept ?_ exact
      rw [run_bind, setFrame_run, Outcome.andThen_done]
      refine Outcome.Decided.prepend_kept (Exactly.of_exact ?_ env _) ?_
      · exact .bind .get fun _ => .ite (.stop _) (clearCells_exact _ _)
      · simp only [List.mem_cons, List.not_mem_nil, or_false, forall_eq_or_imp, forall_eq,
          Event.exact, IsInt]
        omega

/-- The registers of a new frame do not overflow. -/
theorem pushFrame_exactly (compact : t.gCpu.Compact) (oldPc : Int) {numArgs numLocals : Nat}
    (args : numArgs < 2 ^ 16) (locals : numLocals < 2 ^ 16) :
    Exactly ((pushFrame oldPc numArgs numLocals).run env t) True := by
  obtain ⟨size_le, sp_ge, sp_lt⟩ := compact
  have raised : IsInt (t.gCpu.sp + numLocals) := ⟨by omega, by omega⟩
  rw [pushFrame, run_bind, run_get, Outcome.andThen_done, Outcome.prepend_nil]
  refine (signed_then _ ?_).congr (and_iff_right raised)
  rw [run_bind, run_modifyCpu, Outcome.andThen_done, Outcome.prepend_nil]
  refine framing_exactly ⟨?_, ?_⟩ ?_ ?_ oldPc args locals
  all_goals dsimp only; omega

theorem invokevirtual_exactly (compact : t.gCpu.Compact) (low : 0 ≤ t.gCpu.pc) :
    Exactly (execOpInvokevirtual.run env t) (Op.invokevirtual.Fits t) :=
  exact_rules.invokevirtual low (fun address _ => address) fun oldPc pc _ _ _ =>
    pushFrame_exactly (t := t.withPc pc) ⟨compact.size_le, compact.sp_ge, compact.sp_lt⟩ oldPc
      (BitVec.isLt _) (BitVec.isLt _)

theorem ireturn_exactly (range : t.gCpu.InRange) (size_le : t.gCpu.stackSize ≤ 2 ^ 30) :
    Exactly (execOpIreturn.run env t) True := by
  obtain ⟨_, _, sp_ge, sp_lt, fp_nonneg, fp_lt, _, _, nv_nonneg, nv_lt⟩ := id range
  have first : IsInt (t.gCpu.fp + 3) := ⟨by omega, by omega⟩
  have second : IsInt (t.gCpu.fp - 1 - t.gCpu.nv) := ⟨by omega, by omega⟩
  by_cases empty : t.gCpu.Empty
  · rw [execOpIreturn, run_bind, stackPop_empty _ empty]
    exact .of_stopped (by simp) trivial
  by_cases linkage : t.gCpu.lv ≤ t.gCpu.fp
  · rw [execOpIreturn_run empty linkage fp_nonneg]
    refine Outcome.Decided.prepend_kept ?_ (by simp [returnEvents, Event.exact, first, second])
    split
    · exact .of_stopped (by simp) trivial
    · exact Exactly.of_exact (pushLast_exact (t.gCpu.stack t.gCpu.sp)) env
        { t with gCpu := t.gCpu.returned }
  · obtain ⟨u, es, run, reads, _⟩ :=
      execOpIreturn_stops env empty fp_nonneg (Int.lt_of_not_ge linkage)
    rw [run]
    refine .of_stopped (fun e member => ?_) trivial
    rcases List.mem_cons.mp member with rfl | member
    · trivial
    rcases List.mem_cons.mp member with rfl | member
    · exact first
    · obtain ⟨i, rfl, _⟩ := reads e member
      trivial

end Frames

section Machine

variable {env : Env} {file : List Byte} {s t : State}

/-- The condition is exact for each instruction. -/
theorem execOp_exactly {op : Op} (range : t.gCpu.InRange) (size_le : t.gCpu.stackSize ≤ 2 ^ 30)
    (low : 0 ≤ t.gCpu.pc) (unprefixed : op ≠ .wide) (nested : VM Bool) :
    Exactly ((execOp nested op).run env t) (op.Fits t) := by
  have exact {m : VM Unit} (h : Exact m) : Exactly (m.run env t) True := Exactly.of_exact h env t
  cases op with
  | wide => exact absurd rfl unprefixed
  | isub => exact isub_exactly
  | iinc => exact iinc_exactly range low
  | goto => exact goto_exactly low
  | ifeq => exact ifeq_exactly low
  | iflt => exact iflt_exactly low
  | icmpeq => exact icmpeq_exactly low
  | iaload => exact iaload_exactly
  | iastore => exact iastore_exactly
  | ireturn => exact ireturn_exactly range size_le
  | invokevirtual => exact invokevirtual_exactly ⟨size_le, range.sp_ge, range.sp_lt⟩ low
  | bipush =>
      exact (argByte_then low fun _ => Exactly.of_exact (pushLast_exact _) env _).congr
        (and_iff_left fun _ => trivial)
  | ldcW =>
      exact (argShort_then low fun _ => Exactly.of_exact
        (.bind (constant_exact _) fun _ => pushLast_exact _) env _).congr
        (and_iff_left fun _ => trivial)
  | iload => exact varIndex_then low fun i => .bind (local_exact i) fun _ => pushLast_exact _
  | istore => exact pop_then .pop fun _ => varIndex_then low fun i => update_exact _ i
  | nop => exact exact (.pure ())
  | pop => exact exact (.bind (stackPop_exact _) fun _ => .pure _)
  | dup =>
      exact exact (.bind .get fun _ => .bind (.emit (by simp [Event.exact])) fun _ =>
        pushLast_exact _)
  | swap =>
      exact exact (.bind (stackPop_exact _) fun _ => .bind (stackPop_exact _) fun _ =>
        .bind (stackPush_exact _) fun _ => pushLast_exact _)
  | iadd | iand | ior => exact exact (binary_exact _)
  | «in» =>
      have getc_exact : Exact getc := by
        refine .bind .get fun s => ?_
        cases s.inFile with
        | nil => exact .pure _
        | cons b rest => exact .bind (.modify fun _ => _) fun _ => .pure _
      refine exact (.bind getc_exact fun c => ?_)
      cases c with
      | none => exact pushLast_exact _
      | some b => exact pushLast_exact _
  | out => exact exact (.bind (stackPop_exact _) fun _ => .modify _)
  | err | halt => exact exact (.modify _)
  | newarray =>
      exact exact (.bind (stackPop_exact _) fun _ => .bind (arrCreate_exact _) fun _ =>
        pushLast_exact _)
  | gc => exact exact (.bind arrGc_exact fun _ => .pure _)
  | netbind =>
      exact exact (.bind (stackPop_exact _) fun _ => .bind (netBind_exact _) fun _ =>
        pushLast_exact _)
  | netconnect =>
      exact exact (.bind (stackPop_exact _) fun _ => .bind (stackPop_exact _) fun _ =>
        .bind (netConnect_exact _ _) fun _ => pushLast_exact _)
  | netin =>
      exact exact (.bind (stackPop_exact _) fun _ => .bind (netRecv_exact _) fun _ =>
        pushLast_exact _)
  | netout =>
      exact exact (.bind (stackPop_exact _) fun _ => .bind (stackPop_exact _) fun _ =>
        netSend_exact _ _)
  | netclose => exact exact (.bind (stackPop_exact _) fun _ => netClose_exact _)

/-- The instruction of the next step fits. -/
def State.Fits (s : State) : Prop := ∀ a op, s.Executes a op → op.Fits (s.atOp a)

/-- The computations of a step overflow exactly if its instruction does not fit. -/
theorem step_exact_iff (range : s.gCpu.InRange) (size_le : s.gCpu.stackSize ≤ 2 ^ 30) :
    (∀ e ∈ (step.run env s).events, e.exact) ↔ s.Fits := by
  cases found : s.gCpu.opAddr? with
  | none =>
      obtain ⟨t, es, run, codes⟩ := step_stops env found
      rw [run]
      refine iff_of_true (fun e member => ?_) fun a op executes => ?_
      · obtain ⟨i, rfl⟩ := codes e member
        trivial
      · rw [executes.found] at found
        contradiction
  | some a =>
      obtain ⟨es, fetches, run⟩ := step_run env found
      rw [run]
      have fetched : ∀ e ∈ es, e.exact := by
        intro e member
        obtain ⟨i, rfl, _⟩ := fetches e member
        trivial
      have ends (b : Bool) (u : State) : Exactly (endOfStep s.gCpu.pc a b u) True := by
        obtain ⟨flag, ending⟩ := endOfStep_done s.gCpu.pc a b u
        rw [ending]
        exact ⟨fun _ _ _ _ => trivial, iff_true_intro (by simp)⟩
      suffices executed : Exactly ((execAt s.gCpu a).run env (s.atOp a)) s.Fits from
        ((executed.andThen fun b u _ => ends b u).prepend_kept fetched).keeps
      cases decoded : Op.ofByte? (s.gCpu.codeMem a) with
      | some op =>
          have executes : s.Executes a op := ⟨found, decoded⟩
          have low : 0 ≤ a + 1 := by
            have := (opAddrFrom_bounds found).2.1
            omega
          rw [execAt_run executes]
          refine ((execOp_exactly (t := s.atOp a) (range.withPc _) size_le low
            executes.unprefixed (pure true)).andThen fun _ _ _ => .of_done trivial trivial).congr ?_
          constructor
          · intro fits a' op' executes'
            obtain ⟨rfl, rfl⟩ := executes.unique executes'
            exact fits
          · exact fun fits => fits a op executes
      | none =>
          rw [execAt, dispatch_none decoded]
          refine (Exactly.of_exact (.bind (.modify _) fun _ => .pure _) env _).congr ?_
          refine iff_of_true trivial fun a' op executes => ?_
          obtain rfl := Option.some.inj (found.symm.trans executes.found)
          rw [executes.decoded] at decoded
          contradiction

/-- A stack of at most `2 ^ 30` cells. -/
def Cpu.Small (c : Cpu) : Prop := 0 ≤ c.stackSize ∧ c.stackSize ≤ 2 ^ 30

/-- A stack grows only up to `2 ^ 30` cells. -/
theorem small_rules : StackRules Cpu.Small Cpu.Small (fun _ => True) fun _ _ => True where
  growth := {
    sized := fun h => ⟨h.1, by have := h.2; omega⟩
    octupled := fun h growable _ => by
      obtain ⟨nonneg, _⟩ := h
      obtain ⟨_, few⟩ := growable
      simp only [Cpu.Small, Cpu.octupled]
      omega
    aside := fun _ _ => trivial
    stops := fun _ _ _ => trivial }
  weaken h := h
  raised h := h
  settled h _ := h
  popped h _ := h
  same h _ size := by
    rw [Cpu.Small, size]
    exact h
  computing _ := trivial
  access _ _ := trivial

theorem step_small (h : s.gCpu.Small) : (step.run env s).Returns fun _ u => u.gCpu.Small := by
  have rules : MachineRules (StackRules.Survives Cpu.Small (fun _ => True) fun _ _ => True) := {
    toFrameRules := small_rules.rules
    registers := fun size => .modify fun u small => by
      rw [Cpu.Small, size]
      exact small
    linkage := small_rules.pop .linkage nofun
    clear := small_rules.clearCells
    prefixed := fun _ => .modify fun _ small => small }
  exact (rules.step env s h).returns fun _ _ _ final => final.1

/-- The stack of a run has at most `2 ^ 30` cells. -/
theorem Reachable.small (reached : Reachable env file s) : s.gCpu.Small := by
  induction reached with
  | @start s es init =>
      have started : after env file 0 = some s := by simp [after, init]
      obtain ⟨n, _, few, _, size⟩ := sizedFor_of_after started
      rw [Cpu.Small]
      split at size
      · omega
      · split at size <;> omega
  | step _ _ execution ih => exact step_small ih _ _ _ execution

/-- No computation of the first `n + 1` turns of the loop of `run` overflows. -/
def RunExact (env : Env) (file : List Byte) (n : Nat) : Prop :=
  ∀ m ≤ n, ∀ s, after env file m = some s → finished s.gCpu = false →
    ∀ e ∈ (step.run env s).events, e.exact

/-- The instructions of these turns fit. -/
def RunFits (env : Env) (file : List Byte) (n : Nat) : Prop :=
  ∀ m ≤ n, ∀ s, after env file m = some s → finished s.gCpu = false → s.Fits

/-- The computations of a run stay inside an `int` exactly as long as each instruction
fits. -/
theorem runExact_iff (env : Env) (file : List Byte) (n : Nat) :
    RunExact env file n ↔ RunFits env file n :=
  turns_iff fun _ reached _ => step_exact_iff reached.inRange reached.small.2

/-- The difference of 0 and the smallest number. -/
def negateSmallest : List Byte :=
  assemble [0x80000000] [Op.bipush.code, 0, Op.ldcW.code, 0, 0, Op.isub.code, Op.halt.code]

/-- The third instruction computes `2 ^ 31`. -/
theorem negateSmallest_overflows : ¬ ∀ env file n, RunExact env file n := by
  intro exact
  have overflow : (after Env.quiet negateSmallest 2).any (fun s => !finished s.gCpu &&
      decide (¬ ∀ e ∈ (step.run Env.quiet s).events, e.exact)) = true := by decide +kernel
  exact exists_turn_not overflow (exact Env.quiet negateSmallest 2)

end Machine

end Ijvm
