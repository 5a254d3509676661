import Ijvm.Stack.Frames
import Ijvm.Stack.Plain
import Ijvm.Transcript.Decided
import Ijvm.Machine.Started

/-!
# Registers in range, and accesses inside the stack

`Cpu.InRange` holds in every state between two instructions: the checks of IRETURN and
INVOKEVIRTUAL restore it whatever words the program left in place of the linkage. It is
enough to keep pushes, pops and the frame of a call inside the stack. Five instructions
use cells that it says nothing about; `Op.Inside` is the exact condition for each, and a
run stays inside the stack exactly as far as each of its steps meets its condition.
-/

namespace Ijvm

open Transcript Program

/-- The ranges of the registers and sizes, between two instructions. -/
structure Cpu.InRange (c : Cpu) : Prop where
  size_lt : c.stackSize < 2 ^ 31
  code_lt : c.codeMemSize < 2 ^ 31
  sp_ge : -1 ≤ c.sp
  sp_lt : c.sp < c.stackSize
  fp_nonneg : 0 ≤ c.fp
  fp_lt : c.fp < c.stackSize
  lv_nonneg : 0 ≤ c.lv
  lv_lt : c.lv < c.stackSize
  nv_nonneg : 0 ≤ c.nv
  nv_lt : c.nv < 2 ^ 31

theorem Cpu.InRange.sized {c : Cpu} (h : c.InRange) : c.Sized :=
  ⟨Int.le_of_lt (Int.lt_of_le_of_lt h.lv_nonneg h.lv_lt), h.size_lt⟩

/-- The ranges do not depend on these. -/
theorem Cpu.InRange.withControl {c : Cpu} (h : c.InRange) (pc : Int) (stack : Int → Word)
    (errorFlag haltFlag : Bool) : { c with pc, stack, errorFlag, haltFlag }.InRange :=
  ⟨h.size_lt, h.code_lt, h.sp_ge, h.sp_lt, h.fp_nonneg, h.fp_lt, h.lv_nonneg, h.lv_lt,
    h.nv_nonneg, h.nv_lt⟩

theorem Cpu.InRange.withPc {c : Cpu} (h : c.InRange) (pc : Int) : { c with pc := pc }.InRange :=
  h.withControl pc c.stack c.errorFlag c.haltFlag

theorem Cpu.InRange.withStack {c : Cpu} (h : c.InRange) (stack : Int → Word) :
    { c with stack := stack }.InRange :=
  h.withControl c.pc stack c.errorFlag c.haltFlag

/-- A stack access lies inside the stack as it is at that moment. The scan of the
collector is no access of an instruction. -/
def Event.inStack : Event → Prop
  | .stack access i n => access = .root ∨ (0 ≤ i ∧ i < n)
  | _ => True

instance : DecidablePred Event.inStack
  | .stack access i n => inferInstanceAs (Decidable (access = .root ∨ (0 ≤ i ∧ i < n)))
  | .code _ _ | .signed _ | .gc _ | .sys _ _ => .isTrue trivial

theorem Event.quiet.inStack {e : Event} (h : e.quiet) : e.inStack := by
  cases e with
  | stack access i n => exact Or.inl h
  | _ => trivial

theorem InvokeEvent.inStack {c : Cpu} (range : c.InRange) {e : Event} (h : InvokeEvent c e) :
    e.inStack := by
  rcases h with quiet | ⟨i, n, rfl⟩ | ⟨access, i, n, rfl, _, above, below⟩
  · exact quiet.inStack
  · trivial
  · have := range.sp_ge
    exact Or.inr ⟨by omega, below⟩

theorem Pushed.inRange {c c' : Cpu} {e : Word} (pushed : Pushed c e c') (range : c.InRange) :
    c'.InRange := by
  obtain ⟨eq, size_le, inside, sized⟩ := pushed
  obtain ⟨_, code_lt, sp_ge, _, fp_nonneg, fp_lt, lv_nonneg, lv_lt, nv_nonneg, nv_lt⟩ := range
  rw [eq]
  refine ⟨sized.bound, code_lt, ?_, inside, fp_nonneg, ?_, lv_nonneg, ?_, nv_nonneg, nv_lt⟩
  · show -1 ≤ c.sp + 1
    omega
  · exact Int.lt_of_lt_of_le fp_lt size_le
  · exact Int.lt_of_lt_of_le lv_lt size_le

/-- Pushing and popping keep the registers in range, inside the stack. -/
theorem primitives_inRange :
    Primitives (fun _ => True) (fun t => t.gCpu.InRange) Event.inStack where
  quiet h := h.keeps (J := fun c _ => c.InRange) fun _ => Event.quiet.inStack
  control s pc errorFlag haltFlag _ _ h := h.withControl pc s.gCpu.stack errorFlag haltFlag
  code _ _ := trivial
  signed _ := trivial
  pop := by
    intro env s h _
    rw [stackPop_run]
    by_cases empty : s.gCpu.Empty
    · rw [if_pos empty]
      exact ⟨Outcome.returns_stopped, by simp⟩
    · rw [if_neg empty]
      rw [Cpu.not_empty_iff] at empty
      have sp_lt := h.sp_lt
      refine ⟨Outcome.returns_done.mpr ⟨h.size_lt, h.code_lt, ?_, ?_, h.fp_nonneg, h.fp_lt,
        h.lv_nonneg, h.lv_lt, h.nv_nonneg, h.nv_lt⟩, ?_⟩
      · show -1 ≤ s.gCpu.sp - 1
        omega
      · show s.gCpu.sp - 1 < s.gCpu.stackSize
        omega
      · simp only [Outcome.events_done, List.mem_singleton, forall_eq, Event.inStack]
        omega
  push e := by
    apply Ensures.of_satisfies
    intro env s h
    refine (stackPush_satisfies h.sized e).mono ?_ ?_
    · rintro b t es ⟨rfl, pushed, _, events⟩
      refine ⟨pushed.inRange h, fun ev member => ?_⟩
      rcases events ev member with quiet | rfl
      · exact quiet.inStack
      · have sp_ge := h.sp_ge
        exact Or.inr ⟨by omega, pushed.inside⟩
    · intro r t es refused ev member
      exact (refused.quiet ev member).inStack

/-- The cells that an instruction uses other than by pushing and popping are inside the
stack, in the state in which it is executed. -/
def Op.Inside (t : State) : Op → Prop
  | .dup => 0 ≤ t.gCpu.sp
  | .iload => ∀ i, t.varIndex? = some i → i < t.gCpu.nv → t.gCpu.lv + i < t.gCpu.stackSize
  | .istore => ¬ t.gCpu.Empty →
      ∀ i, t.varIndex? = some i → i < t.gCpu.nv → t.gCpu.lv + i < t.gCpu.stackSize
  | .iinc =>
      ∀ i, t.incIndex? = some i → 0 ≤ i → i < t.gCpu.nv → t.gCpu.lv + i < t.gCpu.stackSize
  | .ireturn => ¬ t.gCpu.Empty → t.gCpu.lv ≤ t.gCpu.fp + 3 → t.gCpu.fp + 3 < t.gCpu.stackSize
  | _ => True

/-- The run ends with registers in range, and is inside the stack exactly if `p` holds. -/
abbrev Judged {α : Type} (o : Outcome State Event Stop α) (p : Prop) : Prop :=
  o.Decided Event.inStack (fun _ t => t.gCpu.InRange) p

theorem Event.offStack.inStack {e : Event} (h : e.offStack) : e.inStack := by
  cases e with
  | stack access i n => exact h.elim
  | _ => trivial

section Instructions

variable {env : Env} {t : State}

theorem push_judged (range : t.gCpu.InRange) (e : Word) :
    Judged ((do let _ ← stackPush e : VM Unit).run env t) True :=
  .of_ensures (.bind (primitives_inRange.push e) fun _ => .pure fun _ h => h) env range trivial

theorem dup_judged (range : t.gCpu.InRange) : Judged (execOpDup.run env t) (Op.dup.Inside t) := by
  simp only [execOpDup, Program.run_bind, Program.run_get, Program.run_emit, Outcome.andThen_done,
    Outcome.prepend_nil]
  rw [← Program.run_bind]
  refine (push_judged range _).prepend.congr ?_
  have := range.sp_lt
  simp only [List.mem_singleton, forall_eq, Event.inStack, Op.Inside]
  simp
  omega

/-- A read of a local variable, and what follows. -/
theorem load_judged (range : t.gCpu.InRange) {i : Int} {α : Type} {f : Word → VM α} {p : Prop}
    (next : ∀ w, Judged ((f w).run env t) p) :
    Judged ((getLocalVariable i >>= f).run env t)
      (0 ≤ i → i < t.gCpu.nv → t.gCpu.lv + i < t.gCpu.stackSize ∧ p) := by
  rw [Program.run_bind, getLocalVariable_run]
  split
  · exact .of_stopped (by simp) (by omega)
  · rename_i inside
    obtain ⟨size_lt, _, _, _, _, _, lv_nonneg, lv_lt, _, nv_lt⟩ := range
    have offset : (t.gCpu.lv + i) % 2 ^ 32 = t.gCpu.lv + i :=
      Int.emod_eq_of_lt (by omega) (by omega)
    rw [offset, Outcome.andThen_done]
    refine (next _).prepend.congr ?_
    simp only [List.mem_singleton, forall_eq, Event.inStack]
    constructor
    · rintro ⟨access, hp⟩ _ _
      exact ⟨by simpa using (access.resolve_left (by decide)).2, hp⟩
    · intro h
      obtain ⟨below, hp⟩ := h (by omega) (by omega)
      exact ⟨Or.inr ⟨by omega, below⟩, hp⟩

/-- A write to a local variable. -/
theorem store_judged (range : t.gCpu.InRange) (v : Word) (i : Int) :
    Judged ((updateLocalVariable v i).run env t)
      (0 ≤ i → i < t.gCpu.nv → t.gCpu.lv + i < t.gCpu.stackSize) := by
  rw [updateLocalVariable_run]
  split
  · exact .of_stopped (by simp) (by omega)
  · have := range.lv_nonneg
    refine ⟨Outcome.returns_done.mpr (range.withStack _), ?_⟩
    simp only [Outcome.events_done, List.mem_singleton, forall_eq, Event.inStack]
    simp
    omega

/-- An instruction that first reads the index of a variable. -/
theorem varIndex_judged {f : Int → VM Unit} {p : Int → Prop}
    (next : ∀ i pc, Judged ((f i).run env (t.withPc pc)) (0 ≤ i → p i)) :
    Judged ((getVarIndex >>= f).run env t) (∀ i, t.varIndex? = some i → p i) := by
  rw [Program.run_bind]
  cases found : t.varIndex? with
  | none =>
      obtain ⟨e, es, run, off⟩ := getVarIndex_none env found
      rw [run]
      exact .of_stopped (fun ev member => (off ev member).inStack) (by simp)
  | some i =>
      obtain ⟨nonneg, _, pc, es, run, off⟩ := getVarIndex_some env found
      rw [run, Outcome.andThen_done]
      refine ((next i pc).prepend_kept fun ev member => (off ev member).inStack).congr ?_
      simp [nonneg]

theorem iload_judged (range : t.gCpu.InRange) :
    Judged (execOpIload.run env t) (Op.iload.Inside t) := by
  apply varIndex_judged (p := fun i => i < t.gCpu.nv → t.gCpu.lv + i < t.gCpu.stackSize)
  intro i pc
  have range' : (t.withPc pc).gCpu.InRange := range.withPc pc
  refine (load_judged range' fun w => push_judged range' w).congr ?_
  simp [State.withPc]

theorem storeVariable_judged (env : Env) (range : t.gCpu.InRange) (v : Word) :
    Judged ((getVarIndex >>= updateLocalVariable v).run env t)
      (∀ i, t.varIndex? = some i → i < t.gCpu.nv → t.gCpu.lv + i < t.gCpu.stackSize) := by
  apply varIndex_judged (p := fun i => i < t.gCpu.nv → t.gCpu.lv + i < t.gCpu.stackSize)
  intro i pc
  have range' : (t.withPc pc).gCpu.InRange := range.withPc pc
  exact store_judged range' v i

theorem istore_judged (range : t.gCpu.InRange) :
    Judged (execOpIstore.run env t) (Op.istore.Inside t) := by
  rw [execOpIstore, Program.run_bind, stackPop_run]
  by_cases empty : t.gCpu.Empty
  · rw [if_pos empty]
    exact .of_stopped (by simp) fun operand => absurd empty operand
  · rw [if_neg empty, Outcome.andThen_done]
    have popped := primitives_inRange.pop env t range fun _ _ => trivial
    rw [stackPop_run, if_neg empty] at popped
    obtain ⟨final, inside⟩ := popped
    have stored := storeVariable_judged env (Outcome.returns_done.mp final)
      (t.gCpu.stack t.gCpu.sp)
    exact (stored.prepend_kept inside).congr ⟨fun h _ => h, fun h => h empty⟩

/-- What IINC does once it has read its operands. -/
def increment (i : Int) (c : Byte) : VM Unit := do
  let old ← getLocalVariable i
  signed (old.toInt + c.toInt)
  updateLocalVariable (old + c.signExtend 32) i

theorem execOpIinc_some (env : Env) {i : Int} (found : t.incIndex? = some i) :
    ∃ pc c es, execOpIinc.run env t = ((increment i c).run env (t.withPc pc)).prepend es ∧
      ∀ e ∈ es, e.offStack := by
  unfold State.incIndex? at found
  dsimp only at found
  simp only [execOpIinc, Program.run_bind, Program.run_get, Outcome.andThen_done,
    Outcome.prepend_nil]
  split at found
  · rename_i wide
    split at found
    · rename_i inside
      injection found with same
      subst same
      rw [if_pos wide, Program.run_bind, Program.run_map, getArgShort_run, if_neg (by omega),
        Outcome.andThen_done, Outcome.prepend_done, Outcome.andThen_done, Program.run_bind,
        getArgByte_run]
      rw [if_neg (by dsimp only; omega), Outcome.andThen_done, Outcome.prepend_prepend]
      exact ⟨_, _, _, rfl, by simp [Event.offStack]⟩
    · contradiction
  · rename_i narrow
    split at found
    · rename_i inside
      injection found with same
      subst same
      rw [if_neg narrow, Program.run_bind, Program.run_map, getArgByte_run, if_neg (by omega),
        Outcome.andThen_done, Outcome.prepend_done, Outcome.andThen_done, Program.run_bind,
        getArgByte_run]
      rw [if_neg (by dsimp only; omega), Outcome.andThen_done, Outcome.prepend_prepend]
      exact ⟨_, _, _, rfl, by simp [Event.offStack]⟩
    · contradiction

theorem execOpIinc_none (env : Env) (missing : t.incIndex? = none) :
    ∃ r t' es, execOpIinc.run env t = .stopped r t' es ∧ ∀ e ∈ es, e.offStack := by
  unfold State.incIndex? at missing
  dsimp only at missing
  simp only [execOpIinc, Program.run_bind, Program.run_get, Outcome.andThen_done,
    Outcome.prepend_nil]
  split at missing
  · rename_i wide
    split at missing
    · contradiction
    · rw [if_pos wide, Program.run_bind, Program.run_map, getArgShort_run]
      by_cases first : t.gCpu.pc + 2 > t.gCpu.codeMemSize
      · rw [if_pos first]
        exact ⟨_, _, _, rfl, argStop_offStack⟩
      · rw [if_neg first, Outcome.andThen_done, Outcome.prepend_done, Outcome.andThen_done,
          Program.run_bind, getArgByte_run, if_pos (by dsimp only; omega)]
        exact ⟨_, _, _, rfl, List.forall_mem_append.mpr ⟨by simp [Event.offStack],
          argStop_offStack⟩⟩
  · rename_i narrow
    split at missing
    · contradiction
    · rw [if_neg narrow, Program.run_bind, Program.run_map, getArgByte_run]
      by_cases first : t.gCpu.pc + 1 > t.gCpu.codeMemSize
      · rw [if_pos first]
        exact ⟨_, _, _, rfl, argStop_offStack⟩
      · rw [if_neg first, Outcome.andThen_done, Outcome.prepend_done, Outcome.andThen_done,
          Program.run_bind, getArgByte_run, if_pos (by dsimp only; omega)]
        exact ⟨_, _, _, rfl, List.forall_mem_append.mpr ⟨by simp [Event.offStack],
          argStop_offStack⟩⟩

theorem increment_judged (range : t.gCpu.InRange) (i : Int) (c : Byte) :
    Judged ((increment i c).run env t)
      (0 ≤ i → i < t.gCpu.nv → t.gCpu.lv + i < t.gCpu.stackSize) := by
  refine (load_judged range fun old => ?_).congr
    (q := 0 ≤ i → i < t.gCpu.nv → t.gCpu.lv + i < t.gCpu.stackSize)
    (p := 0 ≤ i → i < t.gCpu.nv → t.gCpu.lv + i < t.gCpu.stackSize ∧
      (0 ≤ i → i < t.gCpu.nv → t.gCpu.lv + i < t.gCpu.stackSize)) ?_
  · rw [Program.run_bind, run_signed, Outcome.andThen_done]
    exact (store_judged range _ i).prepend_kept (by simp [Event.inStack])
  · constructor
    · exact fun h nonneg below => (h nonneg below).1
    · exact fun h nonneg below => ⟨h nonneg below, h⟩

theorem iinc_judged (range : t.gCpu.InRange) :
    Judged (execOpIinc.run env t) (Op.iinc.Inside t) := by
  cases found : t.incIndex? with
  | none =>
      obtain ⟨e, t', es, run, off⟩ := execOpIinc_none env found
      rw [run]
      exact .of_stopped (fun ev member => (off ev member).inStack) (by simp [Op.Inside, found])
  | some i =>
      obtain ⟨pc, c, es, run, off⟩ := execOpIinc_some env found
      rw [run]
      refine ((increment_judged (t := t.withPc pc) (range.withPc pc) i c).prepend_kept
        fun ev member => (off ev member).inStack).congr ?_
      simp [Op.Inside, found, State.withPc]

/-- The checks of IRETURN restore the ranges, whatever words were in the linkage. -/
theorem returned_inRange (range : t.gCpu.InRange) (accepted : ¬ ireturnRejects t.gCpu.returned) :
    t.gCpu.returned.InRange := by
  unfold ireturnRejects at accepted
  push Not at accepted
  obtain ⟨sp_ge, sp_lt, _, _, fp_nonneg, fp_lt, nv_nonneg, lv_lt, lv_nonneg, _⟩ := accepted
  exact ⟨range.size_lt, range.code_lt, sp_ge, sp_lt, fp_nonneg, fp_lt, lv_nonneg, lv_lt,
    nv_nonneg, BitVec.toInt_lt⟩

theorem ireturn_judged (range : t.gCpu.InRange) :
    Judged (execOpIreturn.run env t) (Op.ireturn.Inside t) := by
  obtain ⟨_, _, sp_ge, sp_lt, fp_nonneg, fp_lt, _, _, _, _⟩ := id range
  by_cases empty : t.gCpu.Empty
  · rw [execOpIreturn, Program.run_bind, stackPop_empty _ empty]
    exact .of_stopped (by simp) fun operand => absurd empty operand
  have inside : 0 ≤ t.gCpu.sp ∧ t.gCpu.sp < t.gCpu.stackSize := by
    have := Cpu.not_empty_iff.mp empty
    omega
  by_cases linkage : t.gCpu.lv ≤ t.gCpu.fp
  · rw [execOpIreturn_run empty linkage fp_nonneg]
    have accepted : Judged (if ireturnRejects t.gCpu.returned then
        .stopped (.error .ireturnFrame) { t with gCpu := t.gCpu.returned } []
      else ((stackPush (t.gCpu.stack t.gCpu.sp)).run env { t with gCpu := t.gCpu.returned }).andThen
        fun _ t => .done () t []) True := by
      split
      · exact .of_stopped (by simp) trivial
      · exact push_judged (t := { t with gCpu := t.gCpu.returned })
          (returned_inRange range ‹_›) _
    refine accepted.prepend.congr ?_
    simp only [returnEvents, List.mem_cons, List.not_mem_nil, or_false, forall_eq_or_imp, forall_eq,
      Event.inStack, Op.Inside, reduceCtorEq, false_or, and_true, true_and]
    constructor
    · intro h _ _
      exact h.2.1.2
    · intro h
      have := h empty (by omega)
      omega
  · obtain ⟨u, es, run, reads, first⟩ :=
      execOpIreturn_stops env empty fp_nonneg (Int.lt_of_not_ge linkage)
    rw [run]
    refine ⟨Outcome.returns_stopped, ?_⟩
    simp only [Outcome.events_stopped, List.mem_cons, forall_eq_or_imp, Event.inStack, Op.Inside,
      reduceCtorEq, false_or, true_and]
    constructor
    · intro h _ near
      exact (h.2 _ (first near)).resolve_left (by decide) |>.2
    · intro h
      refine ⟨inside, fun e member => ?_⟩
      obtain ⟨i, rfl, above, nonneg, below⟩ := reads e member
      have := h empty (by omega)
      exact Or.inr ⟨nonneg, by omega⟩

theorem invoked_inRange {size : Int} (range : t.gCpu.InRange) (invokes : t.gCpu.Invokes)
    (room : t.gCpu.sp + t.gCpu.methodLocals + 4 < size) (bound : size < 2 ^ 31) :
    (t.gCpu.invoked size).InRange := by
  have args := (t.gCpu.short t.gCpu.methodAddress).isLt
  have locals := (t.gCpu.short (t.gCpu.methodAddress + 2)).isLt
  have operands := invokes.operands
  have sp_ge := range.sp_ge
  simp only [Cpu.methodArgs, Cpu.methodLocals] at operands room
  constructor
  all_goals simp only [Cpu.invoked, Cpu.framed, Cpu.methodArgs, Cpu.methodLocals]
  case code_lt => exact range.code_lt
  all_goals omega

theorem invokevirtual_judged (range : t.gCpu.InRange) :
    Judged (execOpInvokevirtual.run env t) True := by
  have spec := execOpInvokevirtual_invoking env range.sized
  cases run : execOpInvokevirtual.run env t with
  | stopped r t' es =>
      rw [run] at spec
      exact .of_stopped (fun e member => (spec.2 e member).inStack range) trivial
  | done u t' es =>
      rw [run] at spec
      obtain ⟨⟨invokes, _, size, le, room, bound, cpu⟩, events⟩ := spec
      refine ⟨Outcome.returns_done.mpr ?_, iff_of_true ?_ trivial⟩
      · rw [cpu]
        exact invoked_inRange range invokes room bound
      · exact fun e member => (events e member).inStack range

end Instructions

section Steps

variable {env : Env} {s : State}

theorem execOp_judged {t : State} (range : t.gCpu.InRange) (nested : VM Bool) {op : Op}
    (unprefixed : op ≠ .wide) : Judged ((execOp nested op).run env t) (op.Inside t) := by
  by_cases plain : op.plain = true
  · refine .of_ensures (primitives_inRange.plain nested plain) env range ?_
    cases op <;> trivial
  · cases op with
    | iload => exact iload_judged range
    | istore => exact istore_judged range
    | iinc => exact iinc_judged range
    | dup => exact dup_judged range
    | ireturn => exact ireturn_judged range
    | invokevirtual => exact invokevirtual_judged range
    | wide => exact absurd rfl unprefixed
    | _ => exact absurd rfl plain

/-- The next step uses no cell outside the stack. -/
def State.Inside (s : State) : Prop :=
  ∀ a op, s.gCpu.opAddr? = some a → Op.ofByte? (s.gCpu.codeMem a) = some op → op.Inside (s.atOp a)

theorem execAt_judged (range : s.gCpu.InRange) {a : Int} (found : s.gCpu.opAddr? = some a) :
    Judged ((execAt s.gCpu a).run env (s.atOp a)) s.Inside := by
  have range' : (s.atOp a).gCpu.InRange := range.withPc _
  have unique (b : Int) (h : s.gCpu.opAddr? = some b) : b = a := by
    rw [found] at h
    exact (Option.some.inj h).symm
  cases decoded : Op.ofByte? (s.gCpu.codeMem a) with
  | none =>
      rw [execAt, dispatch_none decoded]
      refine (Outcome.Decided.of_done ?_ ?_ : Judged (.done false _ []) _)
      · exact range.withControl _ s.gCpu.stack true s.gCpu.haltFlag
      · intro b op h decoded'
        rw [unique b h, decoded] at decoded'
        contradiction
  | some op =>
      have unprefixed : op ≠ .wide := by
        rintro rfl
        exact (opAddrFrom_bounds found).2.2.2 (Op.ofByte?_eq_some.mp decoded)
      rw [execAt_run ⟨found, decoded⟩]
      refine ((execOp_judged range' _ unprefixed).andThen fun _ _ h => .of_done h trivial).congr ?_
      constructor
      · intro inside b op' h decoded'
        rw [unique b h, decoded] at decoded'
        rw [unique b h, ← Option.some.inj decoded']
        exact inside
      · intro inside
        exact inside a op found decoded

/-- A step keeps the registers in range, and stays inside the stack exactly if the
instruction that it executes meets its condition. -/
theorem step_judged (range : s.gCpu.InRange) : Judged (step.run env s) s.Inside := by
  cases found : s.gCpu.opAddr? with
  | none =>
      obtain ⟨t, es, run, codes⟩ := step_stops env found
      rw [run]
      refine .of_stopped ?_ fun a op h => ?_
      · intro e member
        obtain ⟨i, rfl⟩ := codes e member
        trivial
      · rw [found] at h
        contradiction
  | some a =>
      obtain ⟨es, fetches, run⟩ := step_run env found
      rw [run]
      refine ((execAt_judged range found).andThen ?_).prepend_kept ?_
      · intro b t h
        obtain ⟨flag, ending⟩ := endOfStep_done s.gCpu.pc a b t
        rw [ending]
        exact .of_done h trivial
      · intro e member
        obtain ⟨i, rfl, _⟩ := fetches e member
        trivial

theorem Cpu.InMain.inRange {c : Cpu} (h : c.InMain) : c.InRange := by
  obtain ⟨pc, sp, lv, fp, nv_nonneg, nv_le, room, size_le, code_lt⟩ := h
  constructor
  all_goals omega

theorem Reachable.inRange {file : List Byte} (reached : Reachable env file s) :
    s.gCpu.InRange := by
  induction reached with
  | start init => exact (started_of_init init).main.inRange
  | step _ _ execution ih => exact (step_judged ih).returns _ _ _ execution

/-- The stack accesses of the first `n + 1` turns of the loop of `run` are inside the
stack. -/
def RunInStack (env : Env) (file : List Byte) (n : Nat) : Prop :=
  ∀ m ≤ n, ∀ s, after env file m = some s → finished s.gCpu = false →
    ∀ e ∈ (step.run env s).events, e.inStack

/-- The instructions of the first `n + 1` turns meet their conditions. -/
def RunInside (env : Env) (file : List Byte) (n : Nat) : Prop :=
  ∀ m ≤ n, ∀ s, after env file m = some s → finished s.gCpu = false → s.Inside

/-- A run stays inside the stack exactly as long as the instructions that it executes
meet their conditions. -/
theorem runInStack_iff (env : Env) (file : List Byte) (n : Nat) :
    RunInStack env file n ↔ RunInside env file n :=
  turns_iff fun _ reached _ => (step_judged reached.inRange).keeps

end Steps

/-- DUP in a main method without variables, whose stack is empty. -/
def dupOnEmptyStack : List Byte := assemble [] [Op.dup.code]

/-- DUP reads the word below the stack. -/
theorem dupOnEmptyStack_outside : ¬ ∀ env file n, RunInStack env file n := by
  intro inside
  have outside : (after Env.quiet dupOnEmptyStack 0).any (fun s => !finished s.gCpu &&
      decide (¬ ∀ e ∈ (step.run Env.quiet s).events, e.inStack)) = true := by decide +kernel
  exact exists_turn_not outside (inside Env.quiet dupOnEmptyStack 0)

end Ijvm
