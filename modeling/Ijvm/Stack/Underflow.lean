import Ijvm.Code.Fetch
import Ijvm.Stack.Bounds

/-!
# Operand underflow

The operands of a frame are the words above its linkage, or above the local variables of
the main method; `frameBase` is the cell where they start. An instruction that takes more
operands than there are should end the machine before it uses a cell below `frameBase`.

The check of `stackPop` compares with `lv` instead. `Op.Guarded` says when that is
enough: the word right below the operands must already be below `lv`, or below the stack.
-/

namespace Ijvm

open Transcript Program

/-- The operands that an instruction takes, in the state in which it is executed. -/
def Op.operands (t : State) : Op → Nat
  | .pop | .dup | .istore | .ifeq | .iflt | .ireturn | .out | .newarray | .netbind | .netin
  | .netclose => 1
  | .swap | .iadd | .isub | .iand | .ior | .icmpeq | .iaload | .netconnect | .netout => 2
  | .iastore => 3
  | .invokevirtual => t.gCpu.methodArgs
  | _ => 0

/-- The operands of the frame whose operands start at `base`. -/
def Cpu.held (c : Cpu) (base : Int) : Nat := (c.sp + 1 - base).toNat

/-- An access to the cells from `base` on. The scan of the collector is no access of an
instruction. -/
def Event.above (base : Int) : Event → Prop
  | .stack access i _ => access = .root ∨ base ≤ i
  | _ => True

/-- The machine ends with an error, and no cell below `base` was used. -/
def Detects {α : Type} (base : Int) (o : Outcome State Event Stop α) : Prop :=
  ∃ e t es, o = .stopped (.error e) t es ∧ ∀ ev ∈ es, ev.above base

/-- `stackPop` refuses to take the word right below the operands. -/
def Cpu.Refuses (c : Cpu) (base : Int) : Prop :=
  min c.sp (base - 1) < c.lv ∨ min c.sp (base - 1) ≤ -1

/-- When an instruction that lacks operands is detected. -/
def Op.Guarded (base : Int) (t : State) : Op → Prop
  | .dup => False
  | .invokevirtual => base ≤ t.gCpu.sp + 1 ∧ ¬ t.gCpu.Invokes ∧ Op.invokevirtual.Fetches t
  | .ifeq | .iflt | .icmpeq =>
      if t.gCpu.codeMemSize < t.gCpu.pc + 2 then t.gCpu.Counts 2 else t.gCpu.Refuses base
  | _ => t.gCpu.Refuses base

section Detection

variable {α β : Type} {base : Int} {o : Outcome State Event Stop α}

theorem detects_prepend {es : List Event} :
    Detects base (o.prepend es) ↔ (∀ ev ∈ es, ev.above base) ∧ Detects base o := by
  constructor
  · rintro ⟨e, t, fs, eq, above⟩
    cases o with
    | done a t es => contradiction
    | stopped r u gs =>
        injection eq with stop state events
        subst stop state events
        have := List.forall_mem_append.mp above
        exact ⟨this.1, e, u, gs, rfl, this.2⟩
  · rintro ⟨early, e, t, fs, rfl, late⟩
    exact ⟨e, t, es ++ fs, rfl, List.forall_mem_append.mpr ⟨early, late⟩⟩

/-- What follows an instruction does not stop the machine. -/
theorem detects_andThen {f : α → State → Outcome State Event Stop β}
    (ending : ∀ a t, ∃ b t', f a t = .done b t' []) :
    Detects base (o.andThen f) ↔ Detects base o := by
  cases o with
  | stopped r t es =>
      rw [Outcome.andThen_stopped]
      constructor
      · rintro ⟨e, u, fs, eq, above⟩
        injection eq with stop state events
        subst stop state events
        exact ⟨e, t, es, rfl, above⟩
      · rintro ⟨e, u, fs, eq, above⟩
        injection eq with stop state events
        subst stop state events
        exact ⟨e, t, es, rfl, above⟩
  | done a t es =>
      obtain ⟨b, t', eq⟩ := ending a t
      rw [Outcome.andThen_done, eq]
      constructor
      · rintro ⟨e, u, fs, eq, _⟩
        contradiction
      · rintro ⟨e, u, fs, eq, _⟩
        contradiction

end Detection

/-- A program that starts with `n` pops of operands. -/
inductive Pops {α : Type} : Nat → VM α → Prop
  | done (m : VM α) : Pops 0 m
  | next {n : Nat} {f : Word → VM α} (rest : ∀ w, Pops n (f w)) : Pops (n + 1) (stackPop .pop >>= f)

section Instructions

variable {env : Env} {base : Int} {t : State} {n : Nat}

/-- Missing operands are detected exactly if the first word below them is refused. The
induction is on the operands that are still to be taken. -/
theorem Pops.detects_iff {α : Type} {m : VM α} (pops : Pops n m) (few : t.gCpu.held base < n) :
    Detects base (m.run env t) ↔ t.gCpu.Refuses base := by
  unfold Cpu.held at few
  induction pops generalizing t with
  | done m => omega
  | @next n f rest ih =>
      rw [Program.run_bind, stackPop_run]
      by_cases empty : t.gCpu.Empty
      · rw [if_pos empty, Outcome.andThen_stopped]
        refine iff_of_true ⟨_, _, _, rfl, by simp⟩ ?_
        unfold Cpu.Empty at empty
        unfold Cpu.Refuses
        omega
      · rw [if_neg empty, Outcome.andThen_done, detects_prepend]
        rw [Cpu.not_empty_iff] at empty
        by_cases operand : base ≤ t.gCpu.sp
        · rw [ih _ (by dsimp only; omega)]
          have above : ∀ ev ∈ [Event.stack .pop t.gCpu.sp t.gCpu.stackSize], ev.above base := by
            simp [Event.above, operand]
          rw [and_iff_right above]
          unfold Cpu.Refuses
          dsimp only
          rw [min_eq_right (by omega), min_eq_right (by omega)]
        · -- The top word is no operand, and `stackPop` has taken it.
          refine iff_of_false ?_ ?_
          · rintro ⟨above, _⟩
            have := above _ (List.mem_singleton.mpr rfl)
            simp [Event.above] at this
            omega
          · unfold Cpu.Refuses
            omega

theorem branch_detects_iff {f : Int → VM Unit} (pops : ∀ offset, Pops n (f offset))
    (few : t.gCpu.held base < n) :
    Detects base ((getJumpOffset >>= f).run env t) ↔
      if t.gCpu.codeMemSize < t.gCpu.pc + 2 then t.gCpu.Counts 2 else t.gCpu.Refuses base := by
  rw [Program.run_bind, getJumpOffset, Program.run_bind, getArgShort_run]
  by_cases outside : t.gCpu.pc + 2 > t.gCpu.codeMemSize
  · rw [if_pos outside, if_pos (show t.gCpu.codeMemSize < t.gCpu.pc + 2 from outside),
      Outcome.andThen_stopped, Outcome.andThen_stopped]
    unfold Cpu.argStop
    by_cases counts : t.gCpu.Counts 2
    · refine iff_of_true ⟨.argShort, _, _, congrArg (Outcome.stopped · _ _) (if_pos counts), ?_⟩
        counts
      refine List.forall_mem_cons.mpr ⟨trivial, fun ev member => ?_⟩
      obtain ⟨i, _, rfl, _⟩ := mem_argReads member
      trivial
    · refine iff_of_false ?_ counts
      rintro ⟨e, u, es, stopped, _⟩
      injection stopped with stop
      have undefined := (if_neg counts).symm.trans stop
      contradiction
  · rw [if_neg outside, if_neg (show ¬ t.gCpu.codeMemSize < t.gCpu.pc + 2 from outside),
      Outcome.andThen_done, Program.run_pure, Outcome.prepend_done,
      Outcome.andThen_done, detects_prepend]
    have above : ∀ ev ∈ [Event.signed (t.gCpu.pc + 2), .code t.gCpu.pc t.gCpu.codeMemSize,
        .code (t.gCpu.pc + 1) t.gCpu.codeMemSize] ++ [], ev.above base := by
      simp [Event.above]
    rw [and_iff_right above]
    exact (pops _).detects_iff (t := t.withPc (t.gCpu.pc + 2)) few

theorem dup_not_detects (few : t.gCpu.held base < 1) : ¬ Detects base (execOpDup.run env t) := by
  simp only [execOpDup, Program.run_bind, Program.run_get, Program.run_emit, Outcome.andThen_done,
    Outcome.prepend_nil]
  intro detects
  have above := (detects_prepend.mp detects).1 _ (List.mem_singleton.mpr rfl)
  simp [Event.above] at above
  unfold Cpu.held at few
  omega

/-- A call that cannot build its frame has only used cells above the top. -/
theorem invokevirtual_detects {k : Int} (bound : k < 2 ^ 31) (within : t.gCpu.PcWithin k 0)
    (guarded : Op.invokevirtual.Guarded base t) :
    Detects base (execOpInvokevirtual.run env t) := by
  obtain ⟨level, fails, fetches⟩ := guarded
  have spec := execOpInvokevirtual_invoking env within.coded.sized
  have decided : FetchesIff k (execOpInvokevirtual.run env t) (Op.invokevirtual.Fetches t) :=
    @execOp_fetches k env t bound within (pure true) .invokevirtual (by decide)
  have inside := decided.keeps.mpr fetches
  cases run : execOpInvokevirtual.run env t with
  | done u t' es =>
      rw [run] at spec
      exact absurd spec.1.1 fails
  | stopped r t' es =>
      rw [run] at spec
      rw [run] at inside
      obtain ⟨⟨e, rfl⟩ | ⟨i, m, member, past⟩, events⟩ := spec
      swap
      · exact absurd (inside _ member).2 (Int.not_lt.mpr past)
      refine ⟨e, t', es, rfl, fun ev member => ?_⟩
      rcases events ev member with quiet | ⟨i, m, rfl⟩ | ⟨access, i, m, rfl, _, above, _⟩
      · cases ev with
        | stack access i m => exact Or.inl quiet
        | _ => trivial
      · trivial
      · exact Or.inr (by omega)

/-- Every other instruction that lacks operands is detected exactly if it is guarded. -/
theorem execOp_detects_iff (nested : VM Bool) {op : Op} (unprefixed : op ≠ .wide)
    (call : op ≠ .invokevirtual) (few : t.gCpu.held base < op.operands t) :
    Detects base ((execOp nested op).run env t) ↔ op.Guarded base t := by
  have one {f : Word → VM Unit} : Pops 1 (stackPop .pop >>= f) := .next fun _ => .done _
  have two {f : Word → Word → VM Unit} :
      Pops 2 (stackPop .pop >>= fun a => stackPop .pop >>= f a) := .next fun _ => one
  cases op with
  | wide => exact absurd rfl unprefixed
  | invokevirtual => exact absurd rfl call
  | nop | bipush | ldcW | iload | iinc | goto | «in» | err | halt | gc =>
      exact absurd few (Nat.not_lt_zero _)
  | pop | istore | ireturn | out | newarray | netbind | netin | netclose =>
      exact one.detects_iff few
  | swap | iadd | isub | iand | ior | iaload | netconnect | netout => exact two.detects_iff few
  | iastore => exact (Pops.next fun _ => two).detects_iff few
  | dup => exact iff_of_false (dup_not_detects few) id
  | ifeq | iflt => exact branch_detects_iff (fun _ => one) few
  | icmpeq => exact branch_detects_iff (fun _ => two) few

end Instructions

section Steps

variable {env : Env} {base : Int} {s : State}

/-- A step detects what its instruction detects. -/
theorem step_detects_iff_execOp {a : Int} {op : Op} (executes : s.Executes a op) :
    Detects base (step.run env s) ↔ Detects base ((execOp (pure true) op).run env (s.atOp a)) := by
  obtain ⟨es, fetches, run⟩ := step_run env executes.found
  have above : ∀ ev ∈ es, ev.above base := by
    intro ev member
    obtain ⟨i, rfl, _⟩ := fetches ev member
    trivial
  rw [run, detects_prepend, and_iff_right above, detects_andThen, execAt_run executes]
  · exact detects_andThen fun _ t => ⟨true, t, rfl⟩
  · intro b t
    obtain ⟨flag, ending⟩ := endOfStep_done s.gCpu.pc a b t
    exact ⟨_, _, ending⟩

/-- The next instruction takes more operands than the frame with this base holds. -/
def State.Underflows (s : State) (base : Int) : Prop :=
  ∃ a op, s.Executes a op ∧ s.gCpu.held base < op.operands (s.atOp a)

/-- The next instruction meets its condition for being detected. -/
def State.Guarded (s : State) (base : Int) : Prop :=
  ∀ a op, s.Executes a op → op.Guarded base (s.atOp a)

theorem step_detects (range : s.gCpu.InRange) (running : finished s.gCpu = false)
    (underflows : s.Underflows base) (guarded : s.Guarded base) :
    Detects base (step.run env s) := by
  obtain ⟨a, op, executes, few⟩ := underflows
  rw [step_detects_iff_execOp executes]
  have here := guarded a op executes
  by_cases call : op = .invokevirtual
  · subst call
    obtain ⟨nonneg, below⟩ := pc_bounds running
    obtain ⟨_, above, inside, _⟩ := opAddrFrom_bounds executes.found
    have within : s.gCpu.PcWithin s.gCpu.codeMemSize 0 :=
      ⟨⟨rfl, range.sized⟩, nonneg, by omega⟩
    exact invokevirtual_detects range.code_lt (within.move (by omega) (by omega)) here
  · exact (execOp_detects_iff _ executes.unprefixed call few).mpr here

/-- For instructions other than INVOKEVIRTUAL the condition is exact. -/
theorem guarded_of_detects (call : s.gCpu.op? ≠ some .invokevirtual)
    (underflows : s.Underflows base) (detects : Detects base (step.run env s)) :
    s.Guarded base := by
  obtain ⟨a, op, executes, few⟩ := underflows
  rw [step_detects_iff_execOp executes] at detects
  intro a' op' executes'
  obtain ⟨rfl, rfl⟩ := executes.unique executes'
  refine (execOp_detects_iff _ executes.unprefixed ?_ few).mp detects
  rintro rfl
  exact call executes.op?

end Steps

section Runs

/-- The number of called methods that are active after an instruction, from the number
before it. -/
def countCall : Option Op → Nat → Nat
  | some .invokevirtual, n => n + 1
  | some .ireturn, n => n - 1
  | _, n => n

/-- The number of called methods that are active after `n` turns. -/
def activeCalls (env : Env) (file : List Byte) : Nat → Nat
  | 0 => 0
  | n + 1 => countCall ((after env file n).bind fun s => s.gCpu.op?) (activeCalls env file n)

/-- The cell where the operands of the current frame start: above the local variables in
the main method, above the linkage in a called method. -/
def frameBase (calls : Nat) (c : Cpu) : Int :=
  if calls = 0 then c.lv + c.nv else c.fp + 4

/-- In the first `n + 1` turns, every instruction that lacks operands is detected. -/
def RunDetects (env : Env) (file : List Byte) (n : Nat) : Prop :=
  ∀ m ≤ n, ∀ s, after env file m = some s → finished s.gCpu = false →
    s.Underflows (frameBase (activeCalls env file m) s.gCpu) →
      Detects (frameBase (activeCalls env file m) s.gCpu) (step.run env s)

/-- In the first `n + 1` turns, every instruction that lacks operands and satisfies `P`
meets its condition. -/
def RunGuarded (P : Option Op → Prop) (env : Env) (file : List Byte) (n : Nat) : Prop :=
  ∀ m ≤ n, ∀ s, after env file m = some s → finished s.gCpu = false → P s.gCpu.op? →
    s.Underflows (frameBase (activeCalls env file m) s.gCpu) →
      s.Guarded (frameBase (activeCalls env file m) s.gCpu)

/-- Missing operands are detected along every run whose instructions meet their
conditions, and for instructions other than INVOKEVIRTUAL only then. -/
theorem runDetects_of_guarded (env : Env) (file : List Byte) (n : Nat) :
    (RunGuarded (fun _ => True) env file n → RunDetects env file n) ∧
      (RunDetects env file n → RunGuarded (fun op => op ≠ some .invokevirtual) env file n) := by
  constructor
  · intro guarded m le s reached running underflows
    have range := (reachable_of_after reached).inRange
    exact step_detects range running underflows
      (guarded m le s reached running trivial underflows)
  · intro detects m le s reached running call underflows
    exact guarded_of_detects call underflows (detects m le s reached running underflows)

/-- POP in a main method whose stack holds its one local variable. -/
def popVariable : List Byte := assemble [] [Op.pop.code, Op.iload.code, 0, Op.halt.code]

/-- POP takes the local variable for an operand. -/
theorem popVariable_undetected : ¬ ∀ env file n, RunDetects env file n := by
  intro detects
  have undetected : (after Env.quiet popVariable 0).any (fun s => !finished s.gCpu &&
      decide (s.gCpu.opAddr? = some 0 ∧ Op.ofByte? (s.gCpu.codeMem 0) = some .pop ∧
        s.gCpu.held (s.gCpu.lv + s.gCpu.nv) < 1) &&
      (step.run Env.quiet s).isDone) = true := by decide +kernel
  obtain ⟨s, reached, check⟩ := (Option.any_eq_true _ _).mp undetected
  rw [Bool.and_eq_true, Bool.and_eq_true, decide_eq_true_eq] at check
  obtain ⟨⟨running, found, decoded, few⟩, returns⟩ := check
  obtain ⟨e, t, es, run, _⟩ := detects Env.quiet popVariable 0 0 (Nat.le_refl _) s reached
    (by simpa using running) ⟨0, .pop, ⟨found, decoded⟩, few⟩
  rw [run] at returns
  contradiction

end Runs

end Ijvm
