import Ijvm.Stack.Bounds
import Ijvm.Stack.Growth

/-!
# The stack that the collector sees

The root scan reads the cells below `sp`, so that the collector needs an `sp` that is not
above the end of the stack. A push moves `sp` by one cell at most behind the stack before
it enlarges the stack, and so do all the instructions, but for one: the first push of
INVOKEVIRTUAL comes after `sp` was moved over the local variables of the method. If a
reallocation is refused while the stack still ends below that cell, the collector scans
cells behind the stack. A run is free of this exactly as long as no call meets with such a
refusal.
-/

namespace Ijvm

open Transcript Program

/-- The cells below `sp` are cells of the stack. -/
def Cpu.Scannable (c : Cpu) : Prop := 0 ≤ c.sp + 1 ∧ c.sp ≤ c.stackSize

/-- The collector is entered with a stack that it can scan, and scans cells of the stack. -/
def Event.consistent : Event → Prop
  | .gc entry => entry.gCpu.Scannable
  | .stack access i n => access = .root → 0 ≤ i ∧ i < n
  | _ => True

/-- Between two uses of the stack, `sp` is inside it. -/
structure Cpu.Level (c : Cpu) : Prop where
  sized : c.Sized
  sp_ge : -1 ≤ c.sp
  sp_lt : c.sp < c.stackSize

/-- While the stack grows, `sp` may be the cell behind it. -/
structure Cpu.Brimming (c : Cpu) : Prop where
  sized : c.Sized
  scannable : c.Scannable

theorem Cpu.InRange.level {c : Cpu} (range : c.InRange) : c.Level :=
  ⟨range.sized, range.sp_ge, range.sp_lt⟩

theorem Cpu.Scannable.consistent {c : Cpu} (h : c.Scannable) {e : Event} (aside : e.aside c) :
    e.consistent := by
  cases e with
  | gc entry =>
      show entry.gCpu.Scannable
      rw [show entry.gCpu = c from aside]
      exact h
  | stack access i n =>
      obtain ⟨_, ⟨nonneg, below⟩, rfl⟩ := aside
      exact fun _ => ⟨nonneg, Int.lt_of_lt_of_le below h.2⟩
  | _ => trivial

theorem brimming_growth : GrowthRules Cpu.Brimming Event.consistent fun _ _ => True where
  sized h := h.sized
  octupled h growable above := by
    obtain ⟨positive, small⟩ := growable
    obtain ⟨_, nonneg, below⟩ := h
    refine ⟨⟨?_, ?_⟩, nonneg, ?_⟩
    all_goals simp only [Cpu.octupled]; omega
  aside h := h.scannable.consistent
  stops _ _ _ := trivial

theorem level_rules :
    StackRules Cpu.Level Cpu.Brimming Event.consistent fun _ _ => True where
  growth := brimming_growth
  weaken h := ⟨h.sized, by have := h.sp_ge; omega, Int.le_of_lt h.sp_lt⟩
  raised {c} h := by
    obtain ⟨sized, sp_ge, sp_lt⟩ := h
    refine ⟨sized.congr rfl, ?_, ?_⟩
    · show 0 ≤ c.sp + 1 + 1
      omega
    · show c.sp + 1 ≤ c.stackSize
      omega
  settled h below := ⟨h.sized, by have := h.scannable.1; omega, below⟩
  popped {c} h operand := by
    rw [Cpu.not_empty_iff] at operand
    refine ⟨h.sized.congr rfl, ?_, ?_⟩
    · show -1 ≤ c.sp - 1
      omega
    · show c.sp - 1 < c.stackSize
      have := h.sp_lt
      omega
  same h sp size := ⟨h.sized.congr size, by rw [sp]; exact h.sp_ge, by rw [sp, size]; exact h.sp_lt⟩
  computing {e} computing := by
    cases e with
    | gc entry => exact computing.elim
    | stack access i n => exact computing.elim
    | _ => trivial
  access _ own root := absurd root own

/-- The program starts and returns with `sp` inside the stack, and the collector sees a
consistent stack. -/
abbrev Steady {α : Type} (m : VM α) : Prop :=
  StackRules.Survives Cpu.Level Event.consistent (fun _ _ => True) α m

/-- The run returns with `sp` inside the stack, and the collector sees a consistent stack
exactly if `p` holds. -/
structure Scanned {α : Type} (o : Outcome State Event Stop α) (p : Prop) : Prop where
  level : o.Returns fun _ t => t.gCpu.Level
  consistent : (∀ e ∈ o.events, e.consistent) ↔ p

namespace Scanned

variable {α β : Type} {o : Outcome State Event Stop α} {p q : Prop}

theorem congr (h : Scanned o p) (iff : p ↔ q) : Scanned o q := ⟨h.level, h.consistent.trans iff⟩

theorem of_steady {m : VM α} (h : Steady m) (env : Env) {t : State} (level : t.gCpu.Level)
    (hp : p) : Scanned (m.run env t) p :=
  ⟨(h env t level).returns fun _ _ _ final => final.1, iff_of_true (h.events env level) hp⟩

theorem of_stopped {r : Stop} {t : State} {es : List Event} (events : ∀ e ∈ es, e.consistent)
    (hp : p) : Scanned (.stopped r t es : Outcome State Event Stop α) p :=
  ⟨Outcome.returns_stopped, iff_of_true events hp⟩

theorem prepend {es : List Event} (h : Scanned o p) (events : ∀ e ∈ es, e.consistent) :
    Scanned (o.prepend es) p := by
  refine ⟨Outcome.returns_prepend.mpr h.level, ?_⟩
  rw [Outcome.events_prepend, List.forall_mem_append, h.consistent]
  exact and_iff_right events

/-- What follows is steady. -/
theorem andThen {f : α → State → Outcome State Event Stop β} (h : Scanned o p)
    (next : ∀ a t, t.gCpu.Level → Scanned (f a t) True) : Scanned (o.andThen f) p := by
  cases o with
  | stopped r t es => exact ⟨Outcome.returns_stopped, h.consistent⟩
  | done a t es =>
      have rest := next a t (Outcome.returns_done.mp h.level)
      refine ⟨Outcome.returns_prepend.mpr rest.level, ?_⟩
      rw [Outcome.andThen_done, Outcome.events_prepend, List.forall_mem_append]
      exact (and_iff_left (rest.consistent.mpr trivial)).trans h.consistent

end Scanned

/-- A reallocation is refused while a stack of this size grows towards the cell `sp`, and
ends below it. -/
def RefusedBelow (env : Env) (clock : Nat) (size sp : Int) : Prop :=
  ∃ j : Nat, size * 8 ^ j < sp ∧ size * 8 ^ j ≤ 2 ^ 27 ∧ env.alloc (clock + j) = false

section Growth

variable {env : Env} {clock : Nat} {size sp : Int} {t : State}

theorem size_le_grown (positive : 0 < size) (j : Nat) : size ≤ size * 8 ^ j := by
  induction j with
  | zero => omega
  | succ j ih =>
      rw [Int.pow_succ, ← Int.mul_assoc]
      omega

theorem not_refusedBelow (positive : 0 < size) (ends : ¬ (size < sp ∧ size ≤ 2 ^ 27)) :
    ¬ RefusedBelow env clock size sp := by
  rintro ⟨j, below, small, _⟩
  have := size_le_grown positive j
  omega

/-- The first reallocation, and those that follow if it succeeds. -/
theorem refusedBelow_iff (below : size < sp) (small : size ≤ 2 ^ 27) :
    RefusedBelow env clock size sp ↔
      env.alloc clock = false ∨ RefusedBelow env (clock + 1) (size * 8) sp := by
  have grown (j : Nat) : size * 8 ^ (j + 1) = size * 8 * 8 ^ j := by
    rw [Int.pow_succ, Int.mul_comm (8 ^ j), Int.mul_assoc]
  have later (j : Nat) : clock + (j + 1) = clock + 1 + j := by omega
  constructor
  · rintro ⟨j, below, small, refused⟩
    cases j with
    | zero => exact Or.inl refused
    | succ j =>
        rw [grown] at below small
        rw [later] at refused
        exact Or.inr ⟨j, below, small, refused⟩
  · rintro (refused | ⟨j, below, small, refused⟩)
    · exact ⟨0, by simpa using below, by simpa using small, refused⟩
    · refine ⟨j + 1, ?_, ?_, ?_⟩
      · rw [grown]
        exact below
      · rw [grown]
        exact small
      · rw [later]
        exact refused

/-- The growth of the stack towards a cell that is anywhere. The induction is on the fuel,
which bounds the distance of `sp`. -/
theorem growStackFuel_consistent {fuel : Nat} (sized : t.gCpu.Sized)
    (positive : 0 < t.gCpu.stackSize) (nonneg : 0 ≤ t.gCpu.sp + 1)
    (enough : (t.gCpu.sp - t.gCpu.stackSize + 1).toNat < fuel) :
    (∀ e ∈ ((growStackFuel fuel).run env t).events, e.consistent) ↔
      ¬ RefusedBelow env t.clock t.gCpu.stackSize t.gCpu.sp := by
  induction fuel generalizing t with
  | zero => omega
  | succ fuel ih =>
      by_cases ahead : t.gCpu.stackSize < t.gCpu.sp
      swap
      · -- The collector can scan the stack all the time.
        have brimming : t.gCpu.Brimming := ⟨sized, nonneg, Int.le_of_not_gt ahead⟩
        have spec := brimming_growth.growStackFuel (fuel + 1)
        exact iff_of_true (spec.events env brimming) (not_refusedBelow positive fun h => ahead h.1)
      rw [growStackFuel_grows (Int.le_of_lt ahead)]
      by_cases growable : t.gCpu.Growable
      swap
      · rw [octupleStackSize_limit sized growable]
        refine iff_of_true (by simp) (not_refusedBelow positive fun h => growable ⟨positive, h.2⟩)
      rw [refusedBelow_iff ahead growable.2]
      by_cases granted : env.alloc t.clock = true
      · rw [octupleStackSize_granted sized growable granted, Outcome.andThen_done,
          Outcome.prepend_nil, if_neg (by simp)]
        have small := growable.2
        refine (ih (t := { t with gCpu := t.gCpu.octupled, clock := t.clock + 1 }) ⟨?_, ?_⟩ ?_
          nonneg ?_).trans ?_
        case refine_5 => simp [granted, Cpu.octupled]
        all_goals simp only [Cpu.octupled]; omega
      · have refused : env.alloc t.clock = false := by simpa using granted
        refine iff_of_false (fun all => ?_) (by simp [refused])
        have scannable := all _ (Outcome.mem_events_andThen
          (octupleStackSize_refused sized growable refused))
        exact absurd scannable.2 (Int.not_le_of_gt ahead)

/-- A push to a cell that is anywhere above the stack. -/
theorem stackPush_scanned (sized : t.gCpu.Sized) (positive : 0 < t.gCpu.stackSize)
    (sp_ge : -1 ≤ t.gCpu.sp) (e : Word) :
    Scanned ((stackPush e).run env t)
      (¬ RefusedBelow env t.clock t.gCpu.stackSize (t.gCpu.sp + 1)) := by
  by_cases inside : t.gCpu.sp + 1 < t.gCpu.stackSize
  · refine .of_steady (level_rules.push e) env ⟨sized, sp_ge, by omega⟩ ?_
    exact not_refusedBelow positive fun h => by omega
  · rw [stackPush_outside inside]
    have grown := growStack_satisfies env
      (s := { t with gCpu := { t.gCpu with sp := t.gCpu.sp + 1 } }) sized.nonneg sized.bound
    refine Scanned.andThen ⟨?_, ?_⟩ fun b t' level => ?_
    · refine grown.returns ?_
      rintro b t' es ⟨_, ⟨⟨le, cpu⟩, below, bound, _⟩, _⟩
      refine ⟨⟨Int.le_trans sized.nonneg le, bound⟩, ?_, below⟩
      rw [cpu]
      show -1 ≤ t.gCpu.sp + 1
      omega
    · rw [growStack_run]
      refine growStackFuel_consistent ⟨sized.nonneg, sized.bound⟩ positive ?_ ?_
      · show 0 ≤ t.gCpu.sp + 1 + 1
        omega
      · dsimp only
        omega
    · refine .of_steady ?_ env level trivial
      refine PlainRules.ite (level_rules.rules.pure _)
        (level_rules.rules.bind ?_ fun _ => level_rules.rules.pure _)
      exact (level_rules.writeTop e).mono_pre fun t ht => ⟨level_rules.weaken ht, ht.sp_lt⟩

end Growth

/-- INVOKEVIRTUAL finds the header of a method. -/
structure Cpu.Enters (c : Cpu) : Prop where
  argument : c.pc + 2 ≤ c.codeMemSize
  constant : 0 ≤ (c.short c.pc).toInt ∧ (c.short c.pc).toInt < c.constMemSize.tdiv 4
  address : 0 ≤ c.methodAddress ∧ c.methodAddress < c.codeMemSize
  header : c.methodAddress + 4 ≤ c.codeMemSize

section Calls

variable {env : Env} {t : State}

theorem enterMethod_entering (env : Env) (enters : t.gCpu.Enters) :
    ∃ es, enterMethod.run env t =
      .done (t.gCpu.pc + 2, t.gCpu.methodArgs, t.gCpu.methodLocals)
        (t.withPc (t.gCpu.methodAddress + 4)) es := by
  obtain ⟨argument, constant, address, header⟩ := enters
  have next : t.gCpu.methodAddress + 2 + 2 = t.gCpu.methodAddress + 4 := by omega
  have target : (t.gCpu.constMem.getD (t.gCpu.short t.gCpu.pc).toInt.toNat 0).toInt =
      t.gCpu.methodAddress := rfl
  rw [enterMethod, run_bind, getArgShort_run, if_neg (by omega), Outcome.andThen_done, run_bind,
    getConstant_run, if_neg (by dsimp only; omega), Outcome.andThen_done]
  simp only [run_bind, run_get, Outcome.andThen_done, Outcome.prepend_nil, target]
  rw [if_neg (by omega)]
  simp only [run_bind, run_modifyCpu, Outcome.andThen_done, Outcome.prepend_nil, getArgShort_run]
  rw [if_neg (by omega), Outcome.andThen_done]
  dsimp only
  rw [if_neg (by omega), Outcome.andThen_done, next]
  exact ⟨_, rfl⟩

/-- Without a method header, the machine ends. -/
theorem enterMethod_stops (env : Env) (missing : ¬ t.gCpu.Enters) :
    ∃ r t' es, enterMethod.run env t = .stopped r t' es := by
  have spec := enterMethod_invoking env t
  cases run : enterMethod.run env t with
  | stopped r t' es => exact ⟨r, t', es, rfl⟩
  | done p t' es =>
      rw [run] at spec
      obtain ⟨⟨⟨argument, constant, address, header⟩, _⟩, _⟩ := spec
      exact absurd ⟨argument, constant, address, header⟩ missing

theorem pushLinkage_scanned (sized : t.gCpu.Sized) (positive : 0 < t.gCpu.stackSize)
    (sp_ge : -1 ≤ t.gCpu.sp) (oldPc : Int) :
    Scanned ((pushLinkage oldPc).run env t)
      (¬ RefusedBelow env t.clock t.gCpu.stackSize (t.gCpu.sp + 1)) := by
  have rules := level_rules.rules
  rw [pushLinkage, run_bind, run_get, Outcome.andThen_done, Outcome.prepend_nil, run_bind]
  refine (stackPush_scanned sized positive sp_ge _).andThen fun b t' level => ?_
  refine .of_steady ?_ env level trivial
  exact PlainRules.ite (rules.pure _) (rules.bind rules.get fun _ => rules.bind (rules.push _)
    fun _ => PlainRules.ite (rules.pure _) (rules.bind rules.get fun _ => rules.bind (rules.push _)
      fun _ => PlainRules.ite (rules.pure _) (rules.push _)))

/-- The frame of a method with local variables is pushed after `sp` was moved over them. -/
theorem pushFrame_scanned (level : t.gCpu.Level) (positive : 0 < t.gCpu.stackSize) (oldPc : Int)
    (numArgs numLocals : Nat) :
    Scanned ((pushFrame oldPc numArgs numLocals).run env t)
      (¬ RefusedBelow env t.clock t.gCpu.stackSize (t.gCpu.sp + numLocals + 1)) := by
  obtain ⟨sized, sp_ge, sp_lt⟩ := level
  simp only [pushFrame, run_bind, run_get, run_signed, run_modifyCpu, Outcome.andThen_done,
    Outcome.prepend_nil]
  refine Scanned.prepend ?_ (by simp [Event.consistent])
  refine (pushLinkage_scanned (t := { t with gCpu := { t.gCpu with sp := t.gCpu.sp + numLocals } })
    (sized.congr rfl) positive ?_ oldPc).andThen fun b t' level' => ?_
  · show -1 ≤ t.gCpu.sp + numLocals
    omega
  · refine .of_steady ?_ env level' trivial
    exact PlainRules.ite (level_rules.rules.destroy (by decide)) (level_rules.newFrame _ _)

/-- INVOKEVIRTUAL meets with a refusal below the first word of the linkage. -/
def Cpu.CallRefused (env : Env) (clock : Nat) (c : Cpu) : Prop :=
  c.Enters ∧ RefusedBelow env clock c.stackSize (c.sp + c.methodLocals + 1)

theorem execOpInvokevirtual_scanned (level : t.gCpu.Level) (positive : 0 < t.gCpu.stackSize) :
    Scanned (execOpInvokevirtual.run env t) (¬ t.gCpu.CallRefused env t.clock) := by
  have entering := Scanned.of_steady level_rules.rules.enterMethod env level trivial
  rw [execOpInvokevirtual, run_bind]
  by_cases enters : t.gCpu.Enters
  · obtain ⟨es, run⟩ := enterMethod_entering env enters
    rw [run] at entering ⊢
    refine ((pushFrame_scanned (t := t.withPc (t.gCpu.methodAddress + 4))
      (level_rules.same level rfl rfl) positive _ _ _).prepend
        (entering.consistent.mpr trivial)).congr ?_
    exact not_congr (and_iff_right enters).symm
  · obtain ⟨r, t', es, run⟩ := enterMethod_stops env enters
    rw [run] at entering ⊢
    exact .of_stopped (entering.consistent.mpr trivial) fun refused => enters refused.1

theorem execOpIreturn_scanned (range : t.gCpu.InRange) :
    Scanned (execOpIreturn.run env t) True := by
  by_cases empty : t.gCpu.Empty
  · rw [execOpIreturn, run_bind, stackPop_empty _ empty]
    exact .of_stopped (by simp) trivial
  by_cases linkage : t.gCpu.lv ≤ t.gCpu.fp
  · rw [execOpIreturn_run empty linkage range.fp_nonneg]
    refine Scanned.prepend ?_ (by simp [returnEvents, Event.consistent])
    split
    · exact .of_stopped (by simp) trivial
    · have returned := returned_inRange range ‹_›
      exact .of_steady (m := do let _ ← stackPush (t.gCpu.stack t.gCpu.sp))
        (level_rules.rules.pushLast _) env (t := { t with gCpu := t.gCpu.returned })
        returned.level trivial
  · obtain ⟨u, es, run, reads, _⟩ :=
      execOpIreturn_stops env empty range.fp_nonneg (Int.lt_of_not_ge linkage)
    rw [run]
    refine .of_stopped ?_ trivial
    simp only [List.mem_cons, forall_eq_or_imp, Event.consistent, reduceCtorEq, false_imp_iff,
      true_and]
    intro e member
    obtain ⟨i, rfl, _⟩ := reads e member
    exact fun root => absurd root (by decide)

end Calls

section Steps

variable {env : Env} {s : State}

/-- The next step is a call that meets with a refusal. -/
def State.CallRefused (env : Env) (s : State) : Prop :=
  ∃ a, s.Executes a .invokevirtual ∧ (s.atOp a).gCpu.CallRefused env s.clock

theorem execOp_scanned {a : Int} {op : Op} (range : s.gCpu.InRange) (executes : s.Executes a op)
    (nested : VM Bool) :
    Scanned ((execOp nested op).run env (s.atOp a)) (¬ s.CallRefused env) := by
  have range' : (s.atOp a).gCpu.InRange := range.withPc _
  have other (h : op ≠ .invokevirtual) : ¬ s.CallRefused env := by
    rintro ⟨b, call, _⟩
    exact h (executes.unique call).2
  by_cases call : op = .invokevirtual
  · subst call
    refine (execOpInvokevirtual_scanned range'.level ?_).congr (not_congr ⟨fun h => ?_, ?_⟩)
    · exact Int.lt_of_le_of_lt range.fp_nonneg range.fp_lt
    · exact ⟨a, executes, h⟩
    · rintro ⟨b, call, refused⟩
      rw [(executes.unique call).1]
      exact refused
  by_cases ret : op = .ireturn
  · subst ret
    exact (execOpIreturn_scanned range').congr (iff_of_true trivial (other call))
  · exact .of_steady (level_rules.rules.execOp nested ⟨call, ret, executes.unprefixed⟩) env
      range'.level (other call)

theorem execAt_scanned {a : Int} (range : s.gCpu.InRange) (found : s.gCpu.opAddr? = some a) :
    Scanned ((execAt s.gCpu a).run env (s.atOp a)) (¬ s.CallRefused env) := by
  cases decoded : Op.ofByte? (s.gCpu.codeMem a) with
  | some op =>
      have executes : s.Executes a op := ⟨found, decoded⟩
      rw [execAt_run executes]
      exact (execOp_scanned range executes _).andThen fun _ t level =>
        .of_steady (level_rules.rules.pure true) env level trivial
  | none =>
      rw [execAt, dispatch_none decoded]
      refine .of_steady ?_ env (range.withPc _).level ?_
      · exact level_rules.rules.bind (level_rules.rules.steers fun _ => ⟨_, _, _, rfl⟩) fun _ =>
          level_rules.rules.pure false
      · rintro ⟨b, call, _⟩
        obtain rfl := Option.some.inj (found.symm.trans call.found)
        rw [call.decoded] at decoded
        contradiction

/-- The collector sees a consistent stack in a step, unless the step is a call that meets
with a refusal. -/
theorem step_consistent_iff (range : s.gCpu.InRange) :
    (∀ e ∈ (step.run env s).events, e.consistent) ↔ ¬ s.CallRefused env := by
  cases found : s.gCpu.opAddr? with
  | none =>
      obtain ⟨t, es, run, codes⟩ := step_stops env found
      rw [run]
      refine iff_of_true (fun e member => ?_) ?_
      · obtain ⟨i, rfl⟩ := codes e member
        trivial
      · rintro ⟨a, call, _⟩
        rw [call.found] at found
        contradiction
  | some a =>
      obtain ⟨es, fetches, run⟩ := step_run env found
      rw [run]
      refine (((execAt_scanned range found).andThen fun b t level => ?_).prepend ?_).consistent
      · obtain ⟨flag, ending⟩ := endOfStep_done s.gCpu.pc a b t
        rw [ending]
        exact ⟨Outcome.returns_done.mpr level, iff_of_true (by simp) trivial⟩
      · intro e member
        obtain ⟨i, rfl, _⟩ := fetches e member
        trivial

/-- In the first `n + 1` turns of the loop of `run`, the collector sees a consistent stack. -/
def RunConsistent (env : Env) (file : List Byte) (n : Nat) : Prop :=
  ∀ m ≤ n, ∀ s, after env file m = some s → finished s.gCpu = false →
    ∀ e ∈ (step.run env s).events, e.consistent

/-- No call of these turns meets with a refusal. -/
def RunGranted (env : Env) (file : List Byte) (n : Nat) : Prop :=
  ∀ m ≤ n, ∀ s, after env file m = some s → finished s.gCpu = false → ¬ s.CallRefused env

/-- The collector sees a consistent stack exactly as long as no call meets with a refused
reallocation before the stack has reached its linkage. -/
theorem runConsistent_iff (env : Env) (file : List Byte) (n : Nat) :
    RunConsistent env file n ↔ RunGranted env file n :=
  turns_iff fun _ reached _ => step_consistent_iff reached.inRange

end Steps

/-- A call of a method with 5000 local variables: INVOKEVIRTUAL, and the header of the method
with no arguments. -/
def callManyLocals : List Byte :=
  assemble [3] [Op.invokevirtual.code, 0, 0, 0, 0, 0x13, 0x88]

/-- Surroundings that refuse the first reallocation of the stack. -/
def Env.refuseGrowth : Env := { Env.quiet with alloc := fun n => n != 3 }

/-- The collector runs with `sp` at 5000, on a stack of 4096 cells. -/
theorem callManyLocals_inconsistent : ¬ ∀ env file n, RunConsistent env file n := by
  intro consistent
  have call : (after Env.refuseGrowth callManyLocals 0).any (fun s => !finished s.gCpu &&
      decide (s.gCpu.opAddr? = some 0 ∧ Op.ofByte? (s.gCpu.codeMem 0) = some .invokevirtual ∧
        s.clock = 3 ∧ (s.atOp 0).gCpu.stackSize = 4096 ∧ (s.atOp 0).gCpu.sp = -1 ∧
        (s.atOp 0).gCpu.methodLocals = 5000)) = true := by decide +kernel
  have header : (after Env.refuseGrowth callManyLocals 0).any (fun s =>
      decide ((s.atOp 0).gCpu.pc + 2 ≤ (s.atOp 0).gCpu.codeMemSize ∧
        (0 ≤ ((s.atOp 0).gCpu.short (s.atOp 0).gCpu.pc).toInt ∧
          ((s.atOp 0).gCpu.short (s.atOp 0).gCpu.pc).toInt <
            (s.atOp 0).gCpu.constMemSize.tdiv 4) ∧
        (0 ≤ (s.atOp 0).gCpu.methodAddress ∧
          (s.atOp 0).gCpu.methodAddress < (s.atOp 0).gCpu.codeMemSize) ∧
        (s.atOp 0).gCpu.methodAddress + 4 ≤ (s.atOp 0).gCpu.codeMemSize)) = true := by
    decide +kernel
  obtain ⟨s, reached, facts⟩ := (Option.any_eq_true _ _).mp call
  obtain ⟨s', reached', facts'⟩ := (Option.any_eq_true _ _).mp header
  obtain rfl := Option.some.inj (reached.symm.trans reached')
  rw [Bool.and_eq_true] at facts
  obtain ⟨found, decoded, clock, size, sp, locals⟩ := of_decide_eq_true facts.2
  obtain ⟨argument, constant, address, header⟩ := of_decide_eq_true facts'
  have refused : s.CallRefused Env.refuseGrowth := by
    refine ⟨0, ⟨found, decoded⟩, ⟨argument, constant, address, header⟩, 0, ?_⟩
    rw [clock, size, sp, locals]
    decide
  have granted := consistent Env.refuseGrowth callManyLocals 0 0 (Nat.le_refl _) s reached
    (by simpa using facts.1)
  exact (step_consistent_iff (reachable_of_after reached).inRange).mp granted refused

end Ijvm
