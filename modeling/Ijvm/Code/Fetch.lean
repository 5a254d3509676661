import Ijvm.Stack.Bounds

/-!
# The program counter, and reads of code memory

The operand fetches test only that `pc` does not pass the end of the code; that it is
never negative is an invariant, which branches, calls and returns restore. So the operands
of an instruction are fetched inside the code, unless the sum of the test overflows:
`Op.Fetches` is the exact condition for each instruction. The opcode behind a WIDE prefix is
fetched without any test: `step_inCode_iff` says when that read stays inside, too.
-/

namespace Ijvm

open Transcript Program

/-- A read of code memory lies inside it. -/
def Event.inCode : Event → Prop
  | .code i n => 0 ≤ i ∧ i < n
  | _ => True

instance : DecidablePred Event.inCode
  | .code i n => inferInstanceAs (Decidable (0 ≤ i ∧ i < n))
  | .stack _ _ _ | .signed _ | .gc _ | .sys _ _ => .isTrue trivial

theorem Event.quiet.inCode {e : Event} (h : e.quiet) : e.inCode := by
  cases e with
  | code i n => exact h.elim
  | _ => trivial

/-- The code memory has `n` bytes, and the stack has a size. -/
structure Cpu.Coded (n : Int) (c : Cpu) : Prop where
  size : c.codeMemSize = n
  sized : c.Sized

/-- The program counter is not negative, and at most `k` beyond the end of the code. -/
structure Cpu.PcWithin (n k : Int) (c : Cpu) : Prop where
  coded : c.Coded n
  nonneg : 0 ≤ c.pc
  le : c.pc ≤ n + k

theorem Cpu.PcWithin.weaken {n k k' : Int} {c : Cpu} (h : c.PcWithin n k) (le : k ≤ k') :
    c.PcWithin n k' :=
  ⟨h.coded, h.nonneg, by have := h.le; omega⟩

theorem Pushed.coded {n : Int} {c c' : Cpu} {e : Word} (pushed : Pushed c e c') (h : c.Coded n) :
    c'.Coded n := by
  refine ⟨?_, pushed.sized⟩
  rw [pushed.eq]
  exact h.size

theorem Pushed.pcWithin {n k : Int} {c c' : Cpu} {e : Word} (pushed : Pushed c e c')
    (h : c.PcWithin n k) : c'.PcWithin n k := by
  have pc : c'.pc = c.pc := by rw [pushed.eq, Cpu.pushed]
  exact ⟨pushed.coded h.coded, by rw [pc]; exact h.nonneg, by rw [pc]; exact h.le⟩

/-- A program that starts with `pc` inside the code, fetches inside the code and ends in
`Q`. -/
abbrev Fetching {α : Type} (n : Int) (m : VM α) (Q : α → State → Prop) : Prop :=
  Ensures (fun _ => True) (fun t => t.gCpu.PcWithin n 0) Event.inCode m Q

/-- A program that fetches inside the code and keeps an assertion about the CPU. -/
abbrev CodeKeeps {α : Type} (I : Cpu → Prop) (m : VM α) : Prop :=
  Keeps (fun _ => True) (fun t => I t.gCpu) Event.inCode m

section Parts

variable {n : Int} {I : Cpu → Prop}

theorem Quiet.codeKeeps {α : Type} {m : VM α} (h : Quiet m) : CodeKeeps I m :=
  h.keeps (J := fun c _ => I c) fun _ => Event.quiet.inCode

theorem stackPop_codeKeeps (access : StackAccess) (sp : ∀ c v, I c → I { c with sp := v }) :
    CodeKeeps I (stackPop access) := by
  intro env s hs _
  rw [stackPop_run]
  split
  · exact ⟨Outcome.returns_stopped, by simp⟩
  · exact ⟨Outcome.returns_done.mpr (sp _ _ hs), by simp [Event.inCode]⟩

theorem stackPush_codeKeeps (e : Word) (sized : ∀ c, I c → c.Sized)
    (push : ∀ c c', Pushed c e c' → I c → I c') : CodeKeeps I (stackPush e) := by
  apply Ensures.of_satisfies
  intro env s hs
  refine (stackPush_satisfies (sized _ hs) e).mono ?_ ?_
  · rintro b t es ⟨_, pushed, _, events⟩
    refine ⟨push _ _ pushed hs, fun ev member => ?_⟩
    obtain quiet | rfl := events ev member
    · exact quiet.inCode
    · trivial
  · intro r t es refused ev member
    exact (refused.quiet ev member).inCode

theorem pop_coded (access : StackAccess) : CodeKeeps (Cpu.Coded n) (stackPop access) :=
  stackPop_codeKeeps access fun _ _ h => ⟨h.size, h.sized.nonneg, h.sized.bound⟩

theorem pop_within {k : Int} (access : StackAccess) :
    CodeKeeps (Cpu.PcWithin n k) (stackPop access) :=
  stackPop_codeKeeps access fun _ _ h =>
    ⟨⟨h.coded.size, h.coded.sized.nonneg, h.coded.sized.bound⟩, h.nonneg, h.le⟩

theorem push_within {k : Int} (e : Word) : CodeKeeps (Cpu.PcWithin n k) (stackPush e) :=
  stackPush_codeKeeps e (fun _ h => h.coded.sized) fun _ _ pushed h => pushed.pcWithin h

theorem pushLast_within {k : Int} (e : Word) :
    CodeKeeps (Cpu.PcWithin n k) (do let _ ← stackPush e : VM Unit) :=
  .bind (push_within e) fun _ => .pure _

theorem constant_within {k : Int} (i : Int) : CodeKeeps (Cpu.PcWithin n k) (getConstant i) :=
  Quiet.codeKeeps (.bind .get fun _ => .ite (.destroy _) (.pure _))

theorem loadVariable_within {k : Int} (i : Int) :
    CodeKeeps (Cpu.PcWithin n k) (getLocalVariable i) := by
  intro env s hs _
  rw [getLocalVariable_run]
  split
  · exact ⟨Outcome.returns_stopped, by simp⟩
  · exact ⟨Outcome.returns_done.mpr hs, by simp [Event.inCode]⟩

theorem storeVariable_within {k : Int} (v : Word) (i : Int) :
    CodeKeeps (Cpu.PcWithin n k) (updateLocalVariable v i) := by
  intro env s hs _
  rw [updateLocalVariable_run]
  split
  · exact ⟨Outcome.returns_stopped, by simp⟩
  · exact ⟨Outcome.returns_done.mpr ⟨⟨hs.coded.size, hs.coded.sized.nonneg,
      hs.coded.sized.bound⟩, hs.nonneg, hs.le⟩, by simp [Event.inCode]⟩

theorem jump_within {offset : Int} (small : offset < 2 ^ 15) :
    Fetching n (jump offset) fun _ t => t.gCpu.PcWithin n (2 ^ 15) := by
  intro env s hs _
  have le := hs.le
  rw [jump_run]
  split
  · exact ⟨Outcome.returns_stopped, by simp [Event.inCode]⟩
  · refine ⟨Outcome.returns_done.mpr ⟨⟨hs.coded.size, hs.coded.sized.nonneg,
      hs.coded.sized.bound⟩, ?_, ?_⟩, by simp [Event.inCode]⟩
    · show 0 ≤ s.gCpu.pc + offset
      omega
    · show s.gCpu.pc + offset ≤ n + 2 ^ 15
      omega

end Parts

/-- How the fetches of arguments decide a rule: `I` holds where they start. -/
structure FetchRules (env : Env) (rule : Event → Prop) (I Q : State → Prop) : Prop where
  byte : ∀ {α : Type} {f : Byte → VM α} {p : Prop} {t : State}, I t →
    (t.gCpu.pc + 1 ≤ t.gCpu.codeMemSize → I (t.withPc (t.gCpu.pc + 1)) →
      ((f (t.gCpu.codeMem t.gCpu.pc)).run env (t.withPc (t.gCpu.pc + 1))).Decided rule
        (fun _ => Q) p) →
    ((getArgByte >>= f).run env t).Decided rule (fun _ => Q)
      (t.gCpu.Counts 1 ∧ (t.gCpu.pc + 1 ≤ t.gCpu.codeMemSize → p))
  short : ∀ {α : Type} {f : BitVec 16 → VM α} {p : Prop} {t : State}, I t →
    (t.gCpu.pc + 2 ≤ t.gCpu.codeMemSize → I (t.withPc (t.gCpu.pc + 2)) →
      ((f (t.gCpu.short t.gCpu.pc)).run env (t.withPc (t.gCpu.pc + 2))).Decided rule
        (fun _ => Q) p) →
    ((getArgShort >>= f).run env t).Decided rule (fun _ => Q)
      (t.gCpu.Counts 2 ∧ (t.gCpu.pc + 2 ≤ t.gCpu.codeMemSize → p))

namespace FetchRules

variable {env : Env} {rule : Event → Prop} {I Q : State → Prop} {t : State}

/-- An instruction that keeps the rule once it has the index of a variable. -/
theorem varIndex (h : FetchRules env rule I Q) {α : Type} {f : Int → VM α} (here : I t)
    (next : ∀ i u, I u → ((f i).run env u).Decided rule (fun _ => Q) True) :
    ((getVarIndex >>= f).run env t).Decided rule (fun _ => Q) (t.gCpu.Counts t.indexBytes) := by
  rw [getVarIndex, bind_assoc, run_bind, run_get, Outcome.andThen_done, Outcome.prepend_nil]
  rw [State.indexBytes]
  by_cases wide : t.nextOpWide = true
  · rw [if_pos wide, if_pos wide, bind_assoc]
    simp only [pure_bind]
    exact (h.short here fun _ there => next _ _ there).congr (and_iff_left fun _ => trivial)
  · rw [if_neg wide, if_neg wide, bind_assoc]
    simp only [pure_bind]
    exact (h.byte here fun _ there => next _ _ there).congr (and_iff_left fun _ => trivial)

/-- The two counts in the header of a method, and then its frame. -/
theorem header (h : FetchRules env rule I Q) (here : I t) (oldPc : Int)
    (frame : ∀ (pc : Int) (args locals : BitVec 16), I (t.withPc pc) →
      ((pushFrame oldPc args.toNat locals.toNat).run env (t.withPc pc)).Decided rule (fun _ => Q)
        True) :
    ((do
      let numArgs ← getArgShort
      let numLocals ← getArgShort
      pushFrame oldPc numArgs.toNat numLocals.toNat : VM Unit).run env t).Decided rule (fun _ => Q)
      (t.gCpu.pc + 2 < 2 ^ 31 ∧ (t.gCpu.pc + 2 ≤ t.gCpu.codeMemSize → t.gCpu.pc + 4 < 2 ^ 31)) := by
  refine (h.short here fun _ there => h.short there fun _ last =>
    frame (t.gCpu.pc + 2 + 2) _ _ last).congr ?_
  have next : t.gCpu.pc + 2 + 2 = t.gCpu.pc + 4 := Int.add_assoc ..
  show t.gCpu.pc + 2 < 2 ^ 31 ∧ (_ → t.gCpu.pc + 2 + 2 < 2 ^ 31 ∧ (_ → True)) ↔ _
  rw [next]
  exact and_congr_right fun _ => forall_congr' fun _ => and_iff_left fun _ => trivial

/-- A call fetches its argument and the header of the method. -/
theorem invokevirtual (h : FetchRules env rule I Q) (here : I t)
    (entry : 0 ≤ t.gCpu.methodAddress → t.gCpu.methodAddress < t.gCpu.codeMemSize →
      I (t.withPc t.gCpu.methodAddress))
    (frame : ∀ (oldPc pc : Int) (args locals : BitVec 16), I (t.withPc pc) →
      ((pushFrame oldPc args.toNat locals.toNat).run env (t.withPc pc)).Decided rule (fun _ => Q)
        True) :
    (execOpInvokevirtual.run env t).Decided rule (fun _ => Q)
      (t.gCpu.Counts 2 ∧ (t.gCpu.Calls → t.gCpu.methodAddress + 2 < 2 ^ 31 ∧
        (t.gCpu.methodAddress + 2 ≤ t.gCpu.codeMemSize → t.gCpu.methodAddress + 4 < 2 ^ 31))) := by
  rw [execOpInvokevirtual, enterMethod]
  simp only [bind_assoc]
  refine (h.short here (p := t.gCpu.Calls → t.gCpu.methodAddress + 2 < 2 ^ 31 ∧
    (t.gCpu.methodAddress + 2 ≤ t.gCpu.codeMemSize → t.gCpu.methodAddress + 4 < 2 ^ 31))
    fun argument _ => ?_).congr ?_
  · rw [run_bind, getConstant_run]
    by_cases constant : 0 ≤ (t.gCpu.short t.gCpu.pc).toInt ∧
        (t.gCpu.short t.gCpu.pc).toInt < t.gCpu.constMemSize.tdiv 4
    swap
    · rw [if_pos (by dsimp only [State.withPc]; omega)]
      exact .of_stopped (by simp) fun calls => absurd calls.constant constant
    rw [if_neg (by dsimp only [State.withPc]; omega), Outcome.andThen_done, Outcome.prepend_nil,
      run_bind, run_get, Outcome.andThen_done, Outcome.prepend_nil]
    have target : ((t.withPc (t.gCpu.pc + 2)).gCpu.constMem.getD
        (t.gCpu.short t.gCpu.pc).toInt.toNat 0).toInt = t.gCpu.methodAddress := rfl
    rw [target]
    by_cases address : 0 ≤ t.gCpu.methodAddress ∧ t.gCpu.methodAddress < t.gCpu.codeMemSize
    swap
    · rw [if_pos (by dsimp only [State.withPc]; omega)]
      exact .of_stopped (by simp) fun calls => absurd calls.address address
    rw [if_neg (by dsimp only [State.withPc]; omega)]
    simp only [bind_assoc, pure_bind]
    rw [run_bind, run_modifyCpu, Outcome.andThen_done, Outcome.prepend_nil]
    exact (h.header (t := t.withPc t.gCpu.methodAddress) (entry address.1 address.2) _
      fun pc args locals there => frame _ pc args locals there).congr
      (imp_iff_right ⟨argument, constant, address⟩).symm
  · exact and_congr_right fun _ => ⟨fun h calls => h calls.argument calls, fun h _ => h⟩

end FetchRules

section Operands

variable {n : Int} {env : Env} {t : State}

/-- What the operand fetches of an instruction need so that the sums of their tests do not
overflow, in the state in which it is executed. -/
def Op.Fetches (t : State) : Op → Prop
  | .bipush => t.gCpu.Counts 1
  | .ldcW | .ifeq | .iflt | .icmpeq | .goto => t.gCpu.Counts 2
  | .iload => t.gCpu.Counts t.indexBytes
  | .istore => ¬ t.gCpu.Empty → t.gCpu.Counts t.indexBytes
  | .iinc =>
      t.gCpu.Counts t.indexBytes ∧
        (t.gCpu.pc + t.indexBytes ≤ t.gCpu.codeMemSize → t.gCpu.Counts (t.indexBytes + 1))
  | .invokevirtual =>
      t.gCpu.Counts 2 ∧ (t.gCpu.Calls → t.gCpu.methodAddress + 2 < 2 ^ 31 ∧
        (t.gCpu.methodAddress + 2 ≤ t.gCpu.codeMemSize → t.gCpu.methodAddress + 4 < 2 ^ 31))
  | _ => True

/-- The run ends with `pc` at most a branch offset beyond the code, and fetches inside the code
exactly if `p` holds. -/
abbrev FetchesIff {α : Type} (n : Int) (o : Outcome State Event Stop α) (p : Prop) : Prop :=
  o.Decided Event.inCode (fun _ t => t.gCpu.PcWithin n (2 ^ 15)) p

theorem argReads_inCode_iff {c : Cpu} {k : Nat} (positive : 0 < k)
    (beyond : c.codeMemSize < c.pc + k) : (∀ e ∈ c.argReads k, e.inCode) ↔ c.Counts k := by
  unfold Cpu.argReads
  by_cases counts : c.Counts k
  · rw [if_pos counts]
    exact iff_of_true (by simp) counts
  · rw [if_neg counts]
    refine iff_of_false (fun inside => ?_) counts
    have last := (inside (.code (c.pc + (k - 1 : Nat)) c.codeMemSize) (List.mem_map_of_mem
      (List.mem_range.mpr (by omega)))).2
    omega

theorem Cpu.PcWithin.move {pc : Int} (within : t.gCpu.PcWithin n 0) (nonneg : 0 ≤ pc)
    (inside : pc ≤ t.gCpu.codeMemSize) : (t.withPc pc).gCpu.PcWithin n 0 := by
  have size := within.coded.size
  refine ⟨⟨size, within.coded.sized.nonneg, within.coded.sized.bound⟩, nonneg, ?_⟩
  show pc ≤ n + 0
  omega

/-- An argument is fetched inside the code exactly if the sum of its test does not overflow. -/
theorem within_rules (env : Env) (bound : n < 2 ^ 31) :
    FetchRules env Event.inCode (fun t => t.gCpu.PcWithin n 0)
      fun t => t.gCpu.PcWithin n (2 ^ 15) where
  byte {_ f p t} within next := by
    have size := within.coded.size
    have nonneg := within.nonneg
    rw [run_bind, getArgByte_run]
    by_cases inside : t.gCpu.pc + 1 ≤ t.gCpu.codeMemSize
    · have counts : t.gCpu.Counts 1 := show t.gCpu.pc + 1 < 2 ^ 31 by omega
      rw [if_neg (by omega), Outcome.andThen_done]
      refine ((next inside (within.move (by omega) inside)).prepend_kept ?_).congr ?_
      · simp only [List.forall_mem_cons, Event.inCode]
        exact ⟨trivial, ⟨nonneg, by omega⟩, by simp⟩
      · exact ⟨fun holds => ⟨counts, fun _ => holds⟩, fun holds => holds.2 inside⟩
    · rw [if_pos (by omega), Outcome.andThen_stopped]
      refine ⟨Outcome.returns_stopped, ?_⟩
      rw [Outcome.events_stopped, List.forall_mem_cons,
        argReads_inCode_iff (by decide) (Int.not_le.mp inside)]
      refine (and_iff_right trivial).trans ?_
      exact (and_iff_left fun inside' => absurd inside' inside).symm
  short {_ f p t} within next := by
    have size := within.coded.size
    have nonneg := within.nonneg
    rw [run_bind, getArgShort_run]
    by_cases inside : t.gCpu.pc + 2 ≤ t.gCpu.codeMemSize
    · have counts : t.gCpu.Counts 2 := show t.gCpu.pc + 2 < 2 ^ 31 by omega
      rw [if_neg (by omega), Outcome.andThen_done]
      refine ((next inside (within.move (by omega) inside)).prepend_kept ?_).congr ?_
      · simp only [List.forall_mem_cons, Event.inCode]
        exact ⟨trivial, ⟨nonneg, by omega⟩, ⟨by omega, by omega⟩, by simp⟩
      · exact ⟨fun holds => ⟨counts, fun _ => holds⟩, fun holds => holds.2 inside⟩
    · rw [if_pos (by omega), Outcome.andThen_stopped]
      refine ⟨Outcome.returns_stopped, ?_⟩
      rw [Outcome.events_stopped, List.forall_mem_cons,
        argReads_inCode_iff (by decide) (Int.not_le.mp inside)]
      refine (and_iff_right trivial).trans ?_
      exact (and_iff_left fun inside' => absurd inside' inside).symm

theorem FetchesIff.of_keeps {α : Type} {m : VM α} (h : CodeKeeps (Cpu.PcWithin n 0) m)
    (within : t.gCpu.PcWithin n 0) : FetchesIff n (m.run env t) True :=
  (Outcome.Decided.of_ensures h env within trivial).mono fun _ _ hs => hs.weaken (by decide)

end Operands

section Instructions

variable {n : Int}

/-- An instruction that starts with `pc` inside the code fetches inside the code, and ends
with `pc` at most a branch offset beyond it. -/
abbrev FetchesInside (n : Int) (m : VM Unit) : Prop :=
  Fetching n m fun _ t => t.gCpu.PcWithin n (2 ^ 15)

theorem popThen_within {β : Type} {f : Word → VM β} {Q : β → State → Prop}
    (next : ∀ w, Fetching n (f w) Q) : Fetching n (stackPop .pop >>= f) Q :=
  .bind (pop_within .pop) next

theorem branch_within {c : Prop} [Decidable c] {offset : Int} (small : offset < 2 ^ 15) :
    FetchesInside n (if c then jump offset else pure ()) :=
  .ite (fun _ => jump_within small) fun _ => .pure fun _ h => h.weaken (by decide)

theorem binary_within (computes : Word → Word → List Int) (f : Word → Word → Word) :
    CodeKeeps (Cpu.PcWithin n 0) (execBinary computes f) := by
  refine popThen_within fun _ => popThen_within fun _ =>
    .bind (Keeps.emit ?_) fun _ => pushLast_within _
  intro e member _
  obtain ⟨v, _, rfl⟩ := List.mem_map.mp member
  trivial

theorem modify_within {f : State → State} (cpu : ∀ s, (f s).gCpu.codeMemSize = s.gCpu.codeMemSize ∧
    (f s).gCpu.stackSize = s.gCpu.stackSize ∧ (f s).gCpu.pc = s.gCpu.pc) :
    CodeKeeps (Cpu.PcWithin n 0) (modify f : VM PUnit) := by
  refine .modify fun s h => ?_
  obtain ⟨code, stack, pc⟩ := cpu s
  exact ⟨⟨code.trans h.coded.size, h.coded.sized.congr stack⟩, by rw [pc]; exact h.nonneg,
    by rw [pc]; exact h.le⟩

theorem in_within : CodeKeeps (Cpu.PcWithin n 0) execOpIn := by
  apply Ensures.bind (Q := fun _ t => t.gCpu.PcWithin n 0)
  · intro env s hs _
    simp only [getc, run_bind, run_get, Outcome.andThen_done, Outcome.prepend_nil]
    cases s.inFile with
    | nil => exact ⟨Outcome.returns_done.mpr hs, by simp⟩
    | cons b rest => exact ⟨Outcome.returns_done.mpr hs, by simp⟩
  · intro c
    cases c with
    | none => exact pushLast_within _
    | some b => exact pushLast_within _

theorem dup_within : CodeKeeps (Cpu.PcWithin n 0) execOpDup :=
  .bind .get fun _ => .bind (.emit (by simp [Event.inCode])) fun _ => pushLast_within _

/-- IRETURN loads `pc` from the stack, and pushes only after it was checked. -/
theorem ireturn_within : CodeKeeps (Cpu.PcWithin n 0) execOpIreturn := by
  have set {f : Cpu → Cpu} (size : ∀ c, (f c).codeMemSize = c.codeMemSize)
      (stack : ∀ c, (f c).stackSize = c.stackSize) :
      CodeKeeps (Cpu.Coded n) (modifyCpu f) :=
    .modify fun s h => ⟨(size _).trans h.size, h.sized.congr (stack _)⟩
  have sum (v : Int) : CodeKeeps (Cpu.Coded n) (signed v) := .emit (by simp [Event.inCode])
  refine popThen_within fun retVal => ?_
  refine Ensures.mono (P := fun t => t.gCpu.Coded n) ?_ (fun _ h => h.coded) fun _ _ h => h
  refine .bind Keeps.get fun _ => .bind Keeps.get fun _ => .bind (sum _) fun _ =>
    .bind (set (fun _ => rfl) fun _ => rfl) fun _ => ?_
  refine .bind (pop_coded _) fun _ => .bind (set (fun _ => rfl) fun _ => rfl) fun _ => ?_
  refine .bind (pop_coded _) fun _ => .bind (set (fun _ => rfl) fun _ => rfl) fun _ => ?_
  refine .bind (pop_coded _) fun _ => .bind (set (fun _ => rfl) fun _ => rfl) fun _ => ?_
  refine .bind (pop_coded _) fun _ => .bind (set (fun _ => rfl) fun _ => rfl) fun _ => ?_
  refine .bind Keeps.get fun _ => .bind (sum _) fun _ =>
    .bind (set (fun _ => rfl) fun _ => rfl) fun _ => .get_bind fun s hs => ?_
  refine .ite (fun _ => .stop _) fun accepted => ?_
  refine (pushLast_within (n := n) (k := 0) retVal).mono ?_ fun _ _ h => h
  rintro _ rfl
  have size := hs.size
  unfold ireturnRejects at accepted
  exact ⟨hs, by omega, by omega⟩

theorem pushLinkage_within (oldPc : Int) : CodeKeeps (Cpu.PcWithin n 0) (pushLinkage oldPc) :=
  .bind .get fun _ => .bind (push_within _) fun _ => .ite (fun _ => .pure _) fun _ =>
    .bind .get fun _ => .bind (push_within _) fun _ => .ite (fun _ => .pure _) fun _ =>
      .bind .get fun _ => .bind (push_within _) fun _ => .ite (fun _ => .pure _) fun _ =>
        push_within _

theorem pushFrame_within (oldPc : Int) (numArgs numLocals : Nat) :
    CodeKeeps (Cpu.PcWithin n 0) (pushFrame oldPc numArgs numLocals) := by
  have sum (v : Int) : CodeKeeps (Cpu.PcWithin n 0) (signed v) := .emit (by simp [Event.inCode])
  have set {f : Cpu → Cpu} (cpu : ∀ c, (f c).codeMemSize = c.codeMemSize ∧
      (f c).stackSize = c.stackSize ∧ (f c).pc = c.pc) :
      CodeKeeps (Cpu.PcWithin n 0) (modifyCpu f) := modify_within fun s => cpu s.gCpu
  have clear (start : Int) : CodeKeeps (Cpu.PcWithin n 0) (clearCells start numLocals) := by
    refine .bind .get fun _ => .bind (.emit ?_) fun _ => set fun _ => ⟨rfl, rfl, rfl⟩
    intro e member _
    obtain ⟨k, _, rfl⟩ := List.mem_map.mp member
    trivial
  refine .bind .get fun _ => .bind (sum _) fun _ => .bind (set fun _ => ⟨rfl, rfl, rfl⟩) fun _ => ?_
  refine .bind (pushLinkage_within _) fun _ => .ite (fun _ => .stop _) fun _ => ?_
  refine .bind ?_ fun _ => .bind .get fun _ => .ite (fun _ => .stop _) fun _ => clear _
  exact .bind .get fun _ => .bind (sum _) fun _ => .bind (set fun _ => ⟨rfl, rfl, rfl⟩) fun _ =>
    .bind (set fun _ => ⟨rfl, rfl, rfl⟩) fun _ => .bind .get fun _ => .bind .get fun _ =>
      .bind (sum _) fun _ => set fun _ => ⟨rfl, rfl, rfl⟩

variable {env : Env} {t : State}

/-- A branch reads its offset, which has 16 bits, and then goes on. -/
theorem branch_fetches (bound : n < 2 ^ 31) (within : t.gCpu.PcWithin n 0) {f : Int → VM Unit}
    (next : ∀ offset, offset < 2 ^ 15 → FetchesInside n (f offset)) :
    FetchesIff n ((getJumpOffset >>= f).run env t) (t.gCpu.Counts 2) := by
  rw [getJumpOffset, bind_assoc]
  simp only [pure_bind]
  exact ((within_rules env bound).short within fun _ there =>
    .of_ensures (next _ BitVec.toInt_lt) env there trivial).congr (and_iff_left fun _ => trivial)

theorem increment_within (i : Int) (c : Byte) :
    CodeKeeps (Cpu.PcWithin n 0) (do
      let old ← getLocalVariable i
      signed (old.toInt + c.toInt)
      updateLocalVariable (old + c.signExtend 32) i) := by
  refine .bind (loadVariable_within i) fun old => .bind (.emit ?_) fun _ => storeVariable_within _ i
  simp [Event.inCode]

theorem iinc_fetches (bound : n < 2 ^ 31) (within : t.gCpu.PcWithin n 0) :
    FetchesIff n (execOpIinc.run env t) (Op.iinc.Fetches t) := by
  have rules := within_rules env bound
  have constant (k i : Int) (there : (t.withPc (t.gCpu.pc + k)).gCpu.PcWithin n 0) :
      FetchesIff n ((do
        let c ← getArgByte
        let old ← getLocalVariable i
        signed (old.toInt + c.toInt)
        updateLocalVariable (old + c.signExtend 32) i : VM Unit).run env
        (t.withPc (t.gCpu.pc + k))) (t.gCpu.Counts (k + 1)) := by
    refine (rules.byte there fun _ last => FetchesIff.of_keeps (increment_within i _) last).congr ?_
    rw [and_iff_left fun _ => trivial, Cpu.Counts, Cpu.Counts, ← Int.add_assoc]
    rfl
  rw [execOpIinc, run_bind, run_get, Outcome.andThen_done, Outcome.prepend_nil]
  unfold Op.Fetches State.indexBytes
  by_cases wide : t.nextOpWide = true
  · rw [if_pos wide, if_pos wide, bind_map_left]
    exact rules.short within fun _ there => constant 2 _ there
  · rw [if_neg wide, if_neg wide, bind_map_left]
    exact rules.byte within fun _ there => constant 1 _ there

/-- An instruction that takes an operand, and then reads the index of a variable. -/
theorem istore_fetches (bound : n < 2 ^ 31) (within : t.gCpu.PcWithin n 0) :
    FetchesIff n (execOpIstore.run env t) (Op.istore.Fetches t) := by
  rw [execOpIstore, run_bind, stackPop_run]
  by_cases empty : t.gCpu.Empty
  · rw [if_pos empty]
    exact .of_stopped (by simp) fun operand => absurd empty operand
  · rw [if_neg empty, Outcome.andThen_done]
    have popped : { t with gCpu := { t.gCpu with sp := t.gCpu.sp - 1 } }.gCpu.PcWithin n 0 :=
      ⟨⟨within.coded.size, within.coded.sized.nonneg, within.coded.sized.bound⟩, within.nonneg,
        within.le⟩
    refine (((within_rules env bound).varIndex popped fun i u there =>
      FetchesIff.of_keeps (storeVariable_within _ i) there).prepend_kept
        (by simp [Event.inCode])).congr ?_
    exact ⟨fun counts _ => counts, fun counts => counts empty⟩

/-- The condition is exact for each instruction. -/
theorem execOp_fetches (bound : n < 2 ^ 31) (within : t.gCpu.PcWithin n 0) (nested : VM Bool)
    {op : Op} (unprefixed : op ≠ .wide) :
    FetchesIff n ((execOp nested op).run env t) (op.Fetches t) := by
  have rules := within_rules env bound
  have quiet {α : Type} {m : VM α} (h : Quiet m) : CodeKeeps (Cpu.PcWithin n 0) m := h.codeKeeps
  have keeps {m : VM Unit} (h : CodeKeeps (Cpu.PcWithin n 0) m) :
      FetchesIff n (m.run env t) True := FetchesIff.of_keeps h within
  cases op with
  | wide => exact absurd rfl unprefixed
  | goto => exact branch_fetches bound within fun offset small => jump_within small
  | ifeq | iflt =>
      exact branch_fetches bound within fun offset small => popThen_within fun _ =>
        branch_within small
  | icmpeq =>
      exact branch_fetches bound within fun offset small => popThen_within fun _ =>
        popThen_within fun _ => branch_within small
  | bipush =>
      exact (rules.byte within fun _ there => FetchesIff.of_keeps (pushLast_within _) there).congr
        (and_iff_left fun _ => trivial)
  | ldcW =>
      exact (rules.short within fun _ there => FetchesIff.of_keeps
        (.bind (constant_within _) fun _ => pushLast_within _) there).congr
        (and_iff_left fun _ => trivial)
  | iload =>
      exact rules.varIndex within fun i u there => FetchesIff.of_keeps
        (.bind (loadVariable_within i) fun _ => pushLast_within _) there
  | istore => exact istore_fetches bound within
  | iinc => exact iinc_fetches bound within
  | invokevirtual =>
      refine rules.invokevirtual within (fun nonneg below => within.move nonneg below.le) ?_
      exact fun _ _ _ _ there => FetchesIff.of_keeps (pushFrame_within _ _ _) there
  | nop => exact keeps (.pure _)
  | dup => exact keeps dup_within
  | pop => exact keeps (popThen_within fun _ => Keeps.pure _)
  | swap =>
      exact keeps (popThen_within fun b => popThen_within fun a =>
        .bind (push_within b) fun _ => pushLast_within a)
  | iadd | isub | iand | ior => exact keeps (binary_within _ _)
  | ireturn => exact keeps ireturn_within
  | «in» => exact keeps in_within
  | out => exact keeps (popThen_within fun _ => modify_within fun _ => ⟨rfl, rfl, rfl⟩)
  | err | halt => exact keeps (modify_within fun _ => ⟨rfl, rfl, rfl⟩)
  | newarray =>
      exact keeps (popThen_within fun _ => .bind (quiet (arrCreate_quiet _)) fun _ =>
        pushLast_within _)
  | iaload =>
      exact keeps (popThen_within fun _ => popThen_within fun _ =>
        .bind (quiet (arrGet_quiet _ _)) fun _ => pushLast_within _)
  | iastore =>
      exact keeps (popThen_within fun _ => popThen_within fun _ => popThen_within fun _ =>
        quiet (arrSet_quiet _ _ _))
  | gc => exact keeps (.bind (quiet arrGc_quiet) fun _ => .pure _)
  | netbind =>
      exact keeps (popThen_within fun _ => .bind (quiet (netBind_quiet _)) fun _ =>
        pushLast_within _)
  | netconnect =>
      exact keeps (popThen_within fun _ => popThen_within fun _ =>
        .bind (quiet (netConnect_quiet _ _)) fun _ => pushLast_within _)
  | netin =>
      exact keeps (popThen_within fun _ => .bind (quiet (netRecv_quiet _)) fun _ =>
        pushLast_within _)
  | netout =>
      exact keeps (popThen_within fun _ => popThen_within fun _ =>
        quiet (netSend_quiet _ _))
  | netclose => exact keeps (popThen_within fun _ => quiet (netClose_quiet _))

end Instructions

section Steps

variable {n : Int} {env : Env} {s : State}

/-- Nothing but WIDE prefixes lies between `pc` and the end of the code. -/
def Cpu.PrefixesOnly (c : Cpu) : Prop :=
  ∀ i, c.pc ≤ i → i < c.codeMemSize → c.codeMem i = Op.wide.code

theorem opAddrFrom_eq_none_iff {codeMem : Int → Byte} {size pc : Int} {fuel : Nat}
    (nonneg : 0 ≤ pc) (enough : (size - pc).toNat < fuel) :
    opAddrFrom codeMem size fuel pc = none ↔
      ∀ i, pc ≤ i → i < size → codeMem i = Op.wide.code := by
  induction fuel generalizing pc with
  | zero => omega
  | succ fuel ih =>
      rw [opAddrFrom]
      by_cases outside : pc < 0 ∨ pc ≥ size
      · rw [if_pos outside]
        exact iff_of_true rfl fun i above below => by omega
      · rw [if_neg outside]
        by_cases wide : codeMem pc = Op.wide.code
        · rw [if_pos wide, ih (by omega) (by omega)]
          constructor
          · intro rest i above below
            obtain rfl | later := Int.lt_or_eq_of_le above |>.symm
            · exact wide
            · exact rest i later below
          · exact fun all i above below => all i (by omega) below
        · rw [if_neg wide]
          exact iff_of_false (by simp) fun all => wide (all pc (Int.le_refl _) (by omega))

theorem Cpu.prefixesOnly_iff {c : Cpu} (nonneg : 0 ≤ c.pc) :
    c.PrefixesOnly ↔ c.opAddr? = none :=
  (opAddrFrom_eq_none_iff nonneg (by omega)).symm

/-- The nested steps of the prefixes run past the last of them. -/
theorem stepFuel_escapes (env : Env) {fuel : Nat} (nonneg : 0 ≤ s.gCpu.pc)
    (le : s.gCpu.pc ≤ s.gCpu.codeMemSize) (prefixes : s.gCpu.PrefixesOnly)
    (enough : (s.gCpu.codeMemSize - s.gCpu.pc).toNat < fuel) :
    .code s.gCpu.codeMemSize s.gCpu.codeMemSize ∈ ((stepFuel fuel).run env s).events := by
  induction fuel generalizing s with
  | zero => omega
  | succ fuel ih =>
      by_cases last : s.gCpu.pc = s.gCpu.codeMemSize
      · rw [stepFuel_outside (by omega), Outcome.events_stopped, last]
        exact List.mem_singleton_self _
      · have inside : ¬ (s.gCpu.pc < 0 ∨ s.gCpu.pc ≥ s.gCpu.codeMemSize) := by omega
        have wide := prefixes s.gCpu.pc (Int.le_refl _) (by omega)
        have later := ih (s := { s with
          gCpu := { s.gCpu with pc := s.gCpu.pc + 1 }, nextOpWide := true })
          (by dsimp only; omega) (by dsimp only; omega)
          (fun i above below => prefixes i (by dsimp only at above; omega) below)
          (by dsimp only; omega)
        rw [stepFuel_wide inside wide, Outcome.events_prepend]
        exact List.mem_append_right _ (Outcome.mem_events_andThen later)

/-- The argument fetches of the instruction can be counted. -/
def State.Fetches (s : State) : Prop := ∀ a op, s.Executes a op → op.Fetches (s.atOp a)

/-- An instruction fetches its operands as its condition says, wherever its opcode is. -/
theorem execAt_fetches (env : Env) (bound : n < 2 ^ 31) (within : s.gCpu.PcWithin n 0) {a : Int}
    (found : s.gCpu.opAddr? = some a) :
    FetchesIff n ((execAt s.gCpu a).run env (s.atOp a)) s.Fetches := by
  obtain ⟨_, nonneg, below, plain⟩ := opAddrFrom_bounds found
  have here : (s.atOp a).gCpu.PcWithin n 0 := within.move (by omega) (by omega)
  cases decoded : Op.ofByte? (s.gCpu.codeMem a) with
  | none =>
      rw [execAt, dispatch_none decoded]
      have reports : CodeKeeps (Cpu.PcWithin n 0)
          (do modifyCpu fun c => { c with errorFlag := true }; pure false : VM Bool) :=
        .bind (modify_within fun _ => ⟨rfl, rfl, rfl⟩) fun _ => .pure _
      refine (FetchesIff.of_keeps reports here).congr
        (iff_of_true trivial fun b op executes => ?_)
      obtain rfl := Option.some.inj (found.symm.trans executes.found)
      rw [executes.decoded] at decoded
      contradiction
  | some op =>
      have executes : s.Executes a op := ⟨found, decoded⟩
      rw [execAt_run executes]
      refine ((execOp_fetches bound here (pure true) executes.unprefixed).andThen
        fun _ _ final => .of_done final trivial).congr ⟨fun fits b op' executes' => ?_, fun fits =>
          fits a op executes⟩
      obtain ⟨rfl, rfl⟩ := executes.unique executes'
      exact fits

/-- A step that finds its opcode fetches its operands as the condition says. -/
theorem step_fetches (bound : n < 2 ^ 31) (within : s.gCpu.PcWithin n 0) {a : Int}
    (found : s.gCpu.opAddr? = some a) : FetchesIff n (step.run env s) s.Fetches := by
  have size := within.coded.size
  have nonneg := within.nonneg
  obtain ⟨_, _, inside, _⟩ := opAddrFrom_bounds found
  obtain ⟨es, fetches, run⟩ := step_run env found
  rw [run]
  refine ((execAt_fetches env bound within found).andThen fun b t final => ?_).prepend_kept ?_
  · obtain ⟨flag, ending⟩ := endOfStep_done s.gCpu.pc a b t
    rw [ending]
    exact .of_done final trivial
  · intro e member
    obtain ⟨i, rfl, above, upto⟩ := fetches e member
    exact ⟨by omega, by omega⟩

/-- A step that returns leaves `pc` in its range. -/
theorem step_within (bound : n < 2 ^ 31) (within : s.gCpu.PcWithin n 0) :
    (step.run env s).Returns fun _ t => t.gCpu.PcWithin n (2 ^ 15) := by
  cases found : s.gCpu.opAddr? with
  | none =>
      obtain ⟨t, es, run, _⟩ := step_stops env found
      rw [run]
      exact Outcome.returns_stopped
  | some a => exact (step_fetches bound within found).returns

/-- A step of a running machine fetches inside the code, unless it runs out of the code
behind a prefix, or the sum of a test overflows. -/
theorem step_inCode_iff (range : s.gCpu.InRange) (running : finished s.gCpu = false) :
    (∀ e ∈ (step.run env s).events, e.inCode) ↔ ¬ s.gCpu.PrefixesOnly ∧ s.Fetches := by
  obtain ⟨nonneg, below⟩ := pc_bounds running
  cases found : s.gCpu.opAddr? with
  | none =>
      have prefixes := (Cpu.prefixesOnly_iff nonneg).mpr found
      refine iff_of_false (fun inside => ?_) (fun mixed => mixed.1 prefixes)
      have escapes := stepFuel_escapes env nonneg (by omega) prefixes
        (Nat.lt_succ_self _)
      have outside := inside (.code s.gCpu.codeMemSize s.gCpu.codeMemSize) (by
        rw [step_eq]
        exact escapes)
      exact absurd outside.2 (Int.lt_irrefl _)
  | some a =>
      have mixed : ¬ s.gCpu.PrefixesOnly := by
        rw [Cpu.prefixesOnly_iff nonneg, found]
        simp
      have within : s.gCpu.PcWithin s.gCpu.codeMemSize 0 :=
        ⟨⟨rfl, range.sized⟩, nonneg, by omega⟩
      rw [(step_fetches range.code_lt within found).keeps, and_iff_right mixed]

end Steps

section Runs

variable {env : Env} {file : List Byte}

/-- The reads of code memory in the first `n + 1` turns of the loop of `run` are inside
it. -/
def RunInCode (env : Env) (file : List Byte) (n : Nat) : Prop :=
  ∀ m ≤ n, ∀ s, after env file m = some s → finished s.gCpu = false →
    ∀ e ∈ (step.run env s).events, e.inCode

/-- In none of the first `n + 1` turns is the rest of the code a row of prefixes, and the
arguments of their instructions can be counted. -/
def RunFetches (env : Env) (file : List Byte) (n : Nat) : Prop :=
  ∀ m ≤ n, ∀ s, after env file m = some s → finished s.gCpu = false →
    ¬ s.gCpu.PrefixesOnly ∧ s.Fetches

/-- A run fetches inside the code exactly as long as no step starts where only WIDE
prefixes are left, or fetches an argument at addresses that an `int` cannot count. -/
theorem runInCode_iff (env : Env) (file : List Byte) (n : Nat) :
    RunInCode env file n ↔ RunFetches env file n :=
  turns_iff fun _ reached running => step_inCode_iff reached.inRange running

/-- A code that is one WIDE prefix. -/
def lonePrefix : List Byte := assemble [] [Op.wide.code]

/-- The nested step of the prefix reads the byte behind the code. -/
theorem lonePrefix_escapes : ¬ ∀ env file n, RunInCode env file n := by
  intro inside
  have outside : (after Env.quiet lonePrefix 0).any (fun s => !finished s.gCpu &&
      decide (¬ ∀ e ∈ (step.run Env.quiet s).events, e.inCode)) = true := by decide +kernel
  exact exists_turn_not outside (inside Env.quiet lonePrefix 0)

end Runs
end Ijvm
