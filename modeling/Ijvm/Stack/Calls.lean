import Ijvm.Stack.Bounds
import Ijvm.Stack.Locality

/-!
# Calls and returns over whole runs

The linkage words on the stack implement a list of saved registers: INVOKEVIRTUAL puts
the registers of the caller in front of it, IRETURN takes the first entry off and
restores it. `Chain` is the relation between the stack and that list. Every instruction
of a well behaved callee preserves it, through nested calls to any depth, so that the
matching IRETURN restores the caller.
-/

namespace Ijvm

open Transcript Program

/-- The registers that a call saves. -/
structure Caller where
  pc : Int
  fp : Int
  lv : Int
  nv : Int

/-- The registers are ones that a stack word can hold. -/
structure Caller.Fits (r : Caller) : Prop where
  pc : 0 ≤ r.pc ∧ r.pc < 2 ^ 31
  fp : 0 ≤ r.fp ∧ r.fp < 2 ^ 31
  lv : 0 ≤ r.lv ∧ r.lv < 2 ^ 31
  nv : 0 ≤ r.nv ∧ r.nv < 2 ^ 31

/-- The linkage words at `fp` hold these registers. -/
structure Linkage (stack : Int → Word) (fp : Int) (r : Caller) : Prop where
  lv : (stack fp).toInt = r.lv
  nv : (stack (fp + 1)).toInt = r.nv
  pc : (stack (fp + 3)).toInt = r.pc
  fp : (stack (fp + 2)).toInt = r.fp

theorem Linkage.congr {stack stack' : Int → Word} {fp : Int} {r : Caller}
    (h : Linkage stack fp r) (same : ∀ j, fp ≤ j → j < fp + 4 → stack' j = stack j) :
    Linkage stack' fp r := by
  refine ⟨?_, ?_, ?_, ?_⟩
  · rw [same fp (by omega) (by omega)]
    exact h.lv
  · rw [same (fp + 1) (by omega) (by omega)]
    exact h.nv
  · rw [same (fp + 3) (by omega) (by omega)]
    exact h.pc
  · rw [same (fp + 2) (by omega) (by omega)]
    exact h.fp

/-- The stack holds the registers of the nested callers, the innermost first, and below
them those of the outermost caller. Every frame lies above the linkage of the frame that
called it, and the frame of the outermost callee starts at `ground`. -/
def Chain (stack : Int → Word) (outer : Caller) (ground : Int) :
    Int → Int → List Caller → Prop
  | fp, lv, [] => Linkage stack fp outer ∧ lv = ground
  | fp, lv, r :: callers =>
      Linkage stack fp r ∧ r.fp + 4 ≤ lv ∧ r.lv + r.nv = r.fp ∧ 0 ≤ r.nv ∧
        Chain stack outer ground r.fp r.lv callers

section Chains

variable {stack stack' : Int → Word} {outer : Caller} {ground fp lv : Int} {callers : List Caller}

/-- The chain depends on the current linkage and the cells of the callers only. -/
theorem Chain.congr (h : Chain stack outer ground fp lv callers)
    (linkage : ∀ j, fp ≤ j → j < fp + 4 → stack' j = stack j)
    (below : ∀ j, j < lv → stack' j = stack j) : Chain stack' outer ground fp lv callers := by
  induction callers generalizing fp lv with
  | nil => exact ⟨h.1.congr linkage, h.2⟩
  | cons r callers ih =>
      obtain ⟨here, above, adjacent, nv_nonneg, rest⟩ := h
      refine ⟨here.congr linkage, above, adjacent, nv_nonneg, ih rest ?_ ?_⟩
      · intro j _ small
        exact below j (by omega)
      · intro j small
        exact below j (by omega)

theorem Chain.ground_le (h : Chain stack outer ground fp lv callers) : ground ≤ lv := by
  induction callers generalizing fp lv with
  | nil => exact h.2.ge
  | cons r callers ih =>
      obtain ⟨_, above, adjacent, nv_nonneg, rest⟩ := h
      have := ih rest
      omega

end Chains

/-- A callee of a call that left the cells below `ground` and the code to the caller. -/
structure InCallee (c₀ : Cpu) (outer : Caller) (ground : Int) (callers : List Caller) (c : Cpu) :
    Prop where
  codeMemSize : c.codeMemSize = c₀.codeMemSize
  size_le : c₀.stackSize ≤ c.stackSize
  inRange : c.InRange
  framed : c.WellFramed
  chain : Chain c.stack outer ground c.fp c.lv callers
  kept : ∀ j, j < ground → c.stack j = c₀.stack j

/-- A run inside the callee of the INVOKEVIRTUAL that is executed in `s₀`, with the number
of nested calls that are active. Every pop takes a word above the linkage of its frame,
and a nested call takes no more arguments than its frame has operands. -/
inductive CalleeRun (env : Env) (s₀ : State) : Nat → State → Prop
  | entered {s : State} {b : Bool} {es : List Event} (call : s₀.gCpu.op? = some .invokevirtual)
      (execution : step.run env s₀ = .done b s es) : CalleeRun env s₀ 0 s
  | ordinary {d : Nat} {s s' : State} {b : Bool} {es : List Event} (run : CalleeRun env s₀ d s)
      (noCall : s.gCpu.op? ≠ some .invokevirtual) (noReturn : s.gCpu.op? ≠ some .ireturn)
      (execution : step.run env s = .done b s' es) (pops : ∀ e ∈ es, e.ownPop s.gCpu.fp) :
      CalleeRun env s₀ d s'
  | call {d a : Nat} {s s' : State} {b : Bool} {es : List Event} (run : CalleeRun env s₀ d s)
      (call : s.Executes a .invokevirtual) (execution : step.run env s = .done b s' es)
      (operands : s.gCpu.fp + 4 ≤ s.gCpu.sp + 1 - (s.atOp a).gCpu.methodArgs) :
      CalleeRun env s₀ (d + 1) s'
  | ret {d : Nat} {s s' : State} {b : Bool} {es : List Event} (run : CalleeRun env s₀ (d + 1) s)
      (ret : s.gCpu.op? = some .ireturn) (execution : step.run env s = .done b s' es)
      (pops : ∀ e ∈ es, e.ownPop s.gCpu.fp) : CalleeRun env s₀ d s'

section Entering

variable {c : Cpu} {size : Int}

theorem toInt_regWord {v : Int} (fits : 0 ≤ v ∧ v < 2 ^ 31) : (regWord v).toInt = v := by
  rw [regWord, BitVec.toInt_ofInt]
  exact Int.bmod_eq_of_le (by omega) (by omega)

/-- The registers that INVOKEVIRTUAL saves, with `pc` at its argument before. -/
def Cpu.caller (c : Cpu) : Caller := { pc := c.pc + 2, fp := c.fp, lv := c.lv, nv := c.nv }

theorem Cpu.InRange.caller_fits (range : c.InRange) (low : 0 ≤ c.pc)
    (high : c.pc + 2 ≤ c.codeMemSize) : c.caller.Fits := by
  obtain ⟨size_lt, code_lt, _, _, fp_nonneg, fp_lt, lv_nonneg, lv_lt, nv_nonneg, nv_lt⟩ := range
  unfold Cpu.caller
  constructor
  all_goals
    dsimp only
    omega

/-- The four pushed words are the registers. -/
theorem linked_linkage {oldPc : Int}
    (fits : Caller.Fits { pc := oldPc, fp := c.fp, lv := c.lv, nv := c.nv }) :
    Linkage (c.linked oldPc) (c.sp + 1) { pc := oldPc, fp := c.fp, lv := c.lv, nv := c.nv } := by
  refine ⟨?_, ?_, ?_, ?_⟩
  · rw [Cpu.linked, setCell_ne (by omega), setCell_ne (by omega), setCell_ne (by omega),
      setCell_eq rfl]
    exact toInt_regWord fits.lv
  · rw [Cpu.linked, setCell_ne (by omega), setCell_ne (by omega), setCell_eq (by omega)]
    exact toInt_regWord fits.nv
  · rw [Cpu.linked, setCell_eq (by omega)]
    exact toInt_regWord fits.pc
  · rw [Cpu.linked, setCell_ne (by omega), setCell_eq (by omega)]
    exact toInt_regWord fits.fp

/-- A call leaves the cells up to the top of the stack alone. -/
theorem invoked_below {j : Int} (below : j ≤ c.sp) : (c.invoked size).stack j = c.stack j := by
  simp only [Cpu.invoked, Cpu.framed, Cpu.cleared, Cpu.linked]
  rw [if_neg (by omega), setCell_ne (by omega), setCell_ne (by omega), setCell_ne (by omega),
    setCell_ne (by omega)]

/-- A call leaves the registers of its caller in the linkage. -/
theorem invoked_linkage (fits : c.caller.Fits) :
    Linkage (c.invoked size).stack (c.invoked size).fp c.caller := by
  have pushed : Linkage ({ c with sp := c.sp + c.methodLocals }.linked (c.pc + 2))
      (c.sp + c.methodLocals + 1) c.caller := linked_linkage fits
  refine pushed.congr fun j above below => if_neg ?_
  dsimp only [Cpu.invoked, Cpu.framed] at above ⊢
  omega

theorem invoked_framed (invokes : c.Invokes) : (c.invoked size).WellFramed := by
  have operands := invokes.operands
  refine ⟨?_, ?_, ?_⟩
  · simp only [Cpu.invoked, Cpu.framed]
    omega
  · simp only [Cpu.invoked, Cpu.framed]
    omega
  · simp only [Cpu.invoked, Cpu.framed]
    omega

end Entering

section Returning

variable {env : Env} {t : State} {r : Caller}

/-- The CPU that returns to `r`, before it pushes the returned word. -/
def Cpu.resumed (c : Cpu) (r : Caller) : Cpu :=
  { c with pc := r.pc, sp := c.lv - 1, fp := r.fp, nv := r.nv, lv := r.lv }

theorem returned_eq {c : Cpu} (framed : c.WellFramed) (linkage : Linkage c.stack c.fp r) :
    c.returned = c.resumed r := by
  obtain ⟨lv, nv, pc, fp⟩ := linkage
  have sp : c.fp - 1 - c.nv = c.lv - 1 := by
    have := framed.adjacent
    omega
  rw [Cpu.returned, Cpu.resumed, lv, nv, pc, fp, sp]

/-- IRETURN restores the caller and replaces the frame by the returned word, unless the
registers of the caller are out of range. -/
theorem execOpIreturn_linked (env : Env) (range : t.gCpu.InRange) (framed : t.gCpu.WellFramed)
    (linkage : Linkage t.gCpu.stack t.gCpu.fp r) (operand : t.gCpu.fp + 4 ≤ t.gCpu.sp) :
    execOpIreturn.run env t =
      if ireturnRejects (t.gCpu.resumed r) then
        .stopped (.error .ireturnFrame) { t with gCpu := t.gCpu.resumed r } (returnEvents t.gCpu)
      else
        .done ()
          { t with gCpu := (t.gCpu.resumed r).pushed (t.gCpu.stack t.gCpu.sp) t.gCpu.stackSize }
          (returnEvents t.gCpu ++ [.stack .push t.gCpu.lv t.gCpu.stackSize]) := by
  obtain ⟨adjacent, nv_nonneg, _⟩ := framed
  have fp_lt := range.fp_lt
  have full : ¬ t.gCpu.Empty := by
    have := range.lv_nonneg
    exact Cpu.not_empty_iff.mpr ⟨by omega, by omega⟩
  rw [execOpIreturn_run full (by omega) range.fp_nonneg,
    returned_eq ⟨adjacent, nv_nonneg, ‹_›⟩ linkage]
  split
  · rw [Outcome.prepend_stopped, List.append_nil]
  · have top : (t.gCpu.resumed r).sp + 1 = t.gCpu.lv := by
      simp only [Cpu.resumed]
      omega
    rw [stackPush_inside (s := { t with gCpu := t.gCpu.resumed r })]
    · simp only [Outcome.andThen_done, Outcome.prepend_done, List.append_nil, top]
      rfl
    · rw [top]
      show t.gCpu.lv < t.gCpu.stackSize
      omega

end Returning

section Runs

variable {env : Env} {c₀ : Cpu} {outer : Caller} {ground : Int} {callers : List Caller}
  {s s' : State} {b : Bool} {es : List Event}

theorem Cpu.WellFramed.atOp {a : Int} (h : s.gCpu.WellFramed) : (s.atOp a).gCpu.WellFramed :=
  ⟨h.adjacent, h.nv_nonneg, h.level⟩

theorem Cpu.InRange.atOp {a : Int} (h : s.gCpu.InRange) : (s.atOp a).gCpu.InRange :=
  h.withPc (a + 1)

/-- What stays in its frame stays in the callee. -/
theorem InCallee.within {c c' : Cpu} (h : InCallee c₀ outer ground callers c) (within : c.Within c')
    (inRange : c'.InRange) : InCallee c₀ outer ground callers c' := by
  refine ⟨?_, ?_, inRange, within.wellFramed h.framed, ?_, ?_⟩
  · rw [within.codeMemSize]
    exact h.codeMemSize
  · exact Int.le_trans h.size_le within.size_le
  · rw [within.fp, within.lv]
    exact h.chain.congr within.linkage within.callers
  · intro j below
    have := h.chain.ground_le
    rw [within.callers j (by omega)]
    exact h.kept j below

theorem step_inRange (range : s.gCpu.InRange) (execution : step.run env s = .done b s' es) :
    s'.gCpu.InRange :=
  (step_judged range).returns _ _ _ execution

theorem InCallee.ordinary (h : InCallee c₀ outer ground callers s.gCpu)
    (noCall : s.gCpu.op? ≠ some .invokevirtual) (noReturn : s.gCpu.op? ≠ some .ireturn)
    (execution : step.run env s = .done b s' es) (pops : ∀ e ∈ es, e.ownPop s.gCpu.fp) :
    InCallee c₀ outer ground callers s'.gCpu := by
  obtain ⟨a, b', t, fetches, es', found, _, exec, rfl, cpu, _⟩ := step_done execution
  have framed : (s.atOp a).gCpu.WellFramed := h.framed.atOp
  have start := framed.within h.inRange.atOp.sized
  have keeps : Keeps (Event.ownPop s.gCpu.fp) (fun t => (s.atOp a).gCpu.Within t.gCpu)
      (fun _ => True) (execAt s.gCpu a) := by
    rw [execAt]
    cases decoded : Op.ofByte? (s.gCpu.codeMem a) with
    | none =>
        rw [dispatch_none decoded]
        refine .bind (Keeps.modify fun t within => ?_) fun _ => .pure _
        exact within.setControl t.gCpu.pc true t.gCpu.haltFlag
    | some op =>
        rw [dispatch_some decoded]
        have executes : s.Executes a op := ⟨found, decoded⟩
        refine .bind (execOp_within framed _ ⟨?_, ?_, executes.unprefixed⟩) fun _ => .pure _
        · rintro rfl
          exact noCall executes.op?
        · rintro rfl
          exact noReturn executes.op?
  have within := (keeps env (s.atOp a) start (by
    rw [exec]
    exact fun e member => pops e (List.mem_append.mpr (Or.inr member)))).1 _ _ _ exec
  rw [cpu]
  have same : s.gCpu.Within t.gCpu := ⟨within.constMemSize, within.codeMemSize, within.constMem,
    within.codeMem, within.fp, within.lv, within.nv, within.size_le, within.sized, within.level,
    within.callers, within.linkage⟩
  refine h.within same ?_
  rw [← cpu]
  exact step_inRange h.inRange execution

/-- What a call that returned has built. -/
theorem invoked_of_step {a : Int} (range : s.gCpu.InRange) (call : s.Executes a .invokevirtual)
    (execution : step.run env s = .done b s' es) :
    (s.atOp a).gCpu.Invokes ∧ (s.atOp a).gCpu.caller.Fits ∧
      ∃ size, s.gCpu.stackSize ≤ size ∧ s'.gCpu = (s.atOp a).gCpu.invoked size := by
  obtain ⟨t, _, es', exec, rfl, cpu⟩ := execOp_of_step call execution
  have spec := execOpInvokevirtual_invoking env (s := s.atOp a) range.atOp.sized
  rw [show execOpInvokevirtual.run env (s.atOp a) = _ from exec] at spec
  obtain ⟨⟨invokes, _, size, le, _, _, same⟩, _⟩ := spec
  have low := (opAddrFrom_bounds call.found).2.1
  refine ⟨invokes, range.atOp.caller_fits ?_ invokes.argument, size, le, cpu.trans same⟩
  show 0 ≤ a + 1
  omega

theorem InCallee.call {a : Int} (h : InCallee c₀ outer ground callers s.gCpu)
    (call : s.Executes a .invokevirtual) (execution : step.run env s = .done b s' es)
    (operands : s.gCpu.fp + 4 ≤ s.gCpu.sp + 1 - (s.atOp a).gCpu.methodArgs) :
    InCallee c₀ outer ground ((s.atOp a).gCpu.caller :: callers) s'.gCpu := by
  obtain ⟨invokes, fits, size, le, cpu⟩ := invoked_of_step h.inRange call execution
  have inRange := step_inRange h.inRange execution
  have level := h.framed.level
  have below {j : Int} (small : j ≤ s.gCpu.sp) : s'.gCpu.stack j = s.gCpu.stack j := by
    rw [cpu]
    exact invoked_below small
  refine ⟨?_, ?_, inRange, ?_, ⟨?_, ?_, h.framed.adjacent, h.framed.nv_nonneg, ?_⟩, ?_⟩
  · rw [cpu]
    exact h.codeMemSize
  · rw [cpu]
    exact Int.le_trans h.size_le le
  · rw [cpu]
    exact invoked_framed invokes
  · rw [cpu]
    exact invoked_linkage fits
  · rw [cpu]
    exact operands
  · have lv_le : s.gCpu.lv ≤ s.gCpu.fp := by
      have := h.framed.adjacent
      have := h.framed.nv_nonneg
      omega
    refine h.chain.congr ?_ ?_
    · exact fun j _ small => below (by omega)
    · exact fun j small => below (by omega)
  · intro j small
    have := h.chain.ground_le
    have := h.framed.adjacent
    have := h.framed.nv_nonneg
    rw [below (by omega)]
    exact h.kept j small

/-- The top of the stack is an operand when IRETURN returns. -/
theorem operand_of_ireturn {a : Int} (ret : s.Executes a .ireturn)
    (execution : step.run env s = .done b s' es) (pops : ∀ e ∈ es, e.ownPop s.gCpu.fp) :
    s.gCpu.fp + 4 ≤ s.gCpu.sp := by
  obtain ⟨t, fetches, es', exec, rfl, _⟩ := execOp_of_step ret execution
  rw [show execOp (pure true) .ireturn = execOpIreturn from rfl, execOpIreturn, Program.run_bind]
    at exec
  by_cases empty : (s.atOp a).gCpu.Empty
  · rw [stackPop_empty _ empty] at exec
    contradiction
  · rw [stackPop_done _ empty, Outcome.andThen_done] at exec
    have events := congrArg Outcome.events exec
    rw [Outcome.events_prepend, Outcome.events_done] at events
    refine pops (.stack .pop s.gCpu.sp s.gCpu.stackSize) (List.mem_append.mpr (Or.inr ?_))
    rw [← events]
    exact List.mem_cons_self

/-- The CPU after a return to `r`. -/
theorem returned_of_step {a : Int} {r : Caller} (range : s.gCpu.InRange)
    (framed : s.gCpu.WellFramed) (linkage : Linkage s.gCpu.stack s.gCpu.fp r)
    (ret : s.Executes a .ireturn) (operand : s.gCpu.fp + 4 ≤ s.gCpu.sp)
    (execution : step.run env s = .done b s' es) :
    s'.gCpu = (s.gCpu.resumed r).pushed (s.gCpu.stack s.gCpu.sp) s.gCpu.stackSize := by
  obtain ⟨t, _, es', exec, rfl, cpu⟩ := execOp_of_step ret execution
  have run := execOpIreturn_linked env (t := s.atOp a) range.atOp framed.atOp linkage operand
  rw [show execOpIreturn.run env (s.atOp a) = _ from exec] at run
  split at run
  · contradiction
  · injection run with _ state _
    rw [cpu, state]
    rfl

theorem InCallee.ret {a : Int} {r : Caller} (h : InCallee c₀ outer ground (r :: callers) s.gCpu)
    (ret : s.Executes a .ireturn) (execution : step.run env s = .done b s' es)
    (pops : ∀ e ∈ es, e.ownPop s.gCpu.fp) : InCallee c₀ outer ground callers s'.gCpu := by
  obtain ⟨here, above, adjacent, nv_nonneg, rest⟩ := h.chain
  have operand := operand_of_ireturn ret execution pops
  have cpu := returned_of_step h.inRange h.framed here ret operand execution
  have ground_le := rest.ground_le
  have below {j : Int} (small : j < s.gCpu.lv) : s'.gCpu.stack j = s.gCpu.stack j := by
    rw [cpu]
    exact setCell_ne (by simp only [Cpu.resumed]; omega)
  refine ⟨?_, ?_, step_inRange h.inRange execution, ?_, ?_, ?_⟩
  · rw [cpu]
    exact h.codeMemSize
  · rw [cpu]
    exact h.size_le
  · rw [cpu]
    refine ⟨adjacent, nv_nonneg, ?_⟩
    simp only [Cpu.pushed, Cpu.resumed]
    omega
  · have fp : s'.gCpu.fp = r.fp := by rw [cpu]; rfl
    have lv : s'.gCpu.lv = r.lv := by rw [cpu]; rfl
    rw [fp, lv]
    refine rest.congr ?_ ?_
    · exact fun j _ small => below (by omega)
    · exact fun j small => below (by omega)
  · intro j small
    rw [below (by omega)]
    exact h.kept j small

/-- A run of the callee keeps the registers of its caller, and those of the nested
callers that are active. -/
theorem CalleeRun.inCallee {s₀ : State} {a : Int} {d : Nat} (range : s₀.gCpu.InRange)
    (call : s₀.Executes a .invokevirtual) (run : CalleeRun env s₀ d s) :
    ∃ callers : List Caller, callers.length = d ∧
      InCallee s₀.gCpu (s₀.atOp a).gCpu.caller
        (s₀.gCpu.sp + 1 - (s₀.atOp a).gCpu.methodArgs) callers s.gCpu := by
  induction run with
  | @entered s b es _ execution =>
      obtain ⟨invokes, fits, size, le, cpu⟩ := invoked_of_step range call execution
      have operands : ((s₀.atOp a).gCpu.methodArgs : Int) ≤ s₀.gCpu.sp + 1 := invokes.operands
      refine ⟨[], rfl, ?_, ?_, step_inRange range execution, ?_, ⟨?_, ?_⟩, ?_⟩
      · rw [cpu]
        rfl
      · rw [cpu]
        exact le
      · rw [cpu]
        exact invoked_framed invokes
      · rw [cpu]
        exact invoked_linkage fits
      · rw [cpu]
        rfl
      · intro j small
        rw [cpu]
        refine invoked_below (c := (s₀.atOp a).gCpu) ?_
        show j ≤ s₀.gCpu.sp
        omega
  | ordinary _ noCall noReturn execution pops ih =>
      obtain ⟨callers, length, inside⟩ := ih
      exact ⟨callers, length, inside.ordinary noCall noReturn execution pops⟩
  | call _ nested execution operands ih =>
      obtain ⟨callers, length, inside⟩ := ih
      exact ⟨_ :: callers, congrArg (· + 1) length, inside.call nested execution operands⟩
  | ret _ isReturn execution pops ih =>
      obtain ⟨callers, length, inside⟩ := ih
      obtain ⟨b, ret⟩ := State.executes_of_op? isReturn
      cases callers with
      | nil => contradiction
      | cons r callers => exact ⟨callers, Nat.succ.inj length, inside.ret ret execution pops⟩

/-- The matching IRETURN restores the caller: it returns, to the instruction behind the
call, with the registers of the caller, the returned word in place of the arguments and
every cell below them as before the call. -/
theorem CalleeRun.restores {s₀ : State} {a : Int} (range : s₀.gCpu.InRange)
    (call : s₀.Executes a .invokevirtual) (inside : a + 3 < s₀.gCpu.codeMemSize)
    (run : CalleeRun env s₀ 0 s) (ret : s.gCpu.op? = some .ireturn)
    (operand : s.gCpu.fp + 4 ≤ s.gCpu.sp) :
    ∃ s' es, step.run env s = .done true s' es ∧
      s'.gCpu.pc = a + 3 ∧ s'.gCpu.fp = s₀.gCpu.fp ∧ s'.gCpu.lv = s₀.gCpu.lv ∧
      s'.gCpu.nv = s₀.gCpu.nv ∧
      s'.gCpu.sp = s₀.gCpu.sp - (s₀.atOp a).gCpu.methodArgs + 1 ∧
      s'.gCpu.stack s'.gCpu.sp = s.gCpu.stack s.gCpu.sp ∧
      ∀ j, 0 ≤ j → j ≤ s₀.gCpu.sp - (s₀.atOp a).gCpu.methodArgs →
        s'.gCpu.stack j = s₀.gCpu.stack j := by
  obtain ⟨callers, length, h⟩ := run.inCallee range call
  obtain rfl := List.length_eq_zero_iff.mp length
  obtain ⟨b, ret⟩ := State.executes_of_op? ret
  obtain ⟨linkage, ground⟩ := h.chain
  have accepted : ¬ ireturnRejects (s.gCpu.resumed (s₀.atOp a).gCpu.caller) := by
    have low := (opAddrFrom_bounds call.found).2.1
    have size_le := h.size_le
    have code := h.codeMemSize
    obtain ⟨_, _, _, _, _, _, lv_nonneg, lv_lt, _, _⟩ := h.inRange
    obtain ⟨_, _, _, _, fp_nonneg₀, fp_lt₀, lv_nonneg₀, lv_lt₀, nv_nonneg₀, _⟩ := range
    simp only [ireturnRejects, Cpu.resumed, Cpu.caller, State.atOp]
    omega
  have exec := execOpIreturn_linked env (t := s.atOp b) h.inRange.atOp h.framed.atOp linkage
    operand
  rw [if_neg (show ¬ ireturnRejects ((s.atOp b).gCpu.resumed (s₀.atOp a).gCpu.caller) from
    accepted)] at exec
  obtain ⟨s', es, run', cpu⟩ := step_of_execOp ret exec
  have sp : s'.gCpu.sp = s.gCpu.lv := by
    rw [cpu]
    simp only [Cpu.pushed, Cpu.resumed, State.atOp]
    omega
  refine ⟨s', es, run', ?_, ?_, ?_, ?_, ?_, ?_, ?_⟩
  · rw [cpu]
    show a + 1 + 2 = a + 3
    omega
  · rw [cpu]
    rfl
  · rw [cpu]
    rfl
  · rw [cpu]
    rfl
  · rw [sp, ground]
    omega
  · rw [sp, cpu]
    refine setCell_eq ?_
    simp only [Cpu.resumed, State.atOp]
    omega
  · intro j _ small
    rw [← h.kept j (by omega), cpu]
    refine setCell_ne ?_
    simp only [Cpu.resumed, State.atOp]
    omega

end Runs

/-- A call of a method that returns 7: BIPUSH 0; INVOKEVIRTUAL; HALT, and the method
BIPUSH 7; IRETURN with one argument. -/
def callSeven : List Byte :=
  assemble [6] [Op.bipush.code, 0, Op.invokevirtual.code, 0, 0, Op.halt.code,
    0, 1, 0, 0, Op.bipush.code, 7, Op.ireturn.code]

theorem CalleeRun.restores_callSeven :
    ∃ s₀ s s' es, after Env.quiet callSeven 1 = some s₀ ∧ after Env.quiet callSeven 3 = some s ∧
      step.run Env.quiet s = .done true s' es ∧ s'.gCpu.pc = 5 ∧ s'.gCpu.fp = s₀.gCpu.fp ∧
      s'.gCpu.sp = s₀.gCpu.sp := by
  have checks : (after Env.quiet callSeven 1).any (fun s₀ =>
        decide (s₀.gCpu.opAddr? = some 2 ∧ Op.ofByte? (s₀.gCpu.codeMem 2) = some .invokevirtual ∧
          2 + 3 < s₀.gCpu.codeMemSize ∧ (s₀.atOp 2).gCpu.methodArgs = 1)) = true ∧
      (after Env.quiet callSeven 2).any (fun s₁ => decide (s₁.gCpu.op? = some .bipush ∧
        ∀ e ∈ (step.run Env.quiet s₁).events, e.ownPop s₁.gCpu.fp)) = true ∧
      (after Env.quiet callSeven 3).any (fun s => decide (s.gCpu.op? = some .ireturn ∧
        s.gCpu.fp + 4 ≤ s.gCpu.sp)) = true := by decide +kernel
  obtain ⟨check₀, check₁, check⟩ := checks
  obtain ⟨s₀, reached₀, facts₀⟩ := (Option.any_eq_true _ _).mp check₀
  obtain ⟨s₁, reached₁, facts₁⟩ := (Option.any_eq_true _ _).mp check₁
  obtain ⟨s, reached, facts⟩ := (Option.any_eq_true _ _).mp check
  obtain ⟨found, decoded, inside, args⟩ := of_decide_eq_true facts₀
  obtain ⟨bipush, pops⟩ := of_decide_eq_true facts₁
  obtain ⟨ret, operand⟩ := of_decide_eq_true facts
  obtain ⟨_, b₁, es₁, execution₁⟩ := turn_eq_some (turn_of_after reached₀ reached₁)
  obtain ⟨_, b₂, es₂, execution₂⟩ := turn_eq_some (turn_of_after reached₁ reached)
  have call : s₀.Executes 2 .invokevirtual := ⟨found, decoded⟩
  rw [execution₂] at pops
  have run : CalleeRun Env.quiet s₀ 0 s :=
    .ordinary (.entered call.op? execution₁) (by simp [bipush]) (by simp [bipush]) execution₂ pops
  obtain ⟨s', es, done, pc, fp, _, _, sp, _⟩ :=
    CalleeRun.restores (reachable_of_after reached₀).inRange call inside run ret operand
  refine ⟨s₀, s, s', es, reached₀, reached, done, pc, fp, ?_⟩
  rw [sp, args]
  omega

end Ijvm
