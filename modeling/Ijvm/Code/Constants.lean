import Ijvm.Debugger.Bookkeeping

/-!
# The constant behind an operand

LDC_W and INVOKEVIRTUAL, the scan of the main method and the call history take the same
two bytes for the index of a constant. LDC_W reads them without a sign and the other three
with one, so that all of them mean the same constant for indices below 32768 only: the
others end the machine at a larger one.
-/

namespace Ijvm

open Transcript Program

namespace Cpu

/-- The operand of the instruction at `a`, without a sign. -/
def operand (c : Cpu) (a : Int) : Nat := (c.short (a + 1)).toNat

def constant (c : Cpu) (k : Nat) : Word := c.constMem.getD k 0

end Cpu

/-- The rest of LDC_W, once the constant is there. -/
def loadConstant (constVal : Word) : VM Unit := do
  let _ ← stackPush constVal

/-- The rest of `enterMethod`, once the constant is there. -/
def enterAt (offset : Word) : VM (Int × Nat × Nat) := do
  let c := (← get).gCpu
  if offset.toInt < 0 ∨ offset.toInt ≥ c.codeMemSize then
    destroyIjvmNow .invokeAddress
  else
    modifyCpu fun c => { c with pc := offset.toInt }
    let numArgs ← getArgShort
    let numLocals ← getArgShort
    return (c.pc, numArgs.toNat, numLocals.toNat)

/-- The rest of INVOKEVIRTUAL, once the constant is there: it is the address of the method. -/
def invokeAt (offset : Word) : VM Unit := do
  let (oldPc, numArgs, numLocals) ← enterAt offset
  pushFrame oldPc numArgs numLocals

/-- The rest of `scanInvoke`, once the constant is there. -/
def scanCall (l : Scan) (addr : Word) : VM Scan := do
  let first :=
    if addr.toInt > 0 ∧ addr.toInt < l.addrFirstMethodAfterMain ∧
        addr.toInt < (← get).gCpu.codeMemSize then
      addr.toInt.toNat
    else
      l.addrFirstMethodAfterMain
  return { l with i := l.i + 2, addrFirstMethodAfterMain := first }

/-- The rest of `storeFuncCall`, once the constant is there. -/
def storeCall (funcAddr : Word) : DBG Unit := do
  let argBits ← look (getCodeShort funcAddr.toInt)
  let funcNumArgs := uint32 argBits.toInt
  if (← fitHistory (uint32 (1 + 1 + funcNumArgs))) = false then
    return ()
  else
    saveArguments 0 funcNumArgs
    appendHistory (BitVec.ofNat 32 funcNumArgs)
    appendHistory funcAddr

section Decoders

theorem execOpLdcW_eq :
    execOpLdcW = (do
      let constIndex ← getArgShort
      loadConstant (← getConstant constIndex.toNat)) := rfl

theorem execOpInvokevirtual_eq :
    execOpInvokevirtual = (do
      let constIndex ← getArgShort
      invokeAt (← getConstant constIndex.toInt)) := by
  unfold execOpInvokevirtual enterMethod invokeAt enterAt
  simp only [bind_assoc]

theorem scanInvoke_eq (l : Scan) :
    scanInvoke l = (do
      let constIndex ← getCodeShort (l.i + 1)
      scanCall l (← getConstant constIndex.toInt)) := rfl

theorem storeFuncCall_eq :
    storeFuncCall = (do
      let c := (← get).vm.gCpu
      let constIndex ← look (getCodeShort (c.pc + 1))
      storeCall (← look (getConstant constIndex.toInt))) := rfl

end Decoders

section Uses

variable {σ ω α : Type}

/-- A run goes on with `rest`, and does not end with the message about an invalid constant
index. -/
structure Uses (run rest : Outcome σ ω Stop α) : Prop where
  goesOn : ∃ es, run = rest.prepend es
  accepted : ∀ t es, run ≠ .stopped (.error .constantIndex) t es

/-- The program does not end with the message about an invalid constant index. -/
abbrev AcceptsIndex {ρ : Type} (m : Program ρ σ ω Stop α) : Prop :=
  Meets (fun _ => True) (fun _ => True) m (fun _ _ => True)
    fun e _ => e ≠ .error .constantIndex

theorem Uses.of_accepts {ρ : Type} {m : Program ρ σ ω Stop α} {r : ρ} {s : σ}
    {run : Outcome σ ω Stop α} (accepts : AcceptsIndex m)
    (goesOn : ∃ es, run = (m.run r s).prepend es) : Uses run (m.run r s) := by
  refine ⟨goesOn, fun t es stopped => ?_⟩
  obtain ⟨fs, prepended⟩ := goesOn
  obtain ⟨gs, rest, _⟩ := Outcome.prepend_eq_stopped.mp (prepended.symm.trans stopped)
  have spec := accepts r s trivial
  rw [rest] at spec
  exact spec.1 rfl

end Uses

section Accepting

variable {ρ σ ω : Type} {α : Type}

theorem accepts_modify (f : σ → σ) :
    AcceptsIndex (modify f : Program ρ σ ω Stop PUnit) :=
  .modify fun _ _ => trivial

theorem accepts_emit (es : List ω) : AcceptsIndex (Program.emit es : Program ρ σ ω Stop Unit) :=
  .emit fun _ _ => trivial

theorem accepts_pure (a : α) : AcceptsIndex (pure a : Program ρ σ ω Stop α) :=
  .pure fun _ _ => trivial

theorem accepts_destroy {e : Err} (other : e ≠ .constantIndex) :
    AcceptsIndex (destroyIjvmNow e : VM α) :=
  .stop fun _ _ same => other (Stop.error.inj same)

theorem accepts_ite {c : Prop} [Decidable c] {yes no : Program ρ σ ω Stop α}
    (ifTrue : AcceptsIndex yes) (ifFalse : AcceptsIndex no) :
    AcceptsIndex (if c then yes else no) :=
  .ite (fun _ => ifTrue) fun _ => ifFalse

theorem allocate_accepts : AcceptsIndex allocate :=
  .bind .ask fun _ => .bind .get fun _ => .bind (accepts_modify fun _ => _) fun _ => accepts_pure _

theorem signed_accepts (v : Int) : AcceptsIndex (signed v) := accepts_emit _

theorem modifyCpu_accepts (f : Cpu → Cpu) : AcceptsIndex (modifyCpu f) := accepts_modify _

theorem markIndex_accepts (arrI : Nat) : AcceptsIndex (markIndex arrI) :=
  .bind (.bind .get fun _ => accepts_ite (accepts_destroy nofun) (accepts_pure _)) fun _ =>
    accepts_ite (accepts_modify _) (accepts_pure _)

theorem marrGetElement_accepts (arrI : Nat) : AcceptsIndex (marrGetElement arrMem arrI) :=
  .bind .get fun _ => accepts_ite (accepts_destroy nofun)
    (accepts_ite (accepts_destroy nofun) (accepts_pure _))

theorem markArrays_accepts : AcceptsIndex markArrays := by
  refine .bind .get fun _ => .bind (.forRange fun i _ _ => ?_) fun _ =>
    .bind .get fun _ => .forRange fun i _ _ => ?_
  · refine .bind .get fun _ => .bind (accepts_emit _) fun _ => ?_
    exact accepts_ite (markIndex_accepts _) (accepts_pure _)
  · refine .bind .get fun _ => accepts_ite ?_ (accepts_pure _)
    refine .bind (marrGetElement_accepts i) fun _ => .forRange fun j _ _ => ?_
    exact accepts_ite (accepts_ite (markIndex_accepts _) (accepts_pure _)) (accepts_pure _)

theorem sweepArrays_accepts : AcceptsIndex sweepArrays := by
  refine .bind .get fun _ => .foldRange fun i n _ _ => ?_
  refine .bind .get fun _ => accepts_ite ?_ (accepts_pure _)
  refine .bind (.bind .get fun _ => accepts_ite (accepts_destroy nofun) (accepts_pure _)) fun _ =>
    accepts_ite ?_ (accepts_pure _)
  refine .bind (.bind (marrGetElement_accepts i) fun _ => ?_) fun _ => accepts_pure _
  exact .bind .get fun _ => accepts_ite (accepts_destroy nofun) (accepts_modify _)

theorem arrGc_accepts : AcceptsIndex arrGc :=
  .bind .get fun _ => .bind (accepts_emit _) fun _ => .bind allocate_accepts fun _ =>
    accepts_ite (.bind (accepts_modify _) fun _ => .bind markArrays_accepts fun _ =>
      sweepArrays_accepts) (accepts_destroy nofun)

theorem octupleStackSizeFuel_accepts (fuel : Nat) : AcceptsIndex (octupleStackSizeFuel fuel) := by
  induction fuel with
  | zero => exact .stop fun _ _ => nofun
  | succ fuel ih =>
      refine .bind .get fun _ => accepts_ite (accepts_destroy nofun) ?_
      refine .bind allocate_accepts fun _ => accepts_ite ?_ ?_
      · exact .bind (modifyCpu_accepts _) fun _ => accepts_pure _
      · exact .bind arrGc_accepts fun _ => accepts_ite ih (accepts_destroy nofun)

theorem growStackFuel_accepts (fuel : Nat) : AcceptsIndex (growStackFuel fuel) := by
  induction fuel with
  | zero => exact .stop fun _ _ => nofun
  | succ fuel ih =>
      refine .bind .get fun _ => accepts_ite ?_ (accepts_pure _)
      exact .bind (.bind .get fun _ => octupleStackSizeFuel_accepts _) fun _ =>
        accepts_ite (accepts_pure _) ih

theorem stackPush_accepts (e : Word) : AcceptsIndex (stackPush e) := by
  have write : AcceptsIndex (do writeTop e; pure true) :=
    .bind (.bind .get fun _ => .bind (accepts_emit _) fun _ => modifyCpu_accepts _) fun _ =>
      accepts_pure _
  refine .bind (modifyCpu_accepts _) fun _ => .bind .get fun _ => accepts_ite write ?_
  exact .bind (.bind .get fun _ => growStackFuel_accepts _) fun _ =>
    accepts_ite (accepts_pure _) write

theorem pushLinkage_accepts (oldPc : Int) : AcceptsIndex (pushLinkage oldPc) := by
  have push {e : State → Word} {rest : VM Bool} (next : AcceptsIndex rest) :
      AcceptsIndex (get >>= fun s => stackPush (e s) >>= fun b =>
        if b ≠ true then pure false else rest) :=
    .bind .get fun _ => .bind (stackPush_accepts _) fun _ => accepts_ite (accepts_pure _) next
  exact push (push (push (stackPush_accepts _)))

theorem pushFrame_accepts (oldPc : Int) (numArgs numLocals : Nat) :
    AcceptsIndex (pushFrame oldPc numArgs numLocals) := by
  refine .bind .get fun _ => .bind (signed_accepts _) fun _ => .bind (modifyCpu_accepts _) fun _ =>
    .bind (pushLinkage_accepts oldPc) fun _ => accepts_ite (accepts_destroy nofun) ?_
  refine .bind ?_ fun _ => .bind .get fun _ => accepts_ite (accepts_destroy nofun) ?_
  · exact .bind .get fun _ => .bind (signed_accepts _) fun _ =>
      .bind (modifyCpu_accepts _) fun _ =>
      .bind (modifyCpu_accepts _) fun _ => .bind .get fun _ => .bind .get fun _ =>
        .bind (signed_accepts _) fun _ => modifyCpu_accepts _
  · exact .bind .get fun _ => .bind (accepts_emit _) fun _ => modifyCpu_accepts _

theorem argOutside_accepts {α : Type} (k : Nat) {e : Err} (other : e ≠ .constantIndex) :
    AcceptsIndex (argOutside k e : VM α) :=
  .bind .get fun _ => accepts_ite (accepts_destroy other) (.bind (accepts_emit _) fun _ =>
    .stop fun _ _ => nofun)

theorem getArgShort_accepts : AcceptsIndex getArgShort :=
  .bind .get fun _ => .bind (signed_accepts _) fun _ => accepts_ite (argOutside_accepts 2 nofun)
    (.bind (accepts_emit _) fun _ => .bind (modifyCpu_accepts _) fun _ => accepts_pure _)

theorem invokeAt_accepts (offset : Word) : AcceptsIndex (invokeAt offset) := by
  refine .bind (.bind .get fun _ => accepts_ite (accepts_destroy nofun) ?_) fun _ =>
    pushFrame_accepts _ _ _
  exact .bind (modifyCpu_accepts _) fun _ => .bind getArgShort_accepts fun _ =>
    .bind getArgShort_accepts fun _ => accepts_pure _

theorem loadConstant_accepts (w : Word) : AcceptsIndex (loadConstant w) :=
  .bind (stackPush_accepts w) fun _ => accepts_pure _

theorem scanCall_accepts (l : Scan) (addr : Word) : AcceptsIndex (scanCall l addr) :=
  .bind .get fun _ => accepts_pure _

theorem look_accepts {m : VM α} (accepts : AcceptsIndex m) : AcceptsIndex (look m) := by
  intro r x _
  have spec := accepts r.vm x.vm trivial
  rw [look_run]
  cases run : m.run r.vm x.vm with
  | done a s es => simp
  | stopped e s es =>
      rw [run] at spec
      exact ⟨spec.1, fun _ _ => trivial⟩

theorem getCodeShort_accepts (i : Int) : AcceptsIndex (getCodeShort i) := fun _ _ _ => by
  rw [getCodeShort_run]
  exact ⟨trivial, fun _ _ => trivial⟩

theorem appendHistory_accepts (w : Word) : AcceptsIndex (appendHistory w) :=
  .bind .get fun _ => .bind (accepts_emit _) fun _ => accepts_ite (accepts_modify _)
    (.stop fun _ _ => nofun)

theorem saveArguments_accepts (i n : Nat) : AcceptsIndex (saveArguments i n) := by
  induction n generalizing i with
  | zero => exact accepts_pure ()
  | succ n ih =>
      exact .bind .get fun _ => .bind (accepts_emit _) fun _ => accepts_ite
        (.bind (appendHistory_accepts _) fun _ => ih (i + 1)) (.stop fun _ _ => nofun)

theorem reallocHistory_accepts : AcceptsIndex reallocHistory := by
  refine .bind .ask fun _ => .bind .get fun _ => accepts_ite ?_ ?_
  · exact .stop fun _ _ => nofun
  · exact .bind (accepts_modify _) fun _ => accepts_pure _

theorem fitHistory_accepts (elements : Nat) : AcceptsIndex (fitHistory elements) := by
  have asks : AcceptsIndex reallocHistory := reallocHistory_accepts
  rw [fitHistory]
  -- Elaboration would compute the size that is asked for.
  generalize reallocHistory = realloc at asks ⊢
  refine .bind .get fun _ => accepts_ite ?_ (accepts_pure _)
  refine .bind (accepts_modify _) fun _ => .bind asks fun _ => accepts_ite ?_ (accepts_pure _)
  exact .bind (accepts_emit _) fun _ => .bind (accepts_modify _) fun _ => accepts_pure _

theorem storeCall_accepts (funcAddr : Word) : AcceptsIndex (storeCall funcAddr) := by
  refine .bind (look_accepts (getCodeShort_accepts _)) fun _ => .bind (fitHistory_accepts _)
    fun _ => accepts_ite (accepts_pure _) ?_
  exact .bind (saveArguments_accepts _ _) fun _ => .bind (appendHistory_accepts _) fun _ =>
    appendHistory_accepts _

end Accepting

/-- All four readers of the operand behind the opcode at `a` take it for the index of the
same constant, and go on with that constant. -/
structure SameConstant (s : State) (a : Nat) : Prop where
  ldcW : ∀ env, Uses (execOpLdcW.run env (s.atOp a))
    ((loadConstant (s.gCpu.constant (s.gCpu.operand a))).run env ((s.atOp a).withPc (a + 3)))
  invokevirtual : ∀ env, Uses (execOpInvokevirtual.run env (s.atOp a))
    ((invokeAt (s.gCpu.constant (s.gCpu.operand a))).run env ((s.atOp a).withPc (a + 3)))
  scan : ∀ env l, l.i = a → Uses ((scanInvoke l).run env s)
    ((scanCall l (s.gCpu.constant (s.gCpu.operand a))).run env s)
  storeFuncCall : ∀ r x, x.vm = s.withPc a → Uses (storeFuncCall.run r x)
    ((storeCall (s.gCpu.constant (s.gCpu.operand a))).run r x)

section Readers

variable {env : Env} {s : State} {a : Nat}

/-- The constant for an index in the pool. -/
theorem getConstant_found {k : Nat} {i : Int} (same : i = k)
    (valid : (k : Int) < s.gCpu.constMemSize.tdiv 4) :
    (getConstant i).run env s = .done (s.gCpu.constant k) s [] := by
  subst same
  rw [getConstant_run, if_neg (by omega)]
  rfl

/-- A decoder of an index in the pool goes on with its constant. -/
theorem constant_bind {α : Type} {k : Nat} {i : Int} {rest : Word → VM α} (same : i = k)
    (valid : (k : Int) < s.gCpu.constMemSize.tdiv 4) :
    (getConstant i >>= rest).run env s = (rest (s.gCpu.constant k)).run env s := by
  rw [run_bind_of_done _ (getConstant_found same valid), Outcome.prepend_nil]

theorem constant_bind_negative {α : Type} {i : Int} {rest : Word → VM α} (negative : i < 0) :
    (getConstant i >>= rest).run env s = .stopped (.error .constantIndex) s [] := by
  rw [run_bind, getConstant_run, if_pos (Or.inl negative)]
  rfl

/-- An instruction reads its operand and passes it. -/
theorem getArgShort_operand (env : Env) (inside : (a : Int) + 3 ≤ s.gCpu.codeMemSize) :
    ∃ es, getArgShort.run env (s.atOp a) =
      .done (s.gCpu.short (a + 1)) ((s.atOp a).withPc (a + 3)) es := by
  have next : (a : Int) + 1 + 2 = a + 3 := by omega
  have room : ¬ (s.atOp a).gCpu.pc + 2 > (s.atOp a).gCpu.codeMemSize := by
    show ¬ (a : Int) + 1 + 2 > s.gCpu.codeMemSize
    omega
  rw [getArgShort_run, if_neg room]
  exact ⟨_, by rw [← next]; rfl⟩

/-- Below 32768, the sign makes no difference. -/
theorem toInt_short {b : BitVec 16} (small : b.toNat < 32768) : b.toInt = b.toNat :=
  BitVec.toInt_eq_toNat_of_lt (by omega)

/-- From 32768 on, the index with a sign is negative. -/
theorem toInt_short_negative {b : BitVec 16} (large : 32768 ≤ b.toNat) : b.toInt < 0 := by
  rw [BitVec.toInt_eq_toNat_cond]
  have := b.isLt
  split <;> omega

theorem sameConstant_of_small (inside : (a : Int) + 3 ≤ s.gCpu.codeMemSize)
    (valid : (s.gCpu.operand a : Int) < s.gCpu.constMemSize.tdiv 4)
    (small : s.gCpu.operand a < 32768) : SameConstant s a := by
  have signless : (s.gCpu.short (a + 1)).toInt = s.gCpu.operand a := toInt_short small
  constructor
  · intro env
    obtain ⟨es, operand⟩ := getArgShort_operand env inside
    refine .of_accepts (loadConstant_accepts _) ⟨es, ?_⟩
    rw [execOpLdcW_eq, run_bind_of_done _ operand]
    exact congrArg _ (constant_bind (s := (s.atOp a).withPc (a + 3)) rfl valid)
  · intro env
    obtain ⟨es, operand⟩ := getArgShort_operand env inside
    refine .of_accepts (invokeAt_accepts _) ⟨es, ?_⟩
    rw [execOpInvokevirtual_eq, run_bind_of_done _ operand]
    exact congrArg _ (constant_bind (s := (s.atOp a).withPc (a + 3)) signless valid)
  · intro env l here
    refine .of_accepts (scanCall_accepts l _) ⟨[.code (a + 1) s.gCpu.codeMemSize,
      .code (a + 1 + 1) s.gCpu.codeMemSize], ?_⟩
    rw [scanInvoke_eq, run_bind_of_done _ (getCodeShort_run _), here]
    exact congrArg _ (constant_bind signless valid)
  · rintro r ⟨_, d, symbols, requests⟩ rfl
    refine .of_accepts (storeCall_accepts _) ⟨[
      .own (s.withPc a) (.code (a + 1) s.gCpu.codeMemSize),
      .own (s.withPc a) (.code (a + 1 + 1) s.gCpu.codeMemSize)], ?_⟩
    have found : (getConstant (s.gCpu.short (a + 1)).toInt).run r.vm (s.withPc a) =
        .done (s.gCpu.constant (s.gCpu.operand a)) (s.withPc a) [] :=
      getConstant_found (s := s.withPc a) signless valid
    have reads : (getCodeShort (a + 1)).run r.vm (s.withPc a) =
        .done (s.gCpu.short (a + 1)) (s.withPc a) [.code (a + 1) s.gCpu.codeMemSize,
          .code (a + 1 + 1) s.gCpu.codeMemSize] := getCodeShort_run _
    rw [storeFuncCall_eq, run_bind, run_get, Outcome.andThen_done, Outcome.prepend_nil]
    refine (run_bind_of_done _
      (look_done (x := ⟨s.withPc a, d, symbols, requests⟩) reads)).trans (congrArg _ ?_)
    rw [run_bind_of_done _ (look_done (x := ⟨s.withPc a, d, symbols, requests⟩) found)]
    exact Outcome.prepend_nil _

/-- An operand from 32768 on ends the machine at a call. -/
theorem small_of_sameConstant (inside : (a : Int) + 3 ≤ s.gCpu.codeMemSize)
    (same : SameConstant s a) : s.gCpu.operand a < 32768 := by
  by_contra large
  have negative : (s.gCpu.short (a + 1)).toInt < 0 := toInt_short_negative (Nat.not_lt.mp large)
  obtain ⟨es, operand⟩ := getArgShort_operand Env.quiet inside
  refine (same.invokevirtual Env.quiet).accepted ((s.atOp a).withPc (a + 3)) (es ++ []) ?_
  rw [execOpInvokevirtual_eq, run_bind_of_done _ operand, constant_bind_negative negative]
  rfl

end Readers

/-- Four readers of an operand mean the same constant if its index is below 32768, and
only then. -/
theorem sameConstant_iff {s : State} {a : Nat} (inside : (a : Int) + 3 ≤ s.gCpu.codeMemSize)
    (valid : (s.gCpu.operand a : Int) < s.gCpu.constMemSize.tdiv 4) :
    SameConstant s a ↔ s.gCpu.operand a < 32768 :=
  ⟨small_of_sameConstant inside, sameConstant_of_small inside valid⟩

/-- A pool of 32769 constants, and a call through the last of them. -/
def lastOfManyConstants : State :=
  { State.fresh with gCpu := { State.fresh.gCpu with
      constMemSize := 131076
      constMem := List.replicate 32769 0
      codeMemSize := 3
      codeMem := fun i => [0xB6, 0x80, 0x00].getD i.toNat 0 } }

theorem sameConstant_iff_lastOfMany :
    SameConstant lastOfManyConstants 0 ↔ lastOfManyConstants.gCpu.operand 0 < 32768 :=
  sameConstant_iff (by decide) (by decide)

/-- The call of the last of 32769 constants ends the machine. -/
theorem lastOfManyConstants_differs : ¬ ∀ (s : State) (a : Nat),
    (a : Int) + 3 ≤ s.gCpu.codeMemSize →
      (s.gCpu.operand a : Int) < s.gCpu.constMemSize.tdiv 4 → SameConstant s a := by
  intro same
  have small := small_of_sameConstant (by decide)
    (same lastOfManyConstants 0 (by decide) (by decide))
  exact absurd small (by decide)

end Ijvm
