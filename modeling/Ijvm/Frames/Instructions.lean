import Ijvm.Frames.Primitives

/-!
# Every instruction of the interpreter is one of the machine with frames

The instructions refine their counterparts part by part. Calls and returns are compared as a
whole, since between their parts the stack holds no frame. The word that an instruction on
arrays or connections pushes is the answer that the machine with frames is given.
-/

namespace Ijvm.Frames

open Transcript Program

section Calls

variable {nulls : Prop} {env : Env} {x : Setting}

theorem findMethod_follows : Follows nulls env x enterMethod findMethod := by
  refine .ask_bind (.bind argShort_follows fun k => .bind (constant_follows _) fun offset =>
    .get_bind fun s c h => ?_)
  have same {s' : State} {c' : Config} (here : s' = s ∧ c' = c) :
      Represents x.image x.wide s' c' := by
    obtain ⟨rfl, rfl⟩ := here
    exact h
  simp only [h.pc, h.codeSize]
  refine .mono (.ite Iff.rfl (fun _ => fault_follows _) fun inside => .bind (.modify ?_) fun _ =>
    .bind argShort_follows fun _ => .bind argShort_follows fun _ => .pure fun _ _ final => final)
    (fun _ _ => same) fun _ _ _ final => final
  exact fun s' c' h' => h'.withPc (by omega)

/-- A push whose result is tested ends the machine for want of memory only. -/
theorem push_then_external {s : State} (sized : s.gCpu.Sized) (e : Word) {rest : VM Bool}
    (next : ∀ t, t.gCpu.Sized →
      (rest.run env t).Satisfies (fun _ _ _ => True) fun r _ _ => r.external nulls) :
    ((do if (← stackPush e) ≠ true then return false else rest : VM Bool).run env s).Satisfies
      (fun _ _ _ => True) fun r _ _ => r.external nulls := by
  rw [run_bind]
  refine Outcome.Satisfies.andThen (((stackPush_satisfies sized e).and
    (stackPush_external nulls env sized e)).mono (fun _ _ _ done => done.1)
      fun _ _ _ ends => ends.2) ?_
  rintro b t es ⟨rfl, pushed, _⟩
  rw [if_neg (by simp)]
  exact next t pushed.sized

theorem pushLinkage_external {s : State} (sized : s.gCpu.Sized) (oldPc : Int) :
    ((pushLinkage oldPc).run env s).Satisfies (fun _ _ _ => True)
      fun r _ _ => r.external nulls := by
  simp only [pushLinkage, run_bind, run_get, Outcome.andThen_done, Outcome.prepend_nil]
  refine push_then_external sized _ fun t₁ sized₁ => ?_
  simp only [run_bind, run_get, Outcome.andThen_done, Outcome.prepend_nil]
  refine push_then_external sized₁ _ fun t₂ sized₂ => ?_
  simp only [run_bind, run_get, Outcome.andThen_done, Outcome.prepend_nil]
  refine push_then_external sized₂ _ fun t₃ sized₃ => ?_
  exact stackPush_external nulls env sized₃ _

/-- With enough operands, a frame is refused for want of memory only. -/
theorem pushFrame_external (nulls : Prop) (env : Env) {s : State} (sized : s.gCpu.Sized)
    (oldPc : Int) {numArgs : Nat} (numLocals : Nat)
    (enough : (numArgs : Int) ≤ s.gCpu.sp + 1) :
    ((pushFrame oldPc numArgs numLocals).run env s).Satisfies (fun _ _ _ => True)
      fun r _ _ => r.external nulls := by
  simp only [pushFrame, run_bind, run_get, run_signed, run_modifyCpu, Outcome.andThen_done,
    Outcome.prepend_nil, Outcome.satisfies_prepend]
  have sized' :
      ({ s with gCpu := { s.gCpu with sp := s.gCpu.sp + numLocals } } : State).gCpu.Sized :=
    sized.congr rfl
  refine Outcome.Satisfies.andThen
    (((pushLinkage_invoking sized' (Int.le_refl _) oldPc).and
      (pushLinkage_external sized' oldPc)).mono (fun _ _ _ done => done.1.1)
      fun _ _ _ ends => ends.2) ?_
  rintro b t es ⟨rfl, linked, _⟩
  have sp : t.gCpu.sp = s.gCpu.sp + numLocals + 4 := by rw [linked.eq]
  rw [if_neg (by simp)]
  simp only [run_bind, setFrame_run, Outcome.andThen_done, run_get, Outcome.prepend_nil]
  rw [if_neg (by omega), clearCells_run]
  trivial

theorem enter_run (c : Config) (returnAddress : Int) (numArgs numLocals : Nat) :
    (enter returnAddress numArgs numLocals).run x c =
      if c.frame.operands.length < numArgs then .stopped .undisciplined c []
      else .done () { c with
        frame := {
          vars := (c.frame.operands.take numArgs).reverse ++ List.replicate numLocals 0
          operands := [] }
        callers := {
          frame := { c.frame with operands := c.frame.operands.drop numArgs }
          pc := returnAddress } :: c.callers } [] := by
  simp only [enter, run_bind, run_get, Outcome.andThen_done, Outcome.prepend_nil]
  split
  · rfl
  · rfl

theorem invoke_follows : Follows nulls env x execOpInvokevirtual invoke := by
  intro s c h
  rw [execOpInvokevirtual, invoke, run_bind, run_bind]
  have found : Follows nulls env x enterMethod findMethod := findMethod_follows
  refine ((found s c h).and_returns
    (Outcome.Satisfies.returns (enterMethod_invoking env s) fun _ _ _ done => done.1)).andThen ?_
  rintro ⟨oldPc, numArgs, numLocals⟩ t c' ⟨h', ⟨argument, constant, address, header⟩, same, cpu, -⟩
  obtain ⟨rfl, rfl, rfl⟩ : oldPc = s.gCpu.pc + 2 ∧ numArgs = s.gCpu.methodArgs ∧
      numLocals = s.gCpu.methodLocals := by simpa using same
  dsimp only
  rw [enter_run]
  by_cases enough : c'.frame.operands.length < s.gCpu.methodArgs
  · rw [if_pos enough]
    exact .of_wild rfl
  rw [if_neg enough]
  have low : 0 ≤ s.gCpu.pc := by
    rw [h.pc]
    exact h.pc_nonneg
  have sp : t.gCpu.sp = s.gCpu.sp := by rw [cpu]
  have size : t.gCpu.stackSize = s.gCpu.stackSize := by rw [cpu]
  have layout : Layout s.gCpu c'.frame c'.callers := by
    refine h'.layout.congr ?_ ?_ ?_ ?_ ?_
    all_goals rw [cpu]
  have operands : (s.gCpu.methodArgs : Int) ≤ s.gCpu.sp + 1 := by
    have := layout.holds.top
    have := le_base s.gCpu.fp c'.callers
    have := h.range.fp_nonneg
    omega
  have pushed := (Outcome.Satisfies.and (pushFrame_invoking (c := s.gCpu)
      h'.range.sized sp.ge (s.gCpu.pc + 2) s.gCpu.methodArgs s.gCpu.methodLocals)
    (pushFrame_external nulls env h'.range.sized (s.gCpu.pc + 2) s.gCpu.methodLocals
      (by rw [sp]; exact operands))).and ((pushFrame_fileless _ _ _).satisfies env t)
  have h := h.range
  cases run : (pushFrame (s.gCpu.pc + 2) s.gCpu.methodArgs s.gCpu.methodLocals).run env t with
  | stopped r u es =>
      rw [run] at pushed
      exact .of_excused pushed.1.2
  | done _ u es =>
      rw [run] at pushed
      obtain ⟨⟨⟨⟨-, wide, size', le, room, bound, cpu'⟩, -⟩, -⟩, files⟩ := pushed
      rw [sp] at room
      have invokes : s.gCpu.Invokes := ⟨argument, constant, address, header, operands⟩
      have invoked : u.gCpu = s.gCpu.invoked size' := by
        rw [cpu', cpu]
        rfl
      have frame := invoked_frame invokes (h.caller_fits low argument) room
      refine .of_done ⟨?_, ?_, ?_, h'.pc_nonneg, ?_, ?_, ?_, ?_⟩
      · rw [← h'.image, cpu, invoked]
        rfl
      · rw [invoked]
        exact invoked_inRange h invokes room bound
      · rw [← h'.pc, cpu, invoked]
        rfl
      · rw [invoked]
        exact layout.called frame (by omega) (by omega)
      · rw [← h'.flags.1, ← h'.flags.2, cpu, invoked]
        exact ⟨rfl, rfl⟩
      · rw [files]
        exact h'.files
      · rw [wide]
        exact h'.wide

theorem leave_run {c : Config} {w : Word} {rest : List Word} {r : Suspension}
    {callers : List Suspension} (operands : c.frame.operands = w :: rest)
    (called : c.callers = r :: callers) :
    leave.run x c = if r.pc < 0 ∨ r.pc ≥ x.image.codeSize then
        .stopped (.error .ireturnFrame) { c with frame := { c.frame with operands := rest } } []
      else .done () { c with pc := r.pc, frame := r.frame.push w, callers } [] := by
  simp only [leave, pop, modifyFrame, run_bind, run_get, run_modify, run_ask, run_pure,
    Outcome.andThen_done, Outcome.prepend_nil, operands, called]
  split
  · rfl
  · rfl

theorem leave_follows : Follows nulls env x execOpIreturn leave := by
  rintro s ⟨pc, ⟨vars, operands⟩, callers, input, output, errorFlag, haltFlag⟩ h
  cases operands with
  | nil => exact .of_wild rfl
  | cons w rest =>
      cases callers with
      | nil => exact .of_wild rfl
      | cons r callers =>
          obtain ⟨-, word, -⟩ := h.layout.pop
          obtain ⟨saved, savedPc, linkage, ⟨lv_nonneg, lv_le, fp_le, nv_nonneg⟩, layout⟩ :=
            h.layout.resumed
          have framed := h.layout.wellFramed
          have top := h.layout.holds.top
          rw [base, List.length_cons] at top
          obtain ⟨size_lt, code_lt, _, sp_lt, _, _, own_nonneg, own_lt, _, _⟩ := h.range
          -- Only the return address can be out of range.
          have rejects : ireturnRejects (s.gCpu.resumed saved) ↔
              r.pc < 0 ∨ r.pc ≥ x.image.codeSize := by
            rw [← savedPc, ← h.codeSize]
            simp only [ireturnRejects, Cpu.resumed]
            omega
          rw [execOpIreturn_linked env h.range framed linkage (by omega), leave_run rfl rfl, word]
          by_cases rejected : ireturnRejects (s.gCpu.resumed saved)
          · rw [if_pos rejected, if_pos (rejects.mp rejected)]
            exact .of_matching (Or.inl ⟨_, rfl, rfl⟩)
          · rw [if_neg rejected, if_neg (rejected ∘ rejects.mpr)]
            have range : (s.gCpu.resumed saved).InRange := by
              rw [← returned_eq framed linkage] at rejected ⊢
              exact returned_inRange h.range rejected
            have pushed : Pushed (s.gCpu.resumed saved) w
                ((s.gCpu.resumed saved).pushed w s.gCpu.stackSize) := by
              refine ⟨rfl, Int.le_refl _, ?_, h.range.sized.nonneg, size_lt⟩
              simp only [Cpu.resumed, Cpu.pushed]
              omega
            refine .of_done ⟨h.image, pushed.inRange range, savedPc, ?_, layout.push pushed,
              h.flags, h.files, h.wide⟩
            have := mt rejects.mpr rejected
            dsimp only
            omega

end Calls

section Instructions

variable {nulls : Prop} {env : Env} {x : Setting}

theorem pop_bind {m : Word → VM Unit} {m' : Word → FM Unit}
    (next : ∀ w, Follows nulls env x (m w) (m' w)) :
    Follows nulls env x (stackPop .pop >>= m) (pop >>= m') :=
  .bind (stackPop_follows .pop) next

theorem dup_follows : Follows nulls env x execOpDup (exec .dup) := by
  rintro s ⟨pc, ⟨vars, operands⟩, callers, input, output, errorFlag, haltFlag⟩ h
  cases operands with
  | nil => exact .of_wild rfl
  | cons w rest =>
      obtain ⟨-, word, -⟩ := h.layout.pop
      simp only [execOpDup, run_bind, run_get, run_emit, Outcome.andThen_done,
        Outcome.prepend_nil, Outcome.refines_prepend, word]
      exact pushLast_follows w s _ h

theorem binary_follows {computes : Word → Word → List Int} {f f' : Word → Word → Word}
    (same : ∀ a b, f a b = f' a b) :
    Follows nulls env x (execBinary computes f) (binary f') := by
  refine pop_bind fun b => pop_bind fun a => .emit_bind ?_
  rw [same a b]
  exact pushLast_follows _

theorem ofInt_add_toInt (a b : Word) : BitVec.ofInt 32 (a.toInt + b.toInt) = a + b := by
  rw [BitVec.ofInt_add, BitVec.ofInt_toInt, BitVec.ofInt_toInt]

theorem iinc_follows : Follows nulls env x execOpIinc (exec .iinc) := by
  have rest (i : Int) : Follows nulls env x
      (do
        let c ← getArgByte
        let old ← getLocalVariable i
        signed (old.toInt + c.toInt)
        updateLocalVariable (old + c.signExtend 32) i)
      (do
        let c ← argByte
        store ((← load i) + c.signExtend 32) i) :=
    .bind argByte_follows fun c => .bind (load_follows i) fun old =>
      signed_bind (store_follows _ i)
  rw [execOpIinc, exec]
  simp only [map_eq_pure_bind]
  refine wide_follows (f := fun wide => if wide = true then _ else _)
    (g := fun wide => if wide = true then _ else _) (.ite Iff.rfl (fun _ => ?_) fun _ => ?_)
  · exact .bind (.bind argShort_follows fun _ => .pure fun _ _ h => h) rest
  · exact .bind (.bind argByte_follows fun _ => .pure fun _ _ h => h) rest

theorem branch_follows {c : Prop} [Decidable c] (offset : Int) :
    Follows nulls env x (if c then Ijvm.jump offset else pure ())
      (if c then jump offset else pure ()) :=
  .ite Iff.rfl (fun _ => jump_follows offset) fun _ => .pure fun _ _ h => h

theorem nextByte_follows : Follows nulls env x getc nextByte := by
  rintro s ⟨pc, frame, callers, input, output, errorFlag, haltFlag⟩ h
  have files := h.files
  have read : s.inFile = input := congrArg Files.inFile files
  have written : s.outFile = output := congrArg Files.outFile files
  cases input with
  | nil =>
      rw [show getc.run env s = .done none s [] by
        simp only [getc, run_bind, run_get, Outcome.andThen_done, Outcome.prepend_nil, read]
        rfl]
      exact .of_done h
  | cons b rest =>
      rw [show getc.run env s = .done (some b) { s with inFile := rest } [] by
        simp only [getc, run_bind, run_get, Outcome.andThen_done, Outcome.prepend_nil, read]
        rfl]
      refine .of_done ⟨h.image, h.range, h.pc, h.pc_nonneg, h.layout, h.flags, ?_, h.wide⟩
      rw [← written]
      rfl

theorem input_follows : Follows nulls env x execOpIn input := by
  refine .bind nextByte_follows fun b => ?_
  cases b with
  | none => exact pushLast_follows 0
  | some b => exact pushLast_follows _

theorem output_follows : Follows nulls env x execOpOut output := by
  refine pop_bind fun w => .modify fun s c h => ?_
  have read : s.inFile = c.input := congrArg Files.inFile h.files
  have written : s.outFile = c.output := congrArg Files.outFile h.files
  refine ⟨h.image, h.range, h.pc, h.pc_nonneg, h.layout, h.flags, ?_, h.wide⟩
  rw [← read, ← written]
  rfl

/-- An operation that leaves the CPU and the files alone shows on no frame. -/
theorem aside_represents (env : Env) {α : Type} {m : VM α} {im : Image} {wide : Bool} {s : State}
    {c : Config}
    (quiet : Quiet m) (fileless : Fileless m) (reports : Reports nulls m)
    (h : Represents im wide s c) :
    (m.run env s).Satisfies (fun _ t _ => Represents im wide t c)
      fun r _ _ => r.external nulls := by
  have cpu := quiet.returns env s
  have files := fileless.satisfies env s
  have ends := reports env s
  cases run : m.run env s with
  | stopped r t es =>
      rw [run] at ends
      exact ends
  | done a t es =>
      rw [run] at cpu files
      obtain ⟨cpu, wide⟩ := cpu a t es rfl
      refine ⟨?_, ?_, ?_, h.pc_nonneg, ?_, ?_, ?_, ?_⟩
      · rw [cpu]
        exact h.image
      · rw [cpu]
        exact h.range
      · rw [cpu]
        exact h.pc
      · rw [cpu]
        exact h.layout
      · rw [cpu]
        exact h.flags
      · rw [files]
        exact h.files
      · rw [wide]
        exact h.wide

theorem aside_follows {α : Type} {m : VM α} (quiet : Quiet m) (fileless : Fileless m)
    (reports : Reports nulls m) : Follows nulls env x (do let _ ← m) (pure ()) := by
  intro s c h
  have kept := aside_represents env quiet fileless reports h
  rw [run_bind]
  cases run : m.run env s with
  | stopped r t es =>
      rw [run] at kept
      exact .of_excused kept
  | done a t es =>
      rw [run] at kept
      rw [Outcome.andThen_done, Outcome.refines_prepend]
      exact .of_done kept

theorem asideLast_follows {m : VM Unit} (quiet : Quiet m) (fileless : Fileless m)
    (reports : Reports nulls m) : Follows nulls env x m (pure ()) := by
  rw [← bind_pure_unit (x := m)]
  exact aside_follows quiet fileless reports

end Instructions

section Answers

variable {nulls : Prop} {env : Env} {x : Setting} {α : Type}

/-- The refinement of an instruction whose last word is the answer from outside. -/
def Answers (nulls : Prop) (env : Env) (x : Setting) (m : VM Unit) (m' : FM Unit) : Prop :=
  ∀ s c, Represents x.image x.wide s c →
    (∀ t es, m.run env s = .done () t es → t.gCpu.stack t.gCpu.sp = x.answer) →
    (m.run env s).Refines (frameStops nulls) (fun _ => Represents x.image x.wide) (m'.run x c)

theorem Answers.of_follows {m : VM Unit} {m' : FM Unit} (h : Follows nulls env x m m') :
    Answers nulls env x m m' :=
  fun s c related _ => h s c related

theorem Answers.pop_bind {f : Word → VM Unit} {m' : FM Unit}
    (next : ∀ w, Answers nulls env x (f w) m') :
    Answers nulls env x (stackPop .pop >>= f) (pop >>= fun _ => m') := by
  intro s c h answer
  have pops : Follows nulls env x (stackPop .pop) pop := stackPop_follows .pop
  have popped := (pops s c h).and_returns
    (G := fun w t => ∃ es, (stackPop .pop).run env s = .done w t es) fun _ _ es run => ⟨es, run⟩
  rw [run_bind] at answer ⊢
  rw [run_bind]
  refine popped.andThen ?_
  rintro w t c' ⟨h', es, run⟩
  refine next w t c' h' fun u fs done => answer u (es ++ fs) ?_
  rw [run, Outcome.andThen_done, done, Outcome.prepend_done]

/-- The answer is what the operation returns. -/
theorem Answers.request {m : VM α} {f : α → Word} (quiet : Quiet m) (fileless : Fileless m)
    (reports : Reports nulls m) :
    Answers nulls env x (m >>= fun a => do let _ ← stackPush (f a)) (request 0) := by
  intro s c h answer
  have kept := aside_represents env quiet fileless reports h
  rw [run_bind] at answer ⊢
  cases run : m.run env s with
  | stopped r t es =>
      rw [run] at kept
      exact .of_excused kept
  | done a t es =>
      rw [run] at kept
      rw [run, Outcome.andThen_done, run_bind] at answer
      rw [Outcome.andThen_done, Outcome.refines_prepend, run_bind]
      have pushed := stackPush_represents nulls env kept (f a)
      cases push : (stackPush (f a)).run env t with
      | stopped r u fs =>
          rw [push] at pushed
          exact .of_excused pushed
      | done b u fs =>
          rw [push] at pushed answer
          obtain ⟨related, top⟩ := pushed
          have same := answer u _ rfl
          rw [top] at same
          rw [same] at related
          exact .of_done related

/-- Every instruction refines its counterpart. Only a failed `malloc` of a new connection can
give a null pointer. -/
theorem execOp_answers (nested : VM Bool) {op : Op} (unprefixed : op ≠ .wide) :
    Answers (op = .netbind ∨ op = .netconnect) env x (execOp nested op) (exec op) := by
  cases op with
  | wide => exact absurd rfl unprefixed
  | nop => exact .of_follows (.pure fun _ _ h => h)
  | bipush => exact .of_follows (.bind argByte_follows fun _ => pushLast_follows _)
  | ldcW =>
      exact .of_follows (.bind argShort_follows fun i => .bind (constant_follows _) fun w =>
        pushLast_follows w)
  | iload =>
      exact .of_follows (.bind varIndex_follows fun i => .bind (load_follows i) fun w =>
        pushLast_follows w)
  | istore =>
      exact .of_follows (Frames.pop_bind fun w => .bind varIndex_follows fun i => store_follows w i)
  | pop => exact .of_follows (Frames.pop_bind fun _ => .pure fun _ _ h => h)
  | dup => exact .of_follows dup_follows
  | swap =>
      exact .of_follows (Frames.pop_bind fun b => Frames.pop_bind fun a =>
        push_bind b (pushLast_follows a))
  | iadd => exact .of_follows (binary_follows ofInt_add_toInt)
  | isub | iand | ior => exact .of_follows (binary_follows fun _ _ => rfl)
  | iinc => exact .of_follows iinc_follows
  | ifeq | iflt =>
      exact .of_follows (.bind jumpOffset_follows fun i => Frames.pop_bind fun _ =>
        branch_follows i)
  | icmpeq =>
      exact .of_follows (.bind jumpOffset_follows fun i => Frames.pop_bind fun _ =>
        Frames.pop_bind fun _ => branch_follows i)
  | goto => exact .of_follows (.bind jumpOffset_follows fun i => jump_follows i)
  | ireturn => exact .of_follows leave_follows
  | invokevirtual => exact .of_follows invoke_follows
  | «in» => exact .of_follows input_follows
  | out => exact .of_follows output_follows
  | err =>
      exact .of_follows (.modify fun s c h => ⟨h.image, h.range.withControl _ _ _ _, h.pc,
        h.pc_nonneg, h.layout.congr rfl rfl rfl rfl rfl, ⟨rfl, h.flags.2⟩, h.files, h.wide⟩)
  | halt =>
      exact .of_follows (.modify fun s c h => ⟨h.image, h.range.withControl _ _ _ _, h.pc,
        h.pc_nonneg, h.layout.congr rfl rfl rfl rfl rfl, ⟨h.flags.1, rfl⟩, h.files, h.wide⟩)
  | newarray =>
      exact .pop_bind fun count =>
        .request (arrCreate_quiet _) (arrCreate_fileless _) (arrCreate_reports _)
  | iaload =>
      exact .pop_bind fun r => .pop_bind fun i =>
        .request (arrGet_quiet _ _) (arrGet_fileless _ _) (arrGet_reports _ _)
  | iastore =>
      exact .of_follows (Frames.pop_bind fun r => Frames.pop_bind fun i => Frames.pop_bind fun w =>
        asideLast_follows (arrSet_quiet _ _ _) (arrSet_fileless _ _ _) (arrSet_reports _ _ _))
  | gc => exact .of_follows (aside_follows arrGc_quiet arrGc_fileless arrGc_reports)
  | netbind =>
      exact .pop_bind fun port => .request (netBind_quiet _) (netBind_fileless _)
        ((netBind_reports _).mono fun _ => Stop.external_of (Or.inl rfl))
  | netconnect =>
      exact .pop_bind fun port => .pop_bind fun host =>
        .request (netConnect_quiet _ _) (netConnect_fileless _ _)
          ((netConnect_reports _ _).mono fun _ => Stop.external_of (Or.inr rfl))
  | netin =>
      exact .pop_bind fun r => .request (netRecv_quiet _) (netRecv_fileless _) (netRecv_reports _)
  | netout =>
      exact .of_follows (Frames.pop_bind fun r => Frames.pop_bind fun w =>
        asideLast_follows (netSend_quiet _ _) (netSend_fileless _ _) (netSend_reports _ _))
  | netclose =>
      exact .of_follows (Frames.pop_bind fun r =>
        asideLast_follows (netClose_quiet _) (netClose_fileless _) (netClose_reports _))

end Answers

end Ijvm.Frames
