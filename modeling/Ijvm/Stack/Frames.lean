import Ijvm.Stack.Access

/-!
# Calls and returns

INVOKEVIRTUAL and IRETURN are the only instructions that move `fp`, `lv` and `nv`. Their
specifications give the CPU afterwards as a function of the CPU before: `Cpu.invoked`
builds the frame that the source's comment draws, and `Cpu.returned` reloads the four
linkage words from it.
-/

namespace Ijvm

open Transcript

namespace Cpu

/-- The method address in the constant that the argument at `pc` selects. -/
def methodAddress (c : Cpu) : Int := (c.constMem.getD (c.short c.pc).toInt.toNat 0).toInt

def methodArgs (c : Cpu) : Nat := (c.short c.methodAddress).toNat

def methodLocals (c : Cpu) : Nat := (c.short (c.methodAddress + 2)).toNat

/-- The four linkage words above `sp`. -/
def linked (c : Cpu) (oldPc : Int) : Int → Word :=
  setCell (setCell (setCell (setCell c.stack (c.sp + 1) (regWord c.lv)) (c.sp + 2) (regWord c.nv))
    (c.sp + 3) (regWord c.fp)) (c.sp + 4) (regWord oldPc)

/-- Zeros in the cells `start, …, start + n - 1`. -/
def cleared (stack : Int → Word) (start : Int) (n : Nat) : Int → Word :=
  fun j => if start ≤ j ∧ j < start + n then 0 else stack j

/-- The CPU with a new frame: the arguments become local variables, the other local
variables are zero, and the linkage lies above them. -/
def framed (c : Cpu) (oldPc : Int) (numArgs numLocals : Nat) (size : Int) : Cpu :=
  { c with
    sp := c.sp + numLocals + 4
    fp := c.sp + numLocals + 1
    nv := numArgs + numLocals
    lv := c.sp + 1 - numArgs
    stackSize := size
    stack := cleared ({ c with sp := c.sp + numLocals }.linked oldPc) (c.sp + 1) numLocals }

/-- The CPU after INVOKEVIRTUAL, with `pc` at its argument before. -/
def invoked (c : Cpu) (size : Int) : Cpu :=
  { c with pc := c.methodAddress + 4 }.framed (c.pc + 2) c.methodArgs c.methodLocals size

/-- INVOKEVIRTUAL finds the address of a method. -/
structure Calls (c : Cpu) : Prop where
  argument : c.pc + 2 ≤ c.codeMemSize
  constant : 0 ≤ (c.short c.pc).toInt ∧ (c.short c.pc).toInt < c.constMemSize.tdiv 4
  address : 0 ≤ c.methodAddress ∧ c.methodAddress < c.codeMemSize

/-- What INVOKEVIRTUAL needs in order to return. -/
structure Invokes (c : Cpu) : Prop where
  argument : c.pc + 2 ≤ c.codeMemSize
  constant : 0 ≤ (c.short c.pc).toInt ∧ (c.short c.pc).toInt < c.constMemSize.tdiv 4
  address : 0 ≤ c.methodAddress ∧ c.methodAddress < c.codeMemSize
  header : c.methodAddress + 4 ≤ c.codeMemSize
  operands : c.methodArgs ≤ c.sp + 1

/-- The CPU that IRETURN restores, before it pushes the returned word. -/
def returned (c : Cpu) : Cpu :=
  { c with
    pc := (c.stack (c.fp + 3)).toInt
    sp := c.fp - 1 - c.nv
    fp := (c.stack (c.fp + 2)).toInt
    nv := (c.stack (c.fp + 1)).toInt
    lv := (c.stack c.fp).toInt }

end Cpu

/-- The events of INVOKEVIRTUAL: it uses cells above `sp` only. -/
def InvokeEvent (c : Cpu) (e : Event) : Prop :=
  e.quiet ∨ (∃ i n, e = .code i n) ∨
    ∃ access i n, e = .stack access i n ∧ (access = .push ∨ access = .clear) ∧ c.sp < i ∧ i < n

/-- An end with an error, or behind a read past the end of the code. -/
def InvokeStop (r : Stop) (es : List Event) : Prop :=
  (∃ e, r = .error e) ∨ ∃ i n, .code i n ∈ es ∧ n ≤ i

theorem InvokeStop.append {r : Stop} {fs : List Event} (h : InvokeStop r fs) (es : List Event) :
    InvokeStop r (es ++ fs) :=
  h.imp_right fun ⟨i, n, member, past⟩ => ⟨i, n, List.mem_append_right es member, past⟩

theorem argStop_invokeStop {c : Cpu} {k : Nat} {e : Err} {v : Int} (positive : 0 < k)
    (beyond : c.codeMemSize < c.pc + k) :
    InvokeStop (c.argStop k e) (.signed v :: c.argReads k) := by
  unfold Cpu.argStop Cpu.argReads
  by_cases counts : c.Counts k
  · rw [if_pos counts]
    exact Or.inl ⟨e, rfl⟩
  · rw [if_neg counts, if_neg counts]
    refine Or.inr ⟨c.pc + (k - 1 : Nat), _, List.mem_cons_of_mem _ (List.mem_map_of_mem
      (List.mem_range.mpr ?_)), ?_⟩
    all_goals omega

/-- Both ends of a part of INVOKEVIRTUAL that started at `c`: it returns in a state that
satisfies `Q`, or stops as a call can. -/
def Invoking {α : Type} (c : Cpu) (o : Outcome State Event Stop α) (Q : α → State → Prop) : Prop :=
  o.Satisfies (fun a t es => Q a t ∧ ∀ e ∈ es, InvokeEvent c e)
    (fun r _ es => InvokeStop r es ∧ ∀ e ∈ es, InvokeEvent c e)

theorem Invoking.andThen {α β : Type} {c : Cpu} {o : Outcome State Event Stop α}
    {f : α → State → Outcome State Event Stop β} {Q : α → State → Prop} {R : β → State → Prop}
    (first : Invoking c o Q) (next : ∀ a t, Q a t → Invoking c (f a t) R) :
    Invoking c (o.andThen f) R := by
  refine Outcome.Satisfies.andThen first ?_
  rintro a t es ⟨q, early⟩
  refine (next a t q).mono ?_ ?_
  · rintro b u fs ⟨r, late⟩
    exact ⟨r, fun e member => (List.mem_append.mp member).elim (early e) (late e)⟩
  · rintro r u fs ⟨ended, late⟩
    exact ⟨ended.append _, fun e member => (List.mem_append.mp member).elim (early e) (late e)⟩

section Linkage

variable {env : Env}

theorem stackPush_invoking {c : Cpu} {s : State} (sized : s.gCpu.Sized) (above : c.sp ≤ s.gCpu.sp)
    (e : Word) :
    Invoking c ((stackPush e).run env s) fun b t =>
      b = true ∧ Pushed s.gCpu e t.gCpu ∧ t.nextOpWide = s.nextOpWide := by
  refine (stackPush_satisfies sized e).mono ?_ ?_
  · rintro b t es ⟨rfl, pushed, wide, events⟩
    refine ⟨⟨rfl, pushed, wide⟩, fun ev member => ?_⟩
    rcases events ev member with quiet | rfl
    · exact Or.inl quiet
    · exact Or.inr (Or.inr ⟨.push, _, _, rfl, Or.inl rfl, by omega, pushed.inside⟩)
  · rintro r t es refused
    exact ⟨Or.inl refused.error, fun ev member => Or.inl (refused.quiet ev member)⟩

/-- A push whose result is tested. -/
theorem push_then {c : Cpu} {s : State} (sized : s.gCpu.Sized) (above : c.sp ≤ s.gCpu.sp)
    (e : Word) {rest : VM Bool} {Q : Bool → State → Prop}
    (next : ∀ t, Pushed s.gCpu e t.gCpu → t.nextOpWide = s.nextOpWide →
      Invoking c (rest.run env t) Q) :
    Invoking c ((do if (← stackPush e) ≠ true then return false else rest : VM Bool).run env s)
      Q := by
  rw [Program.run_bind]
  refine Invoking.andThen (stackPush_invoking sized above e) ?_
  rintro b t ⟨rfl, pushed, wide⟩
  rw [if_neg (by simp)]
  exact next t pushed wide

/-- The CPU after the linkage was pushed. -/
structure Linked (c : Cpu) (oldPc : Int) (c' : Cpu) : Prop where
  eq : c' = { c with sp := c.sp + 4, stackSize := c'.stackSize, stack := c.linked oldPc }
  size_le : c.stackSize ≤ c'.stackSize
  inside : c.sp + 4 < c'.stackSize
  sized : c'.Sized

theorem Pushed.sp_eq {c c' : Cpu} {e : Word} (pushed : Pushed c e c') : c'.sp = c.sp + 1 := by
  rw [pushed.eq, Cpu.pushed]

/-- Four pushes are one push of the linkage. -/
theorem Linked.of_pushed {c c₁ c₂ c₃ c₄ : Cpu} {oldPc : Int} (first : Pushed c (regWord c.lv) c₁)
    (second : Pushed c₁ (regWord c₁.nv) c₂) (third : Pushed c₂ (regWord c₂.fp) c₃)
    (fourth : Pushed c₃ (regWord oldPc) c₄) : Linked c oldPc c₄ := by
  have sp₁ := first.sp_eq
  have sp₂ : c₂.sp = c.sp + 2 := by rw [second.sp_eq, sp₁]; omega
  have sp₃ : c₃.sp = c.sp + 3 := by rw [third.sp_eq, sp₂]; omega
  obtain ⟨eq₁, le₁, _, _⟩ := first
  obtain ⟨eq₂, le₂, _, _⟩ := second
  obtain ⟨eq₃, le₃, _, _⟩ := third
  obtain ⟨eq₄, le₄, inside, sized⟩ := fourth
  refine ⟨?_, by omega, by omega, sized⟩
  rw [Cpu.pushed, sp₁, show c.sp + 1 + 1 = c.sp + 2 by omega] at eq₂
  rw [Cpu.pushed, sp₂, show c.sp + 2 + 1 = c.sp + 3 by omega] at eq₃
  rw [Cpu.pushed, sp₃, show c.sp + 3 + 1 = c.sp + 4 by omega] at eq₄
  rw [eq₄, eq₃, eq₂, eq₁]
  rfl

theorem pushLinkage_invoking {c : Cpu} {s : State} (sized : s.gCpu.Sized) (above : c.sp ≤ s.gCpu.sp)
    (oldPc : Int) :
    Invoking c ((pushLinkage oldPc).run env s) fun b t =>
      b = true ∧ Linked s.gCpu oldPc t.gCpu ∧ t.nextOpWide = s.nextOpWide := by
  simp only [pushLinkage, Program.run_bind, Program.run_get, Outcome.andThen_done,
    Outcome.prepend_nil]
  refine push_then sized above _ ?_
  intro t₁ first wide₁
  have above₁ := first.sp_eq
  simp only [Program.run_bind, Program.run_get, Outcome.andThen_done, Outcome.prepend_nil]
  refine push_then first.sized (by omega) _ ?_
  intro t₂ second wide₂
  have above₂ := second.sp_eq
  simp only [Program.run_bind, Program.run_get, Outcome.andThen_done, Outcome.prepend_nil]
  refine push_then second.sized (by omega) _ ?_
  intro t₃ third wide₃
  have above₃ := third.sp_eq
  refine (stackPush_invoking third.sized (by omega) (regWord oldPc)).mono ?_
    fun _ _ _ stopped => stopped
  rintro b t₄ es ⟨⟨rfl, fourth, wide₄⟩, events⟩
  refine ⟨⟨rfl, Linked.of_pushed first second third fourth, ?_⟩, events⟩
  rw [wide₄, wide₃, wide₂, wide₁]

end Linkage

section Invokevirtual

variable {env : Env}

theorem Invoking.emit_then {α : Type} {c : Cpu} {o : Outcome State Event Stop α}
    {Q : α → State → Prop} {es : List Event} (events : ∀ e ∈ es, InvokeEvent c e)
    (h : Invoking c o Q) : Invoking c (o.prepend es) Q := by
  rw [Invoking, Outcome.satisfies_prepend]
  refine h.mono ?_ ?_
  · rintro a t fs ⟨q, late⟩
    exact ⟨q, fun e member => (List.mem_append.mp member).elim (events e) (late e)⟩
  · rintro r t fs ⟨ended, late⟩
    exact ⟨ended.append _, fun e member => (List.mem_append.mp member).elim (events e) (late e)⟩

theorem getArgShort_invoking (c : Cpu) (s : State) :
    Invoking c (getArgShort.run env s) fun w t =>
      s.gCpu.pc + 2 ≤ s.gCpu.codeMemSize ∧ w = s.gCpu.short s.gCpu.pc ∧
        t.gCpu = { s.gCpu with pc := s.gCpu.pc + 2 } ∧ t.nextOpWide = s.nextOpWide := by
  rw [getArgShort_run]
  split
  · refine ⟨argStop_invokeStop (by decide) (by omega), List.forall_mem_cons.mpr
      ⟨Or.inl trivial, ?_⟩⟩
    intro e member
    obtain ⟨i, _, rfl, _⟩ := mem_argReads member
    exact Or.inr (Or.inl ⟨_, _, rfl⟩)
  · exact ⟨⟨by omega, rfl, rfl, rfl⟩, by simp [InvokeEvent, Event.quiet]⟩

theorem getConstant_invoking (c : Cpu) (i : Int) (s : State) :
    Invoking c ((getConstant i).run env s) fun w t =>
      (0 ≤ i ∧ i < s.gCpu.constMemSize.tdiv 4) ∧ w = s.gCpu.constMem.getD i.toNat 0 ∧ t = s := by
  rw [getConstant_run]
  split
  · exact ⟨Or.inl ⟨_, rfl⟩, by simp⟩
  · exact ⟨⟨by omega, rfl, rfl⟩, by simp⟩

theorem Cpu.Sized.congr {c c' : Cpu} (sized : c.Sized) (same : c'.stackSize = c.stackSize) :
    c'.Sized := by
  refine ⟨?_, ?_⟩
  · rw [same]
    exact sized.nonneg
  · rw [same]
    exact sized.bound

theorem enterMethod_invoking (env : Env) (s : State) :
    Invoking s.gCpu (enterMethod.run env s) fun p t =>
      (s.gCpu.pc + 2 ≤ s.gCpu.codeMemSize ∧
        (0 ≤ (s.gCpu.short s.gCpu.pc).toInt ∧
          (s.gCpu.short s.gCpu.pc).toInt < s.gCpu.constMemSize.tdiv 4) ∧
        (0 ≤ s.gCpu.methodAddress ∧ s.gCpu.methodAddress < s.gCpu.codeMemSize) ∧
        s.gCpu.methodAddress + 4 ≤ s.gCpu.codeMemSize) ∧
      p = (s.gCpu.pc + 2, s.gCpu.methodArgs, s.gCpu.methodLocals) ∧
      t.gCpu = { s.gCpu with pc := s.gCpu.methodAddress + 4 } ∧ t.nextOpWide = s.nextOpWide := by
  rw [enterMethod, Program.run_bind]
  refine Invoking.andThen (getArgShort_invoking s.gCpu s) ?_
  rintro k t₁ ⟨argument, rfl, cpu₁, wide₁⟩
  rw [Program.run_bind]
  refine Invoking.andThen (getConstant_invoking s.gCpu _ _) ?_
  rintro offset t₂ ⟨constant, value, rfl⟩
  have address : offset.toInt = s.gCpu.methodAddress := by
    rw [value, cpu₁]
    rfl
  simp only [Program.run_bind, Program.run_get, Outcome.andThen_done, Outcome.prepend_nil, cpu₁,
    address]
  split
  · exact ⟨Or.inl ⟨_, rfl⟩, by simp⟩
  · rename_i inside
    simp only [Program.run_bind, run_modifyCpu, Outcome.andThen_done, Outcome.prepend_nil]
    refine Invoking.andThen (getArgShort_invoking s.gCpu _) ?_
    rintro numArgs t₃ ⟨_, args, cpu₃, wide₃⟩
    refine Invoking.andThen (getArgShort_invoking s.gCpu _) ?_
    rintro numLocals t₄ ⟨header, locals, cpu₄, wide₄⟩
    rw [cpu₃, cpu₁] at header locals cpu₄
    rw [cpu₁] at args constant
    refine ⟨⟨⟨argument, constant, by omega, ?_⟩, ?_, ?_, ?_⟩, by simp⟩
    · dsimp only at header
      omega
    · rw [args, locals]
      rfl
    · rw [cpu₄]
      dsimp only
      rw [Int.add_assoc]
      rfl
    · rw [wide₄, wide₃, ← wide₁]

theorem setFrame_run (numArgs numLocals : Nat) (s : State) :
    (setFrame numArgs numLocals).run env s =
      .done () { s with gCpu := { s.gCpu with
          fp := s.gCpu.sp - 3
          nv := numArgs + numLocals
          lv := s.gCpu.sp - 3 - (numArgs + numLocals) } }
        [.signed (s.gCpu.sp - 3), .signed (s.gCpu.sp - 3 - (numArgs + numLocals))] := rfl

theorem clearCells_run (start : Int) (n : Nat) (s : State) :
    (clearCells start n).run env s =
      .done () { s with gCpu := { s.gCpu with stack := Cpu.cleared s.gCpu.stack start n } }
        ((List.range n).map fun k : Nat => .stack .clear (start + k) s.gCpu.stackSize) := by
  simp only [clearCells, Program.run_bind, Program.run_get, Program.run_emit, run_modifyCpu,
    Outcome.andThen_done, Outcome.prepend_done, List.append_nil, List.nil_append]
  rfl

/-- The frame is built unless the arguments reach below the stack. -/
theorem pushFrame_invoking {c : Cpu} {s : State} (sized : s.gCpu.Sized) (above : c.sp ≤ s.gCpu.sp)
    (oldPc : Int) (numArgs numLocals : Nat) :
    Invoking c ((pushFrame oldPc numArgs numLocals).run env s) fun _ t =>
      (numArgs : Int) ≤ s.gCpu.sp + 1 ∧ t.nextOpWide = s.nextOpWide ∧
        ∃ size, s.gCpu.stackSize ≤ size ∧ s.gCpu.sp + numLocals + 4 < size ∧ size < 2 ^ 31 ∧
          t.gCpu = s.gCpu.framed oldPc numArgs numLocals size := by
  have quiet {e : Event} (h : e.quiet) : InvokeEvent c e := Or.inl h
  simp only [pushFrame, Program.run_bind, Program.run_get, run_signed, run_modifyCpu,
    Outcome.andThen_done, Outcome.prepend_nil]
  refine Invoking.emit_then (by simp [InvokeEvent, Event.quiet]) ?_
  have room : c.sp ≤ s.gCpu.sp + numLocals := by omega
  refine Invoking.andThen (pushLinkage_invoking
    (s := { s with gCpu := { s.gCpu with sp := s.gCpu.sp + numLocals } }) (sized.congr rfl) room
    oldPc) ?_
  rintro b t ⟨rfl, linked, wide⟩
  obtain ⟨cpu, size_le, inside, sized'⟩ := linked
  have sp : t.gCpu.sp = s.gCpu.sp + numLocals + 4 := by rw [cpu]
  dsimp only at size_le inside
  rw [if_neg (by simp)]
  simp only [Program.run_bind, setFrame_run, Outcome.andThen_done, Program.run_get,
    Outcome.prepend_nil]
  refine Invoking.emit_then (by simp [InvokeEvent, Event.quiet]) ?_
  by_cases negative : t.gCpu.sp - 3 - (numArgs + numLocals) < 0
  · rw [if_pos negative]
    exact ⟨Or.inl ⟨_, rfl⟩, by simp⟩
  · rw [if_neg negative, clearCells_run]
    have start : t.gCpu.sp - 3 - (numArgs + numLocals) + numArgs = s.gCpu.sp + 1 := by omega
    rw [start]
    refine ⟨⟨by omega, wide, t.gCpu.stackSize, size_le, by omega, sized'.bound, ?_⟩, ?_⟩
    · rw [cpu]
      simp only [Cpu.framed]
      congr 1 <;> omega
    · intro e member
      obtain ⟨k, below, rfl⟩ := List.mem_map.mp member
      have below := List.mem_range.mp below
      exact Or.inr (Or.inr ⟨.clear, _, _, rfl, Or.inr rfl, by omega, by dsimp only; omega⟩)

/-- INVOKEVIRTUAL returns with the frame of the method, or ends the machine with an
error. -/
theorem execOpInvokevirtual_invoking (env : Env) {s : State} (sized : s.gCpu.Sized) :
    Invoking s.gCpu (execOpInvokevirtual.run env s) fun _ t =>
      s.gCpu.Invokes ∧ t.nextOpWide = s.nextOpWide ∧
        ∃ size, s.gCpu.stackSize ≤ size ∧ s.gCpu.sp + s.gCpu.methodLocals + 4 < size ∧
          size < 2 ^ 31 ∧ t.gCpu = s.gCpu.invoked size := by
  rw [execOpInvokevirtual, Program.run_bind]
  refine Invoking.andThen (enterMethod_invoking env s) ?_
  rintro p t ⟨⟨argument, constant, address, header⟩, rfl, cpu, wide⟩
  have sp : t.gCpu.sp = s.gCpu.sp := by rw [cpu]
  have size : t.gCpu.stackSize = s.gCpu.stackSize := by rw [cpu]
  refine (pushFrame_invoking (sized.congr size) sp.ge _ _ _).mono ?_ fun _ _ _ stopped => stopped
  rintro u t' es ⟨⟨operands, wide', newSize, le, inside, bound, cpu'⟩, events⟩
  rw [sp] at operands inside
  rw [size] at le
  refine ⟨⟨⟨argument, constant, address, header, operands⟩, wide'.trans wide, newSize, le, inside,
    bound, ?_⟩, events⟩
  rw [cpu', cpu]
  rfl

end Invokevirtual

section Ireturn

variable {env : Env}

theorem stackPop_done {s : State} (access : StackAccess) (operand : ¬ s.gCpu.Empty) :
    (stackPop access).run env s =
      .done (s.gCpu.stack s.gCpu.sp) { s with gCpu := { s.gCpu with sp := s.gCpu.sp - 1 } }
        [.stack access s.gCpu.sp s.gCpu.stackSize] := by
  rw [stackPop_run, if_neg operand]

theorem stackPop_empty {s : State} (access : StackAccess) (empty : s.gCpu.Empty) :
    (stackPop access).run env s = .stopped (.error .stackPopEmpty) s [] := by
  rw [stackPop_run, if_pos empty]

/-- The events of an IRETURN that reads all its linkage. -/
def returnEvents (c : Cpu) : List Event :=
  [.stack .pop c.sp c.stackSize, .signed (c.fp + 3), .stack .linkage (c.fp + 3) c.stackSize,
    .stack .linkage (c.fp + 2) c.stackSize, .stack .linkage (c.fp + 1) c.stackSize,
    .stack .linkage c.fp c.stackSize, .signed (c.fp - 1 - c.nv)]

/-- IRETURN with an operand and a linkage that it can read. -/
theorem execOpIreturn_run {s : State} (operand : ¬ s.gCpu.Empty) (linkage : s.gCpu.lv ≤ s.gCpu.fp)
    (nonneg : 0 ≤ s.gCpu.fp) :
    execOpIreturn.run env s =
      (if ireturnRejects s.gCpu.returned then
        .stopped (.error .ireturnFrame) { s with gCpu := s.gCpu.returned } []
      else ((stackPush (s.gCpu.stack s.gCpu.sp)).run env { s with gCpu := s.gCpu.returned }).andThen
        fun _ t => .done () t []).prepend (returnEvents s.gCpu) := by
  have sp₁ : s.gCpu.fp + 3 - 1 = s.gCpu.fp + 2 := by omega
  have sp₂ : s.gCpu.fp + 2 - 1 = s.gCpu.fp + 1 := by omega
  have sp₃ : s.gCpu.fp + 1 - 1 = s.gCpu.fp := by omega
  have full {c : Cpu} (lv : c.lv = s.gCpu.lv) (sp : s.gCpu.fp ≤ c.sp) : ¬ c.Empty :=
    Cpu.not_empty_iff.mpr ⟨by omega, by omega⟩
  rw [execOpIreturn, Program.run_bind, stackPop_done _ operand, Outcome.andThen_done]
  simp only [Program.run_bind, Program.run_get, run_signed, run_modifyCpu, Outcome.andThen_done,
    Outcome.prepend_nil]
  rw [stackPop_done .linkage]
  swap
  · exact full rfl (by dsimp only; omega)
  simp only [Outcome.andThen_done, sp₁]
  rw [stackPop_done .linkage]
  swap
  · exact full rfl (by dsimp only; omega)
  simp only [Outcome.andThen_done, sp₂]
  rw [stackPop_done .linkage]
  swap
  · exact full rfl (by dsimp only; omega)
  simp only [Outcome.andThen_done, sp₃]
  rw [stackPop_done .linkage]
  swap
  · exact full rfl (Int.le_refl _)
  simp only [Outcome.andThen_done, Outcome.prepend_prepend]
  split
  · rename_i rejected
    rw [if_pos (show ireturnRejects s.gCpu.returned from rejected)]
    rfl
  · rename_i accepted
    rw [if_neg (show ¬ ireturnRejects s.gCpu.returned from accepted)]
    rfl

/-- IRETURN in a frame whose local variables start above its linkage: the machine ends
with an error when the linkage read falls below them. -/
theorem execOpIreturn_stops (env : Env) {s : State} (operand : ¬ s.gCpu.Empty)
    (nonneg : 0 ≤ s.gCpu.fp) (missing : s.gCpu.fp < s.gCpu.lv) :
    ∃ t es, execOpIreturn.run env s = .stopped (.error .stackPopEmpty) t
        (.stack .pop s.gCpu.sp s.gCpu.stackSize :: .signed (s.gCpu.fp + 3) :: es) ∧
      (∀ e ∈ es, ∃ i, e = .stack .linkage i s.gCpu.stackSize ∧ s.gCpu.lv ≤ i ∧ 0 ≤ i ∧
        i ≤ s.gCpu.fp + 3) ∧
      (s.gCpu.lv ≤ s.gCpu.fp + 3 → .stack .linkage (s.gCpu.fp + 3) s.gCpu.stackSize ∈ es) := by
  have sp₁ : s.gCpu.fp + 3 - 1 = s.gCpu.fp + 2 := by omega
  have sp₂ : s.gCpu.fp + 2 - 1 = s.gCpu.fp + 1 := by omega
  have sp₃ : s.gCpu.fp + 1 - 1 = s.gCpu.fp := by omega
  have full {c : Cpu} (lv : c.lv = s.gCpu.lv) (sp : s.gCpu.lv ≤ c.sp) : ¬ c.Empty :=
    Cpu.not_empty_iff.mpr ⟨by omega, by omega⟩
  have empty {c : Cpu} (lv : c.lv = s.gCpu.lv) (sp : c.sp < s.gCpu.lv) : c.Empty :=
    Or.inl (by omega)
  rw [execOpIreturn, Program.run_bind, stackPop_done _ operand, Outcome.andThen_done]
  simp only [Program.run_bind, Program.run_get, run_signed, run_modifyCpu, Outcome.andThen_done,
    Outcome.prepend_nil]
  by_cases h₃ : s.gCpu.fp + 3 < s.gCpu.lv
  · rw [stackPop_empty .linkage]
    swap
    · exact empty rfl h₃
    exact ⟨_, [], rfl, by simp, fun h => absurd h (by omega)⟩
  rw [stackPop_done .linkage]
  swap
  · exact full rfl (by dsimp only; omega)
  simp only [Outcome.andThen_done, sp₁]
  by_cases h₂ : s.gCpu.fp + 2 < s.gCpu.lv
  · rw [stackPop_empty .linkage]
    swap
    · exact empty rfl h₂
    exact ⟨_, [.stack .linkage (s.gCpu.fp + 3) s.gCpu.stackSize], rfl, by simp; omega, by simp⟩
  rw [stackPop_done .linkage]
  swap
  · exact full rfl (by dsimp only; omega)
  simp only [Outcome.andThen_done, sp₂]
  by_cases h₁ : s.gCpu.fp + 1 < s.gCpu.lv
  · rw [stackPop_empty .linkage]
    swap
    · exact empty rfl h₁
    exact ⟨_, [.stack .linkage (s.gCpu.fp + 3) s.gCpu.stackSize,
      .stack .linkage (s.gCpu.fp + 2) s.gCpu.stackSize], rfl, by simp; omega, by simp⟩
  rw [stackPop_done .linkage]
  swap
  · exact full rfl (by dsimp only; omega)
  simp only [Outcome.andThen_done, sp₃]
  rw [stackPop_empty .linkage]
  swap
  · exact empty rfl missing
  exact ⟨_, [.stack .linkage (s.gCpu.fp + 3) s.gCpu.stackSize,
    .stack .linkage (s.gCpu.fp + 2) s.gCpu.stackSize,
    .stack .linkage (s.gCpu.fp + 1) s.gCpu.stackSize], rfl, by simp; omega, by simp⟩

end Ireturn

end Ijvm
