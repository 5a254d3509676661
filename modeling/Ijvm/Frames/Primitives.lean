import Ijvm.Frames.Calls
import Ijvm.Machine.Files
import Ijvm.Machine.Reasons
import Ijvm.Transcript.Refinement

/-!
# The parts of an instruction, on the stack and on frames

`Represents` relates a state of the interpreter to one of the machine with frames, and
`Follows` says that a part of an instruction of the interpreter refines its counterpart: it
keeps the two related and returns the same value, or reports the same error. The exceptions
are the errors of the stack that cannot grow and of the arrays and connections, and programs
that leave the discipline of frames.
-/

namespace Ijvm.Frames

open Transcript Program

/-- What the instructions use of a loaded binary. The memory around the code is left out. -/
def Image.of (c : Cpu) : Image where
  codeSize := c.codeMemSize
  code i := if 0 ≤ i ∧ i < c.codeMemSize then c.codeMem i else 0
  constCount := c.constMemSize.tdiv 4
  consts := c.constMem

/-- The state of the interpreter shows this state of the machine with frames. -/
structure Represents (im : Image) (wide : Bool) (s : State) (c : Config) : Prop where
  image : Image.of s.gCpu = im
  range : s.gCpu.InRange
  pc : s.gCpu.pc = c.pc
  pc_nonneg : 0 ≤ c.pc
  layout : Layout s.gCpu c.frame c.callers
  flags : s.gCpu.errorFlag = c.errorFlag ∧ s.gCpu.haltFlag = c.haltFlag
  files : s.files = { inFile := c.input, outFile := c.output }
  wide : s.nextOpWide = wide

/-- How the ends of the two machines are compared. -/
def frameStops (nulls : Prop) : Stops Stop Fault where
  matching r f := (∃ e, r = .error e ∧ f = .error e) ∨ (r = .undefined ∧ f = .undefined)
  excused := Stop.external nulls
  wild f := f = .undisciplined

/-- The part of the interpreter refines its counterpart. -/
abbrev Follows {α : Type} (nulls : Prop) (env : Env) (x : Setting) (m : VM α) (m' : FM α) : Prop :=
  Simulates (frameStops nulls) env x (Represents x.image x.wide) m m'

section Primitives

variable {nulls : Prop} {env : Env} {x : Setting} {α : Type}

theorem fault_follows (e : Err) :
    Follows nulls env x (destroyIjvmNow e : VM α) (fault e) :=
  .stop (Or.inl ⟨e, rfl, rfl⟩)

/-- Signed computations are not compared. -/
theorem signed_bind {v : Int} {m : VM α} {m' : FM α} (h : Follows nulls env x m m') :
    Follows nulls env x (signed v >>= fun _ => m) m' :=
  .emit_bind h

theorem stackPush_represents (nulls : Prop) (env : Env) {im : Image} {wide : Bool} {s : State}
    {c : Config} (h : Represents im wide s c) (w : Word) :
    ((stackPush w).run env s).Satisfies
      (fun _ t _ => Represents im wide t { c with frame := c.frame.push w } ∧
        t.gCpu.stack t.gCpu.sp = w)
      (fun r _ _ => r.external nulls) := by
  refine (((stackPush_satisfies h.range.sized w).and
    (stackPush_external nulls env h.range.sized w)).and
    ((stackPush_fileless w).satisfies env s)).mono ?_ fun r _ _ ends => ends.1.2
  rintro b t es ⟨⟨⟨rfl, pushed, wide, _⟩, _⟩, files⟩
  refine ⟨⟨?_, pushed.inRange h.range, ?_, h.pc_nonneg, h.layout.push pushed, ?_, ?_, ?_⟩, ?_⟩
  · rw [pushed.eq]
    exact h.image
  · rw [pushed.eq]
    exact h.pc
  · rw [pushed.eq]
    exact h.flags
  · rw [files]
    exact h.files
  · rw [wide]
    exact h.wide
  · rw [pushed.eq]
    exact setCell_same _ _ _

theorem push_bind {m : VM α} {m' : FM α} (w : Word) (h : Follows nulls env x m m') :
    Follows nulls env x (stackPush w >>= fun _ => m) (push w >>= fun _ => m') := by
  intro s c related
  have pushed := stackPush_represents nulls env related w
  rw [run_bind, run_bind, push_run, Outcome.andThen_done, Outcome.prepend_nil]
  cases run : (stackPush w).run env s with
  | stopped r t es =>
      rw [run] at pushed
      exact .of_excused pushed
  | done b t es =>
      rw [run] at pushed
      rw [Outcome.andThen_done, Outcome.refines_prepend]
      exact h t _ pushed.1

theorem pushLast_follows (w : Word) :
    Follows nulls env x (do let _ ← stackPush w) (push w) := by
  have last : (push w >>= fun _ => pure () : FM Unit) = push w := bind_pure_unit
  rw [← last]
  exact push_bind w (.pure fun _ _ related => related)

theorem stackPop_follows (access : StackAccess) :
    Follows nulls env x (stackPop access) pop := by
  rintro s ⟨pc, ⟨vars, operands⟩, callers, input, output, errorFlag, haltFlag⟩ h
  cases operands with
  | nil => exact .of_wild rfl
  | cons w rest =>
      obtain ⟨operand, top, layout⟩ := h.layout.pop
      have range := primitives_inRange.pop env s h.range fun _ _ => trivial
      rw [stackPop_done access operand, top]
      rw [stackPop_done .pop operand] at range
      exact .of_done ⟨h.image, Outcome.returns_done.mp range.1, h.pc, h.pc_nonneg, layout, h.flags,
        h.files, h.wide⟩

theorem load_follows (i : Int) : Follows nulls env x (getLocalVariable i) (load i) := by
  intro s c h
  have nv := h.layout.nv
  rw [getLocalVariable_run, load_run, nv]
  split
  · exact .of_matching (Or.inl ⟨_, rfl, rfl⟩)
  · rename_i inside
    have fp_lt := h.range.fp_lt
    have size_lt := h.range.size_lt
    have adjacent := h.layout.adjacent
    have lv_nonneg := h.range.lv_nonneg
    have cell : (s.gCpu.lv + i) % 2 ^ 32 = s.gCpu.lv + i.toNat := by omega
    rw [cell, h.layout.load (by omega)]
    exact .of_done h

theorem store_follows (w : Word) (i : Int) :
    Follows nulls env x (updateLocalVariable w i) (store w i) := by
  intro s c h
  have nv := h.layout.nv
  rw [updateLocalVariable_run, store_run, nv]
  split
  · exact .of_matching (Or.inl ⟨_, rfl, rfl⟩)
  · rename_i inside
    have cell : s.gCpu.lv + i = s.gCpu.lv + i.toNat := by omega
    rw [cell]
    exact .of_done ⟨h.image, h.range.withStack _, h.pc, h.pc_nonneg, h.layout.store (by omega),
      h.flags, h.files, h.wide⟩

/-- The program counter moves on its own. -/
theorem Represents.withPc {im : Image} {wide : Bool} {s : State} {c : Config} {pc : Int}
    (h : Represents im wide s c) (nonneg : 0 ≤ pc) :
    Represents im wide { s with gCpu := { s.gCpu with pc } } { c with pc } :=
  ⟨h.image, h.range.withPc pc, rfl, nonneg, h.layout.congr rfl rfl rfl rfl rfl, h.flags, h.files,
    h.wide⟩

theorem Represents.codeSize {s : State} {c : Config} (h : Represents x.image x.wide s c) :
    s.gCpu.codeMemSize = x.image.codeSize := by
  rw [← h.image, Image.of]

theorem Image.code_of {cpu : Cpu} {i : Int} (low : 0 ≤ i) (high : i < cpu.codeMemSize) :
    (Image.of cpu).code i = cpu.codeMem i :=
  if_pos ⟨low, high⟩

theorem Represents.code {s : State} {c : Config} (h : Represents x.image x.wide s c) {i : Int}
    (low : 0 ≤ i) (high : i < x.image.codeSize) : s.gCpu.codeMem i = x.image.code i := by
  rw [← h.codeSize] at high
  rw [← h.image, Image.code_of low high]

/-- An argument beyond the code ends both machines in the same way. -/
theorem argStop_matching (nulls : Prop) {c : Cpu} {pc : Int} (same : c.pc = pc) (k : Nat)
    (e : Err) : (frameStops nulls).matching (c.argStop k e) (argFault pc k e) := by
  subst same
  unfold Cpu.argStop argFault
  by_cases counts : c.Counts k
  · rw [if_pos counts, if_pos (show c.pc + k < 2 ^ 31 from counts)]
    exact Or.inl ⟨e, rfl, rfl⟩
  · rw [if_neg counts, if_neg (show ¬ c.pc + k < 2 ^ 31 from counts)]
    exact Or.inr ⟨rfl, rfl⟩

theorem argByte_follows : Follows nulls env x getArgByte argByte := by
  intro s c h
  rw [getArgByte_run, argByte_run, h.pc, h.codeSize]
  have nonneg := h.pc_nonneg
  split
  · exact .of_matching (argStop_matching nulls h.pc 1 _)
  · rw [h.code nonneg (by omega)]
    exact .of_done (h.withPc (by omega))

theorem argShort_follows : Follows nulls env x getArgShort argShort := by
  intro s c h
  rw [getArgShort_run, argShort_run, Cpu.short, h.pc, h.codeSize]
  have nonneg := h.pc_nonneg
  split
  · exact .of_matching (argStop_matching nulls h.pc 2 _)
  · rw [h.code nonneg (by omega), h.code (i := c.pc + 1) (by omega) (by omega)]
    exact .of_done (h.withPc (by omega))

/-- Whether there was a prefix is the same for both machines. -/
theorem wide_follows {f : Bool → VM α} {g : Bool → FM α}
    (next : Follows nulls env x (f x.wide) (g x.wide)) :
    Follows nulls env x (get >>= fun s => f s.nextOpWide) (Program.ask >>= fun y => g y.wide) := by
  intro s c h
  rw [run_bind, run_bind, run_get, run_ask, Outcome.andThen_done, Outcome.andThen_done,
    Outcome.prepend_nil, Outcome.prepend_nil, h.wide]
  exact next s c h

theorem varIndex_follows : Follows nulls env x getVarIndex varIndex := by
  refine wide_follows (f := fun wide => if wide = true then _ else _)
    (g := fun wide => if wide = true then _ else _) (.ite Iff.rfl (fun _ => ?_) fun _ => ?_)
  · exact .bind argShort_follows fun _ => .pure fun _ _ h => h
  · exact .bind argByte_follows fun _ => .pure fun _ _ h => h

theorem constant_follows (i : Int) : Follows nulls env x (getConstant i) (constant i) := by
  intro s c h
  have count : s.gCpu.constMemSize.tdiv 4 = x.image.constCount := by rw [← h.image, Image.of]
  have consts : s.gCpu.constMem = x.image.consts := by rw [← h.image, Image.of]
  rw [getConstant_run, constant_run, count, consts]
  split
  · exact .of_matching (Or.inl ⟨_, rfl, rfl⟩)
  · exact .of_done h

theorem jump_follows (offset : Int) : Follows nulls env x (Ijvm.jump offset) (jump offset) := by
  intro s c h
  rw [Ijvm.jump_run, jump_run, h.pc, h.codeSize]
  split
  · exact .of_matching (Or.inl ⟨_, rfl, rfl⟩)
  · exact .of_done (h.withPc (by omega))

theorem jumpOffset_follows : Follows nulls env x getJumpOffset jumpOffset :=
  .bind argShort_follows fun _ => .pure fun _ _ h => h

end Primitives

end Ijvm.Frames
