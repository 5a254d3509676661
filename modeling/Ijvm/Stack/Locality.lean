import Ijvm.Stack.Frames
import Ijvm.Stack.Plain

/-!
# Instructions stay in their frame

Apart from calls and returns, an instruction whose pops take words above the linkage
changes the local variables and the operands of its own frame only: `Cpu.Within` is
preserved by the primitives, and from them by every such instruction.
-/

namespace Ijvm

open Transcript Program

namespace Cpu

/-- The local variables lie right below the linkage, and the top of the stack is not
below the end of the linkage. -/
structure WellFramed (c : Cpu) : Prop where
  adjacent : c.lv + c.nv = c.fp
  nv_nonneg : 0 ≤ c.nv
  level : c.fp + 3 ≤ c.sp

/-- What an instruction of the frame of `c` can change: the local variables, the operands
and the size of the stack, but neither the frame nor the cells of other frames. -/
structure Within (c c' : Cpu) : Prop where
  constMemSize : c'.constMemSize = c.constMemSize
  codeMemSize : c'.codeMemSize = c.codeMemSize
  constMem : c'.constMem = c.constMem
  codeMem : c'.codeMem = c.codeMem
  fp : c'.fp = c.fp
  lv : c'.lv = c.lv
  nv : c'.nv = c.nv
  size_le : c.stackSize ≤ c'.stackSize
  sized : c'.Sized
  level : c.fp + 3 ≤ c'.sp
  callers : ∀ j, j < c.lv → c'.stack j = c.stack j
  linkage : ∀ j, c.fp ≤ j → j < c.fp + 4 → c'.stack j = c.stack j

theorem WellFramed.within {c : Cpu} (framed : c.WellFramed) (sized : c.Sized) : c.Within c :=
  ⟨rfl, rfl, rfl, rfl, rfl, rfl, rfl, Int.le_refl _, sized, framed.level, fun _ _ => rfl,
    fun _ _ _ => rfl⟩

theorem Within.wellFramed {c c' : Cpu} (within : c.Within c') (framed : c.WellFramed) :
    c'.WellFramed := by
  obtain ⟨adjacent, nv_nonneg, _⟩ := framed
  refine ⟨?_, ?_, ?_⟩
  · rw [within.lv, within.nv, within.fp]
    exact adjacent
  · rw [within.nv]
    exact nv_nonneg
  · rw [within.fp]
    exact within.level

/-- A write to a cell that is a local variable or an operand. -/
theorem Within.setCell {c c' : Cpu} (within : c.Within c') {i : Int} (w : Word)
    (own : c.lv ≤ i ∧ (i < c.fp ∨ c.fp + 4 ≤ i)) :
    c.Within { c' with stack := setCell c'.stack i w } := by
  obtain ⟨h₁, h₂, h₃, h₄, h₅, h₆, h₇, size_le, sized, level, callers, linkage⟩ := within
  refine ⟨h₁, h₂, h₃, h₄, h₅, h₆, h₇, size_le, ⟨sized.nonneg, sized.bound⟩, level, ?_, ?_⟩
  · intro j below
    exact (setCell_ne (by omega)).trans (callers j below)
  · intro j above below
    exact (setCell_ne (by omega)).trans (linkage j above below)

/-- A change to `sp` that leaves the linkage below it. -/
theorem Within.setSp {c c' : Cpu} (within : c.Within c') {sp : Int} (level : c.fp + 3 ≤ sp) :
    c.Within { c' with sp } :=
  ⟨within.constMemSize, within.codeMemSize, within.constMem, within.codeMem, within.fp, within.lv,
    within.nv, within.size_le, ⟨within.sized.nonneg, within.sized.bound⟩, level, within.callers,
    within.linkage⟩

theorem Within.setSize {c c' : Cpu} (within : c.Within c') {size : Int}
    (le : c'.stackSize ≤ size) (bound : size < 2 ^ 31) :
    c.Within { c' with stackSize := size } :=
  ⟨within.constMemSize, within.codeMemSize, within.constMem, within.codeMem, within.fp, within.lv,
    within.nv, Int.le_trans within.size_le le,
    ⟨Int.le_trans within.sized.nonneg le, bound⟩, within.level, within.callers, within.linkage⟩

theorem Within.setControl {c c' : Cpu} (within : c.Within c') (pc : Int) (e h : Bool) :
    c.Within { c' with pc, errorFlag := e, haltFlag := h } :=
  ⟨within.constMemSize, within.codeMemSize, within.constMem, within.codeMem, within.fp, within.lv,
    within.nv, within.size_le, ⟨within.sized.nonneg, within.sized.bound⟩, within.level,
    within.callers, within.linkage⟩

end Cpu

/-- A pop takes a word above the linkage of the frame with this `fp`. -/
def Event.ownPop (fp : Int) : Event → Prop
  | .stack .pop i _ => fp + 4 ≤ i
  | _ => True

instance (fp : Int) : DecidablePred (Event.ownPop fp)
  | .stack .pop i _ => inferInstanceAs (Decidable (fp + 4 ≤ i))
  | .stack .push _ _ | .stack .linkage _ _ | .stack .dup _ _ | .stack .load _ _
  | .stack .store _ _ | .stack .clear _ _ | .stack .root _ _
  | .code _ _ | .signed _ | .gc _ | .sys _ _ => .isTrue trivial

section Locality

variable {c : Cpu}

/-- The primitives stay in the frame, as long as pops take words above the linkage. -/
theorem primitives_within (framed : c.WellFramed) :
    Primitives (Event.ownPop c.fp) (fun t => c.Within t.gCpu) (fun _ => True) where
  quiet h := h.keeps (J := fun c' _ => c.Within c') fun _ _ => trivial
  control _ pc e h _ _ within := within.setControl pc e h
  code _ _ := trivial
  signed _ := trivial
  pop := by
    intro env t within assumed
    rw [stackPop_run] at assumed ⊢
    by_cases empty : t.gCpu.Empty
    · rw [if_pos empty]
      exact ⟨Outcome.returns_stopped, fun _ _ => trivial⟩
    · rw [if_neg empty] at assumed ⊢
      have own : c.fp + 4 ≤ t.gCpu.sp := assumed _ (List.mem_singleton.mpr rfl)
      refine ⟨Outcome.returns_done.mpr (within.setSp ?_), fun _ _ => trivial⟩
      omega
  push e := by
    apply Ensures.of_satisfies
    intro env t within
    refine (stackPush_satisfies within.sized e).mono ?_ fun _ _ _ _ _ _ => trivial
    rintro b t' es ⟨rfl, pushed, _, _⟩
    refine ⟨?_, fun _ _ => trivial⟩
    obtain ⟨adjacent, nv_nonneg, _⟩ := framed
    have level := within.level
    rw [pushed.eq]
    refine ((within.setSize pushed.size_le pushed.sized.bound).setCell e (i := t.gCpu.sp + 1)
      (by omega)).setSp ?_
    omega

/-- An instruction that neither calls nor returns stays in the frame. -/
theorem execOp_within (framed : c.WellFramed) (nested : VM Bool) {op : Op}
    (ordinary : op ≠ .invokevirtual ∧ op ≠ .ireturn ∧ op ≠ .wide) :
    Keeps (Event.ownPop c.fp) (fun t => c.Within t.gCpu) (fun _ => True) (execOp nested op) := by
  have rules : FrameRules fun _ m =>
      Keeps (Event.ownPop c.fp) (fun t => c.Within t.gCpu) (fun _ => True) m := by
    refine { (primitives_within framed).rules with load := ?_, store := ?_, dup := ?_ }
    · intro i env t within _
      rw [getLocalVariable_run]
      split
      · exact ⟨Outcome.returns_stopped, fun _ _ => trivial⟩
      · exact ⟨Outcome.returns_done.mpr within, fun _ _ => trivial⟩
    · intro v i env t within _
      rw [updateLocalVariable_run]
      split
      · exact ⟨Outcome.returns_stopped, fun _ _ => trivial⟩
      · have adjacent := framed.adjacent
        have lv := within.lv
        have nv := within.nv
        exact ⟨Outcome.returns_done.mpr (within.setCell v (by omega)), fun _ _ => trivial⟩
    · exact .bind .get fun _ => .bind (.emit fun _ _ _ => trivial) fun _ =>
        (primitives_within framed).rules.pushLast _
  exact rules.execOp nested ordinary

end Locality

end Ijvm
