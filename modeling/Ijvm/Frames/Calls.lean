import Ijvm.Frames.Layout
import Ijvm.Stack.Layout

/-!
# A call puts a frame in front, a return takes it off

`Cpu.Frame` describes the CPU after a call by the cells of the new frame. In terms of frames,
the arguments leave the operands of the caller and become, in reverse, the first local
variables of the method. A return finds the frame of the caller as the call left it.
-/

namespace Ijvm.Frames

open Transcript

section Cells

variable {mem : Int → Word}

theorem getElem?_cellsDown {i : Int} {n k : Nat} (below : k < n) :
    (cellsDown mem i n)[k]? = some (mem (i - k)) := by
  induction n generalizing i k with
  | zero => omega
  | succ n ih =>
      cases k with
      | zero => simp
      | succ k =>
          rw [cellsDown_succ, List.getElem?_cons_succ, ih (by omega), Int.natCast_succ]
          congr 2
          omega

theorem drop_cellsDown (i : Int) (n k : Nat) :
    (cellsDown mem i n).drop k = cellsDown mem (i - k) (n - k) := by
  induction k generalizing i n with
  | zero => simp
  | succ k ih =>
      cases n with
      | zero => simp [cellsDown]
      | succ n =>
          rw [cellsDown_succ, List.drop_succ_cons, ih, Nat.add_sub_add_right, Int.natCast_succ]
          congr 1
          omega

variable {lv low sp : Int} {f : Activation}

/-- The operands lie below each other. -/
theorem Holds.operand {k : Nat} {w : Word} (h : Holds mem lv low sp f)
    (found : f.operands[k]? = some w) : mem (sp - k) = w := by
  have inside := (List.getElem?_eq_some_iff.mp found).1
  rw [← h.operands, getElem?_cellsDown inside] at found
  exact Option.some.inj found

theorem Holds.drop {n : Nat} (h : Holds mem lv low sp f) (enough : n ≤ f.operands.length) :
    Holds mem lv low (sp - n) { f with operands := f.operands.drop n } := by
  have top := h.top
  refine ⟨h.vars, ?_, ?_⟩
  · rw [List.length_drop]
    omega
  · conv_rhs => rw [← h.operands, drop_cellsDown]
    rw [List.length_drop]

end Cells

section Calls

variable {c c' : Cpu} {f : Activation} {callers : List Suspension} {method returnAddress : Int}
  {numArgs numLocals : Nat}

/-- The local variables of a new frame: the arguments, and zeros. -/
theorem Layout.called_vars (h : Layout c f callers)
    (frame : c.Frame method numArgs numLocals returnAddress c')
    (enough : numArgs ≤ f.operands.length) (k : Nat) (w : Word)
    (found : ((f.operands.take numArgs).reverse ++ List.replicate numLocals 0)[k]? = some w) :
    c'.stack (c'.lv + k) = w := by
  have length : (f.operands.take numArgs).reverse.length = numArgs := by
    rw [List.length_reverse, List.length_take]
    omega
  by_cases argument : k < numArgs
  · rw [List.getElem?_append_left (by omega),
      List.getElem?_reverse (by rw [List.length_take]; omega), List.length_take,
      Nat.min_eq_left enough, List.getElem?_take_of_lt (by omega)] at found
    rw [frame.arguments k argument, ← h.holds.operand found]
    congr 1
    omega
  · rw [List.getElem?_append_right (by omega), length, List.getElem?_replicate] at found
    split at found
    · obtain rfl := Option.some.inj found
      have zero := frame.cleared (k - numArgs) (by omega)
      rw [← zero]
      congr 1
      omega
    · contradiction

theorem Layout.called (h : Layout c f callers)
    (frame : c.Frame method numArgs numLocals returnAddress c')
    (enough : numArgs ≤ f.operands.length) (nonneg : 0 ≤ returnAddress) :
    Layout c'
      { vars := (f.operands.take numArgs).reverse ++ List.replicate numLocals 0, operands := [] }
      ({ frame := { f with operands := f.operands.drop numArgs }, pc := returnAddress } ::
        callers) := by
  have top := h.holds.top
  have apart := h.apart
  have lv := frame.lv
  refine ⟨?_, frame.fp.symm, ⟨h.called_vars frame enough, ?_, rfl⟩, nonneg, c.fp, c.lv, ?_, ?_, ?_,
    ?_⟩
  · rw [frame.nv, List.length_append, List.length_reverse, List.length_take, List.length_replicate,
      Nat.min_eq_left enough, Int.natCast_add]
  · rw [frame.sp, base, List.length_nil]
    omega
  · rw [← h.nv]
    exact frame.linkage
  · rw [← h.nv]
    exact h.adjacent
  · have last : c'.lv - 1 = c.sp - numArgs := by omega
    rw [last]
    refine (h.holds.drop enough).congr ?_ ?_
    · exact fun j _ small => frame.below j (by dsimp only at small; omega)
    · exact fun j _ small => frame.below j (by omega)
  · refine h.below.congr (fun some j _ small => frame.below j ?_) fun j small => frame.below j ?_
    · obtain ⟨r, callers', rfl⟩ := List.exists_cons_of_ne_nil some
      rw [base] at top
      omega
    · omega

end Calls

section Returns

variable {c : Cpu} {f : Activation} {callers : List Suspension} {r : Suspension} {w : Word}

/-- The frame of a called method is one that a return can take off. -/
theorem Layout.wellFramed (h : Layout c f (r :: callers)) : c.WellFramed := by
  have top := h.holds.top
  have nv := h.nv
  rw [base] at top
  exact ⟨h.adjacent, by omega, by omega⟩

/-- The caller comes back as the call left it. -/
theorem Layout.resumed (h : Layout c f (r :: callers)) :
    ∃ saved : Caller, saved.pc = r.pc ∧ Linkage c.stack c.fp saved ∧
      (0 ≤ saved.lv ∧ saved.lv ≤ saved.fp ∧ saved.fp ≤ c.lv ∧ 0 ≤ saved.nv) ∧
      Layout (c.resumed saved) r.frame callers := by
  obtain ⟨_, fp, lv, linkage, adjacent, holds, below⟩ := h.below
  have nonneg := below.lv_nonneg
  have top := holds.top
  have le := le_base fp callers
  refine ⟨_, rfl, linkage, ⟨nonneg, ?_, ?_, ?_⟩, rfl, adjacent, holds, below⟩
  · dsimp only
    omega
  · dsimp only
    omega
  · exact Int.natCast_nonneg _

end Returns

end Ijvm.Frames
