import Ijvm.Frames.Machine
import Ijvm.Stack.AsList
import Ijvm.Stack.Calls

/-!
# Frames on the stack

How the stack of the interpreter holds the frame of a method, and below it those of its
callers. The local variables start at `lv` and end below `fp`. The operands of the main
method start at `fp`, those of any other method above the four linkage words, which describe
the frame of the caller: that frame ends right below `lv`, where the arguments were.

`Layout` is this relation. Pushes, pops and writes to local variables change the frame of the
method that runs and nothing else; a call puts a frame in front, and a return takes it off.
-/

namespace Ijvm.Frames

open Transcript

/-- The cell below the first operand of a method, which has these callers. -/
def base (fp : Int) : List Suspension → Int
  | [] => fp - 1
  | _ :: _ => fp + 3

theorem le_base (fp : Int) (callers : List Suspension) : fp ≤ base fp callers + 1 := by
  cases callers with
  | nil => simp [base]
  | cons r callers =>
      rw [base]
      omega

/-- The frame is in memory, with its variables from `lv` on and its operands above `low`. -/
structure Holds (mem : Int → Word) (lv low sp : Int) (f : Activation) : Prop where
  vars : ∀ (k : Nat) w, f.vars[k]? = some w → mem (lv + k) = w
  top : sp = low + f.operands.length
  operands : cellsDown mem sp f.operands.length = f.operands

/-- What lies below the frame with this linkage and these variables: the frames of the
callers, each of them described by the linkage above it. -/
def Below (mem : Int → Word) : Int → Int → List Suspension → Prop
  | _, lv, [] => lv = 0
  | fp, lv, r :: callers =>
      0 ≤ r.pc ∧ ∃ fp' lv',
        Linkage mem fp { pc := r.pc, fp := fp', lv := lv', nv := r.frame.vars.length } ∧
        lv' + r.frame.vars.length = fp' ∧ Holds mem lv' (base fp' callers) (lv - 1) r.frame ∧
        Below mem fp' lv' callers

/-- The stack of the CPU holds the frame of the method that runs and its callers. -/
structure Layout (c : Cpu) (f : Activation) (callers : List Suspension) : Prop where
  nv : c.nv = f.vars.length
  adjacent : c.lv + c.nv = c.fp
  holds : Holds c.stack c.lv (base c.fp callers) c.sp f
  below : Below c.stack c.fp c.lv callers

section Memory

variable {mem mem' : Int → Word} {lv low sp fp : Int} {f : Activation} {w : Word}
  {callers : List Suspension}

theorem cellsDown_congr {i : Int} (n : Nat) (same : ∀ j, i - n < j → j ≤ i → mem' j = mem j) :
    cellsDown mem' i n = cellsDown mem i n := by
  induction n generalizing i with
  | zero => rfl
  | succ n ih =>
      rw [cellsDown_succ, cellsDown_succ, same i (by omega) (Int.le_refl _)]
      rw [ih fun j above le => same j (by omega) (by omega)]

theorem Holds.congr (h : Holds mem lv low sp f)
    (vars : ∀ j, lv ≤ j → j < lv + f.vars.length → mem' j = mem j)
    (operands : ∀ j, low < j → j ≤ sp → mem' j = mem j) : Holds mem' lv low sp f := by
  refine ⟨fun k w found => ?_, h.top, ?_⟩
  · have inside := (List.getElem?_eq_some_iff.mp found).1
    rw [vars _ (by omega) (by omega)]
    exact h.vars k w found
  · have top := h.top
    rw [cellsDown_congr _ fun j above le => operands j (by omega) le]
    exact h.operands

theorem Holds.push (h : Holds mem lv low sp f) (apart : lv + f.vars.length ≤ low + 1) :
    Holds (setCell mem (sp + 1) w) lv low (sp + 1) (f.push w) := by
  have top := h.top
  have kept : Holds (setCell mem (sp + 1) w) lv low sp f :=
    h.congr (fun j _ _ => setCell_ne (by omega)) fun j _ _ => setCell_ne (by omega)
  refine ⟨kept.vars, ?_, ?_⟩
  · rw [Activation.push, List.length_cons]
    omega
  · rw [Activation.push, List.length_cons, cellsDown_succ, setCell_same, Int.add_sub_cancel,
      kept.operands]

theorem Holds.pop {vars rest : List Word}
    (h : Holds mem lv low sp { vars, operands := w :: rest }) :
    mem sp = w ∧ Holds mem lv low (sp - 1) { vars, operands := rest } := by
  obtain ⟨vars, top, operands⟩ := h
  rw [List.length_cons, cellsDown_succ, List.cons.injEq] at operands
  rw [List.length_cons] at top
  exact ⟨operands.1, vars, by dsimp only; omega, operands.2⟩

theorem Holds.store {i : Nat} (h : Holds mem lv low sp f) (apart : lv + f.vars.length ≤ low + 1)
    (inside : i < f.vars.length) :
    Holds (setCell mem (lv + i) w) lv low sp { f with vars := f.vars.set i w } := by
  have top := h.top
  refine ⟨fun k v found => ?_, h.top, ?_⟩
  · by_cases here : k = i
    · subst here
      rw [List.getElem?_set_self inside] at found
      rw [setCell_same, Option.some.inj found]
    · rw [List.getElem?_set_ne (Ne.symm here)] at found
      rw [setCell_ne (by omega)]
      exact h.vars k v found
  · refine (cellsDown_congr f.operands.length fun j above _ => ?_).trans h.operands
    exact setCell_ne (by omega)

theorem Below.lv_nonneg (h : Below mem fp lv callers) : 0 ≤ lv := by
  induction callers generalizing fp lv with
  | nil => exact h.ge
  | cons r callers ih =>
      obtain ⟨_, fp', lv', _, adjacent, holds, rest⟩ := h
      have := ih rest
      have := holds.top
      have := le_base fp' callers
      omega

/-- The callers lie in their linkage and in the cells below `lv`. -/
theorem Below.congr (h : Below mem fp lv callers)
    (linkage : callers ≠ [] → ∀ j, fp ≤ j → j < fp + 4 → mem' j = mem j)
    (below : ∀ j, j < lv → mem' j = mem j) : Below mem' fp lv callers := by
  induction callers generalizing fp lv with
  | nil => exact h
  | cons r callers ih =>
      obtain ⟨pc, fp', lv', link, adjacent, holds, rest⟩ := h
      have top := holds.top
      have le := le_base fp' callers
      refine ⟨pc, fp', lv', link.congr (linkage (List.cons_ne_nil _ _)), adjacent, ?_, ?_⟩
      · exact holds.congr (fun j _ _ => below j (by omega)) fun j _ _ => below j (by omega)
      · refine ih rest (fun some j _ small => below j ?_) fun j small => below j (by omega)
        obtain ⟨r', callers', rfl⟩ := List.exists_cons_of_ne_nil some
        rw [base] at top
        omega

end Memory

section Changes

variable {c c' : Cpu} {f : Activation} {callers : List Suspension} {w : Word}

/-- Only the stack and its registers matter. -/
theorem Layout.congr (h : Layout c f callers) (stack : c'.stack = c.stack) (sp : c'.sp = c.sp)
    (fp : c'.fp = c.fp) (lv : c'.lv = c.lv) (nv : c'.nv = c.nv) : Layout c' f callers := by
  obtain ⟨h₁, h₂, h₃, h₄⟩ := h
  refine ⟨?_, ?_, ?_, ?_⟩
  · rw [nv, h₁]
  · rw [lv, nv, fp, h₂]
  · rw [stack, lv, fp, sp]
    exact h₃
  · rw [stack, lv, fp]
    exact h₄

/-- The variables end below the operands. -/
theorem Layout.apart (h : Layout c f callers) :
    c.lv + f.vars.length ≤ base c.fp callers + 1 := by
  have := h.nv
  have := h.adjacent
  have := le_base c.fp callers
  omega

/-- A write above `lv` that spares the linkage does not touch the callers. -/
theorem Layout.below_setCell {i : Int} (h : Layout c f callers) (above : c.lv ≤ i)
    (spares : callers ≠ [] → i < c.fp ∨ c.fp + 4 ≤ i) :
    Below (setCell c.stack i w) c.fp c.lv callers := by
  refine h.below.congr (fun some j le lt => setCell_ne ?_) fun j lt => setCell_ne (by omega)
  have := spares some
  omega

theorem Layout.push (h : Layout c f callers) (pushed : Pushed c w c') :
    Layout c' (f.push w) callers := by
  have top := h.holds.top
  have apart := h.apart
  rw [pushed.eq]
  refine ⟨h.nv, h.adjacent, h.holds.push apart, h.below_setCell (by omega) fun some => ?_⟩
  obtain ⟨r, callers', rfl⟩ := List.exists_cons_of_ne_nil some
  rw [base] at top
  omega

theorem Layout.pop {vars rest : List Word}
    (h : Layout c { vars, operands := w :: rest } callers) :
    ¬ c.Empty ∧ c.stack c.sp = w ∧
      Layout { c with sp := c.sp - 1 } { vars, operands := rest } callers := by
  obtain ⟨word, holds⟩ := h.holds.pop
  refine ⟨Cpu.not_empty_iff.mpr ?_, word, ⟨h.nv, h.adjacent, holds, h.below⟩⟩
  have sp := h.holds.top
  have nonneg := h.below.lv_nonneg
  have apart := h.apart
  rw [List.length_cons] at sp
  dsimp only at apart
  omega

/-- The cell of a local variable. -/
theorem Layout.load {i : Nat} (h : Layout c f callers) (inside : i < f.vars.length) :
    c.stack (c.lv + i) = f.vars.getD i 0 := by
  refine h.holds.vars i _ ?_
  rw [List.getD_eq_getElem?_getD, List.getElem?_eq_getElem inside, Option.getD_some]

theorem Layout.store {i : Nat} (h : Layout c f callers) (inside : i < f.vars.length) :
    Layout { c with stack := setCell c.stack (c.lv + i) w }
      { f with vars := f.vars.set i w } callers := by
  have nv := h.nv
  have adjacent := h.adjacent
  refine ⟨?_, h.adjacent, h.holds.store h.apart inside, h.below_setCell (by omega) fun _ => ?_⟩
  · rw [List.length_set]
    exact nv
  · exact Or.inl (by omega)

end Changes

end Ijvm.Frames
