import Ijvm.Collector.Sweep
import Ijvm.Frames.Determined

/-!
# What the collector sees of the frames

The collector scans the cells of the stack below `sp` and cannot tell what a cell is for. As long
as the program keeps to the discipline of frames, the cells are the variables and operands of
the methods, and linkage words, which are addresses and sizes and never look like references. So
the roots of the collector are the references among the variables and operands of all methods,
except for the word in the top cell: the topmost operand of the method that runs or, in a main
method without operands, its last variable.
-/

namespace Ijvm.Frames

open Transcript Program Transitions

def suspendedWords : List Suspension → List Word
  | [] => []
  | r :: rest => r.frame.operands ++ r.frame.vars ++ suspendedWords rest

/-- The words of the frames that are not in the top cell. -/
def scanned (f : Activation) (callers : List Suspension) : List Word :=
  match f.operands, callers with
  | _ :: operands, _ => operands ++ f.vars ++ suspendedWords callers
  | [], [] => f.vars.dropLast
  | [], _ :: _ => f.vars ++ suspendedWords callers

/-- References look like negative numbers. -/
theorem isArrRef_neg {w : Word} (ref : isArrRef w = true) : w.toInt < 0 := by
  have top : w.getMsbD 0 = true := by
    have tag := hasTag_iff.mp ref
    have bit := congrArg (fun v => BitVec.getMsbD v 0) tag
    simp only [BitVec.getMsbD_and] at bit
    rw [show refTagMask.getMsbD 0 = true from rfl, show arrTag.getMsbD 0 = true from rfl,
      Bool.and_true] at bit
    exact bit
  rw [← BitVec.msb_eq_getMsbD_zero, BitVec.msb_eq_toInt, decide_eq_true_eq] at top
  exact top

section Cells

variable {mem : Int → Word} {fp lv low sp : Int} {f : Activation} {callers : List Suspension}
  {w : Word} {P : Word → Prop}

theorem Holds.mem_vars (h : Holds mem lv low sp f) {i : Int} (above : lv ≤ i)
    (inside : i < lv + f.vars.length) : mem i ∈ f.vars := by
  obtain ⟨k, rfl⟩ : ∃ k : Nat, i = lv + k := ⟨(i - lv).toNat, by omega⟩
  have found := List.getElem?_eq_getElem (l := f.vars) (i := k) (by omega)
  rw [h.vars k _ found]
  exact List.getElem_mem _

theorem Holds.cell_of_vars (h : Holds mem lv low sp f) (member : w ∈ f.vars) :
    ∃ i, lv ≤ i ∧ i < lv + f.vars.length ∧ mem i = w := by
  obtain ⟨k, found⟩ := List.mem_iff_getElem?.mp member
  have inside := (List.getElem?_eq_some_iff.mp found).1
  exact ⟨lv + k, by omega, by omega, h.vars k w found⟩

theorem Holds.mem_operands (h : Holds mem lv low sp f) {i : Int} (above : low < i)
    (le : i ≤ sp) : mem i ∈ f.operands := by
  have top := h.top
  obtain ⟨k, rfl⟩ : ∃ k : Nat, i = sp - k := ⟨(sp - i).toNat, by omega⟩
  have found := List.getElem?_eq_getElem (l := f.operands) (i := k) (by omega)
  rw [h.operand found]
  exact List.getElem_mem _

theorem Holds.cell_of_operands (h : Holds mem lv low sp f) (member : w ∈ f.operands) :
    ∃ i, low < i ∧ i ≤ sp ∧ mem i = w := by
  obtain ⟨k, found⟩ := List.mem_iff_getElem?.mp member
  have inside := (List.getElem?_eq_some_iff.mp found).1
  have top := h.top
  exact ⟨sp - k, by omega, by omega, h.operand found⟩

/-- A linkage word is an address or a size. -/
theorem Below.linkage_nonneg (h : Below mem fp lv callers) {i : Int} (above : fp ≤ i)
    (inside : i < fp + linkageSize callers) : 0 ≤ (mem i).toInt := by
  cases callers with
  | nil =>
      rw [linkageSize] at inside
      omega
  | cons r rest =>
      obtain ⟨pc, fp', lv', link, adjacent, _, below⟩ := h
      have nonneg := below.lv_nonneg
      have cell : i = fp ∨ i = fp + 1 ∨ i = fp + 2 ∨ i = fp + 3 := by
        rw [linkageSize] at inside
        omega
      obtain rfl | rfl | rfl | rfl := cell
      · rw [link.lv]
        exact nonneg
      · rw [link.nv]
        exact Int.natCast_nonneg _
      · rw [link.fp]
        dsimp only
        omega
      · rw [link.pc]
        exact pc

/-- A cell below `lv` is a word of a caller, or a linkage word. -/
theorem Below.mem_words (h : Below mem fp lv callers) {i : Int} (nonneg : 0 ≤ i) (small : i < lv) :
    mem i ∈ suspendedWords callers ∨ 0 ≤ (mem i).toInt := by
  induction callers generalizing fp lv with
  | nil =>
      have : lv = 0 := h
      omega
  | cons r rest ih =>
      obtain ⟨_, fp', lv', _, adjacent, holds, below⟩ := h
      have size := base_eq fp' rest
      rw [suspendedWords, List.mem_append, List.mem_append]
      by_cases deep : i < lv'
      · exact (ih below deep).imp_left Or.inr
      by_cases inVars : i < fp'
      · exact Or.inl (Or.inl (Or.inr (holds.mem_vars (by omega) (by omega))))
      by_cases link : i < fp' + linkageSize rest
      · exact Or.inr (below.linkage_nonneg (by omega) link)
      · exact Or.inl (Or.inl (Or.inl (holds.mem_operands (by omega) (by omega))))

/-- Every word of a caller is in a cell below `lv`. -/
theorem Below.cell_of_words (h : Below mem fp lv callers) (member : w ∈ suspendedWords callers) :
    ∃ i, 0 ≤ i ∧ i < lv ∧ mem i = w := by
  induction callers generalizing fp lv with
  | nil => simp [suspendedWords] at member
  | cons r rest ih =>
      obtain ⟨_, fp', lv', _, adjacent, holds, below⟩ := h
      have nonneg := below.lv_nonneg
      have top := holds.top
      have size := base_eq fp' rest
      rw [suspendedWords, List.mem_append, List.mem_append] at member
      obtain (operand | inVars) | deep := member
      · obtain ⟨i, above, le, cell⟩ := holds.cell_of_operands operand
        exact ⟨i, by omega, by omega, cell⟩
      · obtain ⟨i, above, inside, cell⟩ := holds.cell_of_vars inVars
        exact ⟨i, by omega, by omega, cell⟩
      · obtain ⟨i, above, inside, cell⟩ := ih below deep
        exact ⟨i, above, by omega, cell⟩

end Cells

section Scans

variable {c : Cpu} {f : Activation} {callers : List Suspension} {P : Word → Prop}

/-- The words like references up to `sp` are those of the frames. -/
theorem Layout.words_iff (h : Layout c f callers) (tagged : ∀ w, P w → isArrRef w = true) :
    (∃ i, 0 ≤ i ∧ i ≤ c.sp ∧ P (c.stack i)) ↔
      ∃ w ∈ f.operands ++ f.vars ++ suspendedWords callers, P w := by
  have size := base_eq c.fp callers
  have adjacent := h.adjacent
  have vars := h.nv
  have nonneg := h.below.lv_nonneg
  have top := h.holds.top
  simp only [List.mem_append]
  constructor
  · rintro ⟨i, low, le, holds⟩
    have plain (absurd : 0 ≤ (c.stack i).toInt) : False := by
      have := isArrRef_neg (tagged _ holds)
      omega
    refine ⟨c.stack i, ?_, holds⟩
    by_cases deep : i < c.lv
    · exact Or.inr ((h.below.mem_words low deep).resolve_right plain)
    by_cases inVars : i < c.fp
    · exact Or.inl (Or.inr (h.holds.mem_vars (by omega) (by omega)))
    by_cases link : i < c.fp + linkageSize callers
    · exact (plain (h.below.linkage_nonneg (by omega) link)).elim
    · exact Or.inl (Or.inl (h.holds.mem_operands (by omega) (by omega)))
  · rintro ⟨w, (operand | inVars) | deep, holds⟩
    · obtain ⟨i, above, le, rfl⟩ := h.holds.cell_of_operands operand
      exact ⟨i, by omega, le, holds⟩
    · obtain ⟨i, above, inside, rfl⟩ := h.holds.cell_of_vars inVars
      exact ⟨i, by omega, by omega, holds⟩
    · obtain ⟨i, above, inside, rfl⟩ := h.below.cell_of_words deep
      exact ⟨i, above, by omega, holds⟩

/-- The scan of the collector ends below the top cell. -/
theorem Layout.scan_iff (h : Layout c f callers) (tagged : ∀ w, P w → isArrRef w = true) :
    (∃ i, 0 ≤ i ∧ i < c.sp ∧ P (c.stack i)) ↔ ∃ w ∈ scanned f callers, P w := by
  obtain ⟨vars, operands⟩ := f
  cases operands with
  | cons v rest =>
      obtain ⟨-, -, popped⟩ := h.pop
      rw [show scanned { vars, operands := v :: rest } callers =
        rest ++ vars ++ suspendedWords callers from rfl, ← popped.words_iff tagged]
      simp only [Int.le_sub_one_iff]
  | nil =>
      cases callers with
      | cons r rest =>
          -- The top cell is a linkage word.
          have top := h.holds.top
          have all := h.words_iff tagged
          rw [List.nil_append] at all
          rw [show scanned { vars, operands := [] } (r :: rest) =
            vars ++ suspendedWords (r :: rest) from rfl, ← all]
          constructor
          · rintro ⟨i, low, lt, holds⟩
            exact ⟨i, low, Int.le_of_lt lt, holds⟩
          · rintro ⟨i, low, le, holds⟩
            refine ⟨i, low, ?_, holds⟩
            by_contra high
            rw [base, List.length_nil] at top
            have plain := h.below.linkage_nonneg (i := i) (by omega) (by rw [linkageSize]; omega)
            have := isArrRef_neg (tagged _ holds)
            omega
      | nil =>
          have top := h.holds.top
          have main : c.lv = 0 := h.below
          have adjacent := h.adjacent
          have nv := h.nv
          rw [base, List.length_nil] at top
          dsimp only at nv
          rw [show scanned { vars, operands := [] } [] = vars.dropLast from rfl]
          constructor
          · rintro ⟨i, low, lt, holds⟩
            obtain ⟨k, rfl⟩ := Int.eq_ofNat_of_zero_le low
            have found := List.getElem?_eq_getElem (l := vars) (i := k) (by omega)
            have cell := h.holds.vars k _ found
            rw [main, Int.zero_add] at cell
            refine ⟨vars[k], ?_, cell ▸ holds⟩
            refine List.mem_iff_getElem?.mpr ⟨k, ?_⟩
            rw [List.getElem?_dropLast, if_pos (by omega), found]
          · rintro ⟨w, member, holds⟩
            obtain ⟨k, found⟩ := List.mem_iff_getElem?.mp member
            rw [List.getElem?_dropLast] at found
            split at found
            · have cell := h.holds.vars k w found
              rw [main, Int.zero_add] at cell
              exact ⟨k, Int.natCast_nonneg k, by omega, cell ▸ holds⟩
            · contradiction

end Scans

section Collections

variable {env : Env} {im : Image} {wide : Bool} {s s' t : State} {c : Config} {n : Nat}
  {es : List Event} {P : Word → Prop}

theorem rootWord_iff (h : Represents im wide s c) (tagged : ∀ w, P w → isArrRef w = true) :
    s.RootWord P ↔ ∃ w ∈ scanned c.frame c.callers, P w := by
  rw [← h.layout.scan_iff tagged]
  constructor
  · rintro ⟨k, below, holds⟩
    exact ⟨k, Int.natCast_nonneg k, by omega, holds⟩
  · rintro ⟨i, nonneg, lt, holds⟩
    refine ⟨i.toNat, by omega, ?_⟩
    rw [Int.toNat_of_nonneg nonneg]
    exact holds

/-- The arrays that the words of the frames refer to, those in the top cell left out. -/
def frameRoots (s : State) (c : Config) : Set Nat :=
  {q | q ∈ s.arrMem.claimed ∧ ∃ w ∈ scanned c.frame c.callers, Refers w q}

theorem arrRoots_eq (h : Represents im wide s c) : s.arrRoots = frameRoots s c := by
  ext q
  exact and_congr Iff.rfl (rootWord_iff h fun _ refers => refers.1)

/-- What a collection keeps, in terms of frames. -/
structure KeepsFrames (s : State) (c : Config) (s' : State) : Prop where
  kept : ∀ i, i ∈ s'.arrMem.claimed ↔
    i ∈ s.arrMem.claimed ∧ i ∈ Marking.onePass s.arrEdge (frameRoots s c)
  contents : ∀ i ∈ s'.arrMem.claimed, s'.arrMem.value i = s.arrMem.value i
  integers : ∀ w ∈ scanned c.frame c.callers, ¬ Dangles w s.arrMem.size

theorem collection_keeps (h : Represents im wide s c)
    (collection : arrGc.run env s = .done n s' es) : KeepsFrames s c s' := by
  obtain ⟨clean, collected⟩ := Collected.of_done collection
  refine ⟨fun i => ?_, collected.survivors.value_eq, fun w member dangles => ?_⟩
  · rw [← arrRoots_eq h]
    exact collected.survivors.mem_iff i
  · exact clean (Or.inl ((rootWord_iff h fun _ dangles => dangles.1).mpr ⟨w, member, dangles⟩))

/-- A GC instruction in a run. -/
theorem after_collects {file : List Byte} {s₀ : State} (started : after env file 0 = some s₀)
    (reached : after env file n = some s) (collects : s.gCpu.op? = some .gc)
    (taken : turn env s = some t) :
    (run (Image.of s₀.gCpu) (answers env n s₀) (start s₀.gCpu.nv.toNat env.stdin)).Satisfies
      (fun _ c _ => KeepsFrames s c t) fun f _ _ => f = .undisciplined := by
  have follows := advance_follows (start_represents started) (advance_of_after started reached)
  refine follows.mono (fun _ c _ h => ?_) fun _ _ _ wild => wild
  obtain ⟨a, executes⟩ := State.executes_of_op? collects
  obtain ⟨u, es, exec, rfl⟩ := (turn_eq_some_iff (turn_eq_some taken).1 executes).mp taken
  have collection : ∃ k, arrGc.run env (s.atOp a) = .done k u es := by
    rw [show execOp (pure true) .gc = execOpGc from rfl, execOpGc, run_bind] at exec
    cases ran : arrGc.run env (s.atOp a) with
    | stopped r v fs =>
        rw [ran] at exec
        contradiction
    | done k v fs =>
        rw [ran, Outcome.andThen_done, run_pure, Outcome.prepend_done, List.append_nil] at exec
        injection exec with _ state events
        exact ⟨k, by rw [state, events]⟩
  obtain ⟨k, collection⟩ := collection
  obtain ⟨kept, contents, integers⟩ := collection_keeps (h.atOp executes.found) collection
  rw [State.settled_eq]
  exact ⟨kept, contents, integers⟩

/-- Two references to an array: BIPUSH 1; NEWARRAY; DUP; GC; HALT. -/
def twoReferences : List Byte := assemble []
  [Op.bipush.code, 1, Op.newarray.code, Op.dup.code, Op.gc.code, Op.halt.code]

/-- The collection keeps the array of the second operand. -/
theorem after_collects_twoReferences : ∃ s t c, after Env.quiet twoReferences 3 = some s ∧
    turn Env.quiet s = some t ∧ KeepsFrames s c t ∧
    c.frame.operands = [0xAA00000A, 0xAA00000A] ∧ 0 ∈ t.arrMem.claimed := by
  have check : (after Env.quiet twoReferences 0).any (fun s₀ =>
      let machine := run (Image.of s₀.gCpu) (answers Env.quiet 3 s₀)
        (start s₀.gCpu.nv.toNat Env.quiet.stdin)
      decide (machine.value? = some () ∧
        machine.state.frame.operands = [0xAA00000A, 0xAA00000A]) &&
      (after Env.quiet twoReferences 3).any fun s => (turn Env.quiet s).any fun t =>
        decide (s.gCpu.op? = some .gc ∧ 0 ∈ t.arrMem.claimed)) = true := by
    decide +kernel
  obtain ⟨s₀, started, facts⟩ := (Option.any_eq_true _ _).mp check
  rw [Bool.and_eq_true, decide_eq_true_eq] at facts
  obtain ⟨⟨done, operands⟩, facts⟩ := facts
  obtain ⟨s, reached, facts⟩ := (Option.any_eq_true _ _).mp facts
  obtain ⟨t, taken, facts⟩ := (Option.any_eq_true _ _).mp facts
  obtain ⟨collects, kept⟩ := of_decide_eq_true facts
  have keeps := after_collects started reached collects taken
  rw [Outcome.eq_done_of_value? done] at keeps
  exact ⟨s, t, _, reached, taken, keeps, operands, kept⟩

end Collections

end Ijvm.Frames
