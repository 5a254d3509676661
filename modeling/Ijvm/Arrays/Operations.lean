import Ijvm.Arrays.Table

/-!
# The array operations on a sound table

Each operation that can collect or resize is specified by what is left of the arrays
when it returns. `arrCreate` adds one array of zeros at a free index of what is left;
`arrGet` and `arrSet` return exactly for valid accesses.
-/

namespace Ijvm

open Transcript ArrayHeap

section Creation

variable {env : Env} {s : State}

theorem arrGc_returns (table : ArrayTable s.arrMem) :
    (arrGc.run env s).Returns fun _ t => Retained s.arrMem t.arrMem :=
  (arrGc_satisfies env s).returns fun _ _ _ done => done.2.2.survivors.retained table

/-- The search for a free index may collect first. -/
theorem getFreeIndex_returns (table : ArrayTable s.arrMem) :
    ((getFreeIndex arrMem).run env s).Returns fun i t =>
      Retained s.arrMem t.arrMem ∧ t.arrMem.firstFree.getD sizeMaxUint32 = i := by
  simp only [getFreeIndex, Program.run_bind, Program.run_get, Outcome.andThen_done,
    Outcome.prepend_nil]
  split
  · simp only [Program.run_bind, Program.run_modify, Outcome.andThen_done, Outcome.prepend_nil]
    refine Outcome.Returns.andThen (arrGc_returns (s := { s with elementCreations := 0 }) table) ?_
    intro n t retained
    simpa [arrMem] using retained
  · simpa [arrMem] using Retained.refl table

/-- What adding `arr` leaves: a full table, or one with `arr` at its first free index. -/
theorem marrAddElement_returns (table : ArrayTable s.arrMem) (arr : Block) :
    ((marrAddElement arrMem arr).run env s).Returns fun i t =>
      (i = sizeMaxUint32 ∧ Retained s.arrMem t.arrMem ∧ t.arrMem.firstFree = none) ∨
        ∃ m, i ≠ sizeMaxUint32 ∧ Retained s.arrMem m ∧ m.firstFree = some i ∧
          t.arrMem = m.store i arr := by
  simp only [marrAddElement, Program.run_bind]
  refine Outcome.Returns.andThen (getFreeIndex_returns table) ?_
  rintro i t ⟨retained, free⟩
  rcases retained.table.firstFree_of_getD free with ⟨rfl, full⟩ | ⟨ne, found⟩
  · simpa using ⟨retained, full⟩
  · rw [if_neg ne]
    simp only [Program.run_bind, Program.run_get, Program.run_modify, Outcome.andThen_done,
      Outcome.prepend_nil, Program.run_pure, Outcome.returns_done]
    exact Or.inr ⟨t.arrMem, ne, retained, found, rfl⟩

theorem marrResizeFuel_returns (table : ArrayTable s.arrMem) {newSize : Nat}
    (bound : newSize ≤ 2 ^ 21) (fuel : Nat) :
    ((marrResizeFuel arrMem fuel newSize).run env s).Returns fun _ t =>
      Retained s.arrMem t.arrMem := by
  induction fuel generalizing s with
  | zero => exact Outcome.returns_stopped
  | succ fuel ih =>
      simp only [marrResizeFuel, Program.run_bind, Program.run_get, Outcome.andThen_done,
        Outcome.prepend_nil]
      split
      · exact Outcome.returns_stopped
      · rename_i larger
        split
        · exact Outcome.returns_stopped
        · simp only [Program.run_bind, run_allocate, Outcome.andThen_done, Outcome.prepend_nil]
          split
          · -- The collector runs on the old table, and the resize is tried again.
            refine Outcome.Returns.andThen (arrGc_returns
              (s := { s with clock := s.clock + 1 + 1 }) table) ?_
            intro n t retained
            dsimp only
            split
            · exact (ih retained.table).mono fun _ _ rest => retained.trans rest
            · exact Outcome.returns_stopped
          · simp only [Program.run_modify, Outcome.returns_done]
            exact table.resized (by simpa [arrMem] using larger) bound

theorem marrResize_returns (table : ArrayTable s.arrMem) {newSize : Nat}
    (bound : newSize ≤ 2 ^ 21) :
    ((marrResize arrMem newSize).run env s).Returns fun _ t => Retained s.arrMem t.arrMem := by
  simp only [marrResize, Program.run_bind, Program.run_get, Outcome.andThen_done,
    Outcome.prepend_nil]
  exact marrResizeFuel_returns table bound _

/-- The empty table is sound. -/
theorem ArrayTable.empty : ArrayTable { size := 0, map := [], values := [] } := by
  refine ⟨rfl, rfl, Nat.zero_le _, ?_, ?_⟩ <;>
  · intro i claimed
    simp at claimed

theorem marrInit_returns :
    ((marrInit arrMem arraysMinNum).run env s).Returns fun _ t => Retained s.arrMem t.arrMem := by
  simp only [marrInit, Program.run_bind, Program.run_modify, Outcome.andThen_done,
    Outcome.prepend_nil]
  rw [if_neg (by decide)]
  have start : Retained s.arrMem { size := 0, map := [], values := [] } :=
    .of_empty ArrayTable.empty rfl
  exact (marrResize_returns (s := arrMem.set { size := 0, map := [], values := [] } s)
    ArrayTable.empty (by decide)).mono fun _ _ rest => start.trans rest

theorem arrPrepare_returns (table : ArrayTable s.arrMem) :
    (arrPrepare.run env s).Returns fun _ t => Retained s.arrMem t.arrMem := by
  simp only [arrPrepare, Program.run_bind, Program.run_get, Outcome.andThen_done,
    Outcome.prepend_nil]
  split
  · exact marrInit_returns
  · exact Outcome.returns_done.mpr (Retained.refl table)

/-- `arr` is at index `i`, the first that was free in what is left of `m`. -/
structure Placed (m : MArr Block) (arr : Block) (i : Nat) (m' : MArr Block) : Prop where
  exists_retained : ∃ m₁, Retained m m₁ ∧ m₁.firstFree = some i ∧ m' = m₁.store i arr

theorem Retained.placed {m m₁ m' : MArr Block} {arr : Block} {i : Nat} (first : Retained m m₁)
    (placed : Placed m₁ arr i m') : Placed m arr i m' := by
  obtain ⟨m₂, second, free, stored⟩ := placed.exists_retained
  exact ⟨m₂, first.trans second, free, stored⟩

/-- No index fits into a reference if the table stays full after it was doubled. -/
theorem arrSave_returns (table : ArrayTable s.arrMem) (arr : Block) :
    ((arrSave arr).run env s).Returns fun i t =>
      i = sizeMaxUint32 ∨ Placed s.arrMem arr i t.arrMem := by
  simp only [arrSave, Program.run_bind]
  refine Outcome.Returns.andThen (marrAddElement_returns table arr) ?_
  rintro i t (⟨rfl, retained, full⟩ | ⟨m, ne, retained, free, stored⟩)
  · rw [if_pos (le_refl _)]
    simp only [Program.run_bind, Program.run_get, Outcome.andThen_done, Outcome.prepend_nil]
    have size := retained.table.size_le_of_full full
    have bound : t.arrMem.size * 2 % 2 ^ 32 ≤ 2 ^ 21 := by omega
    refine Outcome.Returns.andThen (marrResize_returns retained.table bound) ?_
    intro _ u resized
    refine (marrAddElement_returns resized.table arr).mono ?_
    rintro i v (⟨rfl, _, _⟩ | ⟨m, _, retained', free, stored⟩)
    · exact Or.inl rfl
    · exact Or.inr ⟨m, (retained.trans resized).trans retained', free, stored⟩
  · have le := retained.table.firstFree_le free
    rw [if_neg (by rw [sizeMaxUint32]; omega), Program.run_pure, Outcome.returns_done]
    exact Or.inr ⟨m, retained, free, stored⟩

theorem arrStore_returns (table : ArrayTable s.arrMem) (arr : Block) :
    ((arrStore arr).run env s).Returns fun r t =>
      ∃ i < 2 ^ 20, r = indexToRef arrTag i ∧ Placed s.arrMem arr i t.arrMem := by
  simp only [arrStore, Program.run_bind]
  refine Outcome.Returns.andThen (arrPrepare_returns table) ?_
  intro _ t prepared
  refine Outcome.Returns.andThen (arrSave_returns prepared.table arr) ?_
  intro i u saved
  split
  · exact Outcome.returns_stopped
  · rename_i named
    rw [Program.run_pure, Outcome.returns_done]
    rcases saved with rfl | placed
    · exact absurd (by decide) named
    · refine ⟨i, ?_, rfl, prepared.placed placed⟩
      obtain ⟨m, retained, free, _⟩ := placed.exists_retained
      rcases (retained.table.firstFree_le free).lt_or_eq with below | rfl
      · exact below
      · exact absurd (by decide) named

/-- The memory of a new array: the count, then that many zeros. -/
def Block.zeros (count : Word) : Block := count :: List.replicate count.toNat 0

theorem Block.zeros_wf {count : Word} (positive : 0 < count.toInt) : (Block.zeros count).Wf := by
  refine ⟨?_, positive⟩
  simp [Block.zeros, Block.count, Block.cell]

/-- A new array: the count is positive, and the reference names an index that was free
in what is left of the table, where the zeros are now. -/
structure Created (m : MArr Block) (count r : Word) (m' : MArr Block) : Prop where
  positive : 0 < count.toInt
  placed : ∃ i < 2 ^ 20, r = indexToRef arrTag i ∧ Placed m (Block.zeros count) i m'

theorem arrCreateFuel_returns (table : ArrayTable s.arrMem) (count : Word) (fuel : Nat) :
    ((arrCreateFuel fuel count).run env s).Returns
      fun r t => Created s.arrMem count r t.arrMem := by
  induction fuel generalizing s with
  | zero => exact Outcome.returns_stopped
  | succ fuel ih =>
      simp only [arrCreateFuel]
      split
      · exact Outcome.returns_stopped
      · rename_i positive
        simp only [Program.run_bind, run_allocate, Outcome.andThen_done, Outcome.prepend_nil]
        split
        · exact (arrStore_returns (s := { s with clock := s.clock + 1 }) table _).mono
            fun _ _ placed => ⟨by omega, placed⟩
        · refine Outcome.Returns.andThen (arrGc_returns
            (s := { s with clock := s.clock + 1 }) table) ?_
          intro n t retained
          dsimp only
          split
          · refine (ih retained.table).mono ?_
            rintro r u ⟨positive, i, fits, named, placed⟩
            exact ⟨positive, i, fits, named, retained.placed placed⟩
          · exact Outcome.returns_stopped

theorem arrCreate_returns (table : ArrayTable s.arrMem) (count : Word) :
    ((arrCreate count).run env s).Returns fun r t => Created s.arrMem count r t.arrMem := by
  simp only [arrCreate, Program.run_bind, Program.run_get, Outcome.andThen_done,
    Outcome.prepend_nil]
  exact arrCreateFuel_returns table count _

end Creation

section Access

/-- The access to element `i` of the array that `r` refers to is inside the array. -/
structure ValidAccess (m : MArr Block) (r i : Word) : Prop where
  tagged : isArrRef r = true
  claimed : refToIndex r ∈ m.claimed
  nonneg : 0 ≤ i.toInt
  below : i.toInt < ((m.value (refToIndex r)).cell 0).toInt

/-- The signed reading of a word in terms of the unsigned one. -/
theorem toInt_cases (w : Word) :
    (2 * w.toNat < 2 ^ 32 ∧ w.toInt = w.toNat) ∨
      (2 ^ 32 ≤ 2 * w.toNat ∧ w.toInt = w.toNat - 2 ^ 32) := by
  rw [BitVec.toInt_eq_toNat_cond]
  split
  · exact Or.inl ⟨‹_›, rfl⟩
  · exact Or.inr ⟨by omega, rfl⟩

theorem toNat_add_one (w : Word) : (w + 1).toNat = (w.toNat + 1) % 2 ^ 32 := BitVec.toNat_add w 1

/-- The test on `i + 1`, once as `int` and once as `uint32_t`, is the test on `i`. -/
theorem bounds_test_iff {i count : Word} (positive : 0 < count.toInt) :
    ((i + 1).toInt < 1 ∨ (i + 1).toNat > count.toNat) ↔
      ¬ (0 ≤ i.toInt ∧ i.toInt < count.toInt) := by
  have next := toNat_add_one i
  have small := i.isLt
  rcases toInt_cases i with hi | hi <;> rcases toInt_cases (i + 1) with hn | hn <;>
    rcases toInt_cases count with hc | hc <;> omega

variable {env : Env} {s : State} {r i : Word}

theorem ValidAccess.index (valid : ValidAccess s.arrMem r i) :
    (i + 1).toNat = i.toInt.toNat + 1 := by
  obtain ⟨_, _, nonneg, below⟩ := valid
  have next := toNat_add_one i
  have small := i.isLt
  have count := BitVec.toInt_lt (x := (s.arrMem.value (refToIndex r)).cell 0)
  rcases toInt_cases i with hi | hi <;> omega

theorem Block.Wf.toInt_count {b : Block} (wf : b.Wf) : (b.cell 0).toInt = b.count := by
  have positive := wf.positive
  rcases toInt_cases (b.cell 0) with h | h
  · exact h.2
  · have := (b.cell 0).isLt
    omega

theorem Block.Wf.ne_nil {b : Block} (wf : b.Wf) : b ≠ [] := by
  rintro rfl
  exact absurd wf.length (by simp)

/-- The check passes for a valid access. -/
theorem arrCheckBounds_valid (table : ArrayTable s.arrMem) (valid : ValidAccess s.arrMem r i) :
    (arrCheckBounds r i).run env s = .done () s [.signed (i.toInt + 1)] := by
  have wf := table.block _ valid.claimed
  have test := mt (bounds_test_iff wf.positive).mp (not_not.mpr ⟨valid.nonneg, valid.below⟩)
  have found := marrGetElement_claimed arrMem env (s := s) valid.claimed
  rw [show arrMem.get s = s.arrMem from rfl] at found
  simp only [arrCheckBounds, valid.tagged, Bool.true_eq_false, if_false, Program.run_bind, found,
    Outcome.andThen_done, wf.ne_nil, run_signed, test, Program.run_pure, Outcome.prepend_done,
    List.append_nil, List.nil_append]

/-- The check stops the machine for any other access. -/
theorem arrCheckBounds_invalid (env : Env) (table : ArrayTable s.arrMem)
    (invalid : ¬ ValidAccess s.arrMem r i) :
    ∃ e es, (arrCheckBounds r i).run env s = .stopped e s es := by
  by_cases tagged : isArrRef r = true
  · simp only [arrCheckBounds, tagged, Bool.true_eq_false, if_false, Program.run_bind]
    by_cases claimed : refToIndex r ∈ s.arrMem.claimed
    · have wf := table.block _ claimed
      have test := (bounds_test_iff wf.positive).mpr fun range =>
        invalid ⟨tagged, claimed, range.1, range.2⟩
      have found := marrGetElement_claimed arrMem env (s := s) claimed
      rw [show arrMem.get s = s.arrMem from rfl] at found
      simp only [found, Outcome.andThen_done, Outcome.prepend_nil, wf.ne_nil, if_false,
        Program.run_bind, run_signed, if_pos test]
      exact ⟨_, _, rfl⟩
    · obtain ⟨e, missing⟩ := marrGetElement_unclaimed arrMem env (s := s) claimed
      exact ⟨e, [], by rw [missing, Outcome.andThen_stopped]⟩
  · simp only [arrCheckBounds, tagged, if_true]
    exact ⟨_, _, rfl⟩

theorem arrGet_valid (table : ArrayTable s.arrMem) (valid : ValidAccess s.arrMem r i) :
    (arrGet r i).run env s =
      .done ((s.arrMem.value (refToIndex r)).cell (i.toInt.toNat + 1)) s
        [.signed (i.toInt + 1)] := by
  have found := marrGetElement_claimed arrMem env (s := s) valid.claimed
  simp only [arrGet, Program.run_bind, arrCheckBounds_valid table valid, found,
    Outcome.andThen_done, Program.run_pure, Outcome.prepend_done, List.append_nil, valid.index]
  rfl

/-- The state after a write to cell `c` of the array at index `p`. -/
def State.withCell (s : State) (p c : Nat) (v : Word) : State :=
  { s with arrMem := { s.arrMem with
      values := s.arrMem.values.set p ((s.arrMem.value p).set c v) } }

theorem arrSet_valid (table : ArrayTable s.arrMem) (valid : ValidAccess s.arrMem r i) (v : Word) :
    (arrSet r i v).run env s =
      .done () (s.withCell (refToIndex r) (i.toInt.toNat + 1) v) [.signed (i.toInt + 1)] := by
  have found := marrGetElement_claimed arrMem env (s := s) valid.claimed
  simp only [arrSet, Program.run_bind, arrCheckBounds_valid table valid, found,
    Outcome.andThen_done, Program.run_modify, Outcome.prepend_done, List.append_nil, valid.index]
  rfl

theorem arrGet_done_iff (table : ArrayTable s.arrMem) :
    ((arrGet r i).run env s).isDone = true ↔ ValidAccess s.arrMem r i := by
  by_cases valid : ValidAccess s.arrMem r i
  · simp [arrGet_valid table valid, valid, Outcome.isDone]
  · obtain ⟨e, es, stops⟩ := arrCheckBounds_invalid env table valid
    simp [arrGet, stops, valid, Outcome.isDone]

theorem arrSet_done_iff (table : ArrayTable s.arrMem) (v : Word) :
    ((arrSet r i v).run env s).isDone = true ↔ ValidAccess s.arrMem r i := by
  by_cases valid : ValidAccess s.arrMem r i
  · simp [arrSet_valid table valid, valid, Outcome.isDone]
  · obtain ⟨e, es, stops⟩ := arrCheckBounds_invalid env table valid
    simp [arrSet, stops, valid, Outcome.isDone]

end Access
end Ijvm
