import Ijvm.Arrays.Operations
import Ijvm.Machine.Launch

/-!
# Histories of array operations

A history interleaves completed array operations with anything else that the machine
does outside array memory. Every history of the source's operations is a run of the
abstract heap, so the reads of a history are determined by its writes.
-/

namespace Ijvm

open Transcript ArrayHeap

/-- An array operation that completes, with what it returned. An index is recorded as
the number it is read as. -/
inductive Performs (env : Env) (s : State) : Action Word Word → State → Prop
  | create {count r : Word} {t : State} {es : List Event}
      (run : (arrCreate count).run env s = .done r t es) :
      Performs env s (.create r count.toInt.toNat) t
  | set {r i v : Word} {t : State} {es : List Event}
      (run : (arrSet r i v).run env s = .done () t es) : Performs env s (.set r i.toInt.toNat v) t
  | get {r i v : Word} {t : State} {es : List Event}
      (run : (arrGet r i).run env s = .done v t es) : Performs env s (.get r i.toInt.toNat v) t
  | gc {n : Nat} {t : State} {es : List Event} (run : arrGc.run env s = .done n t es) :
      Performs env s .collect t

/-- The completed array operations since array memory was empty, the most recent first.
Between two of them the rest of the machine may move on in any way. -/
inductive History (env : Env) : List (Action Word Word) → State → Prop
  | start {s : State} (empty : s.arrMem = { size := 0, map := [], values := [] }) :
      History env [] s
  | elsewhere {past : List (Action Word Word)} {s t : State} (history : History env past s)
      (same : t.arrMem = s.arrMem) : History env past t
  | operation {past : List (Action Word Word)} {action : Action Word Word} {s t : State}
      (history : History env past s) (performs : Performs env s action t) :
      History env (action :: past) t

section Refinement

variable {m m' : MArr Block} {r : Word}

theorem MArr.arrays_live (tagged : isArrRef r = true) (claimed : refToIndex r ∈ m.claimed) :
    m.arrays r = some (m.value (refToIndex r)).tail := if_pos ⟨tagged, claimed⟩

/-- Two references with the array tag and the same index are the same. -/
theorem eq_of_refToIndex_eq {r' : Word} (tagged : isArrRef r = true) (tagged' : isArrRef r' = true)
    (same : refToIndex r = refToIndex r') : r = r' := by
  rw [← indexToRef_refToIndex tagged, ← indexToRef_refToIndex tagged', same]

/-- Changing one entry of the table changes the heap at one reference. -/
theorem MArr.arrays_eq_update {b : Block} (tagged : isArrRef r = true)
    (claimed : m'.claimed = insert (refToIndex r) m.claimed)
    (here : m'.value (refToIndex r) = b)
    (elsewhere : ∀ j, j ≠ refToIndex r → m'.value j = m.value j) :
    m'.arrays = Function.update m.arrays r (some b.tail) := by
  funext q
  by_cases same : q = r
  · subst same
    rw [Function.update_self, MArr.arrays_live tagged (by simp [claimed]), here]
  · rw [Function.update_of_ne same, MArr.arrays, MArr.arrays]
    by_cases qTagged : isArrRef q = true
    · have ne : refToIndex q ≠ refToIndex r := mt (eq_of_refToIndex_eq qTagged tagged) same
      simp only [claimed, Finset.mem_insert, ne, false_or, elsewhere _ ne]
    · simp only [qTagged, false_and, if_false, Bool.false_eq_true]

theorem Created.step {count : Word} (created : Created m count r m') :
    ArrayTable m' ∧ Step m.arrays (.create r count.toInt.toNat) m'.arrays := by
  obtain ⟨positive, i, fits, rfl, m₁, retained, free, rfl⟩ := created
  obtain ⟨inside, unclaimed, _⟩ := MArr.firstFree_eq_some free
  have tagged : isArrRef (indexToRef arrTag i) = true := hasTag_indexToRef arrTag_isTag fits
  have index : refToIndex (indexToRef arrTag i) = i := refToIndex_indexToRef arrTag_isTag fits
  have table := retained.table
  refine ⟨table.store inside fits (Block.zeros_wf positive), ?_⟩
  have free : m₁.arrays (indexToRef arrTag i) = none := by
    refine if_neg ?_
    rw [index, MArr.mem_claimed, unclaimed]
    simp
  have update : (m₁.store i (Block.zeros count)).arrays = Function.update m₁.arrays
      (indexToRef arrTag i) (some (Block.zeros count).tail) := by
    refine MArr.arrays_eq_update tagged ?_ ?_ ?_
    · rw [index]
      exact MArr.claimed_store _ inside table.map_length
    · rw [index]
      exact MArr.value_store_self inside table.values_length
    · rw [index]
      exact fun j ne => MArr.value_store_ne ne
  have length : count.toNat = count.toInt.toNat := by
    rcases toInt_cases count with h | h
    · omega
    · have := count.isLt
      omega
  rw [update, Block.zeros, List.tail_cons, length]
  exact .create retained.collects free

variable {env : Env} {s t : State} {i v : Word}

theorem Block.Wf.cell_succ {b : Block} (wf : b.Wf) {k : Nat} (inside : k < b.count) :
    b.tail[k]? = some (b.cell (k + 1)) := by
  have length := wf.length
  rw [List.getElem?_tail, Block.cell, List.getD_eq_getElem?_getD,
    List.getElem?_eq_getElem (by omega), Option.getD_some]

/-- A valid access is inside the array that the reference stands for. -/
theorem ValidAccess.inside (table : ArrayTable m) (valid : ValidAccess m r i) :
    i.toInt.toNat < (m.value (refToIndex r)).count := by
  have count := (table.block _ valid.claimed).toInt_count
  have below := valid.below
  have nonneg := valid.nonneg
  omega

theorem arrGet_step (table : ArrayTable s.arrMem) {es : List Event}
    (run : (arrGet r i).run env s = .done v t es) :
    t = s ∧ Step s.arrMem.arrays (.get r i.toInt.toNat v) t.arrMem.arrays := by
  have valid : ValidAccess s.arrMem r i := (arrGet_done_iff table).mp (by rw [run]; rfl)
  rw [arrGet_valid table valid] at run
  injection run with value state
  subst value state
  have element := (table.block _ valid.claimed).cell_succ (valid.inside table)
  exact ⟨rfl, .get (MArr.arrays_live valid.tagged valid.claimed) element⟩

/-- The write keeps the count, which is in cell 0. -/
theorem Block.Wf.set {b : Block} (wf : b.Wf) (k : Nat) (v : Word) : Block.Wf (b.set (k + 1) v) := by
  have cell : Block.cell (b.set (k + 1) v) 0 = b.cell 0 := by
    simp [Block.cell, List.getD_eq_getElem?_getD]
  refine ⟨?_, by rw [cell]; exact wf.positive⟩
  rw [List.length_set, Block.count, cell]
  exact wf.length

theorem Block.Wf.tail_set {b : Block} (wf : b.Wf) (k : Nat) (v : Word) :
    (b.set (k + 1) v).tail = b.tail.set k v := by
  cases b with
  | nil => exact absurd rfl wf.ne_nil
  | cons count elements => rfl

section WithCell

variable {p c : Nat}

@[simp] theorem State.claimed_withCell : (s.withCell p c v).arrMem.claimed = s.arrMem.claimed := rfl

theorem State.value_withCell_self (inside : p < s.arrMem.values.length) :
    (s.withCell p c v).arrMem.value p = (s.arrMem.value p).set c v := by
  simp [State.withCell, MArr.value, List.getD_eq_getElem?_getD, inside]

theorem State.value_withCell_ne {j : Nat} (h : j ≠ p) :
    (s.withCell p c v).arrMem.value j = s.arrMem.value j := by
  simp [State.withCell, MArr.value, List.getD_eq_getElem?_getD, Ne.symm h]

end WithCell

theorem arrSet_step (table : ArrayTable s.arrMem) {es : List Event}
    (run : (arrSet r i v).run env s = .done () t es) :
    ArrayTable t.arrMem ∧
      Step s.arrMem.arrays (.set r i.toInt.toNat v) t.arrMem.arrays ∧
      t = s.withCell (refToIndex r) (i.toInt.toNat + 1) v := by
  have valid : ValidAccess s.arrMem r i := (arrSet_done_iff table v).mp (by rw [run]; rfl)
  rw [arrSet_valid table valid v] at run
  injection run with _ state
  subst state
  have inside : refToIndex r < s.arrMem.values.length := by
    rw [table.values_length]
    exact (MArr.mem_claimed.mp valid.claimed).1
  have wf := table.block _ valid.claimed
  refine ⟨⟨table.map_length, ?_, table.size_le, table.index_lt, ?_⟩, ?_, rfl⟩
  · simpa [State.withCell] using table.values_length
  · intro j claimed
    by_cases same : j = refToIndex r
    · rw [same, State.value_withCell_self inside]
      exact wf.set _ v
    · rw [State.value_withCell_ne same]
      exact table.block j claimed
  · have update := MArr.arrays_eq_update (m := s.arrMem) valid.tagged
      (by simp [valid.claimed]) (State.value_withCell_self (c := i.toInt.toNat + 1) (v := v) inside)
      fun j ne => State.value_withCell_ne ne
    rw [update, wf.tail_set]
    refine .set (MArr.arrays_live valid.tagged valid.claimed) ?_
    rw [List.length_tail, wf.length]
    exact valid.inside table

/-- Each operation of the source is a step of the abstract heap. -/
theorem Performs.step {action : Action Word Word} (table : ArrayTable s.arrMem)
    (performs : Performs env s action t) :
    ArrayTable t.arrMem ∧ Step s.arrMem.arrays action t.arrMem.arrays := by
  cases performs with
  | create run => exact (arrCreate_returns table _ _ _ _ run).step
  | set run =>
      obtain ⟨table', step, _⟩ := arrSet_step table run
      exact ⟨table', step⟩
  | get run =>
      obtain ⟨rfl, step⟩ := arrGet_step table run
      exact ⟨table, step⟩
  | gc run =>
      have retained := arrGc_returns table _ _ _ run
      exact ⟨retained.table, .collect retained.collects⟩

/-- Each history of the source is a run of the abstract heap. -/
theorem History.simulates {past : List (Action Word Word)} (history : History env past s) :
    ArrayTable s.arrMem ∧ Run past s.arrMem.arrays := by
  induction history with
  | start empty =>
      rw [empty]
      refine ⟨ArrayTable.empty, ?_⟩
      have nothing : ({ size := 0, map := [], values := [] } : MArr Block).arrays =
          fun _ => none := by
        funext r
        exact if_neg (by simp)
      rw [nothing]
      exact .start
  | elsewhere _ same ih =>
      rw [same]
      exact ih
  | operation _ performs ih =>
      obtain ⟨table, run⟩ := ih
      obtain ⟨table', step⟩ := performs.step table
      exact ⟨table', .step run step⟩

end Refinement

section Frame

/-- The cells that an operation may write: the whole array that it creates, or the cell
of one element. -/
def Writes (action : Action Word Word) (p c : Nat) : Prop :=
  match action with
  | .create r _ => p = refToIndex r
  | .set r i _ => p = refToIndex r ∧ c = i + 1
  | .get .. => False
  | .collect => False

theorem Created.frame {m m' : MArr Block} {count r : Word} (created : Created m count r m')
    {p : Nat} (claimed : p ∈ m'.claimed) (other : p ≠ refToIndex r) :
    p ∈ m.claimed ∧ m'.value p = m.value p := by
  obtain ⟨positive, i, fits, rfl, m₁, retained, free, rfl⟩ := created
  have index : refToIndex (indexToRef arrTag i) = i := refToIndex_indexToRef arrTag_isTag fits
  rw [index] at other
  obtain ⟨inside, _, _⟩ := MArr.firstFree_eq_some free
  rw [MArr.claimed_store _ inside retained.table.map_length, Finset.mem_insert] at claimed
  rw [MArr.value_store_ne other]
  exact retained.kept p (claimed.resolve_left other)

/-- An array that is claimed after an operation was claimed before it, with the same
cells, as far as the operation does not write them. -/
theorem Performs.frame {env : Env} {s t : State} {action : Action Word Word}
    (table : ArrayTable s.arrMem) (performs : Performs env s action t) {p c : Nat}
    (claimed : p ∈ t.arrMem.claimed) (other : ¬ Writes action p c) :
    p ∈ s.arrMem.claimed ∧ (t.arrMem.value p).cell c = (s.arrMem.value p).cell c := by
  cases performs with
  | create run =>
      obtain ⟨claimed', same⟩ := (arrCreate_returns table _ _ _ _ run).frame claimed other
      exact ⟨claimed', by rw [same]⟩
  | @set r i v t es run =>
      obtain ⟨_, _, rfl⟩ := arrSet_step table run
      refine ⟨claimed, ?_⟩
      by_cases same : p = refToIndex r
      · have ne : i.toInt.toNat + 1 ≠ c := fun here => other ⟨same, here.symm⟩
        subst same
        rw [State.value_withCell_self (by
          rw [table.values_length]
          exact (MArr.mem_claimed.mp claimed).1)]
        simp [Block.cell, List.getD_eq_getElem?_getD, List.getElem?_set_ne ne]
      · rw [State.value_withCell_ne same]
  | get run =>
      obtain ⟨rfl, _⟩ := arrGet_step table run
      exact ⟨claimed, rfl⟩
  | gc run =>
      obtain ⟨claimed', same⟩ := (arrGc_returns table _ _ _ run).kept p claimed
      exact ⟨claimed', by rw [same]⟩

end Frame

section Guarantee

/-- Array memory behaves as a map from references to fixed-size arrays of zeros: a read
returns the last value written since the creation; reads and writes complete exactly
for valid accesses; each operation is a step of the map, and it leaves every other cell
alone, all counts included. -/
structure RefinesHeap (env : Env) (past : List (Action Word Word)) (s : State) : Prop where
  get_value : ∀ r i v t es, (arrGet r i).run env s = .done v t es →
    v = lastWritten r i.toInt.toNat past
  get_completes : ∀ r i, ((arrGet r i).run env s).isDone = true ↔ ValidAccess s.arrMem r i
  set_completes : ∀ r i v, ((arrSet r i v).run env s).isDone = true ↔ ValidAccess s.arrMem r i
  size : ∀ r, isArrRef r = true → refToIndex r ∈ s.arrMem.claimed →
    (s.arrMem.value (refToIndex r)).count = createdSize r past
  step : ∀ action t, Performs env s action t → Step s.arrMem.arrays action t.arrMem.arrays
  frame : ∀ action t, Performs env s action t → ∀ p ∈ t.arrMem.claimed, ∀ c,
    ¬ Writes action p c →
      p ∈ s.arrMem.claimed ∧ (t.arrMem.value p).cell c = (s.arrMem.value p).cell c

/-- This holds after every history, whatever allocations fail on the way. -/
theorem History.refinesHeap {env : Env} {past : List (Action Word Word)} {s : State}
    (history : History env past s) : RefinesHeap env past s := by
  obtain ⟨table, run⟩ := history.simulates
  refine ⟨?_, fun r i => arrGet_done_iff table, fun r i v => arrSet_done_iff table v, ?_,
    fun action t performs => (performs.step table).2,
    fun action t performs p claimed c other => performs.frame table claimed other⟩
  · intro r i v t es read
    obtain ⟨rfl, step⟩ := arrGet_step table read
    cases step with
    | get live element => exact (run.recorded r _ live).2 _ v element
  · intro r tagged claimed
    have size := (run.recorded r _ (MArr.arrays_live tagged claimed)).1
    rw [List.length_tail, (table.block _ claimed).length] at size
    exact size

/-- One array of two elements, after its creation and a write to element 1. -/
theorem History.refinesHeap_twoElements :
    RefinesHeap Env.quiet [.set 0xAA00000A 1 7, .create 0xAA00000A 2]
      ((arrSet 0xAA00000A 1 7).run Env.quiet
        ((arrCreate 2).run Env.quiet State.fresh).state).state := by
  have created : (arrCreate 2).run Env.quiet State.fresh = .done 0xAA00000A _ _ :=
    Outcome.eq_done_of_value? (by decide +kernel)
  have written : (arrSet 0xAA00000A 1 7).run Env.quiet
      ((arrCreate 2).run Env.quiet State.fresh).state = .done () _ _ :=
    Outcome.eq_done_of_value? (by decide +kernel)
  exact History.refinesHeap (.operation (.operation (.start rfl) (.create created)) (.set written))

end Guarantee

end Ijvm
