import Ijvm.Collector.Sweep
import Ijvm.Heap.ArrayHeap
import Ijvm.Machine.Array

/-!
# The array table as a heap

A table is read as a heap of fixed-size arrays: a reference with the array tag and a
claimed index stands for the elements behind cell 0 of that entry. `ArrayTable` is the
invariant that makes this reading sound. The indices stay below `2 ^ 20`, so that each
of them fits into a reference, because the search for a free index takes the first one
and the store of an array that no reference can name stops the machine.
-/

namespace Ijvm

open Transcript ArrayHeap

/-- Cell 0 holds the number of the cells that follow, which is positive as an `int`. -/
structure Block.Wf (b : Block) : Prop where
  length : b.length = b.count + 1
  positive : 0 < (b.cell 0).toInt

structure ArrayTable (m : MArr Block) : Prop where
  map_length : m.map.length = m.size
  values_length : m.values.length = m.size
  size_le : m.size ≤ 2 ^ 21
  index_lt : ∀ i ∈ m.claimed, i < 2 ^ 20
  block : ∀ i ∈ m.claimed, (m.value i).Wf

/-- The arrays of a table by their references. -/
def MArr.arrays (m : MArr Block) : Heap Word Word := fun r =>
  if isArrRef r = true ∧ refToIndex r ∈ m.claimed then some (m.value (refToIndex r)).tail
  else none

/-- `m'` is a sound table that holds no other arrays than `m` does. -/
structure Retained (m m' : MArr Block) : Prop where
  table : ArrayTable m'
  kept : ∀ i ∈ m'.claimed, i ∈ m.claimed ∧ m'.value i = m.value i

theorem Retained.refl {m : MArr Block} (table : ArrayTable m) : Retained m m :=
  ⟨table, fun _ claimed => ⟨claimed, rfl⟩⟩

theorem Retained.trans {m m' m'' : MArr Block} (first : Retained m m')
    (second : Retained m' m'') : Retained m m'' := by
  refine ⟨second.table, fun i claimed => ?_⟩
  obtain ⟨claimed', value⟩ := second.kept i claimed
  obtain ⟨claimed'', value'⟩ := first.kept i claimed'
  exact ⟨claimed'', value.trans value'⟩

theorem Retained.collects {m m' : MArr Block} (h : Retained m m') :
    Collects m.arrays m'.arrays := by
  intro r
  unfold MArr.arrays
  by_cases live : isArrRef r = true ∧ refToIndex r ∈ m'.claimed
  · obtain ⟨claimed, value⟩ := h.kept _ live.2
    rw [if_pos live, if_pos ⟨live.1, claimed⟩, value]
    exact Or.inr rfl
  · rw [if_neg live]
    exact Or.inl rfl

/-- A table without claimed indices. -/
theorem Retained.of_empty {m m' : MArr Block} (table : ArrayTable m') (empty : m'.claimed = ∅) :
    Retained m m' := by
  refine ⟨table, fun i claimed => ?_⟩
  rw [empty] at claimed
  exact absurd claimed (Finset.notMem_empty i)

theorem MArr.Survivors.retained {keep : Nat → Prop} {m m' : MArr Block}
    (h : MArr.Survivors keep m m') (table : ArrayTable m) : Retained m m' := by
  refine ⟨⟨?_, ?_, ?_, ?_, ?_⟩, fun i claimed => ⟨h.subset claimed, h.value_eq i claimed⟩⟩
  · rw [h.map_length, h.size_eq, table.map_length]
  · rw [h.values_length, h.size_eq, table.values_length]
  · rw [h.size_eq]
    exact table.size_le
  · intro i claimed
    exact table.index_lt i (h.subset claimed)
  · intro i claimed
    rw [h.value_eq i claimed]
    exact table.block i (h.subset claimed)

section Search

variable {α : Type} {m : MArr α} {i : Nat}

/-- The search returns the first index that is not claimed. -/
theorem MArr.firstFree_eq_some (h : m.firstFree = some i) :
    i < m.size ∧ m.flag i = false ∧ ∀ j < i, j ∈ m.claimed := by
  rw [MArr.firstFree, List.find?_range_eq_some] at h
  obtain ⟨free, inside, before⟩ := h
  have inside := List.mem_range.mp inside
  refine ⟨inside, by simpa using free, fun j below => MArr.mem_claimed.mpr ⟨by omega, ?_⟩⟩
  simpa using before j below

theorem MArr.firstFree_eq_none (h : m.firstFree = none) : ∀ j < m.size, j ∈ m.claimed := by
  rw [MArr.firstFree, List.find?_eq_none] at h
  intro j below
  exact MArr.mem_claimed.mpr ⟨below, by simpa using h j (List.mem_range.mpr below)⟩

end Search

namespace ArrayTable

variable {m : MArr Block} {i : Nat}

/-- A full table is not larger than the indices that fit into references. -/
theorem size_le_of_full (table : ArrayTable m) (full : m.firstFree = none) : m.size ≤ 2 ^ 20 := by
  by_contra large
  have last := table.index_lt (2 ^ 20) (MArr.firstFree_eq_none full _ (by omega))
  exact absurd last (lt_irrefl _)

theorem firstFree_le (table : ArrayTable m) (free : m.firstFree = some i) : i ≤ 2 ^ 20 := by
  by_contra large
  obtain ⟨_, _, before⟩ := MArr.firstFree_eq_some free
  have last := table.index_lt (2 ^ 20) (before _ (by omega))
  exact absurd last (lt_irrefl _)

/-- The result of the search as the source returns it tells the two cases apart. -/
theorem firstFree_of_getD (table : ArrayTable m) {freeI : Nat}
    (h : m.firstFree.getD sizeMaxUint32 = freeI) :
    (freeI = sizeMaxUint32 ∧ m.firstFree = none) ∨
      (freeI ≠ sizeMaxUint32 ∧ m.firstFree = some freeI) := by
  cases free : m.firstFree with
  | none =>
      rw [free] at h
      exact Or.inl ⟨h.symm, rfl⟩
  | some i =>
      rw [free] at h
      subst h
      have le := table.firstFree_le free
      refine Or.inr ⟨?_, rfl⟩
      rw [Option.getD_some, sizeMaxUint32]
      omega

end ArrayTable

section Store

variable {α : Type} {m : MArr α} {i : Nat}

theorem MArr.claimed_store (data : α) (inside : i < m.size) (map_length : m.map.length = m.size) :
    (m.store i data).claimed = insert i m.claimed := by
  ext j
  simp only [MArr.mem_claimed, MArr.store, MArr.flag, Finset.mem_insert,
    List.getD_eq_getElem?_getD, List.getElem?_set]
  by_cases same : i = j
  · subst same
    simp [inside, map_length]
  · simp [same, Ne.symm same]

variable [Inhabited α] {data : α}

theorem MArr.value_store_self (inside : i < m.size) (values_length : m.values.length = m.size) :
    (m.store i data).value i = data := by
  simp [MArr.store, MArr.value, List.getD_eq_getElem?_getD, values_length, inside]

theorem MArr.value_store_ne {j : Nat} (h : j ≠ i) : (m.store i data).value j = m.value j := by
  simp [MArr.store, MArr.value, List.getD_eq_getElem?_getD, Ne.symm h]

/-- Storing a sound array at an index that fits into a reference. -/
theorem ArrayTable.store {m : MArr Block} {arr : Block} (table : ArrayTable m)
    (inside : i < m.size) (fits : i < 2 ^ 20) (wf : arr.Wf) : ArrayTable (m.store i arr) := by
  have claimed := MArr.claimed_store arr inside table.map_length
  refine ⟨?_, ?_, table.size_le, ?_, ?_⟩
  · simpa [MArr.store] using table.map_length
  · simpa [MArr.store] using table.values_length
  · intro j member
    rw [claimed, Finset.mem_insert] at member
    rcases member with rfl | old
    · exact fits
    · exact table.index_lt j old
  · intro j member
    rw [claimed, Finset.mem_insert] at member
    by_cases same : j = i
    · subst same
      rw [MArr.value_store_self inside table.values_length]
      exact wf
    · rw [MArr.value_store_ne same]
      exact table.block j (member.resolve_left same)

end Store

/-- Fresh memory with old cells copied to its front reads like the old cells. -/
theorem getD_copyCells {β : Type} (l : List β) (d : β) (n i : Nat) :
    (copyCells (List.replicate n d) l l.length).getD i d = l.getD i d := by
  rw [copyCells, List.take_length, List.drop_replicate]
  simp only [List.getD_eq_getElem?_getD]
  by_cases inside : i < l.length
  · rw [List.getElem?_append_left inside]
  · rw [List.getElem?_append_right (by omega), List.getElem?_eq_none (by omega : l.length ≤ i),
      List.getElem?_replicate]
    split <;> rfl

theorem length_copyCells {β : Type} {l : List β} {n : Nat} (d : β) (h : l.length ≤ n) :
    (copyCells (List.replicate n d) l l.length).length = n := by
  simp only [copyCells, List.take_length, List.drop_replicate, List.length_append,
    List.length_replicate]
  omega

section Resized

variable {α : Type} [Inhabited α] {m : MArr α}

theorem MArr.flag_resized (map_length : m.map.length = m.size) (newSize i : Nat) :
    (m.resized newSize).flag i = m.flag i := by
  have := getD_copyCells m.map false newSize i
  rwa [map_length] at this

theorem MArr.value_resized (values_length : m.values.length = m.size) (newSize i : Nat) :
    (m.resized newSize).value i = m.value i := by
  have := getD_copyCells m.values default newSize i
  rwa [values_length] at this

theorem MArr.length_map_resized (map_length : m.map.length = m.size) {newSize : Nat}
    (larger : m.size ≤ newSize) : (m.resized newSize).map.length = newSize := by
  have := length_copyCells (l := m.map) false (map_length.le.trans larger)
  rwa [map_length] at this

theorem MArr.length_values_resized (values_length : m.values.length = m.size) {newSize : Nat}
    (larger : m.size ≤ newSize) : (m.resized newSize).values.length = newSize := by
  have := length_copyCells (l := m.values) default (values_length.le.trans larger)
  rwa [values_length] at this

theorem MArr.claimed_resized (map_length : m.map.length = m.size) {newSize : Nat}
    (larger : m.size ≤ newSize) : (m.resized newSize).claimed = m.claimed := by
  ext i
  simp only [MArr.mem_claimed, MArr.flag_resized map_length]
  constructor
  · rintro ⟨_, set⟩
    refine ⟨?_, set⟩
    by_contra outside
    simp [MArr.flag, List.getD_eq_getElem?_getD, map_length, outside] at set
  · rintro ⟨inside, set⟩
    exact ⟨Nat.lt_of_lt_of_le inside larger, set⟩

end Resized

/-- Copying the table to a larger memory leaves every entry where it is. -/
theorem ArrayTable.resized {m : MArr Block} (table : ArrayTable m) {newSize : Nat}
    (larger : m.size ≤ newSize) (bound : newSize ≤ 2 ^ 21) : Retained m (m.resized newSize) := by
  have claimed := MArr.claimed_resized table.map_length larger
  have value := MArr.value_resized table.values_length newSize
  refine ⟨⟨MArr.length_map_resized table.map_length larger,
    MArr.length_values_resized table.values_length larger, bound, ?_, ?_⟩, ?_⟩
  · intro i member
    exact table.index_lt i (claimed ▸ member)
  · intro i member
    rw [value]
    exact table.block i (claimed ▸ member)
  · intro i member
    exact ⟨claimed ▸ member, value i⟩

end Ijvm
