import Ijvm.Machine.Collector
import Ijvm.Marking.OnePass
import Mathlib.Data.Finset.Card

/-!
# Claimed entries of a mapped array, and the references between arrays

The collector sees the array table as a directed graph: the vertices are the
claimed indices, the roots are the claimed indices that stack elements below `sp`
refer to, and an array has an edge to every claimed array that one of its
elements refers to.
-/

namespace Ijvm

open Transcript

namespace MArr

variable {α : Type}

def claimed (m : MArr α) : Finset Nat := (Finset.range m.size).filter fun i => m.flag i = true

@[simp] theorem mem_claimed {m : MArr α} {i : Nat} :
    i ∈ m.claimed ↔ i < m.size ∧ m.flag i = true := by
  simp [claimed]

theorem card_claimed_le (m : MArr α) : m.claimed.card ≤ m.size :=
  (Finset.card_filter_le _ _).trans_eq (Finset.card_range m.size)

variable [Inhabited α]

@[simp] theorem clear_size (m : MArr α) (i : Nat) : (m.clear i).size = m.size := rfl

theorem clear_flag (m : MArr α) (i j : Nat) :
    (m.clear i).flag j = if i = j then false else m.flag j := by
  simp only [clear, flag, List.getD_eq_getElem?_getD, List.getElem?_set]
  split
  · split <;> rfl
  · rfl

theorem clear_value_ne (m : MArr α) {i j : Nat} (h : i ≠ j) :
    (m.clear i).value j = m.value j := by
  simp only [clear, value, List.getD_eq_getElem?_getD, List.getElem?_set_ne h]

theorem claimed_clear (m : MArr α) (i : Nat) : (m.clear i).claimed = m.claimed.erase i := by
  ext j
  simp only [mem_claimed, clear_size, clear_flag, Finset.mem_erase]
  by_cases h : i = j
  · simp [h]
  · simp [h, Ne.symm h]

end MArr

/-- The word is a reference to the array with this index. -/
def Refers (w : Word) (i : Nat) : Prop := isArrRef w = true ∧ refToIndex w = i

/-- The word looks like a reference, but its index lies outside the table. -/
def Dangles (w : Word) (size : Nat) : Prop := isArrRef w = true ∧ size ≤ refToIndex w

instance (w : Word) (i : Nat) : Decidable (Refers w i) := inferInstanceAs (Decidable (_ ∧ _))

instance (w : Word) (n : Nat) : Decidable (Dangles w n) := inferInstanceAs (Decidable (_ ∧ _))

/-- The number of elements of an array, as stored in its cell 0. -/
def Block.count (b : Block) : Nat := (b.cell 0).toNat

namespace State

/-- Some stack element below `sp` satisfies `P`. -/
def RootWord (s : State) (P : Word → Prop) : Prop :=
  ∃ k : Nat, k < s.gCpu.sp.toNat ∧ P (s.gCpu.stack k)

/-- Some element of the array with index `p` satisfies `P`. -/
def ElementWord (s : State) (p : Nat) (P : Word → Prop) : Prop :=
  ∃ el, 1 ≤ el ∧ el ≤ (s.arrMem.value p).count ∧ P ((s.arrMem.value p).cell el)

/-- The arrays that stack elements below `sp` refer to. -/
def arrRoots (s : State) : Set Nat :=
  {q | q ∈ s.arrMem.claimed ∧ s.RootWord fun w => Refers w q}

/-- One array holds a reference to another. -/
def arrEdge (s : State) (p q : Nat) : Prop :=
  p ∈ s.arrMem.claimed ∧ q ∈ s.arrMem.claimed ∧ s.ElementWord p fun w => Refers w q

/-- The arrays that the collector visits while they are marked: an ascending chain
of references connects them to the stack. -/
abbrev Scanned (s : State) (p : Nat) : Prop := Marking.Ascending s.arrEdge s.arrRoots p

/-- The arrays that the collector marks. -/
abbrev marked (s : State) : Set Nat := Marking.onePass s.arrEdge s.arrRoots

theorem marked_subset_claimed (s : State) {q : Nat} (h : q ∈ s.marked) : q ∈ s.arrMem.claimed := by
  rcases h with root | ⟨p, _, e⟩
  · exact root.1
  · exact e.2.1

theorem Scanned.claimed {s : State} {p : Nat} (h : s.Scanned p) : p ∈ s.arrMem.claimed :=
  s.marked_subset_claimed h.mem_onePass

/-- A reference-like word that the collector looks at has an index outside the
table: one on the stack below `sp`, or one in an array that it visits. -/
def Dangling (s : State) : Prop :=
  (s.RootWord fun w => Dangles w s.arrMem.size) ∨
    ∃ p, s.Scanned p ∧ s.ElementWord p fun w => Dangles w s.arrMem.size

end State
end Ijvm
