import Mathlib.Logic.Relation
import Mathlib.Order.Basic
import Mathlib.Data.Set.Basic

/-!
# Marking a directed graph in one ordered pass

The vertices are linearly ordered and visited once, in ascending order. A visit to
a marked vertex marks its successors; a visit to an unmarked one does nothing. A
successor that comes before the visited vertex gets its mark too late to be
visited itself.

`onePass` is the set that such a pass marks: the roots, and the successors of the
vertices that an ascending chain connects to a root. It is contained in the
reachable set, and closed under edges exactly when it is all of it.
-/

namespace Marking

section Graph

variable {α : Type*} (edge : α → α → Prop) (roots : Set α)

/-- The vertices that some chain of edges connects to a root. -/
def reachable : Set α := {q | ∃ p ∈ roots, Relation.ReflTransGen edge p q}

/-- The marks are closed under edges. -/
def Closed (marked : Set α) : Prop := ∀ p ∈ marked, ∀ q, edge p q → q ∈ marked

variable {edge}

theorem Closed.mem_of_path {marked : Set α} (h : Closed edge marked) {p q : α} (hp : p ∈ marked)
    (path : Relation.ReflTransGen edge p q) : q ∈ marked := by
  induction path with
  | refl => exact hp
  | tail _ e ih => exact h _ ih _ e

end Graph

variable {α : Type*} [LinearOrder α] (edge : α → α → Prop) (roots : Set α)

/-- The vertices that a chain of ascending edges connects to a root. -/
inductive Ascending : α → Prop
  | root {p : α} (h : p ∈ roots) : Ascending p
  | step {p q : α} (h : Ascending p) (e : edge p q) (lt : p < q) : Ascending q

/-- What is marked when the vertices below `n` have been visited. -/
def markedBefore (n : α) : Set α := {q | q ∈ roots ∨ ∃ p < n, Ascending edge roots p ∧ edge p q}

/-- What is marked when the vertices up to and including `n` have been visited. -/
def markedUpTo (n : α) : Set α := {q | q ∈ roots ∨ ∃ p ≤ n, Ascending edge roots p ∧ edge p q}

/-- What is marked in the end. -/
def onePass : Set α := {q | q ∈ roots ∨ ∃ p, Ascending edge roots p ∧ edge p q}

variable {edge roots}

theorem Ascending.mem_onePass {p : α} (h : Ascending edge roots p) : p ∈ onePass edge roots := by
  cases h with
  | root h => exact Or.inl h
  | step h e _ => exact Or.inr ⟨_, h, e⟩

/-- When a vertex is visited, it is marked exactly if its chain was ascending. -/
theorem mem_markedBefore_self {p : α} :
    p ∈ markedBefore edge roots p ↔ Ascending edge roots p := by
  constructor
  · rintro (h | ⟨q, lt, h, e⟩)
    · exact .root h
    · exact .step h e lt
  · intro h
    cases h with
    | root h => exact Or.inl h
    | step h e lt => exact Or.inr ⟨_, lt, h, e⟩

/-- A visit to a vertex on an ascending chain adds its successors. -/
theorem mem_markedUpTo_of_ascending {p q : α} (h : Ascending edge roots p) :
    q ∈ markedUpTo edge roots p ↔ q ∈ markedBefore edge roots p ∨ edge p q := by
  constructor
  · rintro (root | ⟨v, le, hv, e⟩)
    · exact Or.inl (Or.inl root)
    · rcases le.lt_or_eq with lt | rfl
      · exact Or.inl (Or.inr ⟨v, lt, hv, e⟩)
      · exact Or.inr e
  · rintro ((root | ⟨v, lt, hv, e⟩) | e)
    · exact Or.inl root
    · exact Or.inr ⟨v, lt.le, hv, e⟩
    · exact Or.inr ⟨p, le_refl p, h, e⟩

/-- A visit to any other vertex adds nothing. -/
theorem markedUpTo_of_not_ascending {p : α} (h : ¬ Ascending edge roots p) :
    markedUpTo edge roots p = markedBefore edge roots p := by
  ext q
  constructor
  · rintro (root | ⟨v, le, hv, e⟩)
    · exact Or.inl root
    · rcases le.lt_or_eq with lt | rfl
      · exact Or.inr ⟨v, lt, hv, e⟩
      · exact absurd hv h
  · rintro (root | ⟨v, lt, hv, e⟩)
    · exact Or.inl root
    · exact Or.inr ⟨v, lt.le, hv, e⟩

/-- Once every vertex with an edge has been visited, the pass is complete. -/
theorem markedBefore_eq_onePass {n : α} (all : ∀ p q, edge p q → p < n) :
    markedBefore edge roots n = onePass edge roots := by
  ext q
  constructor
  · rintro (root | ⟨v, _, hv, e⟩)
    · exact Or.inl root
    · exact Or.inr ⟨v, hv, e⟩
  · rintro (root | ⟨v, hv, e⟩)
    · exact Or.inl root
    · exact Or.inr ⟨v, all v q e, hv, e⟩

theorem Ascending.reachable {p : α} (h : Ascending edge roots p) : p ∈ reachable edge roots := by
  induction h with
  | root h => exact ⟨_, h, .refl⟩
  | step _ e _ ih =>
      obtain ⟨r, hr, path⟩ := ih
      exact ⟨r, hr, path.tail e⟩

/-- The pass marks reachable vertices only. -/
theorem onePass_subset_reachable : onePass edge roots ⊆ reachable edge roots := by
  rintro q (root | ⟨p, hp, e⟩)
  · exact ⟨q, root, .refl⟩
  · obtain ⟨r, hr, path⟩ := hp.reachable
    exact ⟨r, hr, path.tail e⟩

/-- The pass is closed under edges exactly if it misses nothing: whatever some chain
connects to a root, a chain that descends at most in its last edge connects too. -/
theorem closed_onePass_iff :
    Closed edge (onePass edge roots) ↔
      ∀ q ∈ reachable edge roots, q ∈ roots ∨ ∃ p, Ascending edge roots p ∧ edge p q := by
  constructor
  · rintro closed q ⟨p, root, path⟩
    exact closed.mem_of_path (Or.inl root) path
  · intro complete p marked q e
    obtain ⟨r, root, path⟩ := onePass_subset_reachable marked
    exact complete q ⟨r, root, path.tail e⟩

/-- The edges between the marked vertices. -/
def markedEdge (edge : α → α → Prop) (roots : Set α) (p q : α) : Prop :=
  p ∈ onePass edge roots ∧ q ∈ onePass edge roots ∧ edge p q

theorem Ascending.restrict {p : α} (h : Ascending edge roots p) :
    Ascending (markedEdge edge roots) roots p := by
  induction h with
  | root h => exact .root h
  | step h e lt ih => exact .step ih ⟨h.mem_onePass, (h.step e lt).mem_onePass, e⟩ lt

theorem Ascending.of_restrict {p : α} (h : Ascending (markedEdge edge roots) roots p) :
    Ascending edge roots p := by
  induction h with
  | root h => exact .root h
  | step _ e lt ih => exact .step ih e.2.2 lt

/-- A second pass over the marked vertices marks them all again. -/
theorem onePass_restrict : onePass (markedEdge edge roots) roots = onePass edge roots := by
  ext q
  constructor
  · rintro (root | ⟨p, hp, e⟩)
    · exact Or.inl root
    · exact Or.inr ⟨p, hp.of_restrict, e.2.2⟩
  · rintro (root | ⟨p, hp, e⟩)
    · exact Or.inl root
    · exact Or.inr ⟨p, hp.restrict, hp.mem_onePass, Or.inr ⟨p, hp, e⟩, e⟩

end Marking
