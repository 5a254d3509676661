import Mathlib.Data.Finset.Card
import Mathlib.Logic.Function.Basic

/-!
# A partial map on the indices below a size

`Slots` is a partial function that is defined on some of the indices below its size. An
element is added at the lowest free index or set at a given one, elements are removed, and
the size grows. A collector may take elements away when an element is added, when the map
is resized and on its own, if the map is `swept` at all.

`Step` says what each operation may do and `Run` what a history of operations may lead to,
the most recent operation first. An element that is still there is the one that the history
has written last.
-/

namespace SlotMap

variable {α : Type}

structure Slots (α : Type) where
  size : Nat
  entry : Nat → Option α
  inside : ∀ i, entry i ≠ none → i < size

namespace Slots

@[ext] theorem ext {f g : Slots α} (size : f.size = g.size) (entry : f.entry = g.entry) :
    f = g := by
  cases f
  cases g
  simp_all

def empty (size : Nat) : Slots α where
  size := size
  entry _ := none
  inside _ defined := absurd rfl defined

/-- Write an element at an index, free or not. -/
def put (f : Slots α) (i : Nat) (x : α) (below : i < f.size) : Slots α where
  size := f.size
  entry := Function.update f.entry i (some x)
  inside j defined := by
    by_cases same : j = i
    · exact same ▸ below
    · rw [Function.update_of_ne same] at defined
      exact f.inside j defined

def drop (f : Slots α) (i : Nat) : Slots α where
  size := f.size
  entry := Function.update f.entry i none
  inside j defined := by
    by_cases same : j = i
    · rw [same, Function.update_self] at defined
      exact absurd rfl defined
    · rw [Function.update_of_ne same] at defined
      exact f.inside j defined

def grow (f : Slots α) (size : Nat) (larger : f.size ≤ size) : Slots α where
  size := size
  entry := f.entry
  inside i defined := Nat.lt_of_lt_of_le (f.inside i defined) larger

def Full (f : Slots α) : Prop := ∀ i < f.size, f.entry i ≠ none

structure LowestFree (f : Slots α) (i : Nat) : Prop where
  below : i < f.size
  free : f.entry i = none
  first : ∀ j < i, f.entry j ≠ none

/-- The indices in use. -/
def used (f : Slots α) : Finset Nat := (Finset.range f.size).filter fun i => (f.entry i).isSome

@[simp] theorem mem_used {f : Slots α} {i : Nat} : i ∈ f.used ↔ f.entry i ≠ none := by
  rw [used, Finset.mem_filter, Finset.mem_range, Option.isSome_iff_ne_none]
  exact and_iff_right_of_imp (f.inside i)

section Limit

variable {f : Slots α} {i limit : Nat}

/-- Every index in use is below the limit. -/
def Below (f : Slots α) (limit : Nat) : Prop := ∀ i, f.entry i ≠ none → i < limit

/-- The first free index of such a map is at most the limit. -/
theorem LowestFree.le (h : f.LowestFree i) (below : f.Below limit) : i ≤ limit := by
  by_contra larger
  exact absurd (below limit (h.first limit (Nat.lt_of_not_le larger))) (Nat.lt_irrefl limit)

/-- It is below the limit as long as fewer indices than that are in use. -/
theorem LowestFree.card_used_lt (h : f.LowestFree i) (below : f.Below limit) (less : i < limit) :
    f.used.card < limit := by
  have within : f.used ⊆ (Finset.range limit).erase i := by
    intro j member
    have entry := mem_used.mp member
    refine Finset.mem_erase.mpr ⟨?_, Finset.mem_range.mpr (below j entry)⟩
    rintro rfl
    exact entry h.free
  have card := Finset.card_le_card within
  rw [Finset.card_erase_of_mem (Finset.mem_range.mpr less), Finset.card_range] at card
  omega

theorem LowestFree.card_used_eq (h : f.LowestFree limit) (below : f.Below limit) :
    f.used.card = limit := by
  have all : f.used = Finset.range limit := by
    ext j
    rw [mem_used, Finset.mem_range]
    exact ⟨below j, h.first j⟩
  rw [all, Finset.card_range]

/-- A full map has no more indices than the limit. -/
theorem Full.size_le (full : f.Full) (below : f.Below limit) : f.size ≤ limit := by
  by_contra larger
  exact absurd (below limit (full limit (Nat.lt_of_not_le larger))) (Nat.lt_irrefl limit)

end Limit

end Slots

/-- `g` has the elements of `f` that collections leave, in a map of any size. -/
def Leaves (swept : Prop) (f g : Slots α) : Prop :=
  ∀ i, g.entry i = f.entry i ∨ swept ∧ g.entry i = none

namespace Leaves

variable {swept : Prop} {f g h : Slots α} {limit : Nat}

theorem refl (f : Slots α) : Leaves swept f f := fun _ => Or.inl rfl

theorem trans (first : Leaves swept f g) (second : Leaves swept g h) : Leaves swept f h := by
  intro i
  rcases second i with kept | gone
  · rw [kept]
    exact first i
  · exact Or.inr gone

theorem below (leaves : Leaves swept f g) (below : f.Below limit) : g.Below limit := by
  intro i entry
  rcases leaves i with kept | ⟨_, gone⟩
  · exact below i (kept ▸ entry)
  · exact absurd gone entry

end Leaves

/-- `g` is `f` after a collection, which removes nothing unless the map is swept. -/
structure Collects (swept : Prop) (f g : Slots α) : Prop where
  size : g.size = f.size
  entry : Leaves swept f g

namespace Collects

variable {swept : Prop} {f g h : Slots α}

theorem refl (f : Slots α) : Collects swept f f := ⟨rfl, .refl f⟩

theorem trans (first : Collects swept f g) (second : Collects swept g h) : Collects swept f h :=
  ⟨second.size.trans first.size, first.entry.trans second.entry⟩

end Collects

/-- One completed operation. An addition is recorded with the index that it returned, or
with `none` if it found no free one. -/
inductive Action (α : Type)
  | add (x : α) (result : Option Nat)
  | set (i : Nat) (x : α)
  | remove (i : Nat)
  | resize (size : Nat)
  | collect

inductive Step (swept : Prop) : Slots α → Action α → Slots α → Prop
  | add {f g : Slots α} {x : α} {i : Nat} (collects : Collects swept f g)
      (lowest : g.LowestFree i) : Step swept f (.add x (some i)) (g.put i x lowest.below)
  | full {f g : Slots α} {x : α} (collects : Collects swept f g) (full : g.Full) :
      Step swept f (.add x none) g
  | set {f : Slots α} {i : Nat} {x : α} (below : i < f.size) :
      Step swept f (.set i x) (f.put i x below)
  | remove {f : Slots α} {i : Nat} (below : i < f.size) : Step swept f (.remove i) (f.drop i)
  | resize {f g : Slots α} {size : Nat} (collects : Collects swept f g) (larger : g.size ≤ size) :
      Step swept f (.resize size) (g.grow size larger)
  | collect {f g : Slots α} (collects : Collects swept f g) : Step swept f .collect g

section Resize

variable {swept : Prop} {f g h : Slots α} {size : Nat}

/-- A collection before a resize is one inside it. -/
theorem Step.after_collection (step : Step swept g (.resize size) h)
    (collects : Collects swept f g) : Step swept f (.resize size) h := by
  cases step with
  | resize inner larger => exact .resize (collects.trans inner) larger

/-- The map of size 0 is resized to an empty one. -/
theorem Step.resize_empty (step : Step swept (.empty 0) (.resize size) g) : g = .empty size := by
  cases step with
  | resize collects larger =>
      refine Slots.ext rfl (funext fun i => ?_)
      rcases collects.entry i with kept | ⟨_, gone⟩
      · exact kept
      · exact gone

end Resize

/-- A history of completed operations on a map that was empty, the most recent first. -/
inductive Run (swept : Prop) : List (Action α) → Slots α → Prop
  | start (size : Nat) : Run swept [] (.empty size)
  | step {past : List (Action α)} {action : Action α} {f g : Slots α} (run : Run swept past f)
      (step : Step swept f action g) : Run swept (action :: past) g

/-- The element that was written last at an index and not removed since. -/
def lastWritten (i : Nat) : List (Action α) → Option α
  | [] => none
  | .add x (some j) :: past => if j = i then some x else lastWritten i past
  | .add _ none :: past => lastWritten i past
  | .set j x :: past => if j = i then some x else lastWritten i past
  | .remove j :: past => if j = i then none else lastWritten i past
  | .resize _ :: past => lastWritten i past
  | .collect :: past => lastWritten i past

section History

variable {swept : Prop} {past : List (Action α)} {f g : Slots α} {i : Nat}

/-- What one operation does to an entry that the history accounts for. -/
theorem Step.entry {action : Action α} (step : Step swept f action g) :
    g.entry i = lastWritten i (action :: past) ∨
      g.entry i = f.entry i ∧ lastWritten i (action :: past) = lastWritten i past ∨
      swept ∧ g.entry i = none := by
  have update {k : Slots α} (collects : Collects swept f k) (j : Nat) (y : Option α) :
      Function.update k.entry j y i = (if j = i then y else lastWritten i past) ∨
        Function.update k.entry j y i = f.entry i ∧
          (if j = i then y else lastWritten i past) = lastWritten i past ∨
        swept ∧ Function.update k.entry j y i = none := by
    by_cases same : j = i
    · subst same
      exact Or.inl (by simp)
    · rw [Function.update_of_ne (Ne.symm same), if_neg same]
      exact Or.inr ((collects.entry i).imp_left fun kept => ⟨kept, rfl⟩)
  have kept {e : Option α} (h : e = f.entry i ∨ swept ∧ e = none) :
      (e = f.entry i ∧ lastWritten i past = lastWritten i past) ∨ swept ∧ e = none :=
    h.imp_left fun same => ⟨same, rfl⟩
  cases step with
  | add collects => exact update collects _ _
  | full collects => exact Or.inr (kept (collects.entry i))
  | set => exact update (.refl f) _ _
  | remove => exact update (.refl f) _ _
  | resize collects => exact Or.inr (kept (collects.entry i))
  | collect collects => exact Or.inr (kept (collects.entry i))

/-- An element that is still there is the one that was written last. -/
theorem Run.lastWritten (run : Run swept past f) {x : α} (entry : f.entry i = some x) :
    lastWritten i past = some x := by
  induction run with
  | start size => contradiction
  | step _ step ih =>
      rcases step.entry (i := i) with written | ⟨kept, same⟩ | ⟨_, gone⟩
      · rw [← written, entry]
      · rw [same]
        exact ih (kept ▸ entry)
      · rw [gone] at entry
        contradiction

end History
end SlotMap
