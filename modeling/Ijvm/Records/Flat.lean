import Mathlib.Algebra.Ring.Nat
import Mathlib.Data.List.Basic

/-!
# Records of different lengths in a flat memory

A stack of records that is kept in the cells below a top index. A record is a label and
a list of items; it is stored with its label in the highest cell, the number of items
below, and then the items, the first one highest. The number is read from a cell by
`count`.
-/

namespace Records

/-- A label and its items. -/
structure Entry (α : Type) where
  label : α
  items : List α
  deriving DecidableEq, Repr

variable {α : Type} {count : α → Nat} {mem mem' : Nat → α} {top : Nat} {e : Entry α}
  {es : List (Entry α)}

/-- The number of cells of a record. -/
def Entry.size (e : Entry α) : Nat := e.items.length + 2

/-- The items of a record that occupies the cells from `base` on. -/
def itemsAt (mem : Nat → α) (base n : Nat) : List α :=
  (List.range n).map fun i => mem (base + (n - 1 - i))

/-- The cells below `top` are exactly those of the records, the first one highest. -/
def Stored (count : α → Nat) (mem : Nat → α) : Nat → List (Entry α) → Prop
  | top, [] => top = 0
  | top, e :: es =>
      ∃ base, top = base + e.size ∧ mem (base + e.items.length + 1) = e.label ∧
        count (mem (base + e.items.length)) = e.items.length ∧
        itemsAt mem base e.items.length = e.items ∧ Stored count mem base es

theorem itemsAt_congr {base n : Nat} (same : ∀ j, j < base + n → mem' j = mem j) :
    itemsAt mem' base n = itemsAt mem base n := by
  apply List.map_congr_left
  intro i member
  have below := List.mem_range.mp member
  exact same _ (by omega)

theorem itemsAt_succ (mem : Nat → α) (base n : Nat) :
    itemsAt mem base (n + 1) = mem (base + n) :: itemsAt mem base n := by
  unfold itemsAt
  rw [List.range_succ_eq_map, List.map_cons, List.map_map]
  congr 1
  apply List.map_congr_left
  intro i _
  show mem (base + (n + 1 - 1 - (i + 1))) = mem (base + (n - 1 - i))
  congr 1
  omega

theorem Stored.congr (h : Stored count mem top es) (same : ∀ j, j < top → mem' j = mem j) :
    Stored count mem' top es := by
  induction es generalizing top with
  | nil => exact h
  | cons e es ih =>
      obtain ⟨base, size, label, number, items, rest⟩ := h
      unfold Entry.size at size
      refine ⟨base, size, ?_, ?_, ?_, ih rest fun j below => same j (by omega)⟩
      · rw [same _ (by omega)]
        exact label
      · rw [same _ (by omega)]
        exact number
      · rw [itemsAt_congr fun j below => same j (by omega)]
        exact items

/-- The top is the number of cells of all records. -/
theorem Stored.top_eq (h : Stored count mem top es) : top = (es.map Entry.size).sum := by
  induction es generalizing top with
  | nil => exact h
  | cons e es ih =>
      obtain ⟨base, size, _, _, _, rest⟩ := h
      rw [List.map_cons, List.sum_cons, ← ih rest, size, Nat.add_comm]

/-- Writing a record above the others. -/
theorem Stored.push (h : Stored count mem top es) (below : ∀ j, j < top → mem' j = mem j)
    (items : itemsAt mem' top e.items.length = e.items)
    (number : count (mem' (top + e.items.length)) = e.items.length)
    (label : mem' (top + e.items.length + 1) = e.label) :
    Stored count mem' (top + e.size) (e :: es) :=
  ⟨top, rfl, label, number, items, h.congr below⟩

/-- Removing the highest record. -/
theorem Stored.pop (h : Stored count mem top (e :: es)) :
    e.size ≤ top ∧ count (mem (top - 2)) = e.items.length ∧
      Stored count mem (top - e.size) es := by
  obtain ⟨base, size, _, number, _, rest⟩ := h
  unfold Entry.size at size ⊢
  have here : top - 2 = base + e.items.length := by omega
  have under : top - (e.items.length + 2) = base := by omega
  refine ⟨by omega, ?_, ?_⟩
  · rw [here]
    exact number
  · rw [under]
    exact rest

end Records
