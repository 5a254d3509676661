import Mathlib.Data.List.Basic
import Mathlib.Data.Nat.Init

/-!
# Writing blocks and reading units

One end of a `Fifo` writes elements that an encoding makes into blocks of units; the other
end reads single units. Whatever the order of writes and reads is, nothing is lost:
`Conserved` says that the units read and the units in flight are the blocks written. If
all blocks have one length, the `k`-th unit read is thereby known.
-/

/-- The history of a queue between two ends, with what is in flight. -/
structure Fifo (α β : Type) where
  written : List α
  read : List β
  inFlight : List β

namespace Fifo

variable {α β : Type}

def empty : Fifo α β := ⟨[], [], []⟩

/-- Write an element, of which the block goes into the queue. -/
def write (f : Fifo α β) (a : α) (block : List β) : Fifo α β :=
  { f with written := f.written ++ [a], inFlight := f.inFlight ++ block }

/-- Read a unit; `rest` is what then is in flight. -/
def take (f : Fifo α β) (b : β) (rest : List β) : Fifo α β :=
  { f with read := f.read ++ [b], inFlight := rest }

/-- The units are those of the blocks, in their order. -/
def Conserved (encode : α → List β) (f : Fifo α β) : Prop :=
  f.read ++ f.inFlight = f.written.flatMap encode

variable {encode : α → List β} {f : Fifo α β}

theorem conserved_empty : (empty : Fifo α β).Conserved encode := rfl

theorem Conserved.write (h : f.Conserved encode) (a : α) :
    (f.write a (encode a)).Conserved encode := by
  simp only [Conserved, Fifo.write, List.flatMap_append, List.flatMap_singleton] at *
  rw [← List.append_assoc, h]

theorem Conserved.take {b : β} {rest : List β} (h : f.Conserved encode)
    (head : f.inFlight = b :: rest) : (f.take b rest).Conserved encode := by
  simp only [Conserved, Fifo.take, head] at *
  rw [List.append_assoc]
  exact h

/-- The unit at a position of blocks of one length. -/
theorem getElem?_flatMap {n : Nat} (length : ∀ a, (encode a).length = n) (l : List α) (k : Nat) :
    (l.flatMap encode)[k]? = l[k / n]?.bind fun a => (encode a)[k % n]? := by
  induction l generalizing k with
  | nil => simp
  | cons a l ih =>
      rw [List.flatMap_cons]
      by_cases first : k < n
      · rw [List.getElem?_append_left (by rw [length]; exact first), Nat.div_eq_of_lt first,
          Nat.mod_eq_of_lt first]
        rfl
      · rw [List.getElem?_append_right (by rw [length]; omega), length, ih]
        cases Nat.eq_zero_or_pos n with
        | inl none =>
            subst none
            have nothing (a : α) : encode a = [] := List.length_eq_zero_iff.mp (length a)
            simp [nothing]
        | inr some =>
            have quotient : k / n = (k - n) / n + 1 := by
              rw [← Nat.sub_add_cancel (Nat.le_of_not_lt first), Nat.add_div_right _ some,
                Nat.add_sub_cancel]
            have remainder : (k - n) % n = k % n :=
              (Nat.mod_eq_sub_mod (Nat.le_of_not_lt first)).symm
            rw [quotient, remainder, List.getElem?_cons_succ]

/-- The `k`-th unit read lies in block `k / n`. -/
theorem Conserved.getElem?_read {n k : Nat} (h : f.Conserved encode)
    (length : ∀ a, (encode a).length = n) (received : k < f.read.length) :
    f.read[k]? = f.written[k / n]?.bind fun a => (encode a)[k % n]? := by
  rw [← getElem?_flatMap length, ← h, List.getElem?_append_left received]

/-- Every unit written was read or is in flight. -/
theorem Conserved.length_eq {n : Nat} (h : f.Conserved encode)
    (length : ∀ a, (encode a).length = n) :
    f.read.length + f.inFlight.length = f.written.length * n := by
  rw [← List.length_append, h, List.length_flatMap]
  simp [length]

end Fifo
