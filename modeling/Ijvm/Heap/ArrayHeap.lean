import Mathlib.Data.List.Basic
import Mathlib.Logic.Function.Basic

/-!
# A heap of fixed-size arrays

A heap maps references to arrays. An array is created with a size and default
elements, its elements are set and read one at a time, and it can be collected at any
moment, after which its reference may be given to another array.

`Step` says what each operation may do to the heap and `Run` what a history of
operations may lead to, the most recent operation first. The history alone determines
every live array: its size is the size it was created with, and each element is the
value most recently set since then.
-/

namespace ArrayHeap

variable {ρ ν : Type}

abbrev Heap (ρ ν : Type) := ρ → Option (List ν)

/-- One completed operation, with the reference or value that it returned. -/
inductive Action (ρ ν : Type)
  | create (r : ρ) (size : Nat)
  | set (r : ρ) (i : Nat) (v : ν)
  | get (r : ρ) (i : Nat) (v : ν)
  | collect

/-- `h'` is `h` without some of its arrays. -/
def Collects (h h' : Heap ρ ν) : Prop := ∀ r, h' r = none ∨ h' r = h r

/-- An array that is still live was live before, with the same elements. -/
theorem Collects.live {h h' : Heap ρ ν} (collects : Collects h h') {r : ρ} {a : List ν}
    (live : h' r = some a) : h r = some a := by
  rcases collects r with gone | kept
  · rw [gone] at live
    contradiction
  · rw [← kept, live]

variable [DecidableEq ρ] [Inhabited ν]

inductive Step : Heap ρ ν → Action ρ ν → Heap ρ ν → Prop
  | create {h h' : Heap ρ ν} {r : ρ} {size : Nat} (collects : Collects h h') (free : h' r = none) :
      Step h (.create r size) (Function.update h' r (some (List.replicate size default)))
  | set {h : Heap ρ ν} {r : ρ} {i : Nat} {v : ν} {a : List ν} (live : h r = some a)
      (inside : i < a.length) :
      Step h (.set r i v) (Function.update h r (some (a.set i v)))
  | get {h : Heap ρ ν} {r : ρ} {i : Nat} {v : ν} {a : List ν} (live : h r = some a)
      (element : a[i]? = some v) : Step h (.get r i v) h
  | collect {h h' : Heap ρ ν} (collects : Collects h h') : Step h .collect h'

/-- A history of completed operations from the empty heap, the most recent first. -/
inductive Run : List (Action ρ ν) → Heap ρ ν → Prop
  | start : Run [] fun _ => none
  | step {past : List (Action ρ ν)} {action : Action ρ ν} {h h' : Heap ρ ν} (run : Run past h)
      (step : Step h action h') : Run (action :: past) h'

/-- The value most recently set at index `i` of `r` since `r` was created. -/
def lastWritten (r : ρ) (i : Nat) : List (Action ρ ν) → ν
  | [] => default
  | .create r' _ :: past => if r' = r then default else lastWritten r i past
  | .set r' i' v :: past => if r' = r ∧ i' = i then v else lastWritten r i past
  | .get .. :: past => lastWritten r i past
  | .collect :: past => lastWritten r i past

/-- The size that `r` was most recently created with. -/
def createdSize (r : ρ) : List (Action ρ ν) → Nat
  | [] => 0
  | .create r' size :: past => if r' = r then size else createdSize r past
  | .set .. :: past => createdSize r past
  | .get .. :: past => createdSize r past
  | .collect :: past => createdSize r past

/-- The array at `r` is what the history says. -/
def Recorded (past : List (Action ρ ν)) (h : Heap ρ ν) : Prop :=
  ∀ r a, h r = some a →
    a.length = createdSize r past ∧ ∀ i v, a[i]? = some v → v = lastWritten r i past

theorem Recorded.step {past : List (Action ρ ν)} {action : Action ρ ν} {h h' : Heap ρ ν}
    (recorded : Recorded past h) (step : Step h action h') : Recorded (action :: past) h' := by
  intro r a live
  cases step with
  | @create _ r' size collects free =>
      by_cases same : r' = r
      · subst same
        rw [Function.update_self, Option.some.injEq] at live
        subst live
        simp only [createdSize, lastWritten, if_pos, List.length_replicate, true_and]
        intro i v element
        rw [List.getElem?_replicate] at element
        split at element
        · exact (Option.some.inj element).symm
        · contradiction
      · rw [Function.update_of_ne (Ne.symm same)] at live
        simpa only [createdSize, lastWritten, if_neg same] using recorded r a (collects.live live)
  | @set r' i v b live' inside =>
      by_cases same : r' = r
      · subst same
        rw [Function.update_self, Option.some.injEq] at live
        subst live
        obtain ⟨size, elements⟩ := recorded r' b live'
        refine ⟨by simpa [createdSize] using size, ?_⟩
        intro j w element
        rw [List.getElem?_set] at element
        by_cases here : i = j
        · rw [if_pos here, if_pos inside, Option.some.injEq] at element
          simp [lastWritten, here, element]
        · rw [if_neg here] at element
          simpa [lastWritten, here] using elements j w element
      · rw [Function.update_of_ne (Ne.symm same)] at live
        simpa [createdSize, lastWritten, same] using recorded r a live
  | get live' element => exact recorded r a live
  | collect collects => exact recorded r a (collects.live live)

theorem Run.recorded {past : List (Action ρ ν)} {h : Heap ρ ν} (run : Run past h) :
    Recorded past h := by
  induction run with
  | start =>
      intro r a live
      contradiction
  | step _ step ih => exact ih.step step

end ArrayHeap
