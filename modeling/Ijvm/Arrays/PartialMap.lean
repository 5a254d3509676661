import Ijvm.Arrays.Mapped
import Ijvm.Machine.Launch

/-!
# A mapped array is a partial map

Each operation of `marr.c` that returns is a step of a partial map, and each history of
such operations after `marr_init` a run of it. The collector can run inside an addition and
inside a resize that found no memory.
-/

namespace Ijvm

open Transcript SlotMap

section Operations

variable {α : Type} [Inhabited α] {table : MArrTable α} {env : Env} {s : State}

/-- What adding an element does: it writes the lowest index that is free after the
collection, or finds the table full. -/
theorem marrAddElement_step (tidy : (table.ptr.get s).Tidy) (x : α) :
    ((marrAddElement table.ptr x).run env s).Returns fun i t =>
      (table.ptr.get t).Tidy ∧ Step table.swept (table.ptr.get s).slots
        (.add x (if i = sizeMaxUint32 then none else some i)) (table.ptr.get t).slots := by
  refine (marrAddElement_cleans table x env s).returns ?_
  rintro i t - ⟨m, cleaned, found, stored⟩
  have tidy' := cleaned.tidy tidy
  rw [stored]
  cases free : m.firstFree with
  | none =>
      rw [free, Option.getD_none] at found
      subst found
      rw [if_pos rfl, if_pos rfl]
      exact ⟨tidy', .full cleaned.collects (MArr.full_of_firstFree free)⟩
  | some j =>
      rw [free, Option.getD_some] at found
      subst found
      have lowest := MArr.lowestFree_of_firstFree free
      have inside : j < m.size := lowest.below
      have fits : j ≠ sizeMaxUint32 := (inside.trans tidy'.size_lt).ne
      rw [if_neg fits, if_neg fits, MArr.slots_store tidy'.map_length tidy'.values_length x inside]
      exact ⟨tidy'.store x inside, .add cleaned.collects lowest⟩

theorem marrSetElement_step (tidy : (table.ptr.get s).Tidy) (i : Nat) (x : α) :
    ((marrSetElement table.ptr i x).run env s).Returns fun _ t =>
      (table.ptr.get t).Tidy ∧ Step table.swept (table.ptr.get s).slots (.set i x)
        (table.ptr.get t).slots := by
  simp only [marrSetElement, Program.run_bind, Program.run_get, Outcome.andThen_done,
    Outcome.prepend_nil]
  split
  · exact Outcome.returns_stopped
  · rename_i below
    have inside : i < (table.ptr.get s).size := Nat.lt_of_not_le below
    rw [Program.run_modify, Outcome.returns_done, table.get_set,
      MArr.slots_store tidy.map_length tidy.values_length x inside]
    exact ⟨tidy.store x inside, .set inside⟩

theorem marrRemoveElement_step (tidy : (table.ptr.get s).Tidy) (i : Nat) :
    ((marrRemoveElement table.ptr i).run env s).Returns fun _ t =>
      (table.ptr.get t).Tidy ∧ Step table.swept (table.ptr.get s).slots (.remove i)
        (table.ptr.get t).slots := by
  simp only [marrRemoveElement, Program.run_bind, Program.run_get, Outcome.andThen_done,
    Outcome.prepend_nil]
  split
  · exact Outcome.returns_stopped
  · rename_i below
    have inside : i < (table.ptr.get s).size := Nat.lt_of_not_le below
    rw [Program.run_modify, Outcome.returns_done, table.get_set, MArr.slots_clear]
    exact ⟨tidy.clear i, .remove inside⟩

/-- A failed request restores the old table, collects and starts again. -/
theorem marrResizeFuel_step (tidy : (table.ptr.get s).Tidy) (fuel newSize : Nat) :
    ((marrResizeFuel table.ptr fuel newSize).run env s).Returns fun _ t =>
      (table.ptr.get t).Tidy ∧ Step table.swept (table.ptr.get s).slots (.resize newSize)
        (table.ptr.get t).slots := by
  induction fuel generalizing s with
  | zero => exact Outcome.returns_stopped
  | succ fuel ih =>
      simp only [marrResizeFuel, Program.run_bind, Program.run_get, Outcome.andThen_done,
        Outcome.prepend_nil]
      split
      · exact Outcome.returns_stopped
      · rename_i larger
        split
        · exact Outcome.returns_stopped
        · rename_i fits
          simp only [Program.run_bind, run_allocate, Outcome.andThen_done, Outcome.prepend_nil]
          have asked := table.get_clock s (s.clock + 1 + 1)
          split
          · refine Outcome.Returns.andThen (table.collection env _) ?_
            intro n t cleaned
            rw [asked] at cleaned
            dsimp only
            split
            · refine (ih (cleaned.tidy tidy)).mono ?_
              rintro - u ⟨tidy', step⟩
              exact ⟨tidy', step.after_collection cleaned.collects⟩
            · exact Outcome.returns_stopped
          · have enough : (table.ptr.get s).size ≤ newSize := Nat.le_of_not_lt larger
            rw [Program.run_modify, Outcome.returns_done, table.get_set,
              MArr.slots_resized tidy enough]
            exact ⟨tidy.resized enough (Nat.lt_of_not_le fits), .resize (.refl _) enough⟩

theorem marrResize_step (tidy : (table.ptr.get s).Tidy) (newSize : Nat) :
    ((marrResize table.ptr newSize).run env s).Returns fun _ t =>
      (table.ptr.get t).Tidy ∧ Step table.swept (table.ptr.get s).slots (.resize newSize)
        (table.ptr.get t).slots := by
  simp only [marrResize, Program.run_bind, Program.run_get, Outcome.andThen_done,
    Outcome.prepend_nil]
  exact marrResizeFuel_step tidy _ newSize

theorem marrInit_slots (size : Nat) :
    ((marrInit table.ptr size).run env s).Returns fun _ t =>
      (table.ptr.get t).Tidy ∧ (table.ptr.get t).slots = .empty size := by
  simp only [marrInit, Program.run_bind, Program.run_modify, Outcome.andThen_done,
    Outcome.prepend_nil]
  split
  · exact Outcome.returns_stopped
  · have cleared := table.get_set { size := 0, map := [], values := [] } s
    have tidy := MArr.Tidy.empty (α := α)
    rw [← cleared] at tidy
    refine (marrResize_step tidy size).mono ?_
    rintro - t ⟨tidy', step⟩
    have none : (MArr.slots { size := 0, map := [], values := [] } : Slots α) = .empty 0 :=
      Slots.ext rfl (funext fun i => by simp [MArr.slots_entry, Slots.empty])
    rw [cleared, none] at step
    exact ⟨tidy', step.resize_empty⟩

end Operations

section History

variable {α : Type} [Inhabited α]

/-- An operation on the table that returns, with what it returned. -/
inductive Completes (table : MArrTable α) (s : State) : Action α → State → Prop
  | add {env : Env} {x : α} {i : Nat} {t : State} {es : List Event}
      (run : (marrAddElement table.ptr x).run env s = .done i t es) :
      Completes table s (.add x (if i = sizeMaxUint32 then none else some i)) t
  | set {env : Env} {i : Nat} {x : α} {t : State} {es : List Event}
      (run : (marrSetElement table.ptr i x).run env s = .done () t es) :
      Completes table s (.set i x) t
  | remove {env : Env} {i : Nat} {t : State} {es : List Event}
      (run : (marrRemoveElement table.ptr i).run env s = .done () t es) :
      Completes table s (.remove i) t
  | resize {env : Env} {newSize : Nat} {t : State} {es : List Event}
      (run : (marrResize table.ptr newSize).run env s = .done () t es) :
      Completes table s (.resize newSize) t
  | collect {env : Env} {n : Nat} {t : State} {es : List Event}
      (run : arrGc.run env s = .done n t es) : Completes table s .collect t

/-- The completed operations since the table was initialized, the most recent first. Each
has allocations of its own to succeed or to fail, and between two of them the rest of the
machine may move on in any way. -/
inductive TableHistory (table : MArrTable α) : List (Action α) → State → Prop
  | init {env : Env} {size : Nat} {s t : State} {es : List Event}
      (run : (marrInit table.ptr size).run env s = .done () t es) : TableHistory table [] t
  | elsewhere {past : List (Action α)} {s t : State} (history : TableHistory table past s)
      (same : table.ptr.get t = table.ptr.get s) : TableHistory table past t
  | operation {past : List (Action α)} {action : Action α} {s t : State}
      (history : TableHistory table past s) (completes : Completes table s action t) :
      TableHistory table (action :: past) t

variable {table : MArrTable α} {s t : State}

/-- Each operation of the source is a step of the partial map. -/
theorem Completes.step {action : Action α} (completes : Completes table s action t)
    (tidy : (table.ptr.get s).Tidy) :
    (table.ptr.get t).Tidy ∧
      Step table.swept (table.ptr.get s).slots action (table.ptr.get t).slots := by
  cases completes with
  | add run => exact marrAddElement_step tidy _ _ _ _ run
  | set run => exact marrSetElement_step tidy _ _ _ _ _ run
  | remove run => exact marrRemoveElement_step tidy _ _ _ _ run
  | resize run => exact marrResize_step tidy _ _ _ _ run
  | collect run =>
      have cleaned := table.collection _ _ _ _ _ run
      exact ⟨cleaned.tidy tidy, .collect cleaned.collects⟩

theorem TableHistory.simulates {past : List (Action α)} (history : TableHistory table past s) :
    (table.ptr.get s).Tidy ∧ Run table.swept past (table.ptr.get s).slots := by
  induction history with
  | init run =>
      obtain ⟨tidy, slots⟩ := marrInit_slots _ _ _ _ run
      rw [slots]
      exact ⟨tidy, .start _⟩
  | elsewhere _ same ih =>
      rw [same]
      exact ih
  | operation _ completes ih =>
      obtain ⟨tidy, run⟩ := ih
      obtain ⟨tidy', step⟩ := completes.step tidy
      exact ⟨tidy', .step run step⟩

/-- The table behaves as the partial map of its history: it has `size` cells of each kind,
cleared where they are not claimed; a read completes exactly for a claimed index and
returns what was written there last; each operation is a step of the map. -/
structure RefinesMap (table : MArrTable α) (past : List (Action α)) (s : State) : Prop where
  map_length : (table.ptr.get s).map.length = (table.ptr.get s).size
  values_length : (table.ptr.get s).values.length = (table.ptr.get s).size
  cleared : ∀ i < (table.ptr.get s).size, i ∉ (table.ptr.get s).claimed →
    (table.ptr.get s).value i = default
  get_completes : ∀ env i, ((marrGetElement table.ptr i).run env s).isDone = true ↔
    i ∈ (table.ptr.get s).claimed
  get_value : ∀ env i x t es, (marrGetElement table.ptr i).run env s = .done x t es →
    lastWritten i past = some x
  reached : Run table.swept past (table.ptr.get s).slots
  step : ∀ action t, Completes table s action t →
    Step table.swept (table.ptr.get s).slots action (table.ptr.get t).slots

/-- This holds after every history, whatever allocations fail on the way. -/
theorem TableHistory.refinesMap {past : List (Action α)} (history : TableHistory table past s) :
    RefinesMap table past s := by
  obtain ⟨tidy, run⟩ := history.simulates
  refine ⟨tidy.map_length, tidy.values_length, tidy.cleared, ?_, ?_, run,
    fun action t completes => (completes.step tidy).2⟩
  · intro env i
    by_cases claimed : i ∈ (table.ptr.get s).claimed
    · simp [marrGetElement_claimed table.ptr env claimed, claimed, Outcome.isDone]
    · obtain ⟨e, missing⟩ := marrGetElement_unclaimed table.ptr env claimed
      simp [missing, claimed, Outcome.isDone]
  · intro env i x t es read
    by_cases claimed : i ∈ (table.ptr.get s).claimed
    · rw [marrGetElement_claimed table.ptr env claimed] at read
      injection read with value
      exact run.lastWritten (MArr.slots_eq_some.mpr ⟨claimed, value⟩)
    · obtain ⟨e, missing⟩ := marrGetElement_unclaimed table.ptr env claimed
      rw [missing] at read
      contradiction

theorem Completes.added {env : Env} {x : α} {i : Nat} {es : List Event}
    (run : (marrAddElement table.ptr x).run env s = .done i t es) (found : i ≠ sizeMaxUint32) :
    Completes table s (.add x (some i)) t := by
  have completes := Completes.add run
  rwa [if_neg found] at completes

theorem Completes.refused {env : Env} {x : α} {es : List Event}
    (run : (marrAddElement table.ptr x).run env s = .done sizeMaxUint32 t es) :
    Completes table s (.add x none) t := by
  have completes := Completes.add run
  rwa [if_pos rfl] at completes

/-- A table of one cell is full after one addition. -/
theorem TableHistory.refinesMap_full :
    RefinesMap arrTable [.add [6] none, .add [5] (some 0)] ((marrAddElement arrMem [6]).run
      Env.quiet ((marrAddElement arrMem [5]).run Env.quiet
        ((marrInit arrMem 1).run Env.quiet State.fresh).state).state).state := by
  have init : (marrInit arrTable.ptr 1).run Env.quiet State.fresh = .done () _ _ :=
    Outcome.eq_done_of_value? (by decide +kernel)
  have first : (marrAddElement arrTable.ptr [5]).run Env.quiet
      ((marrInit arrMem 1).run Env.quiet State.fresh).state = .done 0 _ _ :=
    Outcome.eq_done_of_value? (by decide +kernel)
  have second : (marrAddElement arrTable.ptr [6]).run Env.quiet ((marrAddElement arrMem [5]).run
      Env.quiet ((marrInit arrMem 1).run Env.quiet State.fresh).state).state =
      .done sizeMaxUint32 _ _ :=
    Outcome.eq_done_of_value? (by decide +kernel)
  have started := TableHistory.init init
  exact ((started.operation (.added first (by decide))).operation (.refused second)).refinesMap

end History
end Ijvm
