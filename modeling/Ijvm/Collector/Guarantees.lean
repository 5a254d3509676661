import Ijvm.Collector.Sweep
import Ijvm.Machine.Launch

/-!
# What a program can rely on when the collector runs

The statements quantify over every state in which `arrGc` can be entered, so they hold
at each of its call sites, whatever operands were popped before the call.

The scan of the stack ends one slot early, the table is visited in one ascending pass,
and looking up an index outside the table stops the machine. Each of these bounds what
is guaranteed; what is removed and what is left alone is exact.
-/

namespace Ijvm

open Transcript

namespace State

/-- An ascending chain of references from a root, then one more reference, leads to `q`;
or `q` is a root itself. -/
def Covered (s : State) (q : Nat) : Prop :=
  q ∈ s.arrRoots ∨ ∃ p, s.Scanned p ∧ s.arrEdge p q

/-- Every array that some chain of references connects to a root. -/
abbrev reachable (s : State) : Set Nat := Marking.reachable s.arrEdge s.arrRoots

end State

section Roots

/-- Every claimed array that a slot from 0 to `sp` refers to is kept with its memory. -/
def RootsSurvive (s s' : State) : Prop :=
  ∀ k : Int, 0 ≤ k → k ≤ s.gCpu.sp → ∀ i, Refers (s.gCpu.stack k) i → i ∈ s.arrMem.claimed →
    i ∈ s'.arrMem.claimed ∧ s'.arrMem.value i = s.arrMem.value i

/-- The scan does not need the top slot: what it refers to is covered without it. -/
def TopCovered (s : State) : Prop :=
  0 ≤ s.gCpu.sp → ∀ i, Refers (s.gCpu.stack s.gCpu.sp) i → i ∈ s.arrMem.claimed → s.Covered i

/-- The slots below `sp` are roots of the scan, so only the top slot matters. -/
theorem arrGc_rootsSurvive_iff {env : Env} {s s' : State} {n : Nat} {es : List Event}
    (collection : arrGc.run env s = .done n s' es) : RootsSurvive s s' ↔ TopCovered s := by
  obtain ⟨_, collected⟩ := Collected.of_done collection
  constructor
  · intro survive nonneg i refers claimed
    exact ((collected.survivors.mem_iff i).mp
      (survive _ nonneg (le_refl _) i refers claimed).1).2
  · intro covered k nonneg le i refers claimed
    have marked : i ∈ s.marked := by
      rcases le.lt_or_eq with below | rfl
      · obtain ⟨slot, rfl⟩ := Int.eq_ofNat_of_zero_le nonneg
        exact Or.inl ⟨claimed, slot, by omega, refers⟩
      · exact covered nonneg i refers claimed
    have kept := (collected.survivors.mem_iff i).mpr ⟨claimed, marked⟩
    exact ⟨kept, collected.survivors.value_eq i kept⟩

/-- A machine with one array, of one element. Slot 0 of the stack refers to it. -/
def oneArray : State :=
  { State.fresh with
    gCpu := { State.fresh.gCpu with stackSize := 8, sp := 1, stack := fun _ => 0xAA00000A }
    arrMem := { size := 1, map := [true], values := [[1, 0]] } }

theorem arrGc_rootsSurvive_iff_oneArray :
    RootsSurvive oneArray { oneArray with markedArrays := [true], clock := 1 } ↔
      TopCovered oneArray :=
  arrGc_rootsSurvive_iff (show arrGc.run Env.quiet oneArray =
    .done 0 { oneArray with markedArrays := [true], clock := 1 }
      [.gc oneArray, .stack .root 0 8] from rfl)

/-- The array that the top slot refers to is claimed before and free after a collection. -/
private def losesTop (env : Env) (s : State) : Bool :=
  match arrGc.run env s with
  | .done _ s' _ =>
      decide (0 ≤ s.gCpu.sp ∧ isArrRef (s.gCpu.stack s.gCpu.sp) = true) &&
        decide (refToIndex (s.gCpu.stack s.gCpu.sp) ∈ s.arrMem.claimed) &&
        !decide (refToIndex (s.gCpu.stack s.gCpu.sp) ∈ s'.arrMem.claimed)
  | .stopped .. => false

/-- `BIPUSH 1; NEWARRAY; GC; HALT` -/
def newarrayGc : List Byte := assemble [] [0x10, 1, 0xD1, 0xD4, 0xFF]

/-- The collection removes the array that the program has just created. -/
theorem newarrayGc_loses_root :
    ∃ entry s' n es, Collection Env.quiet newarrayGc entry ∧
      arrGc.run Env.quiet entry = .done n s' es ∧ ¬ RootsSurvive entry s' := by
  obtain ⟨entry, collection, loses⟩ :=
    exists_collection Env.quiet newarrayGc 2 (losesTop Env.quiet) (by decide +kernel)
  unfold losesTop at loses
  split at loses
  · rename_i n s' es run
    simp only [Bool.and_eq_true, decide_eq_true_eq, Bool.not_eq_true',
      decide_eq_false_iff_not] at loses
    obtain ⟨⟨⟨nonneg, ref⟩, claimed⟩, gone⟩ := loses
    refine ⟨entry, s', n, es, collection, run, fun survive => gone ?_⟩
    exact (survive _ nonneg (le_refl _) _ ⟨ref, rfl⟩ claimed).1
  · contradiction

end Roots

section Closure

/-- The marks in `t` are closed under references, and sweeping from `t` to `u` keeps
everything that some chain of references connects to a marked array. -/
structure MarksClosed (t u : State) : Prop where
  closed : ∀ p q, t.markedArrays.getD p false = true → t.arrEdge p q →
    t.markedArrays.getD q false = true
  survive : ∀ p q, t.markedArrays.getD p false = true → Relation.ReflTransGen t.arrEdge p q →
    q ∈ u.arrMem.claimed ∧ u.arrMem.value q = t.arrMem.value q

/-- The mark table that `arrGc` allocates for `markArrays`. -/
def withFreshMarks (s : State) : State :=
  { s with markedArrays := List.replicate s.arrMem.size false }

/-- One ascending pass is enough exactly for the arrays that a chain of references
covers which descends at most in its last reference. -/
theorem markArrays_closed_iff {env : Env} {s t u : State} {n : Nat} {es fs : List Event}
    (marking : markArrays.run env (withFreshMarks s) = .done () t es)
    (sweeping : sweepArrays.run env t = .done n u fs) :
    MarksClosed t u ↔ ∀ q ∈ s.reachable, s.Covered q := by
  have marks := markArrays_satisfies env (markedAre_fresh s)
  have sweep := sweepArrays_satisfies env t
  rw [show { s with markedArrays := _ } = withFreshMarks s from rfl, marking] at marks
  rw [sweeping] at sweep
  obtain ⟨_, table, rfl, _, marked⟩ := marks
  obtain ⟨_, survivors, _⟩ := sweep
  refine Iff.trans ?_ (Marking.closed_onePass_iff : Marking.Closed s.arrEdge s.marked ↔ _)
  constructor
  · intro complete p hp q e
    exact (marked q).mp (complete.closed p q ((marked p).mpr hp) e)
  · intro closed
    have step : ∀ p q, table.getD p false = true → s.arrEdge p q →
        table.getD q false = true := by
      intro p q hp e
      exact (marked q).mpr (closed p ((marked p).mp hp) q e)
    refine ⟨step, fun p q hp path => ?_⟩
    have reached := closed.mem_of_path ((marked p).mp hp) path
    have kept := (survivors.mem_iff q).mpr ⟨s.marked_subset_claimed reached, (marked q).mpr reached⟩
    exact ⟨kept, survivors.value_eq q kept⟩

/-- Slot 0 of the stack refers to array 0, which refers to array 1. Array 2 refers to array 0. -/
def chainAndGarbage : State :=
  { State.fresh with
    gCpu := { State.fresh.gCpu with
      stackSize := 8, sp := 1, stack := fun i => if i = 0 then 0xAA00000A else 0 }
    arrMem := {
      size := 3, map := [true, true, true]
      values := [[1, 0xAA00001A], [1, 0], [1, 0xAA00000A]] } }

/-- The arrays that are reached from the stack, with their marks. -/
def chainOnly : State :=
  { chainAndGarbage with
    arrMem := {
      size := 3, map := [true, true, false]
      values := [[1, 0xAA00001A], [1, 0], []] }
    markedArrays := [true, true, false] }

theorem markArrays_closed_iff_chainAndGarbage :
    MarksClosed { chainAndGarbage with markedArrays := [true, true, false] } chainOnly ↔
      ∀ q ∈ chainAndGarbage.reachable, chainAndGarbage.Covered q :=
  markArrays_closed_iff
    (show markArrays.run Env.quiet (withFreshMarks chainAndGarbage) =
      .done () { chainAndGarbage with markedArrays := [true, true, false] }
        [.stack .root 0 8] from rfl)
    (show sweepArrays.run Env.quiet
        { chainAndGarbage with markedArrays := [true, true, false] } =
      .done 1 chainOnly [] from rfl)

/-- Array 0 is marked after its visit, and its element 1 refers to array 2, which is
not marked. -/
private def missesTwo (env : Env) (s : State) : Bool :=
  match markArrays.run env (withFreshMarks s) with
  | .done _ t _ =>
      (sweepArrays.run env t).isDone && t.markedArrays.getD 0 false &&
        !t.markedArrays.getD 2 false && decide (0 ∈ t.arrMem.claimed ∧ 2 ∈ t.arrMem.claimed) &&
        decide (1 ≤ (t.arrMem.value 0).count ∧ Refers ((t.arrMem.value 0).cell 1) 2)
  | .stopped .. => false

/-- Three arrays of one element in the local variables 0, 1 and 2: array 1 gets a
reference to array 0 and array 0 one to array 2. Then only variable 1 keeps its
reference, and the collector runs. -/
def descendingChain : List Byte :=
  assemble [] [
    0x10, 1, 0xD1, 0x36, 0, 0x10, 1, 0xD1, 0x36, 1, 0x10, 1, 0xD1, 0x36, 2,
    0x15, 0, 0x10, 0, 0x15, 1, 0xD3, 0x15, 2, 0x10, 0, 0x15, 0, 0xD3,
    0x10, 0, 0x36, 0, 0x10, 0, 0x36, 2, 0xD4, 0xFF]

/-- The marks are not closed: array 1 is visited after array 0. -/
theorem descendingChain_not_closed :
    ∃ entry t u n es fs, Collection Env.quiet descendingChain entry ∧
      markArrays.run Env.quiet (withFreshMarks entry) = .done () t es ∧
      sweepArrays.run Env.quiet t = .done n u fs ∧ ¬ MarksClosed t u := by
  obtain ⟨entry, collection, misses⟩ :=
    exists_collection Env.quiet descendingChain 21 (missesTwo Env.quiet) (by decide +kernel)
  unfold missesTwo at misses
  split at misses
  · rename_i _ t es marking
    simp only [Bool.and_eq_true, decide_eq_true_eq, Bool.not_eq_true'] at misses
    obtain ⟨⟨⟨⟨swept, marked⟩, unmarked⟩, claimed⟩, count, refers⟩ := misses
    cases sweeping : sweepArrays.run Env.quiet t with
    | stopped e u fs => simp [sweeping, Outcome.isDone] at swept
    | done n u fs =>
        refine ⟨entry, t, u, n, es, fs, collection, marking, sweeping, fun complete => ?_⟩
        have edge : t.arrEdge 0 2 := ⟨claimed.1, claimed.2, 1, le_refl 1, count, refers⟩
        have mark := complete.closed 0 2 marked edge
        rw [unmarked] at mark
        contradiction
  · contradiction

end Closure

section Tolerance

/-- With memory for the mark table, the collector returns exactly if no word that it
looks at has the form of a reference with an index outside the table. -/
theorem arrGc_returns_iff {env : Env} {s : State} (granted : env.alloc s.clock = true) :
    (arrGc.run env s).isDone = true ↔ ¬ s.Dangling := by
  have spec := arrGc_satisfies env s
  cases run : arrGc.run env s with
  | done n s' es =>
      rw [run] at spec
      simpa [Outcome.isDone] using spec.2.1
  | stopped e s' es =>
      rw [run] at spec
      rcases spec with ⟨_, refused⟩ | ⟨_, _, dangling⟩
      · rw [granted] at refused
        contradiction
      · simpa [Outcome.isDone] using dangling

theorem arrGc_returns_iff_oneArray :
    (arrGc.run Env.quiet oneArray).isDone = true ↔ ¬ oneArray.Dangling :=
  arrGc_returns_iff rfl

/-- `LDC_W 0; BIPUSH 0; GC; HALT` with the constant `0xAA00000A`: the program never
creates an array, so the table has no entry 0. -/
def integerLikeReference : List Byte :=
  assemble [0xAA00000A] [0x13, 0, 0, 0x10, 0, 0xD4, 0xFF]

/-- The collector stops the machine because of an integer on the stack. -/
theorem integerLikeReference_stops :
    ∃ entry, Collection Env.quiet integerLikeReference entry ∧
      Env.quiet.alloc entry.clock = true ∧ (arrGc.run Env.quiet entry).isDone = false := by
  obtain ⟨entry, collection, stops⟩ := exists_collection Env.quiet integerLikeReference 2
    (fun s => !(arrGc.run Env.quiet s).isDone) (by decide +kernel)
  exact ⟨entry, collection, rfl, by simpa using stops⟩

end Tolerance

section Precision

/-- What the collector keeps and what it leaves alone. -/
structure Precise (s : State) (n : Nat) (s' : State) : Prop where
  size_eq : s'.arrMem.size = s.arrMem.size
  before : ∀ i ∈ s'.arrMem.claimed, i ∈ s.arrMem.claimed
  contents : ∀ i ∈ s'.arrMem.claimed, s'.arrMem.value i = s.arrMem.value i
  reachable : ∀ i ∈ s'.arrMem.claimed, i ∈ s.reachable
  number : n + s'.arrMem.claimed.card = s.arrMem.claimed.card
  cpu : s'.gCpu = s.gCpu
  connections : s'.netConn = s.netConn

/-- Every complete collection is precise. -/
theorem arrGc_precise {env : Env} {s s' : State} {n : Nat} {es : List Event}
    (collection : arrGc.run env s = .done n s' es) : Precise s n s' := by
  obtain ⟨_, collected⟩ := Collected.of_done collection
  obtain ⟨frame, survivors, count⟩ := collected
  refine ⟨survivors.size_eq, survivors.subset, survivors.value_eq, ?_, count, ?_, ?_⟩
  · intro i claimed
    exact Marking.onePass_subset_reachable ((survivors.mem_iff i).mp claimed).2
  · rw [frame]
  · rw [frame]

theorem arrGc_precise_chainAndGarbage :
    Precise chainAndGarbage 1 { chainOnly with clock := 1 } :=
  arrGc_precise (show arrGc.run Env.quiet chainAndGarbage =
    .done 1 { chainOnly with clock := 1 } [.gc chainAndGarbage, .stack .root 0 8] from rfl)

end Precision

end Ijvm
