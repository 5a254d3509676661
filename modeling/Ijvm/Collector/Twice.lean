import Ijvm.Collector.Sweep
import Ijvm.Machine.Stack
import Ijvm.Transcript.Retry

/-!
# A second collection, and repeated allocations

A collection leaves the arrays that its pass has marked, and a pass over what is left marks
the same arrays again. So a second collection removes nothing. The three requests for
memory that are repeated after a successful collection are repeated at most once: they are
instances of `Program.retry`, whose recovery is the collector.
-/

namespace Ijvm

open Transcript Program

/-- Every array is marked, so that a collection has nothing to remove. -/
def State.Settled (s : State) : Prop := ∀ q ∈ s.arrMem.claimed, q ∈ s.marked

namespace Collected

variable {s s' : State} {n : Nat}

theorem cpu_eq (h : Collected s n s') : s'.gCpu = s.gCpu := by
  rw [h.frame]

theorem mem_claimed (h : Collected s n s') {q : Nat} : q ∈ s'.arrMem.claimed ↔ q ∈ s.marked :=
  (h.survivors.mem_iff q).trans (and_iff_right_of_imp s.marked_subset_claimed)

/-- The references that are left. -/
theorem arrEdge_eq (h : Collected s n s') :
    s'.arrEdge = Marking.markedEdge s.arrEdge s.arrRoots := by
  funext p q
  refine propext ⟨?_, ?_⟩
  · rintro ⟨hp, hq, element⟩
    rw [State.ElementWord, h.survivors.value_eq p hp] at element
    have before := h.survivors.subset
    exact ⟨h.mem_claimed.mp hp, h.mem_claimed.mp hq, before hp, before hq, element⟩
  · rintro ⟨hp, hq, _, _, element⟩
    have kept := h.mem_claimed.mpr hp
    refine ⟨kept, h.mem_claimed.mpr hq, ?_⟩
    rw [State.ElementWord, h.survivors.value_eq p kept]
    exact element

theorem arrRoots_eq (h : Collected s n s') : s'.arrRoots = s.arrRoots := by
  ext q
  have words : s'.RootWord = s.RootWord := by
    unfold State.RootWord
    rw [h.cpu_eq]
  constructor
  · rintro ⟨claimed, word⟩
    exact ⟨h.survivors.subset claimed, words ▸ word⟩
  · intro root
    exact ⟨h.mem_claimed.mpr (Or.inl root), words ▸ root.2⟩

/-- A second pass marks what the first one has marked. -/
theorem marked_eq (h : Collected s n s') : s'.marked = s.marked := by
  rw [State.marked, h.arrEdge_eq, h.arrRoots_eq, Marking.onePass_restrict]

theorem settled (h : Collected s n s') : s'.Settled := by
  intro q claimed
  rw [h.marked_eq]
  exact h.mem_claimed.mp claimed

theorem not_dangling (h : Collected s n s') (clean : ¬ s.Dangling) : ¬ s'.Dangling := by
  have size := h.survivors.size_eq
  rintro (⟨k, below, dangles⟩ | ⟨p, scanned, element⟩)
  · rw [h.cpu_eq] at below dangles
    rw [size] at dangles
    exact clean (Or.inl ⟨k, below, dangles⟩)
  · have kept := scanned.claimed
    rw [State.Scanned, h.arrEdge_eq, h.arrRoots_eq] at scanned
    rw [State.ElementWord, h.survivors.value_eq p kept, size] at element
    exact clean (Or.inr ⟨p, scanned.of_restrict, element⟩)

end Collected

section Idle

variable {env : Env} {s : State}

/-- A collection in a settled state removes nothing. -/
theorem arrGc_settled {t : State} {n : Nat} {es : List Event} (settled : s.Settled)
    (collection : arrGc.run env s = .done n t es) : n = 0 := by
  obtain ⟨_, collected⟩ := Collected.of_done collection
  have same : t.arrMem.claimed = s.arrMem.claimed := by
    ext q
    rw [collected.mem_claimed]
    exact ⟨s.marked_subset_claimed, settled q⟩
  have count := collected.count
  rw [same] at count
  omega

/-- A sweep over a table whose arrays are all marked. -/
theorem sweepArrays_idle (env : Env) {t : State}
    (marked : ∀ q ∈ t.arrMem.claimed, t.markedArrays.getD q false = true) :
    (sweepArrays.run env t).Satisfies (fun n u _ => n = 0 ∧ u = t) fun _ _ _ => False := by
  simp only [sweepArrays, run_bind, run_get, Outcome.andThen_done, Outcome.prepend_nil]
  refine Program.foldRange_satisfies (J := fun _ n u => n = 0 ∧ u = t) (E := fun _ _ => False)
    ⟨rfl, rfl⟩ ?_
  rintro i n u _ below ⟨rfl, rfl⟩
  have inside : i < (arrMem.get u).size := Nat.zero_add u.arrMem.size ▸ below
  simp only [sweepArray, run_bind, run_get, Outcome.andThen_done, Outcome.prepend_nil]
  by_cases mark : u.markedArrays.getD i false = true
  · rw [if_neg (not_not.mpr mark)]
    exact ⟨rfl, rfl⟩
  · have free : ¬ (arrMem.get u).flag i = true := fun flag =>
      mark (marked i (MArr.mem_claimed.mpr ⟨inside, flag⟩))
    rw [if_pos mark, run_bind, marrCheckMarked_inside inside, Outcome.andThen_done,
      Outcome.prepend_nil, if_neg free]
    exact ⟨rfl, rfl⟩

/-- A second collection returns 0 and leaves the table alone, unless there is no memory for
its marks. -/
structure SecondIdle (env : Env) (s : State) : Prop where
  granted : env.alloc s.clock = true → ∃ t es, arrGc.run env s = .done 0 t es ∧
    t = { s with markedArrays := t.markedArrays, clock := s.clock + 1 }
  refused : env.alloc s.clock = false → ∃ t es, arrGc.run env s = .stopped (.error .arrGcAlloc) t es

theorem arrGc_idle (env : Env) (settled : s.Settled) (clean : ¬ s.Dangling) :
    SecondIdle env s := by
  constructor
  · intro granted
    have idle : (arrGc.run env s).Satisfies
        (fun n t _ => n = 0 ∧ t = { s with markedArrays := t.markedArrays, clock := s.clock + 1 })
        fun _ _ _ => False := by
      simp only [arrGc, run_bind, run_get, run_emit, run_allocate, Outcome.andThen_done,
        Outcome.prepend_nil, Outcome.satisfies_prepend]
      rw [if_pos granted, run_bind, run_modify, Outcome.andThen_done, Outcome.prepend_nil, run_bind]
      have fresh := markedAre_fresh { s with clock := s.clock + 1 }
      refine Outcome.Satisfies.andThen ((markArrays_satisfies env fresh).mono
        (fun _ _ _ done => done) ?_) ?_
      · rintro e - - ⟨_, dangling⟩
        exact clean dangling
      · rintro - u - ⟨_, marks, rfl, _, marked⟩
        refine (sweepArrays_idle env ?_).mono ?_ fun _ _ _ stopped => stopped
        · exact fun q claimed => (marked q).mpr (settled q claimed)
        · rintro n t - ⟨rfl, rfl⟩
          exact ⟨rfl, rfl⟩
    cases run : arrGc.run env s with
    | stopped e t es =>
        rw [run] at idle
        exact idle.elim
    | done n t es =>
        rw [run] at idle
        obtain ⟨rfl, same⟩ := idle
        exact ⟨t, es, rfl, same⟩
  · intro refused
    simp only [arrGc, run_bind, run_get, run_emit, run_allocate, Outcome.andThen_done]
    rw [refused]
    exact ⟨_, _, rfl⟩

end Idle

section Requests

def octupleAttempt : VM (Option Bool) := do
  let size := expectedSize (← get).gCpu.stackSize
  if size > 4294967296 ∨ size = 0 then
    destroyIjvmNow .stackOutOfMemory
  else if ← allocate then
    modifyCpu fun c => { c with stackSize := c.stackSize * 8 }
    return some true
  else
    return none

/-- One request of `marr_resize`, for the map and the values. -/
def resizeAttempt {α : Type} [Inhabited α] (marr : MArrPtr α) (newSize : Nat) :
    VM (Option Unit) := do
  let m := marr.get (← get)
  if newSize < m.size then
    destroyIjvmNow .marrResizeShrink
  else if newSize ≥ sizeMaxUint32 then
    destroyIjvmNow .marrResizeLimit
  else
    let map ← allocate
    let values ← allocate
    if map = false ∨ values = false then
      return none
    else
      modify (marr.set (m.resized newSize))
      return some ()

def createAttempt (count : Word) : VM (Option Word) := do
  if count.toInt ≤ 0 then
    destroyIjvmNow .arrCreateSize
  else if ← allocate then
    return some (← arrStore (count :: List.replicate count.toNat 0))
  else
    return none

theorem octupleStackSizeFuel_eq (fuel : Nat) : octupleStackSizeFuel fuel =
    retry octupleAttempt arrGc (.error .stackAlloc) .outOfFuel fuel := by
  induction fuel with
  | zero => rfl
  | succ fuel ih =>
      refine Program.ext fun env s => ?_
      rw [octupleStackSizeFuel, retry, ih]
      generalize retry octupleAttempt arrGc (.error .stackAlloc) .outOfFuel fuel = again
      simp only [octupleAttempt, run_bind, run_get, Outcome.andThen_done, Outcome.prepend_nil]
      split
      · rfl
      · simp only [run_bind, run_allocate, Outcome.andThen_done, Outcome.prepend_nil]
        split
        · rfl
        · simp only [run_pure, Outcome.andThen_done, Outcome.prepend_nil]
          rfl

theorem marrResizeFuel_eq {α : Type} [Inhabited α] (marr : MArrPtr α) (fuel newSize : Nat) :
    marrResizeFuel marr fuel newSize =
      retry (resizeAttempt marr newSize) arrGc (.error .marrResizeAlloc) .outOfFuel fuel := by
  induction fuel with
  | zero => rfl
  | succ fuel ih =>
      refine Program.ext fun env s => ?_
      rw [marrResizeFuel, retry, ih]
      generalize retry (resizeAttempt marr newSize) arrGc (.error .marrResizeAlloc) .outOfFuel
        fuel = again
      simp only [resizeAttempt, run_bind, run_get, Outcome.andThen_done, Outcome.prepend_nil]
      split
      · rfl
      · split
        · rfl
        · simp only [run_bind, run_allocate, Outcome.andThen_done, Outcome.prepend_nil]
          split
          · simp only [run_pure, Outcome.andThen_done, Outcome.prepend_nil]
            rfl
          · rfl

theorem arrCreateFuel_eq (fuel : Nat) (count : Word) : arrCreateFuel fuel count =
    retry (createAttempt count) arrGc (.error .arrCreateAlloc) .outOfFuel fuel := by
  induction fuel with
  | zero => rfl
  | succ fuel ih =>
      refine Program.ext fun env s => ?_
      rw [arrCreateFuel, retry, ih]
      generalize retry (createAttempt count) arrGc (.error .arrCreateAlloc) .outOfFuel fuel = again
      simp only [createAttempt, run_bind]
      split
      · rfl
      · simp only [run_bind, run_allocate, Outcome.andThen_done, Outcome.prepend_nil]
        split
        · simp only [run_bind]
          cases (arrStore (count :: List.replicate count.toNat 0)).run env
            { s with clock := s.clock + 1 } with
          | stopped e t es => rfl
          | done a t es => simp
        · simp only [run_pure, Outcome.andThen_done, Outcome.prepend_nil]
          rfl

end Requests

/-- The program ends; in the model, no bound on a loop is too small. -/
def Terminating {α : Type} (m : VM α) : Prop :=
  ∀ env s, (m.run env s).Satisfies (fun _ _ _ => True) fun reason _ _ => reason ≠ .outOfFuel

namespace Terminating

variable {α β : Type}

protected theorem pure (a : α) : Terminating (pure a : VM α) := fun _ _ => trivial

protected theorem get : Terminating (get : VM State) := fun _ _ => trivial

protected theorem modify (f : State → State) : Terminating (modify f : VM PUnit) :=
  fun _ _ => trivial

protected theorem destroy (e : Err) : Terminating (destroyIjvmNow e : VM α) := fun _ _ => nofun

protected theorem allocate : Terminating allocate := fun _ _ => trivial

protected theorem bind {m : VM α} {f : α → VM β} (first : Terminating m)
    (next : ∀ a, Terminating (f a)) : Terminating (m >>= f) := by
  intro env s
  rw [run_bind]
  exact (first env s).andThen fun a t _ _ => next a env t

protected theorem ite {c : Prop} [Decidable c] {yes no : VM α} (ifTrue : Terminating yes)
    (ifFalse : Terminating no) : Terminating (if c then yes else no) := by
  split
  · exact ifTrue
  · exact ifFalse

protected theorem arrGc : Terminating arrGc := by
  intro env s
  refine (arrGc_satisfies env s).mono (fun _ _ _ _ => trivial) ?_
  rintro e - - (⟨rfl, _⟩ | ⟨rfl, _⟩)
  · exact nofun
  · exact nofun

protected theorem lastAttempt {attempt : VM (Option α)} (first : Terminating attempt)
    (e : Err) : Terminating (lastAttempt attempt arrGc (.error e)) := by
  refine .bind first fun result => ?_
  cases result with
  | some a => exact .pure a
  | none => exact .bind .arrGc fun _ => .destroy e

end Terminating

/-- `t` is `s` without the arrays that a collection removes. -/
structure OnlyCollected (s t : State) : Prop where
  frame : t = { s with arrMem := t.arrMem, markedArrays := t.markedArrays, clock := t.clock }
  survivors : MArr.Survivors (fun q => q ∈ s.marked) s.arrMem t.arrMem

/-- The request makes a single attempt in `s`, or a single one in a state that a collection
has led to from `s`. -/
structure RetriesOnce {α : Type} (env : Env) (s : State) (request : VM α)
    (attempt : VM (Option α)) (failure : Err) : Prop where
  attempts : request.run env s = (lastAttempt attempt arrGc (.error failure)).run env s ∨
    ∃ t es, OnlyCollected s t ∧
      request.run env s = ((lastAttempt attempt arrGc (.error failure)).run env t).prepend es
  terminates : (request.run env s).Satisfies (fun _ _ _ => True)
    fun reason _ _ => reason ≠ .outOfFuel

/-- A failed attempt changes nothing. -/
def FailsCleanly {α : Type} (attempt : VM (Option α)) : Prop :=
  ∀ env s t es, attempt.run env s = .done none t es → t = { s with clock := t.clock }

section Repetitions

variable {α : Type} {attempt : VM (Option α)}

theorem settling_arrGc (env : Env) (clean : FailsCleanly attempt) :
    Settling env attempt arrGc State.Settled where
  settles collection := (Collected.of_done collection).2.settled
  failing settled failed := by
    rw [clean _ _ _ _ failed]
    exact settled
  idle := arrGc_settled

/-- A table without arrays is settled. -/
theorem settled_of_size_eq {s : State} (empty : s.arrMem.size = 0) : s.Settled := by
  intro q claimed
  have := (MArr.mem_claimed.mp claimed).1
  omega

theorem retriesOnce_of_eq {request : VM α} {failure : Err} (clean : FailsCleanly attempt)
    (terminating : Terminating attempt)
    (eq : ∀ env s, request.run env s = (retry attempt arrGc (.error failure) .outOfFuel
      (s.arrMem.size + 1)).run env s) (env : Env) (s : State) :
    RetriesOnce env s request attempt failure := by
  have attempts : request.run env s = (lastAttempt attempt arrGc (.error failure)).run env s ∨
      ∃ t es, OnlyCollected s t ∧ request.run env s =
        ((lastAttempt attempt arrGc (.error failure)).run env t).prepend es := by
    rw [eq]
    cases size : s.arrMem.size with
    | zero => exact Or.inl (retry_of_settled (settling_arrGc env clean) (settled_of_size_eq size))
    | succ n =>
        obtain single | ⟨t, u, k, es, fs, failed, recovered, _, run⟩ :=
          retry_cases n (.error failure) .outOfFuel s (settling_arrGc env clean)
        · exact Or.inl single
        · have collected := (Collected.of_done recovered).2
          have unchanged := clean env s t es failed
          rw [unchanged] at collected
          refine Or.inr ⟨u, _, ⟨?_, collected.survivors⟩, run⟩
          rw [collected.frame]
  refine ⟨attempts, ?_⟩
  have ends := terminating.lastAttempt failure
  obtain single | ⟨u, fs, _, again⟩ := attempts
  · rw [single]
    exact ends env s
  · rw [again, Outcome.satisfies_prepend]
    exact ends env u

end Repetitions

section Attempts

variable {env : Env} {s : State}

theorem octupleAttempt_failsCleanly : FailsCleanly octupleAttempt := by
  intro env s t es failed
  simp only [octupleAttempt, run_bind, run_get, Outcome.andThen_done, Outcome.prepend_nil] at failed
  split at failed
  · contradiction
  · simp only [run_bind, run_allocate, Outcome.andThen_done, Outcome.prepend_nil] at failed
    split at failed
    · simp at failed
    · cases failed
      rfl

theorem octupleAttempt_terminating : Terminating octupleAttempt :=
  .bind .get fun _ => .ite (.destroy _) (.bind .allocate fun _ =>
    .ite (.bind (.modify _) fun _ => .pure _) (.pure _))

theorem octupleStackSize_retriesOnce (env : Env) (s : State) :
    RetriesOnce env s octupleStackSize octupleAttempt .stackAlloc := by
  refine retriesOnce_of_eq octupleAttempt_failsCleanly octupleAttempt_terminating ?_ env s
  intro env s
  simp only [octupleStackSize, run_bind, run_get, Outcome.andThen_done, Outcome.prepend_nil,
    octupleStackSizeFuel_eq]

theorem marrAddElement_terminating {α : Type} (marr : MArrPtr α) (data : α) :
    Terminating (marrAddElement marr data) := by
  refine .bind (.bind .get fun _ => ?_) fun _ => .ite (.pure _) (.bind .get fun _ =>
    .bind (.modify _) fun _ => .pure _)
  exact .ite (.bind (.modify _) fun _ => .bind .arrGc fun _ => .bind .get fun _ => .pure _)
    (.bind (.modify _) fun _ => .bind .get fun _ => .pure _)

variable {α : Type} [Inhabited α] (marr : MArrPtr α)

theorem resizeAttempt_failsCleanly (newSize : Nat) : FailsCleanly (resizeAttempt marr newSize) := by
  intro env s t es failed
  simp only [resizeAttempt, run_bind, run_get, Outcome.andThen_done, Outcome.prepend_nil] at failed
  split at failed
  · contradiction
  · split at failed
    · contradiction
    · simp only [run_bind, run_allocate, Outcome.andThen_done, Outcome.prepend_nil] at failed
      split at failed
      · cases failed
        rfl
      · simp at failed

theorem resizeAttempt_terminating (newSize : Nat) : Terminating (resizeAttempt marr newSize) :=
  .bind .get fun _ => .ite (.destroy _) (.ite (.destroy _) (.bind .allocate fun _ =>
    .bind .allocate fun _ => .ite (.pure _) (.bind (.modify _) fun _ => .pure _)))

theorem marrResize_retriesOnce (newSize : Nat) (env : Env) (s : State) :
    RetriesOnce env s (marrResize marr newSize) (resizeAttempt marr newSize) .marrResizeAlloc := by
  refine retriesOnce_of_eq (resizeAttempt_failsCleanly marr newSize)
    (resizeAttempt_terminating marr newSize) ?_ env s
  intro env s
  simp only [marrResize, run_bind, run_get, Outcome.andThen_done, Outcome.prepend_nil,
    marrResizeFuel_eq]

theorem marrResize_terminating (newSize : Nat) : Terminating (marrResize marr newSize) :=
  fun env s => (marrResize_retriesOnce marr newSize env s).terminates

theorem arrStore_terminating (arr : Block) : Terminating (arrStore arr) := by
  have prepare : Terminating arrPrepare :=
    .bind .get fun _ => .ite (.bind (.modify _) fun _ => .ite (.destroy _)
      (marrResize_terminating arrMem _)) (.pure _)
  have save : Terminating (arrSave arr) :=
    .bind (marrAddElement_terminating arrMem arr) fun _ => .ite (.bind .get fun _ =>
      .bind (marrResize_terminating arrMem _) fun _ => marrAddElement_terminating arrMem arr)
      (.pure _)
  exact .bind prepare fun _ => .bind save fun _ => .ite (.destroy _) (.pure _)

theorem createAttempt_failsCleanly (count : Word) : FailsCleanly (createAttempt count) := by
  intro env s t es failed
  simp only [createAttempt] at failed
  split at failed
  · contradiction
  · simp only [run_bind, run_allocate, Outcome.andThen_done, Outcome.prepend_nil] at failed
    split at failed
    · rw [run_bind] at failed
      cases stored : (arrStore (count :: List.replicate count.toNat 0)).run env
          { s with clock := s.clock + 1 } with
      | stopped e u fs =>
          rw [stored] at failed
          contradiction
      | done a u fs =>
          rw [stored] at failed
          simp at failed
    · cases failed
      rfl

theorem createAttempt_terminating (count : Word) : Terminating (createAttempt count) :=
  .ite (.destroy _) (.bind .allocate fun _ =>
    .ite (.bind (arrStore_terminating _) fun _ => .pure _) (.pure _))

theorem arrCreate_retriesOnce (count : Word) (env : Env) (s : State) :
    RetriesOnce env s (arrCreate count) (createAttempt count) .arrCreateAlloc := by
  refine retriesOnce_of_eq (createAttempt_failsCleanly count) (createAttempt_terminating count) ?_
    env s
  intro env s
  simp only [arrCreate, run_bind, run_get, Outcome.andThen_done, Outcome.prepend_nil,
    arrCreateFuel_eq]

end Attempts

/-- A second collection removes nothing, and a request for memory is repeated at most once,
in a state that differs by a collection only. -/
theorem collection_settles {α : Type} [Inhabited α] (env : Env) (s : State) (marr : MArrPtr α)
    (newSize : Nat) (count : Word) :
    (∀ n s' es, arrGc.run env s = .done n s' es → SecondIdle env s') ∧
      RetriesOnce env s (arrCreate count) (createAttempt count) .arrCreateAlloc ∧
      RetriesOnce env s (marrResize marr newSize) (resizeAttempt marr newSize) .marrResizeAlloc ∧
      RetriesOnce env s octupleStackSize octupleAttempt .stackAlloc := by
  refine ⟨?_, arrCreate_retriesOnce count env s, marrResize_retriesOnce marr newSize env s,
    octupleStackSize_retriesOnce env s⟩
  intro n s' es collection
  obtain ⟨clean, collected⟩ := Collected.of_done collection
  exact arrGc_idle env collected.settled (collected.not_dangling clean)

end Ijvm
