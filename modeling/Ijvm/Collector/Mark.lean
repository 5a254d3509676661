import Ijvm.Collector.Table

/-!
# What `markArrays` marks

The marks after the scan of the stack are the roots, and the loop over the table is
one ordered pass of `Marking.onePass` over the reference graph. Both loops stop
exactly at a reference-like word whose index lies outside the table.
-/

namespace Ijvm

open Transcript

section Elements

variable {α : Type} (marr : MArrPtr α) (env : Env) (s : State) (i : Nat)

theorem marrCheckMarked_run : (marrCheckMarked marr i).run env s =
    if i ≥ (marr.get s).size then .stopped (.error .marrCheckBounds) s []
    else .done ((marr.get s).flag i) s [] := by
  simp only [marrCheckMarked, Program.run_bind, Program.run_get, Outcome.andThen_done]
  split <;> rfl

variable [Inhabited α]

theorem marrGetElement_run : (marrGetElement marr i).run env s =
    if i ≥ (marr.get s).size then .stopped (.error .marrGetBounds) s []
    else if (marr.get s).flag i ≠ true then .stopped (.error .marrGetUnclaimed) s []
    else .done ((marr.get s).value i) s [] := by
  simp only [marrGetElement, Program.run_bind, Program.run_get, Outcome.andThen_done]
  split
  · rfl
  · split <;> rfl

end Elements

theorem marrGetElement_claimed {α : Type} [Inhabited α] (marr : MArrPtr α) (env : Env) {s : State}
    {i : Nat} (h : i ∈ (marr.get s).claimed) :
    (marrGetElement marr i).run env s = .done ((marr.get s).value i) s [] := by
  obtain ⟨inside, flag⟩ := MArr.mem_claimed.mp h
  rw [marrGetElement_run, if_neg (by omega), if_neg (by simpa using flag)]

theorem marrGetElement_unclaimed {α : Type} [Inhabited α] (marr : MArrPtr α) (env : Env) {s : State}
    {i : Nat} (h : i ∉ (marr.get s).claimed) :
    ∃ e, (marrGetElement marr i).run env s = .stopped e s [] := by
  rw [marrGetElement_run]
  by_cases outside : i ≥ (marr.get s).size
  · exact ⟨_, if_pos outside⟩
  · have flag : (marr.get s).flag i ≠ true := fun flag =>
      h (MArr.mem_claimed.mpr ⟨by omega, flag⟩)
    exact ⟨_, by rw [if_neg outside, if_pos flag]⟩

/-- `t` differs from `s` only in its marks, and these are the set `M`. -/
def MarkedAre (s : State) (M : Set Nat) (t : State) : Prop :=
  ∃ marks, t = { s with markedArrays := marks } ∧ marks.length = s.arrMem.size ∧
    ∀ q, marks.getD q false = true ↔ q ∈ M

theorem MarkedAre.congr {s t : State} {M N : Set Nat} (h : MarkedAre s M t)
    (same : ∀ q, q ∈ M ↔ q ∈ N) : MarkedAre s N t := by
  obtain ⟨marks, rfl, length, marked⟩ := h
  exact ⟨marks, rfl, length, fun q => (marked q).trans (same q)⟩

/-- A fresh mark table has no marks. -/
theorem markedAre_fresh (s : State) :
    MarkedAre s ∅ { s with markedArrays := List.replicate s.arrMem.size false } := by
  refine ⟨_, rfl, by simp, ?_⟩
  intro q
  simp only [Set.mem_empty_iff_false, iff_false, List.getD_eq_getElem?_getD,
    List.getElem?_replicate]
  split <;> simp

/-- Looking up an index marks it if it is claimed, and stops if it is not in the
table at all. -/
theorem markIndex_satisfies {env : Env} {s t : State} {M : Set Nat} {i : Nat}
    (h : MarkedAre s M t) :
    ((markIndex i).run env t).Satisfies
      (fun _ t' _ => i < s.arrMem.size ∧
        MarkedAre s {q | q ∈ M ∨ (q = i ∧ q ∈ s.arrMem.claimed)} t')
      (fun e _ _ => e = .error .marrCheckBounds ∧ s.arrMem.size ≤ i) := by
  obtain ⟨marks, rfl, length, marked⟩ := h
  simp only [markIndex, Program.run_bind, marrCheckMarked_run, arrMem]
  by_cases outside : i ≥ s.arrMem.size
  · simp [outside]
  · rw [if_neg outside, Outcome.andThen_done, Outcome.prepend_nil]
    by_cases flag : s.arrMem.flag i = true
    · rw [if_pos flag]
      refine ⟨by omega, marks.set i true, rfl, by simpa using length, ?_⟩
      intro q
      rw [List.getD_eq_getElem?_getD, List.getElem?_set]
      by_cases same : i = q
      · subst same
        simp [length, show i < s.arrMem.size by omega, flag]
      · rw [if_neg same, ← List.getD_eq_getElem?_getD, marked q]
        simp [Ne.symm same]
    · rw [if_neg flag]
      refine ⟨by omega, marks, rfl, length, ?_⟩
      intro q
      rw [marked q]
      constructor
      · exact Or.inl
      · rintro (old | ⟨rfl, claimed⟩)
        · exact old
        · exact absurd (MArr.mem_claimed.mp claimed).2 flag

theorem MarkedAre.gCpu_eq {s t : State} {M : Set Nat} (h : MarkedAre s M t) : t.gCpu = s.gCpu := by
  obtain ⟨_, rfl, _, _⟩ := h
  rfl

theorem MarkedAre.arrMem_eq {s t : State} {M : Set Nat} (h : MarkedAre s M t) :
    t.arrMem = s.arrMem := by
  obtain ⟨_, rfl, _, _⟩ := h
  rfl

/-- The program looks at the word `w`: it marks the claimed array that `w` refers to,
and stops exactly if `w` dangles. -/
def LooksAt (env : Env) (s : State) (M : Set Nat) (w : Word) (m : VM Unit) : Prop :=
  ∀ N t, M ⊆ N → MarkedAre s N t →
    (m.run env t).Satisfies
      (fun _ t' _ => ¬ Dangles w s.arrMem.size ∧
        MarkedAre s {q | q ∈ N ∨ (q ∈ s.arrMem.claimed ∧ Refers w q)} t')
      (fun e _ _ => e = .error .marrCheckBounds ∧ Dangles w s.arrMem.size)

theorem looksAt_markIndex (env : Env) (s : State) (M : Set Nat) {w : Word}
    (ref : isArrRef w = true) : LooksAt env s M w (markIndex (refToIndex w)) := by
  intro N t _ h
  refine (markIndex_satisfies h).mono ?_ ?_
  · rintro - t' - ⟨inside, marks⟩
    refine ⟨fun dangling => absurd dangling.2 (by omega), marks.congr ?_⟩
    intro q
    simp only [Refers, ref, true_and, Set.mem_ofPred_eq, eq_comm, and_comm]
  · rintro e - - ⟨rfl, outside⟩
    exact ⟨rfl, ref, outside⟩

/-- A word that is no reference, or that refers to an array with a mark already, may
be passed over. -/
theorem looksAt_pure (env : Env) {s : State} {M : Set Nat} {w : Word}
    (known : isArrRef w = true → refToIndex w ∈ s.arrMem.claimed ∧ refToIndex w ∈ M) :
    LooksAt env s M w (pure ()) := by
  intro N t sub h
  constructor
  · rintro ⟨ref, outside⟩
    have inside := (MArr.mem_claimed.mp (known ref).1).1
    omega
  · apply h.congr
    intro q
    constructor
    · exact Or.inl
    · rintro (old | ⟨_, ref, rfl⟩)
      · exact old
      · exact sub (known ref).2

/-- What is marked after `M` when the words `first, …, k - 1` have been looked at. -/
private def withWords (s : State) (M : Set Nat) (words : Nat → Word) (first k : Nat) : Set Nat :=
  {q | q ∈ M ∨ (q ∈ s.arrMem.claimed ∧ ∃ j, first ≤ j ∧ j < k ∧ Refers (words j) q)}

private theorem mem_withWords_succ {s : State} {M : Set Nat} {words : Nat → Word}
    {first k q : Nat} (le : first ≤ k) :
    q ∈ withWords s M words first (k + 1) ↔
      q ∈ withWords s M words first k ∨ (q ∈ s.arrMem.claimed ∧ Refers (words k) q) := by
  constructor
  · rintro (old | ⟨claimed, j, above, below, refers⟩)
    · exact Or.inl (Or.inl old)
    · rcases Nat.lt_succ_iff_lt_or_eq.mp below with earlier | rfl
      · exact Or.inl (Or.inr ⟨claimed, j, above, earlier, refers⟩)
      · exact Or.inr ⟨claimed, refers⟩
  · rintro ((old | ⟨claimed, j, above, below, refers⟩) | ⟨claimed, refers⟩)
    · exact Or.inl old
    · exact Or.inr ⟨claimed, j, above, by omega, refers⟩
    · exact Or.inr ⟨claimed, k, le, by omega, refers⟩

/-- A loop that looks at a range of words marks all that they refer to, and stops
exactly if one of them dangles. -/
theorem markWords_satisfies {env : Env} {s t : State} {M : Set Nat} {words : Nat → Word}
    {first count : Nat} {body : Nat → VM Unit}
    (looks : ∀ k, first ≤ k → k < first + count → LooksAt env s M (words k) (body k))
    (h : MarkedAre s M t) :
    ((Program.forRange first count body).run env t).Satisfies
      (fun _ t' _ => (∀ j, first ≤ j → j < first + count → ¬ Dangles (words j) s.arrMem.size) ∧
        MarkedAre s (withWords s M words first (first + count)) t')
      (fun e _ _ => e = .error .marrCheckBounds ∧
        ∃ j, first ≤ j ∧ j < first + count ∧ Dangles (words j) s.arrMem.size) := by
  refine Program.forRange_satisfies
    (J := fun k t => (∀ j, first ≤ j → j < k → ¬ Dangles (words j) s.arrMem.size) ∧
      MarkedAre s (withWords s M words first k) t)
    (E := fun e _ => e = Stop.error .marrCheckBounds ∧
      ∃ j, first ≤ j ∧ j < first + count ∧ Dangles (words j) s.arrMem.size) ?_ ?_
  · refine ⟨fun j above below => absurd below (by omega), h.congr fun q => ?_⟩
    constructor
    · exact Or.inl
    · rintro (old | ⟨_, j, above, below, _⟩)
      · exact old
      · omega
  · rintro k u above below ⟨clean, marks⟩
    refine (looks k above below _ u (fun q old => Or.inl old) marks).mono ?_ ?_
    · rintro - u' - ⟨cleanHere, marks'⟩
      constructor
      · intro j le lt
        rcases Nat.lt_succ_iff_lt_or_eq.mp lt with earlier | rfl
        · exact clean j le earlier
        · exact cleanHere
      · exact marks'.congr fun q => (mem_withWords_succ above).symm
    · rintro e - - ⟨rfl, dangling⟩
      exact ⟨rfl, k, above, below, dangling⟩

theorem looksAt_markStackElement (env : Env) (s : State) (M : Set Nat) (k : Nat) :
    LooksAt env s M (s.gCpu.stack k) (markStackElement k) := by
  intro N t sub h
  simp only [markStackElement, Program.run_bind, Program.run_get, Outcome.andThen_done,
    Program.run_emit, Outcome.satisfies_prepend, h.gCpu_eq]
  split
  · exact looksAt_markIndex env s M ‹_› N t sub h
  · exact looksAt_pure env (fun ref => absurd ref ‹_›) N t sub h

/-- The scan of the stack marks the roots. -/
theorem markStack_satisfies {env : Env} {s t : State} (h : MarkedAre s ∅ t) :
    ((Program.forRange 0 s.gCpu.sp.toNat markStackElement).run env t).Satisfies
      (fun _ t' _ => (¬ s.RootWord fun w => Dangles w s.arrMem.size) ∧ MarkedAre s s.arrRoots t')
      (fun e _ _ => e = .error .marrCheckBounds ∧
        s.RootWord fun w => Dangles w s.arrMem.size) := by
  refine (markWords_satisfies (fun k _ _ => looksAt_markStackElement env s ∅ k) h).mono ?_ ?_
  · rintro - u - ⟨clean, marks⟩
    constructor
    · rintro ⟨k, below, dangling⟩
      exact clean k (Nat.zero_le k) (by omega) dangling
    · apply marks.congr
      intro q
      simp [withWords, State.arrRoots, State.RootWord]
  · rintro e - - ⟨rfl, k, _, below, dangling⟩
    exact ⟨rfl, k, by omega, dangling⟩

/-- The self reference that the loop over the elements passes over is no omission:
the array it belongs to is marked. -/
theorem looksAt_markArrayElement (env : Env) {s : State} {M : Set Nat} {p : Nat}
    (claimed : p ∈ s.arrMem.claimed) (here : p ∈ M) (arrPtr : Block) (el : Nat) :
    LooksAt env s M (arrPtr.cell el) (markArrayElement p arrPtr el) := by
  unfold markArrayElement
  by_cases ref : isArrRef (arrPtr.cell el) = true
  · by_cases self : refToIndex (arrPtr.cell el) = p
    · simpa [ref, self] using looksAt_pure env fun _ => (by rw [self]; exact ⟨claimed, here⟩)
    · simpa [ref, self] using looksAt_markIndex env s M ref
  · simpa [ref] using looksAt_pure env fun h => absurd h ref

/-- The visit to index `p` of the table. -/
theorem markElementsOf_satisfies {env : Env} {s t : State} {p : Nat}
    (h : MarkedAre s (Marking.markedBefore s.arrEdge s.arrRoots p) t) :
    ((markElementsOf p).run env t).Satisfies
      (fun _ t' _ =>
        (s.Scanned p → ¬ s.ElementWord p fun w => Dangles w s.arrMem.size) ∧
          MarkedAre s (Marking.markedUpTo s.arrEdge s.arrRoots p) t')
      (fun e _ _ => e = .error .marrCheckBounds ∧ s.Scanned p ∧
        s.ElementWord p fun w => Dangles w s.arrMem.size) := by
  have mark : t.markedArrays.getD p false = true ↔ s.Scanned p := by
    obtain ⟨marks, rfl, _, marked⟩ := h
    exact (marked p).trans Marking.mem_markedBefore_self
  simp only [markElementsOf, Program.run_bind, Program.run_get, Outcome.andThen_done,
    Outcome.prepend_nil]
  by_cases scanned : s.Scanned p
  · have claimed := scanned.claimed
    rw [if_pos (mark.mpr scanned), Program.run_bind, marrGetElement_claimed
      arrMem env (by simpa [arrMem, h.arrMem_eq] using claimed), Outcome.andThen_done,
      Outcome.prepend_nil]
    simp only [arrMem, h.arrMem_eq]
    refine (markWords_satisfies (fun el _ _ => looksAt_markArrayElement env claimed
      (Marking.mem_markedBefore_self.mpr scanned) (s.arrMem.value p) el) h).mono ?_ ?_
    · rintro - u - ⟨clean, marks⟩
      constructor
      · rintro - ⟨el, above, below, dangling⟩
        exact clean el above (by unfold Block.count at below; omega) dangling
      · apply marks.congr
        intro q
        rw [Marking.mem_markedUpTo_of_ascending scanned]
        refine or_congr_right ?_
        constructor
        · rintro ⟨target, el, above, below, refers⟩
          exact ⟨claimed, target, el, above, by unfold Block.count; omega, refers⟩
        · rintro ⟨_, target, el, above, below, refers⟩
          exact ⟨target, el, above, by unfold Block.count at below; omega, refers⟩
    · rintro e - - ⟨rfl, el, above, below, dangling⟩
      exact ⟨rfl, scanned, el, above, by unfold Block.count; omega, dangling⟩
  · rw [if_neg (mt mark.mp scanned)]
    refine ⟨fun h => absurd h scanned, ?_⟩
    rwa [Marking.markedUpTo_of_not_ascending scanned]

private theorem markedBefore_succ (s : State) (p : Nat) :
    Marking.markedBefore s.arrEdge s.arrRoots (p + 1) =
      Marking.markedUpTo s.arrEdge s.arrRoots p := by
  simp only [Marking.markedBefore, Marking.markedUpTo, Nat.lt_succ_iff]

/-- From a fresh mark table, `markArrays` returns exactly if no word that it looks at
dangles, and then it has marked what one ordered pass marks. -/
theorem markArrays_satisfies (env : Env) {s t : State} (h : MarkedAre s ∅ t) :
    (markArrays.run env t).Satisfies
      (fun _ t' _ => ¬ s.Dangling ∧ MarkedAre s s.marked t')
      (fun e _ _ => e = .error .marrCheckBounds ∧ s.Dangling) := by
  simp only [markArrays, Program.run_bind, Program.run_get, Outcome.andThen_done,
    Outcome.prepend_nil, h.gCpu_eq]
  refine Outcome.Satisfies.andThen ((markStack_satisfies h).mono (fun _ _ _ done => done) ?_) ?_
  · rintro e - - ⟨rfl, dangling⟩
    exact ⟨rfl, Or.inl dangling⟩
  rintro - u - ⟨clean, marks⟩
  rw [marks.arrMem_eq]
  refine (Program.forRange_satisfies
    (J := fun p t => (∀ q, q < p → s.Scanned q →
        ¬ s.ElementWord q fun w => Dangles w s.arrMem.size) ∧
      MarkedAre s (Marking.markedBefore s.arrEdge s.arrRoots p) t)
    (E := fun e _ => e = Stop.error .marrCheckBounds ∧ s.Dangling) ?_ ?_).mono
    ?_ fun _ _ _ stopped => stopped
  · refine ⟨fun q below => absurd below (Nat.not_lt_zero q), marks.congr fun q => ?_⟩
    simp [Marking.markedBefore]
  · rintro p v - - ⟨cleanBelow, marksBelow⟩
    refine (markElementsOf_satisfies marksBelow).mono ?_ ?_
    · rintro - v' - ⟨cleanHere, marksHere⟩
      rw [markedBefore_succ]
      refine ⟨fun q below => ?_, marksHere⟩
      rcases Nat.lt_succ_iff_lt_or_eq.mp below with earlier | rfl
      · exact cleanBelow q earlier
      · exact cleanHere
    · rintro e - - ⟨rfl, scanned, dangling⟩
      exact ⟨rfl, Or.inr ⟨p, scanned, dangling⟩⟩
  · rintro - v - ⟨cleanAll, marksAll⟩
    rw [Nat.zero_add] at cleanAll marksAll
    constructor
    · rintro (root | ⟨p, scanned, dangling⟩)
      · exact clean root
      · exact cleanAll p (MArr.mem_claimed.mp scanned.claimed).1 scanned dangling
    · rw [Marking.markedBefore_eq_onePass fun p q e => (MArr.mem_claimed.mp e.1).1] at marksAll
      exact marksAll

end Ijvm
