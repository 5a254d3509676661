import Ijvm.Collector.Mark

/-!
# What `sweepArrays` leaves, and the specification of `arrGc`

Sweeping removes the entries that carry no mark and counts them. A survivor keeps its
index and its memory. Together with `Collector.Mark` this determines both outcomes of
the collector: it stops exactly at a dangling word or at a failed allocation, and
otherwise it keeps the marked arrays and changes nothing else.
-/

namespace Ijvm

open Transcript

namespace MArr

variable {α : Type} [Inhabited α]

/-- `m'` is `m` without the entries outside `keep`. -/
structure Survivors (keep : Nat → Prop) (m m' : MArr α) : Prop where
  size_eq : m'.size = m.size
  map_length : m'.map.length = m.map.length
  values_length : m'.values.length = m.values.length
  mem_iff : ∀ i, i ∈ m'.claimed ↔ i ∈ m.claimed ∧ keep i
  value_eq : ∀ i ∈ m'.claimed, m'.value i = m.value i

namespace Survivors

variable {keep keep' : Nat → Prop} {m m' : MArr α}

theorem refl (m : MArr α) : Survivors (fun _ => True) m m :=
  ⟨rfl, rfl, rfl, by simp, fun _ _ => rfl⟩

theorem congr (h : Survivors keep m m') (same : ∀ i ∈ m.claimed, (keep i ↔ keep' i)) :
    Survivors keep' m m' := by
  refine ⟨h.size_eq, h.map_length, h.values_length, ?_, h.value_eq⟩
  intro i
  rw [h.mem_iff]
  exact and_congr_right (same i)

theorem subset (h : Survivors keep m m') : m'.claimed ⊆ m.claimed :=
  fun i member => ((h.mem_iff i).mp member).1

/-- Clearing one more entry. -/
theorem clear (h : Survivors keep m m') (i : Nat) :
    Survivors (fun j => keep j ∧ j ≠ i) m (m'.clear i) := by
  refine ⟨h.size_eq, ?_, ?_, ?_, ?_⟩
  · simpa [MArr.clear] using h.map_length
  · simpa [MArr.clear] using h.values_length
  · intro j
    rw [claimed_clear, Finset.mem_erase, h.mem_iff]
    tauto
  · intro j member
    rw [claimed_clear, Finset.mem_erase] at member
    rw [clear_value_ne m' (Ne.symm member.1), h.value_eq j member.2]

end Survivors
end MArr

section Removal

variable {env : Env} {s : State} {i : Nat}

theorem marrCheckMarked_inside {α : Type} {marr : MArrPtr α} (inside : i < (marr.get s).size) :
    (marrCheckMarked marr i).run env s = .done ((marr.get s).flag i) s [] := by
  rw [marrCheckMarked_run, if_neg (by omega)]

theorem arrRemove_run (claimed : i ∈ s.arrMem.claimed) :
    (arrRemove i).run env s = .done () { s with arrMem := s.arrMem.clear i } [] := by
  have inside := (MArr.mem_claimed.mp claimed).1
  simp only [arrRemove, Program.run_bind, marrGetElement_claimed arrMem env claimed,
    Outcome.andThen_done, Outcome.prepend_nil, marrRemoveElement, Program.run_get]
  rw [if_neg (by simpa [arrMem] using inside)]
  rfl

end Removal

/-- The state of the sweep when the indices below `i` have been visited. -/
structure Sweeping (t : State) (i numSwept : Nat) (u : State) : Prop where
  frame : u = { t with arrMem := u.arrMem }
  survivors : MArr.Survivors (fun q => q < i → t.markedArrays.getD q false = true)
    t.arrMem u.arrMem
  count : numSwept + u.arrMem.claimed.card = t.arrMem.claimed.card

theorem Sweeping.start (t : State) : Sweeping t 0 0 t := by
  refine ⟨rfl, (MArr.Survivors.refl t.arrMem).congr ?_, Nat.zero_add _⟩
  intro i _
  simp

/-- A visit to an index that needs no action. -/
theorem Sweeping.skip {t u : State} {i n : Nat} (h : Sweeping t i n u)
    (keep : i ∈ u.arrMem.claimed → t.markedArrays.getD i false = true) :
    Sweeping t (i + 1) n u := by
  obtain ⟨frame, survivors, count⟩ := h
  refine ⟨frame, survivors.congr ?_, count⟩
  intro q claimed
  rw [Nat.lt_succ_iff_lt_or_eq]
  constructor
  · rintro old (below | rfl)
    · exact old below
    · exact keep ((survivors.mem_iff q).mpr ⟨claimed, old⟩)
  · exact fun new below => new (Or.inl below)

/-- A visit to an index that is claimed but not marked. -/
theorem Sweeping.remove {t u : State} {i n : Nat} (h : Sweeping t i n u)
    (claimed : i ∈ u.arrMem.claimed) (unmarked : t.markedArrays.getD i false ≠ true) :
    Sweeping t (i + 1) (n + 1) { u with arrMem := u.arrMem.clear i } := by
  obtain ⟨frame, survivors, count⟩ := h
  refine ⟨?_, (survivors.clear i).congr ?_, ?_⟩
  · rw [frame]
  · intro q _
    rw [Nat.lt_succ_iff_lt_or_eq]
    constructor
    · rintro ⟨old, ne⟩ (below | rfl)
      · exact old below
      · exact absurd rfl ne
    · intro new
      exact ⟨fun below => new (Or.inl below), fun same => unmarked (same ▸ new (Or.inr same))⟩
  · rw [MArr.claimed_clear, Finset.card_erase_of_mem claimed]
    have := Finset.card_pos.mpr ⟨i, claimed⟩
    omega

theorem sweepArray_satisfies {env : Env} {t u : State} {i n : Nat} (h : Sweeping t i n u)
    (inside : i < t.arrMem.size) :
    ((sweepArray i n).run env u).Satisfies (fun n' u' _ => Sweeping t (i + 1) n' u')
      (fun _ _ _ => False) := by
  have marks : u.markedArrays = t.markedArrays := by rw [h.frame]
  have inside' : i < (arrMem.get u).size := lt_of_lt_of_eq inside h.survivors.size_eq.symm
  simp only [sweepArray, Program.run_bind, Program.run_get, Outcome.andThen_done,
    Outcome.prepend_nil, marks]
  by_cases marked : t.markedArrays.getD i false = true
  · rw [if_neg (not_not.mpr marked)]
    exact h.skip fun _ => marked
  · rw [if_pos marked, Program.run_bind, marrCheckMarked_inside inside', Outcome.andThen_done,
      Outcome.prepend_nil]
    by_cases flag : u.arrMem.flag i = true
    · have claimed : i ∈ u.arrMem.claimed := MArr.mem_claimed.mpr ⟨inside', flag⟩
      rw [show (arrMem.get u).flag i = true from flag, if_pos rfl, Program.run_bind,
        arrRemove_run claimed]
      exact h.remove claimed marked
    · rw [if_neg (show ¬ (arrMem.get u).flag i = true from flag)]
      exact h.skip fun claimed => absurd (MArr.mem_claimed.mp claimed).2 flag

/-- The sweep always returns. It keeps the arrays that carry a mark and returns the
number of those that it removed. -/
theorem sweepArrays_satisfies (env : Env) (t : State) :
    (sweepArrays.run env t).Satisfies
      (fun n u _ => u = { t with arrMem := u.arrMem } ∧
        MArr.Survivors (fun q => t.markedArrays.getD q false = true) t.arrMem u.arrMem ∧
        n + u.arrMem.claimed.card = t.arrMem.claimed.card)
      (fun _ _ _ => False) := by
  simp only [sweepArrays, Program.run_bind, Program.run_get, Outcome.andThen_done,
    Outcome.prepend_nil]
  refine (Program.foldRange_satisfies (J := Sweeping t) (E := fun _ _ => False)
    (Sweeping.start t) ?_).mono ?_ fun _ _ _ stopped => stopped
  · intro i n u _ below sweeping
    exact sweepArray_satisfies sweeping (by omega)
  · rintro n u - ⟨frame, survivors, count⟩
    refine ⟨frame, survivors.congr fun q claimed => ?_, count⟩
    have := (MArr.mem_claimed.mp claimed).1
    constructor
    · exact fun old => old (by omega)
    · exact fun marked _ => marked

/-- What a complete run of the collector does to the state `s`: the arrays of the
ordered pass survive, `n` arrays are removed, the rest of the state is as before. -/
structure Collected (s : State) (n : Nat) (s' : State) : Prop where
  frame : s' = { s with
    arrMem := s'.arrMem, markedArrays := s'.markedArrays, clock := s.clock + 1 }
  survivors : MArr.Survivors (fun q => q ∈ s.marked) s.arrMem s'.arrMem
  count : n + s'.arrMem.claimed.card = s.arrMem.claimed.card

/-- Both outcomes of the collector. -/
theorem arrGc_satisfies (env : Env) (s : State) :
    (arrGc.run env s).Satisfies
      (fun n s' _ => env.alloc s.clock = true ∧ ¬ s.Dangling ∧ Collected s n s')
      (fun e _ _ => (e = .error .arrGcAlloc ∧ env.alloc s.clock = false) ∨
        (e = .error .marrCheckBounds ∧ env.alloc s.clock = true ∧ s.Dangling)) := by
  simp only [arrGc, Program.run_bind, Program.run_get, Program.run_emit, run_allocate,
    Outcome.andThen_done, Outcome.prepend_nil, Outcome.satisfies_prepend]
  by_cases granted : env.alloc s.clock = true
  · rw [if_pos granted, Program.run_bind, Program.run_modify, Outcome.andThen_done,
      Outcome.prepend_nil, Program.run_bind]
    have fresh := markedAre_fresh { s with clock := s.clock + 1 }
    refine Outcome.Satisfies.andThen ((markArrays_satisfies env fresh).mono
      (fun _ _ _ done => done) ?_) ?_
    · rintro e - - ⟨rfl, dangling⟩
      exact Or.inr ⟨rfl, granted, dangling⟩
    · rintro - u - ⟨clean, marks, rfl, length, marked⟩
      refine (sweepArrays_satisfies env _).mono ?_ fun _ _ _ stopped => stopped.elim
      rintro n s' - ⟨frame, survivors, count⟩
      refine ⟨granted, clean, ?_, survivors.congr fun q _ => marked q, count⟩
      rw [frame]
  · rw [if_neg granted]
    exact Or.inl ⟨rfl, by simpa using granted⟩

theorem Collected.of_done {env : Env} {s s' : State} {n : Nat} {es : List Event}
    (h : arrGc.run env s = .done n s' es) : ¬ s.Dangling ∧ Collected s n s' := by
  have spec := arrGc_satisfies env s
  rw [h] at spec
  exact ⟨spec.2.1, spec.2.2⟩

end Ijvm
