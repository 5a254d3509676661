import Ijvm.Arrays.Table
import Ijvm.Heap.SlotMap

/-!
# Mapped arrays by their claimed indices

A table is read as a partial map from its claimed indices to their values. Storing, clearing
and resizing are operations of such a map. The two tables of the machine differ in what a
collection does to them: it takes elements out of the array table and leaves the connections
alone.
-/

namespace Ijvm

open Transcript SlotMap

namespace MArr

variable {α : Type} [Inhabited α]

/-- The elements of a table by their indices. -/
def slots (m : MArr α) : Slots α where
  size := m.size
  entry i := if i ∈ m.claimed then some (m.value i) else none
  inside i defined := by
    by_contra outside
    exact defined (if_neg fun claimed => outside (mem_claimed.mp claimed).1)

/-- Map and values have `size` cells each, and a cell that is not claimed holds the default.
The size is below the value that stands for no index. -/
structure Tidy (m : MArr α) : Prop where
  map_length : m.map.length = m.size
  values_length : m.values.length = m.size
  cleared : ∀ i < m.size, i ∉ m.claimed → m.value i = default
  size_lt : m.size < sizeMaxUint32

section Slots

variable {m m' : MArr α} {i : Nat}

@[simp] theorem slots_size : m.slots.size = m.size := rfl

theorem slots_entry (m : MArr α) (i : Nat) :
    m.slots.entry i = if i ∈ m.claimed then some (m.value i) else none := rfl

theorem slots_ne_none : m.slots.entry i ≠ none ↔ i ∈ m.claimed := by
  rw [slots_entry]
  split <;> simp [*]

theorem slots_eq_some {x : α} : m.slots.entry i = some x ↔ i ∈ m.claimed ∧ m.value i = x := by
  rw [slots_entry]
  split <;> simp [*]

/-- The search finds the lowest free index, or the table is full. -/
theorem lowestFree_of_firstFree (h : m.firstFree = some i) : m.slots.LowestFree i := by
  obtain ⟨inside, free, before⟩ := firstFree_eq_some h
  refine ⟨inside, if_neg ?_, fun j below => slots_ne_none.mpr (before j below)⟩
  rw [mem_claimed, free]
  exact fun claimed => Bool.false_ne_true claimed.2

theorem full_of_firstFree (h : m.firstFree = none) : m.slots.Full :=
  fun j below => slots_ne_none.mpr (firstFree_eq_none h j below)

theorem slots_store (map_length : m.map.length = m.size) (values_length : m.values.length = m.size)
    (x : α) (inside : i < m.size) : (m.store i x).slots = m.slots.put i x inside := by
  refine Slots.ext rfl (funext fun j => ?_)
  rw [slots_entry, claimed_store x inside map_length]
  by_cases same : j = i
  · subst same
    simp [Slots.put, value_store_self inside values_length]
  · simp [Slots.put, slots_entry, same, value_store_ne same]

theorem slots_clear (m : MArr α) (i : Nat) : (m.clear i).slots = m.slots.drop i := by
  refine Slots.ext rfl (funext fun j => ?_)
  rw [slots_entry, claimed_clear]
  by_cases same : j = i
  · subst same
    simp [Slots.drop]
  · simp [Slots.drop, slots_entry, same, clear_value_ne m (Ne.symm same)]

theorem slots_resized (tidy : m.Tidy) {newSize : Nat} (larger : m.size ≤ newSize) :
    (m.resized newSize).slots = m.slots.grow newSize larger := by
  refine Slots.ext rfl (funext fun j => ?_)
  rw [slots_entry, claimed_resized tidy.map_length larger, value_resized tidy.values_length]
  rfl

end Slots

namespace Tidy

variable {m m' : MArr α} {i : Nat}

theorem empty : Tidy ({ size := 0, map := [], values := [] } : MArr α) :=
  ⟨rfl, rfl, fun i below => absurd below (Nat.not_lt_zero i), Nat.zero_lt_succ _⟩

theorem store (tidy : m.Tidy) (x : α) (inside : i < m.size) : (m.store i x).Tidy := by
  refine ⟨by simpa [MArr.store] using tidy.map_length,
    by simpa [MArr.store] using tidy.values_length, fun j below unclaimed => ?_, tidy.size_lt⟩
  rw [claimed_store x inside tidy.map_length, Finset.mem_insert, not_or] at unclaimed
  rw [value_store_ne unclaimed.1]
  exact tidy.cleared j below unclaimed.2

theorem clear (tidy : m.Tidy) (i : Nat) : (m.clear i).Tidy := by
  refine ⟨by simpa [MArr.clear] using tidy.map_length,
    by simpa [MArr.clear] using tidy.values_length, fun j below unclaimed => ?_, tidy.size_lt⟩
  by_cases same : i = j
  · subst same
    simp [MArr.clear, MArr.value, List.getD_eq_getElem?_getD, tidy.values_length,
      show i < m.size from below]
  · rw [claimed_clear, Finset.mem_erase, not_and] at unclaimed
    rw [clear_value_ne m same]
    exact tidy.cleared j below (unclaimed (Ne.symm same))

/-- Fresh memory holds zeros behind the cells that are copied. -/
theorem resized (tidy : m.Tidy) {newSize : Nat} (larger : m.size ≤ newSize)
    (fits : newSize < sizeMaxUint32) : (m.resized newSize).Tidy := by
  refine ⟨length_map_resized tidy.map_length larger,
    length_values_resized tidy.values_length larger, fun j _ unclaimed => ?_, fits⟩
  rw [claimed_resized tidy.map_length larger] at unclaimed
  rw [value_resized tidy.values_length]
  by_cases below : j < m.size
  · exact tidy.cleared j below unclaimed
  · rw [MArr.value, List.getD_eq_getElem?_getD, List.getElem?_eq_none]
    · rfl
    · rw [tidy.values_length]
      omega

end Tidy

/-- A collection is one of the partial map. -/
theorem Survivors.slots {keep : Nat → Prop} {m m' : MArr α} {swept : Prop}
    (h : Survivors keep m m') (fixed : ¬ swept → ∀ i ∈ m.claimed, keep i) :
    Collects swept m.slots m'.slots := by
  refine ⟨h.size_eq, fun i => ?_⟩
  by_cases claimed : i ∈ m'.claimed
  · left
    rw [slots_entry, slots_entry, if_pos claimed, if_pos (h.subset claimed), h.value_eq i claimed]
  · by_cases before : i ∈ m.claimed
    · refine Or.inr ⟨?_, if_neg claimed⟩
      by_contra same
      exact claimed ((h.mem_iff i).mpr ⟨before, fixed same i before⟩)
    · left
      rw [slots_entry, slots_entry, if_neg claimed, if_neg before]

end MArr

section Collector

/-- The collector clears what it removes. -/
theorem sweepArray_tidy (i n : Nat) :
    Program.Keeps (fun _ => True) (fun s => s.arrMem.Tidy) (fun _ => True) (sweepArray i n) := by
  have checked : Program.Keeps (fun _ => True) (fun s => s.arrMem.Tidy) (fun _ => True)
      (marrCheckMarked arrMem i) :=
    .bind .get fun _ => .ite (fun _ => .stop _) fun _ => .pure _
  have removed : Program.Keeps (fun _ => True) (fun s => s.arrMem.Tidy) (fun _ => True)
      (arrRemove i) := by
    refine .bind (.bind .get fun _ => .ite (fun _ => .stop _) fun _ =>
      .ite (fun _ => .stop _) fun _ => .pure _) fun _ => ?_
    exact .get_bind fun s tidy => .ite (fun _ => .stop _) fun _ => .modify fun _ _ => tidy.clear i
  exact .bind .get fun _ => .ite (fun _ => .bind checked fun _ => .ite
    (fun _ => .bind removed fun _ => .pure _) fun _ => .pure _) fun _ => .pure _

theorem sweepArrays_tidy :
    Program.Keeps (fun _ => True) (fun s => s.arrMem.Tidy) (fun _ => True) sweepArrays :=
  .bind .get fun _ => .foldRange fun i n => sweepArray_tidy i n

theorem arrGc_tidy {env : Env} {s : State} (tidy : s.arrMem.Tidy) :
    (arrGc.run env s).Returns fun _ t => t.arrMem.Tidy := by
  simp only [arrGc, Program.run_bind, Program.run_get, Program.run_emit, run_allocate,
    Outcome.andThen_done, Outcome.prepend_nil, Outcome.returns_prepend]
  split
  · simp only [Program.run_bind, Program.run_modify, Outcome.andThen_done, Outcome.prepend_nil]
    have fresh := markedAre_fresh { s with clock := s.clock + 1 }
    refine Outcome.Returns.andThen (Q := fun _ t => t.arrMem.Tidy)
      ((markArrays_satisfies env fresh).returns ?_) fun _ t tidy => ?_
    · rintro - t - ⟨_, marks⟩
      rw [marks.arrMem_eq]
      exact tidy
    · exact (sweepArrays_tidy env t tidy fun _ _ => trivial).1
  · exact Outcome.returns_stopped

end Collector

/-- `m'` is what collections leave of `m`. -/
structure MArr.Cleaned {α : Type} [Inhabited α] (swept : Prop) (m m' : MArr α) : Prop where
  map_length : m'.map.length = m.map.length
  values_length : m'.values.length = m.values.length
  collects : Collects swept m.slots m'.slots
  tidy : m.Tidy → m'.Tidy

namespace MArr.Cleaned

variable {α : Type} [Inhabited α] {swept : Prop} {m m' m'' : MArr α}

theorem refl (m : MArr α) : Cleaned swept m m := ⟨rfl, rfl, .refl _, id⟩

theorem size_eq (h : Cleaned swept m m') : m'.size = m.size := h.collects.size

end MArr.Cleaned

/-- The pointer names a table of the state, which the collector sweeps or leaves alone. -/
structure MArrTable (α : Type) [Inhabited α] where
  ptr : MArrPtr α
  swept : Prop
  get_set : ∀ m s, ptr.get (ptr.set m s) = m
  get_elementCreations : ∀ s n, ptr.get { s with elementCreations := n } = ptr.get s
  get_clock : ∀ s n, ptr.get { s with clock := n } = ptr.get s
  collection : ∀ env s, (arrGc.run env s).Returns fun _ t =>
    MArr.Cleaned swept (ptr.get s) (ptr.get t)

def arrTable : MArrTable Block where
  ptr := arrMem
  swept := True
  get_set _ _ := rfl
  get_elementCreations _ _ := rfl
  get_clock _ _ := rfl
  collection env s := by
    intro n t es run
    have survivors := (Collected.of_done run).2.survivors
    exact ⟨survivors.map_length, survivors.values_length,
      survivors.slots fun no => absurd trivial no, fun tidy => arrGc_tidy tidy n t es run⟩

def connTable : MArrTable Sock where
  ptr := netConn
  swept := False
  get_set _ _ := rfl
  get_elementCreations _ _ := rfl
  get_clock _ _ := rfl
  collection env s := by
    intro n t es run
    have same : t.netConn = s.netConn := by rw [(Collected.of_done run).2.frame]
    rw [show netConn.get t = netConn.get s from same]
    exact .refl _

section Search

variable {α : Type} [Inhabited α] {env : Env} {s : State}

/-- A collection stopped the machine: there was no memory for its marks, or it met a
reference to an index outside the table. -/
def Interrupted (env : Env) (reason : Stop) (es : List Event) : Prop :=
  ∃ u, Event.gc u ∈ es ∧
    (reason = .error .arrGcAlloc ∧ env.alloc u.clock = false ∨
      reason = .error .marrCheckBounds ∧ u.Dangling)

theorem Interrupted.prepend {reason : Stop} {es : List Event} (fs : List Event)
    (h : Interrupted env reason es) : Interrupted env reason (fs ++ es) := by
  obtain ⟨u, member, cause⟩ := h
  exact ⟨u, List.mem_append_right fs member, cause⟩

theorem gc_mem_events (env : Env) (s : State) : Event.gc s ∈ (arrGc.run env s).events := by
  simp [arrGc]

/-- Both outcomes of a collection, as far as the table is concerned. -/
theorem arrGc_cleans (table : MArrTable α) (env : Env) (s : State) :
    (arrGc.run env s).Satisfies
      (fun _ t _ => MArr.Cleaned table.swept (table.ptr.get s) (table.ptr.get t))
      fun e _ es => Interrupted env e es := by
  have cleaned := table.collection env s
  have stops := arrGc_satisfies env s
  have event := gc_mem_events env s
  cases run : arrGc.run env s with
  | done n t es => exact cleaned n t es run
  | stopped e t es =>
      rw [run] at stops event
      exact ⟨s, event, stops.imp_right fun dangling => ⟨dangling.1, dangling.2.2⟩⟩

/-- The search for a free index may collect first. -/
theorem getFreeIndex_cleans (table : MArrTable α) (env : Env) (s : State) :
    ((getFreeIndex table.ptr).run env s).Satisfies
      (fun i t _ => MArr.Cleaned table.swept (table.ptr.get s) (table.ptr.get t) ∧
        (table.ptr.get t).firstFree.getD sizeMaxUint32 = i)
      fun e _ es => Interrupted env e es := by
  simp only [getFreeIndex, Program.run_bind, Program.run_get, Outcome.andThen_done,
    Outcome.prepend_nil]
  split
  · simp only [Program.run_bind, Program.run_modify, Outcome.andThen_done, Outcome.prepend_nil]
    have reset := table.get_elementCreations s 0
    refine Outcome.Satisfies.andThen (arrGc_cleans table env { s with elementCreations := 0 }) ?_
    intro n t es cleaned
    rw [reset] at cleaned
    exact ⟨cleaned, rfl⟩
  · simp only [Program.run_bind, Program.run_modify, Program.run_get, Program.run_pure,
      Outcome.andThen_done, Outcome.prepend_nil, Outcome.satisfies_done, table.get_elementCreations]
    exact ⟨.refl _, trivial⟩

/-- An addition writes the lowest index that is free after the collection, or finds none. -/
theorem marrAddElement_cleans (table : MArrTable α) (x : α) (env : Env) (s : State) :
    ((marrAddElement table.ptr x).run env s).Satisfies
      (fun i t _ => ∃ m, MArr.Cleaned table.swept (table.ptr.get s) m ∧
        m.firstFree.getD sizeMaxUint32 = i ∧
        table.ptr.get t = if i = sizeMaxUint32 then m else m.store i x)
      fun e _ es => Interrupted env e es := by
  simp only [marrAddElement, Program.run_bind]
  refine Outcome.Satisfies.andThen (getFreeIndex_cleans table env s) ?_
  rintro i t es ⟨cleaned, found⟩
  by_cases full : i = sizeMaxUint32
  · rw [if_pos full]
    exact ⟨_, cleaned, found, (if_pos full).symm⟩
  · rw [if_neg full]
    simp only [Program.run_bind, Program.run_get, Program.run_modify, Outcome.andThen_done,
      Outcome.prepend_nil, Program.run_pure, Outcome.satisfies_done]
    exact ⟨_, cleaned, found, (table.get_set _ _).trans (if_neg full).symm⟩

end Search
end Ijvm
