import Ijvm.Arrays.History
import Ijvm.Arrays.Mapped
import Ijvm.Network.Connections

/-!
# How many references there are

The check of a new reference looks at tag bits only, and the shifted index can reach them
without being noticed. It is enough all the same: as long as no index of `2 ^ 20` or more is
in use, the first free index is at most `2 ^ 20`, and that one is noticed. With memory for
every request, a store therefore returns exactly if fewer than `2 ^ 20` entries are in use
once its collections are done.
-/

namespace Ijvm

open Transcript SlotMap

section Saving

variable {α : Type} [Inhabited α]

/-- The indices in use fit into references. -/
structure MArr.Fits (m : MArr α) : Prop where
  map_length : m.map.length = m.size
  values_length : m.values.length = m.size
  below : m.slots.Below (2 ^ 20)

namespace MArr.Fits

variable {m m' : MArr α}

theorem cleaned {swept : Prop} (fits : m.Fits) (cleaned : MArr.Cleaned swept m m') : m'.Fits := by
  refine ⟨?_, ?_, cleaned.collects.entry.below fits.below⟩
  · rw [cleaned.map_length, cleaned.size_eq, fits.map_length]
  · rw [cleaned.values_length, cleaned.size_eq, fits.values_length]

theorem slots_resized_entry (fits : m.Fits) {newSize : Nat} (larger : m.size ≤ newSize) :
    (m.resized newSize).slots.entry = m.slots.entry := by
  funext i
  rw [slots_entry, slots_entry, claimed_resized fits.map_length larger,
    value_resized fits.values_length]

theorem resized (fits : m.Fits) {newSize : Nat} (larger : m.size ≤ newSize) :
    (m.resized newSize).Fits := by
  refine ⟨length_map_resized fits.map_length larger,
    length_values_resized fits.values_length larger, ?_⟩
  intro i
  rw [fits.slots_resized_entry larger]
  exact fits.below i

/-- The first new cell of a larger table is free, and collections leave it so. -/
theorem not_full_of_resized {swept : Prop} (fits : m.Fits) {newSize : Nat}
    (larger : m.size < newSize) (cleaned : MArr.Cleaned swept (m.resized newSize) m') :
    ¬ m'.slots.Full := by
  intro full
  have used := full m.size (lt_of_lt_of_eq larger cleaned.size_eq.symm)
  rcases cleaned.collects.entry m.size with kept | ⟨_, gone⟩
  · rw [kept, fits.slots_resized_entry larger.le] at used
    exact Nat.lt_irrefl _ (m.slots.inside _ used)
  · exact used gone

end MArr.Fits

variable (table : MArrTable α) {env : Env} {s : State}

/-- `x` is at index `i`, the first that was free in what collections have left. -/
structure Saved (s : State) (x : α) (i : Nat) (t : State) : Prop where
  exists_left : ∃ m : MArr α, m.Fits ∧ Leaves table.swept (table.ptr.get s).slots m.slots ∧
    m.firstFree = some i ∧ table.ptr.get t = m.store i x

variable {table}

theorem Saved.of_leaves {s u t : State} {x : α} {i : Nat} (saved : Saved table u x i t)
    (leaves : Leaves table.swept (table.ptr.get s).slots (table.ptr.get u).slots) :
    Saved table s x i t := by
  obtain ⟨m, fits, left, free, stored⟩ := saved.exists_left
  exact ⟨m, fits, leaves.trans left, free, stored⟩

theorem Saved.le {x : α} {i : Nat} {t : State} (saved : Saved table s x i t) : i ≤ 2 ^ 20 := by
  obtain ⟨m, fits, _, free, _⟩ := saved.exists_left
  exact (MArr.lowestFree_of_firstFree free).le fits.below

/-- An addition finds room, or the table is full after the collection. -/
theorem marrAddElement_saves (fits : (table.ptr.get s).Fits) (x : α) :
    ((marrAddElement table.ptr x).run env s).Satisfies
      (fun i t _ => Saved table s x i t ∨ i = sizeMaxUint32 ∧
        MArr.Cleaned table.swept (table.ptr.get s) (table.ptr.get t) ∧ (table.ptr.get t).slots.Full)
      fun e _ es => Interrupted env e es := by
  refine (marrAddElement_cleans table x env s).mono ?_ fun _ _ _ stopped => stopped
  rintro i t - ⟨m, cleaned, found, stored⟩
  have fits' := fits.cleaned cleaned
  cases free : m.firstFree with
  | none =>
      rw [free, Option.getD_none] at found
      subst found
      rw [if_pos rfl] at stored
      rw [stored]
      exact Or.inr ⟨rfl, cleaned, MArr.full_of_firstFree free⟩
  | some j =>
      rw [free, Option.getD_some] at found
      subst found
      have le := (MArr.lowestFree_of_firstFree free).le fits'.below
      rw [if_neg (by rw [sizeMaxUint32]; omega)] at stored
      exact Or.inl ⟨m, fits', cleaned.collects.entry, free, stored⟩

variable (granted : ∀ n, env.alloc n = true)
include granted

theorem marrResize_granted {newSize : Nat} (larger : (table.ptr.get s).size ≤ newSize)
    (small : newSize < sizeMaxUint32) :
    ∃ t, (marrResize table.ptr newSize).run env s = .done () t [] ∧
      table.ptr.get t = (table.ptr.get s).resized newSize := by
  refine ⟨table.ptr.set ((table.ptr.get s).resized newSize) { s with clock := s.clock + 1 + 1 }, ?_,
    table.get_set _ _⟩
  simp [marrResize, marrResizeFuel, granted, Nat.not_lt_of_le larger, Nat.not_le_of_lt small]

/-- An element is saved in a table that grows if no index is free. -/
theorem save_satisfies {full : Nat → Prop} [DecidablePred full] {grow : Nat → Nat}
    (full_max : full sizeMaxUint32) (not_full : ∀ i ≤ 2 ^ 20, ¬ full i)
    (grows : ∀ n, 0 < n → n ≤ 2 ^ 20 → n < grow n ∧ grow n < sizeMaxUint32)
    (fits : (table.ptr.get s).Fits) (positive : 0 < (table.ptr.get s).size) (x : α) :
    ((do
      let i ← marrAddElement table.ptr x
      if full i then do
        marrResize table.ptr (grow (table.ptr.get (← get)).size)
        marrAddElement table.ptr x
      else
        return i : VM Nat).run env s).Satisfies (fun i t _ => Saved table s x i t)
      fun e _ es => Interrupted env e es := by
  simp only [Program.run_bind]
  refine Outcome.Satisfies.andThen (marrAddElement_saves fits x) ?_
  rintro i t es (saved | ⟨rfl, cleaned, noRoom⟩)
  · rw [if_neg (not_full i saved.le)]
    exact saved
  · have fits' := fits.cleaned cleaned
    obtain ⟨larger, small⟩ := grows (table.ptr.get t).size (cleaned.size_eq.symm ▸ positive)
      (noRoom.size_le fits'.below)
    obtain ⟨u, resize, resized⟩ := marrResize_granted granted larger.le small
    rw [if_pos full_max]
    simp only [Program.run_bind, Program.run_get, Outcome.andThen_done, Outcome.prepend_nil, resize]
    have fits'' := fits'.resized larger.le
    have leaves : Leaves table.swept (table.ptr.get s).slots (table.ptr.get u).slots := by
      intro j
      rw [resized, fits'.slots_resized_entry larger.le]
      exact cleaned.collects.entry j
    refine (marrAddElement_saves (resized.symm ▸ fits'') x).mono ?_ fun _ _ fs stopped =>
      stopped.prepend es
    rintro j v - (saved | ⟨_, again, noRoom'⟩)
    · exact saved.of_leaves leaves
    · rw [resized] at again
      exact absurd noRoom' (fits'.not_full_of_resized larger again)

/-- "Initialize if needed" -/
theorem prepare_run {minNum : Nat} (positive : 0 < minNum) (small : minNum < sizeMaxUint32)
    (fits : (table.ptr.get s).Fits) :
    ∃ t, (do if (table.ptr.get (← get)).size = 0 then marrInit table.ptr minNum : VM Unit).run
        env s = .done () t [] ∧ (table.ptr.get t).Fits ∧ 0 < (table.ptr.get t).size ∧
      Leaves table.swept (table.ptr.get s).slots (table.ptr.get t).slots := by
  by_cases empty : (table.ptr.get s).size = 0
  · have cleared := table.get_set { size := 0, map := [], values := [] } s
    have none (i : Nat) : (MArr.slots { size := 0, map := [], values := [] } : Slots α).entry i =
        none := by simp [MArr.slots_entry]
    have start : MArr.Fits ({ size := 0, map := [], values := [] } : MArr α) :=
      ⟨rfl, rfl, fun i used => absurd (none i) used⟩
    obtain ⟨t, resize, resized⟩ := marrResize_granted granted
        (s := table.ptr.set { size := 0, map := [], values := [] } s)
      (by rw [cleared]; exact Nat.zero_le minNum) small
    rw [cleared] at resized
    refine ⟨t, ?_, ?_, ?_, ?_⟩
    · simp [empty, marrInit, positive.ne', resize]
    · rw [resized]
      exact start.resized (Nat.zero_le minNum)
    · rw [resized]
      exact positive
    · intro i
      have unused : (table.ptr.get s).slots.entry i = Option.none := by
        by_contra used
        exact absurd ((table.ptr.get s).slots.inside i used) (by simp [empty])
      rw [resized, start.slots_resized_entry (Nat.zero_le minNum), none, unused]
      exact Or.inl rfl
  · exact ⟨s, by simp [empty], fits, Nat.pos_of_ne_zero empty, .refl _⟩

end Saving

section Storing

variable {α : Type} [Inhabited α]

/-- A store put `x` at index `i`, the lowest that was free among the elements `g` that its
collections have left. The table may have grown before. -/
structure Found (table : MArrTable α) (s : State) (x : α) (i : Nat) (t : State) (g : Slots α) :
    Prop where
  leaves : Leaves table.swept (table.ptr.get s).slots g
  lowest : g.LowestFree i
  stored : (table.ptr.get t).slots = g.put i x lowest.below

/-- No index in use is too large for a reference, and a store returns exactly if fewer than
`2 ^ 20` entries are in use after its collections. The reference names the index that was
claimed, and no other entry has it. -/
structure StoresExactly (table : MArrTable α) (tag : Word) (limit : Err) (store : α → VM Word)
    (env : Env) (s : State) : Prop where
  index_lt : ∀ i ∈ (table.ptr.get s).claimed, i < 2 ^ 20
  outcome : ∀ x, ((store x).run env s).Satisfies
    (fun r t _ => ∃ g i, Found table s x i t g ∧ g.used.card < 2 ^ 20 ∧ r = indexToRef tag i ∧
      refToIndex r = i ∧ ∀ j ∈ g.used, indexToRef tag j ≠ r)
    fun e t es => Interrupted env e es ∨
      e = .error limit ∧ ∃ g, Found table s x (2 ^ 20) t g ∧ g.used.card = 2 ^ 20

variable {table : MArrTable α} {env : Env} {s t : State}

theorem Saved.found {x : α} {i : Nat} (saved : Saved table s x i t) :
    ∃ g, Found table s x i t g ∧ g.Below (2 ^ 20) := by
  obtain ⟨m, fits, leaves, free, stored⟩ := saved.exists_left
  have lowest := MArr.lowestFree_of_firstFree free
  refine ⟨m.slots, ⟨leaves, lowest, ?_⟩, fits.below⟩
  rw [stored]
  exact MArr.slots_store fits.map_length fits.values_length x lowest.below

/-- Different indices in use have different references. -/
theorem indexToRef_ne {tag : Word} (isTag : IsTag tag) {i j : Nat} (hi : i < 2 ^ 20)
    (hj : j < 2 ^ 20) (ne : j ≠ i) : indexToRef tag j ≠ indexToRef tag i := by
  intro same
  have index := congrArg refToIndex same
  rw [refToIndex_indexToRef isTag hi, refToIndex_indexToRef isTag hj] at index
  exact ne index

/-- The check of the new reference, behind an element that was saved. -/
theorem check_satisfies {tag : Word} {limit : Err} {finish : Nat → VM Word} (isTag : IsTag tag)
    (noticed : hasTag tag (indexToRef tag (2 ^ 20)) = false)
    (passes : ∀ i s, hasTag tag (indexToRef tag i) = true →
      (finish i).run env s = .done (indexToRef tag i) s [])
    (fails : ∀ i s, hasTag tag (indexToRef tag i) = false →
      (finish i).run env s = .stopped (.error limit) s [])
    {x : α} {i : Nat} (saved : Saved table s x i t) :
    ((finish i).run env t).Satisfies
      (fun r t _ => ∃ g i, Found table s x i t g ∧ g.used.card < 2 ^ 20 ∧ r = indexToRef tag i ∧
        refToIndex r = i ∧ ∀ j ∈ g.used, indexToRef tag j ≠ r)
      fun e t es => Interrupted env e es ∨
        e = .error limit ∧ ∃ g, Found table s x (2 ^ 20) t g ∧ g.used.card = 2 ^ 20 := by
  obtain ⟨g, found, below⟩ := saved.found
  rcases saved.le.lt_or_eq with less | rfl
  · rw [passes i t (hasTag_indexToRef isTag less)]
    refine ⟨g, i, found, found.lowest.card_used_lt below less, rfl,
      refToIndex_indexToRef isTag less, fun j used => ?_⟩
    have entry := Slots.mem_used.mp used
    refine indexToRef_ne isTag less (below j entry) ?_
    rintro rfl
    exact entry found.lowest.free
  · rw [fails _ t noticed]
    exact Or.inr ⟨rfl, g, found, found.lowest.card_used_eq below⟩

variable (granted : ∀ n, env.alloc n = true)
include granted

/-- A store that prepares the table, saves the element and checks the new reference. -/
theorem storesExactly {tag : Word} {limit : Err} {store : α → VM Word} (minNum : Nat)
    (full : Nat → Prop) [DecidablePred full] (grow : Nat → Nat) {finish : Nat → VM Word}
    (parts : ∀ x, store x =
      ((do if (table.ptr.get (← get)).size = 0 then marrInit table.ptr minNum : VM Unit) >>=
        fun _ => (do
          let i ← marrAddElement table.ptr x
          if full i then do
            marrResize table.ptr (grow (table.ptr.get (← get)).size)
            marrAddElement table.ptr x
          else
            return i : VM Nat) >>= finish))
    (start : 0 < minNum ∧ minNum < sizeMaxUint32) (full_max : full sizeMaxUint32)
    (not_full : ∀ i ≤ 2 ^ 20, ¬ full i)
    (grows : ∀ n, 0 < n → n ≤ 2 ^ 20 → n < grow n ∧ grow n < sizeMaxUint32)
    (isTag : IsTag tag) (noticed : hasTag tag (indexToRef tag (2 ^ 20)) = false)
    (passes : ∀ i s, hasTag tag (indexToRef tag i) = true →
      (finish i).run env s = .done (indexToRef tag i) s [])
    (fails : ∀ i s, hasTag tag (indexToRef tag i) = false →
      (finish i).run env s = .stopped (.error limit) s [])
    (fits : (table.ptr.get s).Fits) : StoresExactly table tag limit store env s := by
  refine ⟨fun i claimed => fits.below i (MArr.slots_ne_none.mpr claimed), fun x => ?_⟩
  obtain ⟨t, prepared, fits', positive, leaves⟩ := prepare_run granted start.1 start.2 fits
  rw [parts, Program.run_bind, prepared, Outcome.andThen_done, Outcome.prepend_nil,
    Program.run_bind]
  refine Outcome.Satisfies.andThen ((save_satisfies granted full_max not_full grows fits' positive
    x).mono (fun _ _ _ saved => saved) fun _ _ _ stopped => Or.inl stopped) ?_
  intro i u es saved
  refine (check_satisfies isTag noticed passes fails (saved.of_leaves leaves)).mono
    (fun _ _ _ done => done) ?_
  exact fun e v fs stopped => stopped.imp_left fun interrupted => interrupted.prepend es

theorem arrStore_exact (fits : s.arrMem.Fits) :
    StoresExactly arrTable arrTag .arrStoreLimit arrStore env s := by
  refine storesExactly granted arraysMinNum (fun i => i ≥ sizeMaxUint32)
    (fun n => n * 2 % 2 ^ 32) (fun _ => rfl) (by decide) (le_refl _) ?_ ?_ arrTag_isTag (by decide)
    ?_ ?_ fits
  · intro i le
    rw [sizeMaxUint32]
    omega
  · intro n positive le
    rw [sizeMaxUint32]
    omega
  · intro i u tagged
    simp [isArrRef, tagged]
  · intro i u untagged
    simp [isArrRef, untagged]

theorem socketStore_exact (fits : s.netConn.Fits) :
    StoresExactly connTable netTag .netRef socketStore env s := by
  refine storesExactly granted netConnMinNum (fun i => i = sizeMaxUint32)
    (fun n => (n + 16) % 2 ^ 32) (fun _ => rfl) (by decide) rfl ?_ ?_ netTag_isTag (by decide)
    ?_ ?_ fits
  · intro i le
    rw [sizeMaxUint32]
    omega
  · intro n positive le
    rw [sizeMaxUint32]
    omega
  · intro i u tagged
    simp [netCheckRef, isNetRef, tagged]
  · intro i u untagged
    simp [netCheckRef, isNetRef, untagged]

end Storing

section Histories

variable {env : Env} {s : State}

/-- The completed stores and the operations of programs on connections since there were
none. Between two of them the rest of the machine may move on in any way. -/
inductive ConnHistory (env : Env) : State → Prop
  | start {s : State} (empty : s.netConn = { size := 0, map := [], values := [] }) :
      ConnHistory env s
  | elsewhere {s t : State} (history : ConnHistory env s) (same : t.netConn = s.netConn) :
      ConnHistory env t
  | store {s t : State} {sock : Sock} {r : Word} {es : List Event} (history : ConnHistory env s)
      (run : (socketStore sock).run env s = .done r t es) : ConnHistory env t
  | operation {s t : State} {op : NetOp} {es : List Event} (history : ConnHistory env s)
      (run : op.exec.run env s = .done () t es) : ConnHistory env t

theorem ConnHistory.holds (history : ConnHistory env s) :
    ∃ conns : Conns, s.netConn.Holds conns ∧ conns.Below := by
  induction history with
  | start empty =>
      rw [empty]
      exact ⟨_, MArr.Holds.empty, fun _ used => absurd rfl used⟩
  | elsewhere _ same ih =>
      rw [same]
      exact ih
  | @store s t sock r es _ run ih =>
      obtain ⟨conns, holds, below⟩ := ih
      have meets : Program.Meets _ _ (socketStore sock) _ _ := socketStore_meets below
      have stored := meets env s holds
      rw [run] at stored
      obtain ⟨⟨i, fits, _, claims⟩, _⟩ := stored
      exact ⟨_, claims.holds, below.update fun _ => fits⟩
  | @operation s t op es _ run ih =>
      obtain ⟨conns, holds, below⟩ := ih
      have settled := op.effect env holds below
      rw [run] at settled
      obtain ⟨conns', _, holds', below'⟩ := settled
      exact ⟨conns', holds', below'⟩

theorem ConnHistory.fits (history : ConnHistory env s) : s.netConn.Fits := by
  obtain ⟨conns, holds, below⟩ := history.holds
  refine ⟨holds.map_length, holds.values_length, fun i used => below i ?_⟩
  exact holds.claimed_iff.mp (MArr.slots_ne_none.mp used)

theorem History.fits {past : List (ArrayHeap.Action Word Word)} (history : History env past s) :
    s.arrMem.Fits := by
  obtain ⟨table, _⟩ := history.simulates
  exact ⟨table.map_length, table.values_length,
    fun i used => table.index_lt i (MArr.slots_ne_none.mp used)⟩

/-- In every history of arrays and of connections the references are unique and the capacity
is exact, although the checks alone accept some indices that do not fit. -/
theorem references_exact (granted : ∀ n, env.alloc n = true) :
    (∀ past s, History env past s →
      StoresExactly arrTable arrTag .arrStoreLimit arrStore env s) ∧
    (∀ s, ConnHistory env s → StoresExactly connTable netTag .netRef socketStore env s) ∧
    isArrRef (indexToRef arrTag (2 ^ 21)) = true ∧
    isNetRef (indexToRef netTag (2 ^ 22)) = true :=
  ⟨fun _ _ history => arrStore_exact granted history.fits,
    fun _ history => socketStore_exact granted history.fits, by decide, by decide⟩

/-- Slot 0 of the stack holds the reference of array 0. -/
def refInSlotZero : State :=
  { State.fresh with
    gCpu := { State.fresh.gCpu with
      stackSize := 8, sp := 1, stack := fun i => if i = 0 then 0xAA00000A else 0 } }

/-- An array of two elements, a write to it, and an array of one element. -/
def twoArrays : State :=
  ((arrCreate 1).run Env.quiet ((arrSet 0xAA00000A 1 7).run Env.quiet
    ((arrCreate 2).run Env.quiet refInSlotZero).state).state).state

def localSock (port : BitVec 16) : Sock :=
  { fd := 3, fds := -1, client := true, server := false, host := 0, port }

/-- Two connections, of which the first is closed. -/
def secondSock : State :=
  ((NetOp.close (indexToRef netTag 0)).exec.run Env.quiet
    ((socketStore (localSock 8)).run Env.quiet
      ((socketStore (localSock 7)).run Env.quiet State.fresh).state).state).state

theorem references_exact_afterCollection :
    StoresExactly arrTable arrTag .arrStoreLimit arrStore Env.quiet
        (arrGc.run Env.quiet twoArrays).state ∧
      StoresExactly connTable netTag .netRef socketStore Env.quiet secondSock := by
  have first : (arrCreate 2).run Env.quiet refInSlotZero = .done 0xAA00000A _ _ :=
    Outcome.eq_done_of_value? (by decide +kernel)
  have written : (arrSet 0xAA00000A 1 7).run Env.quiet
      ((arrCreate 2).run Env.quiet refInSlotZero).state = .done () _ _ :=
    Outcome.eq_done_of_value? (by decide +kernel)
  have second : (arrCreate 1).run Env.quiet ((arrSet 0xAA00000A 1 7).run Env.quiet
      ((arrCreate 2).run Env.quiet refInSlotZero).state).state = .done 0xAA00001A _ _ :=
    Outcome.eq_done_of_value? (by decide +kernel)
  have collected : arrGc.run Env.quiet twoArrays = .done 1 _ _ :=
    Outcome.eq_done_of_value? (by decide +kernel)
  have stored : (socketStore (localSock 7)).run Env.quiet State.fresh =
      .done (indexToRef netTag 0) _ _ := Outcome.eq_done_of_value? (by decide +kernel)
  have stored' : (socketStore (localSock 8)).run Env.quiet
      ((socketStore (localSock 7)).run Env.quiet State.fresh).state =
      .done (indexToRef netTag 1) _ _ := Outcome.eq_done_of_value? (by decide +kernel)
  have closed : (NetOp.close (indexToRef netTag 0)).exec.run Env.quiet
      ((socketStore (localSock 8)).run Env.quiet
        ((socketStore (localSock 7)).run Env.quiet State.fresh).state).state = .done () _ _ :=
    Outcome.eq_done_of_value? (by decide +kernel)
  obtain ⟨arrays, conns, _⟩ := @references_exact Env.quiet fun _ => rfl
  exact ⟨arrays _ _ (.operation (.operation (.operation (.operation (.start rfl)
      (.create first)) (.set written)) (.create second)) (.gc collected)),
    conns _ (.operation (.store (.store (.start rfl) stored) stored') closed)⟩

end Histories
end Ijvm
