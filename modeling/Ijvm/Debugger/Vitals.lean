import Ijvm.Debugger.Blocks

/-!
# The pointers that are freed and not reset

There are five: the three of the CPU, the table of marks, and the call history, which
`realloc` frees if its size has become 0. `Vitals` is what they are, and the flags of the
debugger. The other pointers are never released between two functions, so `At` says what
every later statement about the blocks needs.
-/

namespace Ijvm.Blocks

open Transcript Program Ownership

/-- The pointers that stay as they are when their blocks are freed, and the flags. -/
structure Vitals where
  stack : Ptr
  codeMem : Ptr
  constMem : Ptr
  markedArrays : Ptr
  callHistory : Ptr
  progState : ProgState
  quitFlag : Bool

/-- The pointers that are freed and not reset. -/
def Owner.vital : Owner → Bool
  | .stack | .codeMem | .constMem | .markedArrays | .callHistory => true
  | _ => false

/-- These pointers; of the others the vitals say nothing. -/
def Vitals.ptr (v : Vitals) : Owner → Option Ptr
  | .stack => some v.stack
  | .codeMem => some v.codeMem
  | .constMem => some v.constMem
  | .markedArrays => some v.markedArrays
  | .callHistory => some v.callHistory
  | _ => none

def Vitals.set (v : Vitals) (o : Owner) (p : Ptr) : Vitals :=
  match o with
  | .stack => { v with stack := p }
  | .codeMem => { v with codeMem := p }
  | .constMem => { v with constMem := p }
  | .markedArrays => { v with markedArrays := p }
  | .callHistory => { v with callHistory := p }
  | _ => v

def vitals (x : Desk) : Vitals where
  stack := x.ptr .stack
  codeMem := x.ptr .codeMem
  constMem := x.ptr .constMem
  markedArrays := x.ptr .markedArrays
  callHistory := x.ptr .callHistory
  progState := x.rest.progState
  quitFlag := x.rest.quitFlag

/-- A desk with these vitals, on which no other pointer is released. -/
structure At (v : Vitals) (x : Desk) : Prop where
  vitals : vitals x = v
  calm : ∀ o, o.vital = false → x.ptr o ≠ .released

section Accesses

variable {v : Vitals} {o : Owner} {os : List Owner} {x : Desk}

theorem Vitals.ptr_eq_none_iff : v.ptr o = none ↔ o.vital = false := by
  cases o <;> simp [Vitals.ptr, Owner.vital]

theorem At.ptr (h : At v x) {p : Ptr} (vital : v.ptr o = some p) : x.ptr o = p := by
  obtain ⟨rfl, _⟩ := h
  cases o with
  | stack | codeMem | constMem | markedArrays | callHistory => exact Option.some.inj vital
  | _ => contradiction

theorem At.sound (h : At v x) (sound : v.ptr o ≠ some .released) : x.ptr o ≠ .released := by
  cases vital : v.ptr o with
  | none => exact h.calm o (Vitals.ptr_eq_none_iff.mp vital)
  | some p =>
      rw [h.ptr vital]
      rintro rfl
      exact sound vital

theorem At.set (h : At v x) {p : Ptr} (sound : o.vital = false → p ≠ .released) :
    At (v.set o p) (x.set o p) := by
  obtain ⟨rfl, calm⟩ := h
  refine ⟨?_, ?_⟩
  · cases o <;> rfl
  · intro o' other
    by_cases same : o' = o
    · subst same
      rw [Tracked.set_ptr_self]
      exact sound other
    · rw [Tracked.set_ptr_of_ne _ _ same]
      exact calm o' other

theorem use_at (sound : v.ptr o ≠ some .released) :
    Ends Access.Sound (At v) (use o : BlockM Unit) (.goes fun _ => At v) :=
  use_ends fun _ h => h.sound sound

theorem useAll_at (sound : ∀ o ∈ os, v.ptr o ≠ some .released) :
    Ends Access.Sound (At v) (useAll os : BlockM Unit) (.goes fun _ => At v) :=
  useAll_ends fun o member _ h => h.sound (sound o member)

theorem assign_at {p : Ptr} (sound : o.vital = false → p ≠ .released) :
    Ends Access.Sound (At v) (assign o p : BlockM Unit) (.goes fun _ => At (v.set o p)) :=
  assign_ends fun _ h => h.set sound

theorem malloc_at (o : Owner) (granted : Bool) :
    Ends Access.Sound (At v) (malloc o granted : BlockM Unit)
      (.goes fun _ => At (v.set o (.allocated granted))) :=
  assign_at fun _ => by cases granted <;> decide

/-- `free` of a vital pointer. -/
theorem free_at {p : Ptr} (vital : v.ptr o = some p) (sound : p ≠ .released) :
    Ends Access.Sound (At v) (free o : BlockM Unit) (.goes fun _ => At (v.set o p.freed)) := by
  refine free_ends (fun _ h => h.sound ?_) fun x h => ?_
  · rw [vital]
    exact fun same => sound (Option.some.inj same)
  · rw [h.ptr vital]
    refine h.set fun other => ?_
    rw [Vitals.ptr_eq_none_iff.mpr other] at vital
    contradiction

theorem free_at_breaks (vital : v.ptr o = some .released) :
    Ends Access.Sound (At v) (free o : BlockM Unit) .breaks :=
  free_breaks fun _ h => h.ptr vital

/-- `realloc` of a vital pointer. -/
theorem realloc_at {p : Ptr} (answer : Reallocation) (vital : v.ptr o = some p)
    (sound : p ≠ .released) :
    Ends Access.Sound (At v) (realloc o answer : BlockM Unit)
      (.goes fun _ => At (v.set o (answer.after p))) := by
  refine realloc_ends (fun _ h => h.sound ?_) fun x h => ?_
  · rw [vital]
    exact fun same => sound (Option.some.inj same)
  · rw [h.ptr vital]
    refine h.set fun other => ?_
    rw [Vitals.ptr_eq_none_iff.mpr other] at vital
    contradiction

theorem use_at_breaks (vital : v.ptr o = some .released) :
    Ends Access.Sound (At v) (use o : BlockM Unit) .breaks :=
  use_breaks fun _ h => h.ptr vital

theorem realloc_at_breaks (answer : Reallocation) (vital : v.ptr o = some .released) :
    Ends Access.Sound (At v) (realloc o answer : BlockM Unit) .breaks :=
  realloc_breaks fun _ h => h.ptr vital

theorem Vitals.set_of_not_vital (v : Vitals) (p : Ptr) (other : o.vital = false) :
    v.set o p = v := by
  cases o with
  | stack | codeMem | constMem | markedArrays | callHistory => contradiction
  | _ => rfl

/-- The pointers that are freed and set to null at once. -/
theorem clear_at (others : ∀ o ∈ os, o.vital = false) (distinct : os.Nodup) :
    Ends Access.Sound (At v) (do freeAll os; clearAll os : BlockM Unit) (.goes fun _ => At v) := by
  refine freeAll_clearAll_ends distinct (fun x h o member => h.calm o (others o member)) ?_
  rintro x y ⟨rfl, calm⟩ null same rest
  have kept (o : Owner) (vital : o.vital = true) : y.ptr o = x.ptr o := by
    refine same o fun member => ?_
    rw [others o member] at vital
    contradiction
  refine ⟨?_, fun o other => ?_⟩
  · simp only [vitals, kept .stack rfl, kept .codeMem rfl, kept .constMem rfl,
      kept .markedArrays rfl, kept .callHistory rfl, rest]
  · by_cases member : o ∈ os
    · rw [null o member]
      decide
    · rw [same o member]
      exact calm o other

end Accesses

section Machine

variable {v : Vitals}

theorem netDestroy_at : Ends Access.Sound (At v) netDestroy (.goes fun _ => At v) :=
  (useAll_at (by simp [Vitals.ptr])).bind fun _ => clear_at (by simp [Owner.vital]) (by decide)

/-- The table of marks is freed, but the pointer stays. -/
theorem arrDestroy_at (sound : v.markedArrays ≠ .released) :
    Ends Access.Sound (At v) arrDestroy
      (.goes fun _ => At { v with markedArrays := v.markedArrays.freed }) :=
  (useAll_at (by simp [Vitals.ptr])).bind fun _ =>
    (clear_at (by simp [Owner.vital]) (by decide)).bind fun _ =>
    free_at (o := .markedArrays) rfl sound

theorem arrDestroy_breaks (released : v.markedArrays = .released) :
    Ends Access.Sound (At v) arrDestroy .breaks :=
  (useAll_at (by simp [Vitals.ptr])).bind fun _ =>
    (clear_at (by simp [Owner.vital]) (by decide)).bind fun _ =>
    free_at_breaks (by rw [← released]; rfl)

/-- None of the pointers is released that `destroy_ijvm` frees. -/
structure Vitals.Whole (v : Vitals) : Prop where
  markedArrays : v.markedArrays ≠ .released
  stack : v.stack ≠ .released
  codeMem : v.codeMem ≠ .released
  constMem : v.constMem ≠ .released

instance (v : Vitals) : Decidable v.Whole :=
  decidable_of_iff (_ ∧ _ ∧ _ ∧ _)
    ⟨fun h => ⟨h.1, h.2.1, h.2.2.1, h.2.2.2⟩, fun h => ⟨h.1, h.2, h.3, h.4⟩⟩

def Vitals.freed (v : Vitals) : Vitals :=
  { v with
    stack := v.stack.freed
    codeMem := v.codeMem.freed
    constMem := v.constMem.freed
    markedArrays := v.markedArrays.freed }

theorem cpuDestroy_at (stack : v.stack ≠ .released) (codeMem : v.codeMem ≠ .released)
    (constMem : v.constMem ≠ .released) :
    Ends Access.Sound (At v) cpuDestroy (.goes fun _ => At { v with
      stack := v.stack.freed, codeMem := v.codeMem.freed, constMem := v.constMem.freed }) := by
  have first := free_at (v := v) (o := .stack) rfl stack
  have second := free_at (v := v.set .stack v.stack.freed) (o := .codeMem) rfl codeMem
  have third := free_at (v := (v.set .stack v.stack.freed).set .codeMem v.codeMem.freed)
    (o := .constMem) rfl constMem
  exact first.bind fun _ => second.bind fun _ => third

theorem cpuDestroy_breaks
    (released : v.stack = .released ∨ v.codeMem = .released ∨ v.constMem = .released) :
    Ends Access.Sound (At v) cpuDestroy .breaks := by
  by_cases stack : v.stack = .released
  · exact (free_at_breaks (by rw [← stack]; rfl)).breaks_bind
  · refine (free_at (o := .stack) rfl stack).bind fun _ => ?_
    by_cases codeMem : v.codeMem = .released
    · exact (free_at_breaks (by rw [← codeMem]; rfl)).breaks_bind
    · have constMem : v.constMem = .released :=
        (released.resolve_left stack).resolve_left codeMem
      have second := free_at (v := v.set .stack v.stack.freed) (o := .codeMem) rfl codeMem
      refine second.bind fun _ => free_at_breaks ?_
      rw [← constMem]
      rfl

theorem destroyIjvm_at (whole : v.Whole) :
    Ends Access.Sound (At v) destroyIjvm (.goes fun _ => At v.freed) :=
  netDestroy_at.bind fun _ => (arrDestroy_at whole.markedArrays).bind fun _ =>
    cpuDestroy_at whole.stack whole.codeMem whole.constMem

theorem destroyIjvm_breaks (broken : ¬ v.Whole) :
    Ends Access.Sound (At v) destroyIjvm .breaks := by
  apply netDestroy_at.bind
  intro _
  by_cases marks : v.markedArrays = .released
  · exact (arrDestroy_breaks marks).breaks_bind
  · refine (arrDestroy_at marks).bind fun _ => cpuDestroy_breaks ?_
    by_contra none
    obtain ⟨stack, none⟩ := not_or.mp none
    obtain ⟨codeMem, constMem⟩ := not_or.mp none
    exact broken ⟨marks, stack, codeMem, constMem⟩

theorem destroyIjvmNow_at (whole : v.Whole) :
    Ends Access.Sound (At v) destroyIjvmNow .exits :=
  (destroyIjvm_at whole).bind fun _ => .stop _

theorem destroyIjvmNow_breaks (broken : ¬ v.Whole) :
    Ends Access.Sound (At v) destroyIjvmNow .breaks :=
  (destroyIjvm_breaks broken).breaks_bind

/-- A larger mapped array: the old blocks are freed once, through the temporary. -/
theorem marrResize_at {map values : Owner} (granted : Bool) (others : ∀ o ∈ [map, values],
    o.vital = false) (distinct : [map, values].Nodup) :
    Ends Access.Sound (At v) (marrResize map values granted) (.goes fun _ => At v) := by
  have grown (o : Owner) (member : o ∈ [map, values]) :
      Ends Access.Sound (At v) (malloc o true : BlockM Unit) (.goes fun _ => At v) := by
    have stored := malloc_at (v := v) o true
    rwa [v.set_of_not_vital _ (others o member)] at stored
  cases granted with
  | false => exact .pure fun _ h => h
  | true =>
      have sound (o : Owner) (member : o ∈ [map, values]) : v.ptr o ≠ some .released := by
        rw [Vitals.ptr_eq_none_iff.mpr (others o member)]
        simp
      apply (useAll_at sound).bind
      intro _
      apply (clear_at others distinct).bind
      intro _
      exact (grown map (by simp)).bind fun _ => grown values (by simp)

/-- The collector frees its last table of marks, and keeps the new one. -/
theorem arrGc_at (marks : v.markedArrays ≠ .released) (stack : v.stack ≠ .released) :
    Ends Access.Sound (At v) (arrGc true)
      (.goes fun _ => At { v with markedArrays := .live }) := by
  apply (free_at (o := .markedArrays) rfl marks).bind
  intro _
  apply (malloc_at .markedArrays true).bind
  intro _
  exact useAll_at (v := { v with markedArrays := .live }) (by simp [Vitals.ptr, stack])

/-- Without memory for the table the process ends, and frees what is left. -/
theorem arrGc_exits (whole : v.Whole) : Ends Access.Sound (At v) (arrGc false) .exits := by
  apply (free_at (o := .markedArrays) rfl whole.markedArrays).bind
  intro _
  apply (malloc_at .markedArrays false).bind
  intro _
  exact destroyIjvmNow_at ⟨Ptr.noConfusion, whole.stack, whole.codeMem, whole.constMem⟩

theorem arrGc_breaks (granted : Bool) (released : v.markedArrays = .released) :
    Ends Access.Sound (At v) (arrGc granted) .breaks :=
  (free_at_breaks (by rw [← released]; rfl)).breaks_bind

end Machine

section Debugger

variable {v : Vitals}

/-- Of the pointers of which the vitals say nothing, exactly these are released. -/
structure Stale (os : List Owner) (v : Vitals) (x : Desk) : Prop where
  vitals : vitals x = v
  released : ∀ o, o.vital = false → (x.ptr o = .released ↔ o ∈ os)

theorem stale_nil_iff {x : Desk} : Stale [] v x ↔ At v x := by
  constructor
  · rintro ⟨same, released⟩
    exact ⟨same, fun o other => by simp [released o other]⟩
  · rintro ⟨same, calm⟩
    exact ⟨same, fun o other => by simp [calm o other]⟩

/-- A change of a pointer of which the vitals say nothing. -/
theorem Stale.set {os : List Owner} {o : Owner} {p : Ptr} {x : Desk} (h : Stale os v x)
    (other : o.vital = false) (fresh : o ∉ os) :
    Stale (if p = .released then o :: os else os) v (x.set o p) := by
  obtain ⟨rfl, released⟩ := h
  refine ⟨?_, fun o' other' => ?_⟩
  · cases o with
    | stack | codeMem | constMem | markedArrays | callHistory => contradiction
    | _ => rfl
  · by_cases same : o' = o
    · subst same
      rw [Tracked.set_ptr_self]
      split_ifs <;> simp_all
    · rw [Tracked.set_ptr_of_ne _ _ same, released o' other']
      split_ifs <;> simp [same]

theorem realloc_stale {os : List Owner} {o : Owner} {answer : Reallocation}
    (other : o.vital = false) (fresh : o ∉ os) (kept : answer ≠ .emptied) :
    Ends Access.Sound (Stale os v) (realloc o answer : BlockM Unit)
      (.goes fun _ => Stale os v) := by
  have sound (x : Desk) (h : Stale os v x) : x.ptr o ≠ .released :=
    fun stale => fresh ((h.released o other).mp stale)
  refine realloc_ends sound fun x h => ?_
  have calm : answer.after (x.ptr o) ≠ .released := by
    cases answer with
    | granted => exact Ptr.noConfusion
    | refused => exact sound x h
    | emptied => contradiction
  have set := h.set (p := answer.after (x.ptr o)) other fresh
  rwa [if_neg calm] at set

/-- `realloc` of a pointer of which the vitals say nothing. -/
theorem realloc_other {o : Owner} {answer : Reallocation} (other : o.vital = false)
    (kept : answer ≠ .emptied) :
    Ends Access.Sound (At v) (realloc o answer : BlockM Unit) (.goes fun _ => At v) :=
  ((realloc_stale other List.not_mem_nil kept).weaken fun _ => stale_nil_iff.mpr).mono
    fun _ _ => stale_nil_iff.mp

/-- Vitals as given, where only some other pointers may be released. -/
def AtBut (os : List Owner) (v : Vitals) (x : Desk) : Prop :=
  Blocks.vitals x = v ∧ ∀ o, o.vital = false → o ∉ os → x.ptr o ≠ .released

theorem At.but {x : Desk} (h : At v x) : AtBut [] v x :=
  ⟨h.vitals, fun o other _ => h.calm o other⟩

theorem freeAll_atBut (os fs : List Owner) (others : ∀ o ∈ fs, o.vital = false)
    (distinct : fs.Nodup) (fresh : ∀ o ∈ fs, o ∉ os) :
    Ends Access.Sound (AtBut os v) (freeAll fs : BlockM Unit)
      (.goes fun _ => AtBut (os ++ fs) v) := by
  rintro r x ⟨rfl, calm⟩
  have sound : ∀ o ∈ fs, x.ptr o ≠ .released :=
    fun o member => calm o (others o member) (fresh o member)
  obtain ⟨y, es, run, same, rest, kept⟩ := freeAll_run (ε := Halt) (r := r) distinct sound
  have vital (o : Owner) (h : o.vital = true) : y.ptr o = x.ptr o := by
    refine same o fun member => ?_
    rw [others o member] at h
    contradiction
  refine ⟨(), y, es, run, ⟨?_, fun o other spared => ?_⟩, kept⟩
  · simp only [Blocks.vitals, vital .stack rfl, vital .codeMem rfl, vital .constMem rfl,
      vital .markedArrays rfl, vital .callHistory rfl, rest]
  · obtain ⟨notOld, notNew⟩ := not_or.mp (mt List.mem_append.mpr spared)
    rw [same o notNew]
    exact calm o other notOld

/-- `destroy_debugger`, and whether the pointers that it leaves are reset. -/
theorem destroyDebugger_atBut (history : v.callHistory ≠ .released) (os : List Owner)
    (fresh : ∀ o ∈ [Owner.lastProgPath, .brkptAddrs], o ∉ os) :
    Ends Access.Sound (AtBut os v) destroyDebugger (.goes fun _ =>
      AtBut (os ++ [.lastProgPath, .brkptAddrs])
        { v with callHistory := v.callHistory.freed }) := by
  have first : Ends Access.Sound (AtBut os v) (free .callHistory : BlockM Unit) (.goes fun _ =>
      AtBut os { v with callHistory := v.callHistory.freed }) := by
    refine free_ends ?_ ?_
    · rintro x ⟨rfl, _⟩
      exact history
    · rintro x ⟨rfl, calm⟩
      refine ⟨rfl, fun o other spared => ?_⟩
      rw [Tracked.set_ptr_of_ne]
      · exact calm o other spared
      · rintro rfl
        contradiction
  exact first.bind fun _ => freeAll_atBut os [.lastProgPath, .brkptAddrs] (by simp [Owner.vital])
    (by decide) fresh

/-- The vitals after `init_debugger`. -/
def Vitals.initial (v : Vitals) : Vitals :=
  { v with callHistory := .live, progState := .empty, quitFlag := false }

theorem initDebugger_at :
    Ends Access.Sound (AtBut [.lastProgPath, .brkptAddrs] v) initDebugger
      (.goes fun _ => At v.initial) := by
  rintro r x ⟨rfl, calm⟩
  refine ⟨(), _, [.used .callHistory .live], rfl, ⟨rfl, fun o other => ?_⟩,
    List.forall_mem_singleton.mpr Ptr.noConfusion⟩
  have spared := calm o other
  cases o with
  | stack | codeMem | constMem | markedArrays | callHistory => contradiction
  | lastProgPath | brkptAddrs => exact Ptr.noConfusion
  | _ => exact spared (by decide)

/-- `destroy_debugger` and `init_debugger`, which are called together. -/
theorem destroyDebugger_at (history : v.callHistory ≠ .released) :
    Ends Access.Sound (At v) (do destroyDebugger; initDebugger) (.goes fun _ => At v.initial) :=
  ((destroyDebugger_atBut history [] (by simp)).weaken fun _ h => h.but).bind fun _ =>
    initDebugger_at

/-- `destroy_debug_data` and `init_debug_data`, which are called together. -/
theorem destroyDebugData_at :
    Ends Access.Sound (At v) (do destroyDebugData; initDebugData) (.goes fun _ => At v) :=
  clear_at (by simp [debugData, Owner.vital]) (by decide)

theorem setProgState_at (state : ProgState) :
    Ends Access.Sound (At v) (setProgState state)
      (.goes fun _ => At { v with progState := state }) :=
  .modify fun _ h => by
    obtain ⟨rfl, calm⟩ := h
    exact ⟨rfl, calm⟩

theorem setQuitFlag_at (quit : Bool) :
    Ends Access.Sound (At v) (setQuitFlag quit)
      (.goes fun _ => At { v with quitFlag := quit }) :=
  .modify fun _ h => by
    obtain ⟨rfl, calm⟩ := h
    exact ⟨rfl, calm⟩

end Debugger

end Ijvm.Blocks
