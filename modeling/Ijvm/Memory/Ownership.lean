import Ijvm.Transcript.Endings
import Ijvm.Transcript.Relational
import Mathlib.Data.List.Nodup

/-!
# Owned pointers

A pointer that owns a block is null, live, or released: then its block has been freed, and
the pointer still holds the address. Programs over such pointers write every access into
the transcript, together with what the pointer is at that moment; an access is sound if
the pointer is not released.
-/

namespace Ownership

open Transcript Program

inductive Ptr where
  | null | live | released
  deriving DecidableEq, Repr

/-- After `free`, which ignores the null pointer. -/
def Ptr.freed : Ptr → Ptr
  | null => null
  | live => released
  | released => released

/-- The result of an allocation. -/
def Ptr.allocated (granted : Bool) : Ptr := if granted then live else null

/-- An access through an owner whose pointer is as given. -/
inductive Access (Owner : Type) where
  | freed (o : Owner) (p : Ptr)
  | used (o : Owner) (p : Ptr)
  deriving DecidableEq, Repr

def Access.Sound {Owner : Type} : Access Owner → Prop
  | freed _ p => p ≠ .released
  | used _ p => p ≠ .released

/-- The pointers, and whatever else a program keeps. -/
structure Tracked (Owner σ : Type) where
  ptr : Owner → Ptr
  rest : σ

abbrev Tracker (Owner σ ε α : Type) := Program Unit (Tracked Owner σ) (Access Owner) ε α

variable {Owner σ ε : Type} {P Q : Tracked Owner σ → Prop} {o : Owner} {os : List Owner}

section Using

def use (o : Owner) : Tracker Owner σ ε Unit := do
  Program.emit [.used o ((← get).ptr o)]

def useAll : List Owner → Tracker Owner σ ε Unit
  | [] => pure ()
  | o :: os => do
      use o
      useAll os

theorem use_ends (sound : ∀ x, P x → x.ptr o ≠ .released) :
    Ends Access.Sound P (use o : Tracker Owner σ ε Unit) (.goes fun _ => P) :=
  fun _ x hx => ⟨(), x, [.used o (x.ptr o)], rfl, hx, List.forall_mem_singleton.mpr (sound x hx)⟩

theorem use_breaks (released : ∀ x, P x → x.ptr o = .released) :
    Ends Access.Sound P (use o : Tracker Owner σ ε Unit) .breaks :=
  fun _ x hx => ⟨.used o (x.ptr o), List.mem_singleton.mpr rfl, fun sound => sound (released x hx)⟩

theorem useAll_ends (sound : ∀ o ∈ os, ∀ x, P x → x.ptr o ≠ .released) :
    Ends Access.Sound P (useAll os : Tracker Owner σ ε Unit) (.goes fun _ => P) := by
  induction os with
  | nil => exact .pure fun _ hx => hx
  | cons o os ih =>
      rw [List.forall_mem_cons] at sound
      exact (use_ends sound.1).bind fun _ => ih sound.2

end Using

section Ignoring

/-- The same, but for one pointer. -/
def SameBut (o : Owner) (x y : Tracked Owner σ) : Prop :=
  (∀ o', o' ≠ o → x.ptr o' = y.ptr o') ∧ x.rest = y.rest

/-- The program does not look at this pointer. -/
abbrev Ignores (o : Owner) {α : Type} (m : Tracker Owner σ ε α) : Prop :=
  Respects (SameBut o) Eq m

variable {o' : Owner}

theorem use_ignores (other : o' ≠ o) : Ignores o (use o' : Tracker Owner σ ε Unit) :=
  .get_bind (fun _ _ h => by rw [h.1 o' other]) fun _ => .emit fun _ _ => rfl

theorem useAll_ignores (others : o ∉ os) : Ignores o (useAll os : Tracker Owner σ ε Unit) := by
  induction os with
  | nil => exact .pure fun _ _ h => h
  | cons o' os ih =>
      obtain ⟨other, others⟩ := List.ne_and_not_mem_of_not_mem_cons others
      exact .bind (use_ignores other.symm) fun _ => ih others

/-- The frame rule: a program goes the same way whatever is in a pointer that it ignores. -/
theorem ends_of_ignores {γ α : Type} {m : Tracker Owner σ ε α} {v : Verdict γ}
    {R : γ → α → Tracked Owner σ → Prop} (h : Ends Access.Sound P m (v.ending R))
    (ignores : Ignores o m) :
    Ends Access.Sound (fun y => ∃ x, P x ∧ SameBut o x y) m
      (v.ending fun c a y => ∃ x, R c a x ∧ SameBut o x y) := by
  cases v with
  | goes c =>
      rintro r y ⟨x, hx, same⟩
      obtain ⟨a, x', es, run, reached, kept⟩ := h r x hx
      have agree := ignores r x y same
      rw [run] at agree
      obtain ⟨y', fs, run', related, events⟩ := agree.done_left
      rw [List.forall₂_eq_eq_eq] at events
      subst events
      exact ⟨a, y', es, run', ⟨x', reached, related⟩, kept⟩
  | finished =>
      rintro r y ⟨x, hx, same⟩
      obtain ⟨e, x', es, run, kept⟩ := h r x hx
      have agree := ignores r x y same
      have events := agree.transcripts
      rw [List.forall₂_eq_eq_eq] at events
      rw [run] at agree events
      cases run' : m.run r y with
      | done a y' fs => exact (run' ▸ agree).elim
      | stopped e' y' fs =>
          rw [run'] at events
          obtain rfl : es = fs := events
          exact ⟨e', y', es, rfl, kept⟩
  | broken =>
      rintro r y ⟨x, hx, same⟩
      have events := (ignores r x y same).transcripts
      rw [List.forall₂_eq_eq_eq] at events
      rw [← events]
      exact h r x hx

end Ignoring

variable [DecidableEq Owner]

section Storing

def Tracked.set (x : Tracked Owner σ) (o : Owner) (p : Ptr) : Tracked Owner σ :=
  { x with ptr := fun o' => if o' = o then p else x.ptr o' }

@[simp] theorem Tracked.set_ptr_self (x : Tracked Owner σ) (o : Owner) (p : Ptr) :
    (x.set o p).ptr o = p := if_pos rfl

theorem Tracked.set_ptr_of_ne (x : Tracked Owner σ) {o o' : Owner} (p : Ptr) (h : o' ≠ o) :
    (x.set o p).ptr o' = x.ptr o' := if_neg h

def assign (o : Owner) (p : Ptr) : Tracker Owner σ ε Unit := modify fun x => x.set o p

/-- `malloc` and `calloc`, whose result is stored in the pointer. -/
def malloc (o : Owner) (granted : Bool) : Tracker Owner σ ε Unit := assign o (.allocated granted)

def free (o : Owner) : Tracker Owner σ ε Unit := do
  Program.emit [.freed o ((← get).ptr o)]
  modify fun x => x.set o (x.ptr o).freed

/-- The answers to `realloc`. It returns null if there is no memory, and the block stays. It
also returns null if the new size is 0, but then the block has been freed. -/
inductive Reallocation where
  | granted | refused | emptied
  deriving DecidableEq, Repr

/-- The pointer, in which a result is stored if it is not null. -/
def Reallocation.after : Reallocation → Ptr → Ptr
  | granted, _ => .live
  | refused, p => p
  | emptied, p => p.freed

def realloc (o : Owner) (answer : Reallocation) : Tracker Owner σ ε Unit := do
  Program.emit [.freed o ((← get).ptr o)]
  modify fun x => x.set o (answer.after (x.ptr o))

theorem assign_ends {p : Ptr} (h : ∀ x, P x → Q (x.set o p)) :
    Ends Access.Sound P (assign o p : Tracker Owner σ ε Unit) (.goes fun _ => Q) :=
  .modify h

theorem free_ends (sound : ∀ x, P x → x.ptr o ≠ .released)
    (h : ∀ x, P x → Q (x.set o (x.ptr o).freed)) :
    Ends Access.Sound P (free o : Tracker Owner σ ε Unit) (.goes fun _ => Q) :=
  fun _ x hx => ⟨(), _, [.freed o (x.ptr o)], rfl, h x hx,
    List.forall_mem_singleton.mpr (sound x hx)⟩

/-- The second `free` of a block. -/
theorem free_breaks (released : ∀ x, P x → x.ptr o = .released) :
    Ends Access.Sound P (free o : Tracker Owner σ ε Unit) .breaks :=
  fun _ x hx => ⟨.freed o (x.ptr o), List.mem_singleton.mpr rfl, fun sound => sound (released x hx)⟩

theorem realloc_ends {answer : Reallocation} (sound : ∀ x, P x → x.ptr o ≠ .released)
    (h : ∀ x, P x → Q (x.set o (answer.after (x.ptr o)))) :
    Ends Access.Sound P (realloc o answer : Tracker Owner σ ε Unit) (.goes fun _ => Q) :=
  fun _ x hx => ⟨(), _, [.freed o (x.ptr o)], rfl, h x hx,
    List.forall_mem_singleton.mpr (sound x hx)⟩

/-- Resizing a block that has been freed. -/
theorem realloc_breaks {answer : Reallocation} (released : ∀ x, P x → x.ptr o = .released) :
    Ends Access.Sound P (realloc o answer : Tracker Owner σ ε Unit) .breaks :=
  fun _ x hx => ⟨.freed o (x.ptr o), List.mem_singleton.mpr rfl, fun sound => sound (released x hx)⟩

end Storing

section Clearing

def freeAll : List Owner → Tracker Owner σ ε Unit
  | [] => pure ()
  | o :: os => do
      free o
      freeAll os

def clearAll : List Owner → Tracker Owner σ ε Unit
  | [] => pure ()
  | o :: os => do
      assign o .null
      clearAll os

/-- Freeing different pointers that are not released, whatever they are. -/
theorem freeAll_run {r : Unit} {x : Tracked Owner σ} (distinct : os.Nodup)
    (sound : ∀ o ∈ os, x.ptr o ≠ .released) :
    ∃ y es, (freeAll os : Tracker Owner σ ε Unit).run r x = .done () y es ∧
      (∀ o, o ∉ os → y.ptr o = x.ptr o) ∧ y.rest = x.rest ∧ ∀ e ∈ es, e.Sound := by
  induction os generalizing x with
  | nil => exact ⟨x, [], rfl, fun _ _ => rfl, rfl, by simp⟩
  | cons o os ih =>
      rw [List.forall_mem_cons] at sound
      obtain ⟨fresh, distinct⟩ := List.nodup_cons.mp distinct
      have later : ∀ o' ∈ os, (x.set o (x.ptr o).freed).ptr o' ≠ .released := by
        intro o' member
        rw [Tracked.set_ptr_of_ne _ _ (ne_of_mem_of_not_mem member fresh)]
        exact sound.2 o' member
      obtain ⟨y, es, run, others, rest, kept⟩ := ih distinct later
      refine ⟨y, .freed o (x.ptr o) :: es, ?_, ?_, rest, List.forall_mem_cons.mpr ⟨sound.1, kept⟩⟩
      · have first : (free o : Tracker Owner σ ε Unit).run r x =
            .done () (x.set o (x.ptr o).freed) [.freed o (x.ptr o)] := rfl
        rw [freeAll, run_bind, first, Outcome.andThen_done, run]
        rfl
      · intro o' other
        rw [others o' (List.not_mem_of_not_mem_cons other),
          Tracked.set_ptr_of_ne _ _ (List.ne_of_not_mem_cons other)]

/-- Freeing pointers of which one is released. -/
theorem freeAll_breaks (released : ∀ x, P x → ∃ o ∈ os, x.ptr o = .released) :
    Ends Access.Sound P (freeAll os : Tracker Owner σ ε Unit) .breaks := by
  intro r x hx
  obtain ⟨o', member, stale⟩ := released x hx
  clear released hx
  induction os generalizing x with
  | nil => exact absurd member List.not_mem_nil
  | cons o os ih =>
      have first : (free o : Tracker Owner σ ε Unit).run r x =
          .done () (x.set o (x.ptr o).freed) [.freed o (x.ptr o)] := rfl
      rw [freeAll, run_bind, first, Outcome.andThen_done, Outcome.events_prepend]
      by_cases same : o' = o
      · refine ⟨.freed o (x.ptr o), by simp, fun sound => sound (same ▸ stale)⟩
      · have later := (List.mem_cons.mp member).resolve_left same
        obtain ⟨e, mem, unsound⟩ := ih (x.set o (x.ptr o).freed) later
          ((x.set_ptr_of_ne _ same).trans stale)
        exact ⟨e, List.mem_append_right _ mem, unsound⟩

theorem clearAll_run (os : List Owner) (r : Unit) (x : Tracked Owner σ) :
    ∃ y, (clearAll os : Tracker Owner σ ε Unit).run r x = .done () y [] ∧
      (∀ o ∈ os, y.ptr o = .null) ∧ (∀ o, o ∉ os → y.ptr o = x.ptr o) ∧ y.rest = x.rest := by
  induction os generalizing x with
  | nil => exact ⟨x, rfl, by simp, fun _ _ => rfl, rfl⟩
  | cons o os ih =>
      obtain ⟨y, run, cleared, others, rest⟩ := ih (x.set o .null)
      refine ⟨y, ?_, ?_, ?_, rest⟩
      · have first : (assign o .null : Tracker Owner σ ε Unit).run r x =
            .done () (x.set o .null) [] := rfl
        rw [clearAll, run_bind, first, Outcome.andThen_done, Outcome.prepend_nil, run]
      · intro o' member
        by_cases later : o' ∈ os
        · exact cleared o' later
        · obtain rfl := (List.mem_cons.mp member).resolve_right later
          rw [others o' later, Tracked.set_ptr_self]
      · intro o' other
        rw [others o' (List.not_mem_of_not_mem_cons other),
          Tracked.set_ptr_of_ne _ _ (List.ne_of_not_mem_cons other)]

/-- Pointers that are freed and then set to null can be used again. -/
theorem freeAll_clearAll_ends (distinct : os.Nodup)
    (sound : ∀ x, P x → ∀ o ∈ os, x.ptr o ≠ .released)
    (h : ∀ x y, P x → (∀ o ∈ os, y.ptr o = .null) → (∀ o, o ∉ os → y.ptr o = x.ptr o) →
      y.rest = x.rest → Q y) :
    Ends Access.Sound P (do freeAll os; clearAll os : Tracker Owner σ ε Unit)
      (.goes fun _ => Q) := by
  intro r x hx
  obtain ⟨y, es, freed, others, rest, kept⟩ := freeAll_run (ε := ε) (r := r) distinct (sound x hx)
  obtain ⟨z, clear, cleared, others', rest'⟩ := clearAll_run (ε := ε) os r y
  refine ⟨(), z, es, ?_, ?_, kept⟩
  · rw [run_bind, freed, Outcome.andThen_done, clear, Outcome.prepend_done, List.append_nil]
  · exact h x z hx cleared (fun o other => (others' o other).trans (others o other))
      (rest'.trans rest)

end Clearing

section Framing

variable {o' : Owner} {x y : Tracked Owner σ}

theorem SameBut.set (h : SameBut o x y) (p : Ptr) : SameBut o (x.set o' p) (y.set o' p) := by
  refine ⟨fun q other => ?_, h.2⟩
  by_cases same : q = o'
  · rw [same, Tracked.set_ptr_self, Tracked.set_ptr_self]
  · rw [Tracked.set_ptr_of_ne _ _ same, Tracked.set_ptr_of_ne _ _ same, h.1 q other]

theorem SameBut.set_self (x : Tracked Owner σ) (p : Ptr) : SameBut o x (x.set o p) :=
  ⟨fun _ other => (x.set_ptr_of_ne p other).symm, rfl⟩

theorem SameBut.set_eq (h : SameBut o x y) (p : Ptr) : x.set o p = y.set o p := by
  obtain ⟨ptr, rest⟩ := x
  obtain ⟨ptr', rest'⟩ := y
  obtain ⟨others, rfl⟩ := h
  refine congrArg (Tracked.mk · rest) (funext fun q => ?_)
  by_cases same : q = o
  · rw [if_pos same, if_pos same]
  · rw [if_neg same, if_neg same]
    exact others q same

theorem assign_ignores {p : Ptr} : Ignores o (assign o' p : Tracker Owner σ ε Unit) :=
  .modify fun _ _ h => h.set p

theorem free_ignores (other : o' ≠ o) : Ignores o (free o' : Tracker Owner σ ε Unit) := by
  refine .get_bind (fun x y h => ?_) fun x => .bind (.emit fun _ _ => rfl) fun _ => ?_
  · rw [h.1 o' other]
  · refine .modify fun y z h => ?_
    rw [h.1 o' other]
    exact h.set _

theorem freeAll_ignores (others : o ∉ os) : Ignores o (freeAll os : Tracker Owner σ ε Unit) := by
  induction os with
  | nil => exact .pure fun _ _ h => h
  | cons o' os ih =>
      obtain ⟨other, others⟩ := List.ne_and_not_mem_of_not_mem_cons others
      exact .bind (free_ignores other.symm) fun _ => ih others

theorem clearAll_ignores : Ignores o (clearAll os : Tracker Owner σ ε Unit) := by
  induction os with
  | nil => exact .pure fun _ _ h => h
  | cons o' os ih => exact .bind assign_ignores fun _ => ih

end Framing

end Ownership
