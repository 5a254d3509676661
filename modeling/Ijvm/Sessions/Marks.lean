import Ijvm.Sessions.Forgetting

/-!
# The marks that a process leaves behind

`marked_arrays` is a global of the process: the collector releases the marks of its last run and
allocates new ones, and `arr_destroy` releases them but keeps the pointer. The machine does not
show the pointer, so a process is a machine together with what its pointer leads to. Releasing
marks for a second time has no meaning. The blocks of the CPU, which are released in the same
way, are those of `Blocks`.
-/

namespace Ijvm

open Transcript Program

/-- What `marked_arrays` leads to: nothing yet, the marks of the last collection, or marks that
were released. -/
inductive MarksPointer where
  | null
  | live
  | released
  deriving DecidableEq

namespace MarksPointer

/-- `arr_gc` releases the old marks and allocates new ones. -/
def collect : MarksPointer → Option MarksPointer
  | .null | .live => some .live
  | .released => none

/-- `arr_destroy` releases the marks. -/
def destroy : MarksPointer → Option MarksPointer
  | .null => some .null
  | .live => some .released
  | .released => none

theorem destroy_idle {p q : MarksPointer} (frees : p.destroy = some q) :
    q = .null ∨ q = .released := by
  cases p with
  | null => exact Or.inl (Option.some.inj frees).symm
  | live => exact Or.inr (Option.some.inj frees).symm
  | released => contradiction

end MarksPointer

/-- The program enters the collector. -/
def Event.collects : Event → Bool
  | .gc _ => true
  | _ => false

/-- The globals of a process. -/
structure Process where
  machine : State
  marks : MarksPointer

namespace Process

def fresh : Process := ⟨State.fresh, .null⟩

/-- The next turn of the loop of `run` enters the collector. -/
def Collects (env : Env) (s : State) : Bool := (step.run env s).events.any Event.collects

def turn (env : Env) (p : Process) : Option Process := do
  let machine ← Ijvm.turn env p.machine
  let marks ← if Collects env p.machine then p.marks.collect else some p.marks
  return ⟨machine, marks⟩

/-- The process after `initIjvm` and `n` turns of the loop of `run`. -/
def afterFrom (env : Env) (p : Process) (file : Option (List Byte)) : Nat → Option Process
  | 0 => (Ijvm.afterFrom env p.machine file 0).map fun s => ⟨s, p.marks⟩
  | n + 1 => (afterFrom env p file n).bind (turn env)

/-- The processes in which no program is loaded: nothing was run yet, a program was run for some
time and then destroyed, or a binary was refused, after which `initIjvm` destroys as well. -/
inductive Idle : Process → Prop where
  | fresh : Idle fresh
  | destroyed {env : Env} {p q : Process} {file : Option (List Byte)} {n : Nat} {u : State}
      {es : List Event} {marks : MarksPointer} (before : Idle p)
      (ran : p.afterFrom env file n = some q)
      (destroy : destroyIjvm.run env q.machine = .done () u es)
      (frees : q.marks.destroy = some marks) : Idle ⟨u, marks⟩
  | refused {env : Env} {p : Process} {file : Option (List Byte)} {u : State} {es : List Event}
      {marks : MarksPointer} (before : Idle p)
      (refuse : (initIjvm file).run env p.machine = .done (-1) u es)
      (frees : p.marks.destroy = some marks) : Idle ⟨u, marks⟩

theorem Idle.released {p : Process} (idle : p.Idle) : p.machine.Released := by
  cases idle with
  | fresh => exact ⟨rfl, rfl⟩
  | destroyed before ran destroy frees =>
      exact (destroyIjvm_releases _ _ trivial fun _ _ => trivial).1 _ _ _ destroy
  | refused before refuse frees =>
      exact (initIjvm_refuses _ _ _ trivial fun _ _ => trivial).1 _ _ _ refuse rfl

/-- The marks of a collection are released before the process is idle. -/
theorem Idle.marks {p : Process} (idle : p.Idle) : p.marks = .null ∨ p.marks = .released := by
  cases idle with
  | fresh => exact Or.inl rfl
  | destroyed before ran destroy frees => exact MarksPointer.destroy_idle frees
  | refused before refuse frees => exact MarksPointer.destroy_idle frees

/-- The first `n` turns of a program do not enter the collector. -/
def Collectionless (env : Env) (s : State) (file : Option (List Byte)) (n : Nat) : Prop :=
  ∀ m < n, ∀ t, Ijvm.afterFrom env s file m = some t → Collects env t = false

section Machines

variable {env : Env} {p : Process} {file : Option (List Byte)} {n : Nat}

/-- A process does what its machine does, if it has not released its marks or does not
collect. The induction is on the turns. -/
theorem afterFrom_eq (env : Env) (p : Process) (file : Option (List Byte)) (n : Nat)
    (safe : p.marks ≠ .released ∨ Collectionless env p.machine file n) :
    ∃ marks : State → MarksPointer, (p.marks ≠ .released → ∀ s, marks s ≠ .released) ∧
      p.afterFrom env file n = (Ijvm.afterFrom env p.machine file n).map fun s => ⟨s, marks s⟩ := by
  induction n with
  | zero => exact ⟨fun _ => p.marks, fun live _ => live, rfl⟩
  | succ n ih =>
      obtain ⟨marks, live, run⟩ :=
        ih (safe.imp_right fun none m below => none m (Nat.lt_succ_of_lt below))
      cases reached : Ijvm.afterFrom env p.machine file n with
      | none =>
          refine ⟨marks, live, ?_⟩
          rw [afterFrom, run, Ijvm.afterFrom, reached]
          rfl
      | some s =>
          refine ⟨fun _ => if Collects env s then .live else marks s, fun unreleased _ => ?_, ?_⟩
          · split
            · exact MarksPointer.noConfusion
            · exact live unreleased s
          rw [afterFrom, run, Ijvm.afterFrom, reached, Option.map_some, Option.bind_some,
            Option.bind_some, turn]
          cases next : Ijvm.turn env s with
          | none => rfl
          | some t =>
              cases collects : Collects env s with
              | false => rfl
              | true =>
                  have unreleased : marks s ≠ .released := by
                    refine safe.elim (fun h => live h s) fun none => ?_
                    have := none n (Nat.lt_succ_self n) s reached
                    rw [collects] at this
                    contradiction
                  have frees : (marks s).collect = some .live := by
                    cases pointer : marks s with
                    | null => rfl
                    | live => rfl
                    | released => exact absurd pointer unreleased
                  simp only [if_true, frees]
                  rfl

end Machines

def visible (p : Process) : State := p.machine.visible

/-- A program does the same as in a process that has just started, with the same answers
ahead. -/
def Same (env : Env) (p : Process) (file : Option (List Byte)) (n : Nat) : Prop :=
  (p.afterFrom env file n).map visible =
    (afterFrom env ⟨{ State.fresh with clock := p.machine.clock }, .null⟩ file n).map visible

/-- Every program does the same as in a process that has just started. -/
def Forgets (p : Process) : Prop :=
  ∀ env file n, (∀ k, env.alloc k = true) → p.Same env file n

section Forgetting

variable {env : Env} {p : Process} {file : Option (List Byte)} {n : Nat}

theorem visible_afterFrom (safe : p.marks ≠ .released ∨ Collectionless env p.machine file n) :
    (p.afterFrom env file n).map visible =
      (Ijvm.afterFrom env p.machine file n).map State.visible := by
  obtain ⟨marks, _, run⟩ := afterFrom_eq env p file n safe
  rw [run, Option.map_map]
  rfl

/-- The marks that an idle process has not released show nothing. -/
theorem forgets_of_null (null : p.marks = .null) : p.Forgets ↔ p.machine.Forgets := by
  have safe : p.marks ≠ .released := by
    rw [null]
    exact MarksPointer.noConfusion
  refine forall_congr' fun env => forall_congr' fun file => forall_congr' fun n =>
    forall_congr' fun _ => ?_
  rw [Same, visible_afterFrom (Or.inl safe), visible_afterFrom (Or.inl MarksPointer.noConfusion)]

theorem collects_alike {s t : State} (same : s.SameButMarks t) :
    Collects env s = Collects env t := by
  have events : List.Forall₂ (Event.Alike fun _ => True) (step.run env s).events
      (step.run env t).events := (step_oblivious env s t same).transcripts
  unfold Collects
  generalize (step.run env s).events = es, (step.run env t).events = fs at events
  induction events with
  | nil => rfl
  | cons alike _ ih =>
      rw [List.any_cons, List.any_cons, ih]
      cases alike with
      | gc same => rfl
      | same h => rfl

/-- A program that does not collect does not release the marks again. -/
theorem same_of_collectionless (released : p.machine.Released)
    (unused : p.machine.elementCreations = 0) (granted : ∀ k, env.alloc k = true)
    (none : Collectionless env { State.fresh with clock := p.machine.clock } file n) :
    p.Same env file n := by
  have quiet : Collectionless env p.machine file n := by
    intro m below t reached
    have alike := afterFrom_agrees env file m
      (s := p.machine) (t := { State.fresh with clock := p.machine.clock })
      ⟨released, ⟨rfl, rfl⟩, unused, rfl⟩
    rw [reached] at alike
    generalize other : Ijvm.afterFrom env { State.fresh with clock := p.machine.clock } file m = o
      at alike
    cases alike with
    | some same => exact (collects_alike same).trans (none m below _ other)
  rw [Same, visible_afterFrom (Or.inr quiet), visible_afterFrom (Or.inl MarksPointer.noConfusion)]
  exact State.forgets_of_unused released unused env file n granted

end Forgetting

end Process

end Ijvm
