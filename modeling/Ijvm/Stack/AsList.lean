import Ijvm.Stack.Bounds
import Ijvm.Stack.Growth

/-!
# The growable stack as a list

Read down from `sp`, the words above a base are a list with the top first. `Stacked` is
that reading: a push puts a word in front of the list and a pop takes it off, wherever the
base lies and however often the stack had to grow. The cells of the base that were
allocated keep their words. An `sp` past the end of the stack, as INVOKEVIRTUAL leaves it,
is a base like any other: the first push enlarges the stack until it contains `sp`.
-/

namespace Ijvm

open Transcript Program

/-- The words of the `n` cells from `i` down. -/
def cellsDown (mem : Int → Word) (i : Int) : Nat → List Word
  | 0 => []
  | n + 1 => mem i :: cellsDown mem (i - 1) n

@[simp] theorem cellsDown_succ (mem : Int → Word) (i : Int) (n : Nat) :
    cellsDown mem i (n + 1) = mem i :: cellsDown mem (i - 1) n := rfl

/-- A write above the cells is not among their words. -/
theorem cellsDown_setCell {mem : Int → Word} {i j : Int} {w : Word} (above : i < j) (n : Nat) :
    cellsDown (setCell mem j w) i n = cellsDown mem i n := by
  induction n generalizing i with
  | zero => rfl
  | succ n ih =>
      rw [cellsDown_succ, cellsDown_succ, ih (by omega), setCell_ne (by omega)]

/-- The cells up to `sp` that `c` has allocated hold the same words in `c'`. -/
def Cpu.Kept (c c' : Cpu) : Prop :=
  ∀ i, 0 ≤ i → i ≤ c.sp → i < c.stackSize → c'.stack i = c.stack i

/-- `c` is `base` with the words `ws` pushed onto it, the top first. -/
structure Stacked (base : Cpu) (ws : List Word) (c : Cpu) : Prop where
  sp : c.sp = base.sp + ws.length
  words : cellsDown c.stack c.sp ws.length = ws
  kept : base.Kept c
  registers : c = { base with sp := c.sp, stackSize := c.stackSize, stack := c.stack }
  size_le : base.stackSize ≤ c.stackSize
  inside : ws ≠ [] → c.sp < c.stackSize

namespace Stacked

variable {base c c' : Cpu} {w : Word} {ws : List Word}

theorem refl (c : Cpu) : Stacked c [] c where
  sp := by simp
  words := rfl
  kept _ _ _ _ := rfl
  registers := rfl
  size_le := Int.le_refl _
  inside none := absurd rfl none

theorem sp_cons (h : Stacked base (w :: ws) c) : c.sp = base.sp + ws.length + 1 := by
  have sp := h.sp
  rw [List.length_cons] at sp
  omega

/-- A push puts the word in front of the list. -/
theorem push (h : Stacked base ws c) (pushed : Pushed c w c') : Stacked base (w :: ws) c' := by
  obtain ⟨eq, size_le, inside, _⟩ := pushed
  have top : c'.sp = c.sp + 1 := congrArg Cpu.sp eq
  have cells : c'.stack = setCell c.stack (c.sp + 1) w := congrArg Cpu.stack eq
  have sp := h.sp
  refine ⟨?_, ?_, ?_, ?_, Int.le_trans h.size_le size_le, fun _ => by rw [top]; exact inside⟩
  · rw [top, List.length_cons]
    omega
  · rw [List.length_cons, cellsDown_succ, top, Int.add_sub_cancel, cells, setCell_same,
      cellsDown_setCell (by omega), h.words]
  · intro i nonneg below allocated
    rw [cells, setCell_ne (by omega)]
    exact h.kept i nonneg below allocated
  · rw [eq, h.registers]
    rfl

/-- A pop takes the first word off the list. -/
theorem pop (h : Stacked base (w :: ws) c) :
    c.stack c.sp = w ∧ Stacked base ws { c with sp := c.sp - 1 } := by
  have words := h.words
  rw [List.length_cons, cellsDown_succ, List.cons.injEq] at words
  have sp := h.sp_cons
  refine ⟨words.1, ?_, words.2, h.kept, ?_, h.size_le, fun _ => ?_⟩
  · show c.sp - 1 = base.sp + ws.length
    omega
  · rw [h.registers]
  · have := h.inside (List.cons_ne_nil _ _)
    show c.sp - 1 < c.stackSize
    omega

/-- A word that was pushed can be popped. -/
theorem not_empty (h : Stacked base (w :: ws) c) (frame : base.lv ≤ base.sp + 1)
    (sp_ge : -1 ≤ base.sp) : ¬ c.Empty := by
  have sp := h.sp_cons
  have lv : c.lv = base.lv := by rw [h.registers]
  rw [Cpu.not_empty_iff, lv]
  omega

end Stacked

def pushAll : List Word → VM Unit
  | [] => return ()
  | w :: ws => do
      let _ ← stackPush w
      pushAll ws

def popAll : Nat → VM (List Word)
  | 0 => return []
  | n + 1 => do
      let w ← stackPop .pop
      return w :: (← popAll n)

section Runs

variable {env : Env} {base : Cpu} {s : State} {w : Word} {ws : List Word}

/-- A push that returns is a push onto the list, with its access inside the stack. -/
theorem stackPush_stacked (stacked : Stacked base ws s.gCpu) (sp_ge : -1 ≤ base.sp)
    (sized : s.gCpu.Sized) (w : Word) :
    ((stackPush w).run env s).Satisfies
      (fun b t es => b = true ∧ Pushed s.gCpu w t.gCpu ∧ Stacked base (w :: ws) t.gCpu ∧
        ∀ e ∈ es, e.inStack)
      (fun r _ es => Refused r es) := by
  refine (stackPush_satisfies sized w).mono ?_ fun _ _ _ refused => refused
  rintro b t es ⟨rfl, pushed, _, events⟩
  refine ⟨rfl, pushed, stacked.push pushed, fun e member => ?_⟩
  have sp := stacked.sp
  have inside := pushed.inside
  rcases events e member with quiet | rfl
  · exact quiet.inStack
  · exact Or.inr ⟨by omega, inside⟩

variable (env) in
theorem pushAll_stacked (stacked : Stacked base ws s.gCpu) (sp_ge : -1 ≤ base.sp)
    (sized : s.gCpu.Sized) (xs : List Word) :
    ((pushAll xs).run env s).Satisfies
      (fun _ t es => Stacked base (xs.reverse ++ ws) t.gCpu ∧ ∀ e ∈ es, e.inStack)
      (fun r _ _ => ∃ e, r = .error e) := by
  induction xs generalizing s ws with
  | nil => exact ⟨stacked, by simp⟩
  | cons x xs ih =>
      rw [pushAll, run_bind]
      refine ((stackPush_stacked stacked sp_ge sized x).mono (fun _ _ _ done => done)
        fun _ _ _ refused => refused.error).andThen ?_
      rintro b t es ⟨rfl, pushed, stacked', inStack⟩
      refine (ih stacked' pushed.sized).mono ?_ fun _ _ _ refused => refused
      rintro _ u fs ⟨final, inStack'⟩
      rw [List.reverse_cons, List.append_assoc, List.singleton_append]
      exact ⟨final, List.forall_mem_append.mpr ⟨inStack, inStack'⟩⟩

variable (env) in
/-- Popping takes the words off the list, the first one first. -/
theorem popAll_stacked (stacked : Stacked base ws s.gCpu) (frame : base.lv ≤ base.sp + 1)
    (sp_ge : -1 ≤ base.sp) :
    ∃ t es, (popAll ws.length).run env s = .done ws t es ∧ Stacked base [] t.gCpu ∧
      ∀ e ∈ es, e.inStack := by
  induction ws generalizing s with
  | nil => exact ⟨s, [], rfl, stacked, by simp⟩
  | cons w ws ih =>
      have operand := stacked.not_empty frame sp_ge
      obtain ⟨top, below⟩ := stacked.pop
      obtain ⟨t, es, run, final, inStack⟩ :=
        ih (s := { s with gCpu := { s.gCpu with sp := s.gCpu.sp - 1 } }) below
      rw [List.length_cons, popAll, run_bind, stackPop_run, if_neg operand,
        Outcome.andThen_done, run_bind, run, top]
      refine ⟨t, _, rfl, final, ?_⟩
      have sp := Cpu.not_empty_iff.mp operand
      have inside := stacked.inside (List.cons_ne_nil _ _)
      rw [List.forall_mem_append, List.forall_mem_append]
      exact ⟨by simpa [Event.inStack] using ⟨sp.2, inside⟩, inStack, by simp⟩

/-- Every allocation from now on succeeds. -/
def Granted (env : Env) (s : State) : Prop := ∀ n, s.clock ≤ n → env.alloc n = true

theorem Granted.later {t : State} (h : Granted env s) (later : s.clock ≤ t.clock) :
    Granted env t :=
  fun n le => h n (Nat.le_trans later le)

theorem octupleStackSize_grants (sized : s.gCpu.Sized) (granted : Granted env s) :
    (octupleStackSize.run env s).Satisfies
      (fun _ t _ => Granted env t ∧ t.gCpu.Sized)
      (fun r _ _ => r = .error .stackOutOfMemory) := by
  by_cases growable : s.gCpu.Growable
  · rw [octupleStackSize_granted sized growable (granted _ (Nat.le_refl _))]
    refine ⟨granted.later (Nat.le_succ _), ?_⟩
    obtain ⟨positive, small⟩ := growable
    constructor
    all_goals
      dsimp only [Cpu.octupled]
      omega
  · rw [octupleStackSize_limit sized growable]
    rfl

theorem growStackFuel_grants (sized : s.gCpu.Sized) (granted : Granted env s) (fuel : Nat) :
    ((growStackFuel fuel).run env s).Satisfies
      (fun _ t _ => Granted env t)
      (fun r _ _ => r = .error .stackOutOfMemory ∨ r = .outOfFuel) := by
  induction fuel generalizing s with
  | zero => exact Or.inr rfl
  | succ fuel ih =>
      by_cases outside : s.gCpu.stackSize ≤ s.gCpu.sp
      · rw [growStackFuel_grows outside]
        refine ((octupleStackSize_grants sized granted).mono (fun _ _ _ done => done)
          fun _ _ _ limit => Or.inl limit).andThen ?_
        rintro b t es ⟨granted', sized'⟩
        by_cases refused : b ≠ true
        · rw [if_pos refused]
          exact granted'
        · rw [if_neg refused]
          exact ih sized' granted'
      · rw [growStackFuel_fits (Int.lt_of_not_ge outside)]
        exact granted

theorem growStack_grants (sized : s.gCpu.Sized) (granted : Granted env s) :
    (growStack.run env s).Satisfies
      (fun _ t _ => Granted env t)
      (fun r _ _ => r = .error .stackOutOfMemory ∨ r = .outOfFuel) := by
  rw [growStack_run]
  exact growStackFuel_grants sized granted _

theorem stackPush_grants (sized : s.gCpu.Sized) (granted : Granted env s) (w : Word) :
    ((stackPush w).run env s).Satisfies
      (fun _ t _ => Granted env t)
      (fun r _ _ => r = .error .stackOutOfMemory ∨ r = .outOfFuel) := by
  by_cases inside : s.gCpu.sp + 1 < s.gCpu.stackSize
  · rw [stackPush_inside inside]
    exact granted
  · rw [stackPush_outside inside]
    refine Outcome.Satisfies.andThen (growStack_grants ⟨sized.nonneg, sized.bound⟩ granted) ?_
    intro b t es granted'
    by_cases refused : b ≠ true
    · rw [if_pos refused]
      exact granted'
    · rw [if_neg refused, run_bind, writeTop_run]
      exact granted'

/-- While reallocation succeeds, a push returns or the stack is at its limit. -/
theorem stackPush_returns (sized : s.gCpu.Sized) (granted : Granted env s) (w : Word) :
    ((stackPush w).run env s).Satisfies
      (fun b t _ => b = true ∧ Pushed s.gCpu w t.gCpu ∧ Granted env t)
      (fun r _ _ => r = .error .stackOutOfMemory) := by
  refine ((stackPush_satisfies sized w).and (stackPush_grants sized granted w)).mono ?_ ?_
  · rintro b t es ⟨⟨rfl, pushed, _, _⟩, granted'⟩
    exact ⟨rfl, pushed, granted'⟩
  · rintro r t es ⟨⟨⟨e, rfl⟩, _⟩, limit⟩
    exact limit.resolve_right nofun

/-- The push of `w` returns, with `w` at the top of a stack that contains it and all
allocated cells up to the old top as they were. -/
structure PushedOnto (env : Env) (s : State) (w : Word) (t : State) : Prop where
  returns : ∃ es, (stackPush w).run env s = .done true t es
  sp : t.gCpu.sp = s.gCpu.sp + 1
  inside : t.gCpu.sp < t.gCpu.stackSize
  top : t.gCpu.stack t.gCpu.sp = w
  kept : s.gCpu.Kept t.gCpu

theorem PushedOnto.of_run {t : State} {es : List Event}
    (run : (stackPush w).run env s = .done true t es) (pushed : Pushed s.gCpu w t.gCpu) :
    PushedOnto env s w t := by
  have sp : t.gCpu.sp = s.gCpu.sp + 1 := congrArg Cpu.sp pushed.eq
  have stacked := (Stacked.refl s.gCpu).push pushed
  exact ⟨⟨es, run⟩, sp, stacked.inside (List.cons_ne_nil _ _),
    (List.cons.inj stacked.words).1, stacked.kept⟩

/-- One push after the other returns. -/
inductive Pushes (env : Env) : State → List Word → State → Prop where
  | nil (s : State) : Pushes env s [] s
  | cons {s t u : State} {w : Word} {ws : List Word} (first : PushedOnto env s w t)
      (rest : Pushes env t ws u) : Pushes env s (w :: ws) u

theorem pushAll_pushes (sized : s.gCpu.Sized) (granted : Granted env s)
    (memory : ∀ t es, (pushAll ws).run env s ≠ .stopped (.error .stackOutOfMemory) t es) :
    ∃ t es, Pushes env s ws t ∧ (pushAll ws).run env s = .done () t es := by
  induction ws generalizing s with
  | nil => exact ⟨s, [], .nil s, rfl⟩
  | cons w ws ih =>
      have spec := stackPush_returns sized granted w
      rw [pushAll, run_bind] at memory ⊢
      cases run : (stackPush w).run env s with
      | stopped r t es =>
          rw [run] at spec memory
          obtain rfl : r = .error .stackOutOfMemory := spec
          exact absurd rfl (memory t es)
      | done b t es =>
          rw [run] at spec memory
          obtain ⟨rfl, pushed, granted'⟩ := spec
          obtain ⟨u, fs, rest, run'⟩ := ih pushed.sized granted' fun u fs limit =>
            memory u (es ++ fs) (by rw [Outcome.andThen_done, limit, Outcome.prepend_stopped])
          refine ⟨u, es ++ fs, .cons (.of_run run pushed) rest, ?_⟩
          rw [Outcome.andThen_done, run', Outcome.prepend_done]

/-- Pushing the words behaves as on a list: every push returns, and popping as many words
gives them in reverse, with the registers and the allocated cells up to the top as at
first. Every access is inside the stack. -/
structure BehavesAsList (env : Env) (s : State) (ws : List Word) : Prop where
  pushes : ∃ t, Pushes env s ws t
  roundTrip : ∃ t es,
    (do pushAll ws; popAll ws.length : VM (List Word)).run env s = .done ws.reverse t es ∧
      t.gCpu.sp = s.gCpu.sp ∧ s.gCpu.Kept t.gCpu ∧
      t.gCpu = { s.gCpu with stackSize := t.gCpu.stackSize, stack := t.gCpu.stack } ∧
      ∀ e ∈ es, e.inStack

/-- The stack behaves as a list, from any `sp` and however often it grows, as long as
reallocation succeeds and the stack does not reach its limit. -/
theorem behavesAsList {env : Env} {s : State} {ws : List Word} (positive : 0 < s.gCpu.stackSize)
    (int : s.gCpu.stackSize < 2 ^ 31) (frame : s.gCpu.lv ≤ s.gCpu.sp + 1)
    (sp_ge : -1 ≤ s.gCpu.sp) (granted : Granted env s)
    (memory : ∀ t es, (pushAll ws).run env s ≠ .stopped (.error .stackOutOfMemory) t es) :
    BehavesAsList env s ws := by
  have sized : s.gCpu.Sized := ⟨Int.le_of_lt positive, int⟩
  obtain ⟨t, es, pushes, run⟩ := pushAll_pushes sized granted memory
  refine ⟨⟨t, pushes⟩, ?_⟩
  have pushed := pushAll_stacked env (Stacked.refl s.gCpu) sp_ge sized ws
  rw [run, List.append_nil] at pushed
  obtain ⟨stacked, inStack⟩ := pushed
  obtain ⟨u, fs, popped, restored, inStack'⟩ := popAll_stacked env stacked frame sp_ge
  rw [List.length_reverse] at popped
  have sp : u.gCpu.sp = s.gCpu.sp := by simpa using restored.sp
  refine ⟨u, es ++ fs, ?_, sp, restored.kept, ?_, List.forall_mem_append.mpr ⟨inStack, inStack'⟩⟩
  · rw [run_bind, run, Outcome.andThen_done, popped, Outcome.prepend_done]
  · have registers := restored.registers
    rw [sp] at registers
    exact registers

end Runs

/-- A state whose `sp` is past the end of a stack of one cell. -/
def State.pastEnd : State :=
  { State.fresh with gCpu := { State.fresh.gCpu with stackSize := 1, sp := 6 } }

/-- The first and the second push enlarge the stack. -/
theorem behavesAsList_pastEnd : BehavesAsList Env.quiet State.pastEnd [7, 8, 9] := by
  refine behavesAsList (by decide) (by decide) (by decide) (by decide) (fun _ _ => rfl) ?_
  intro t es limit
  have returns : ((pushAll [7, 8, 9]).run Env.quiet State.pastEnd).isDone = true := by
    decide +kernel
  rw [limit] at returns
  contradiction

end Ijvm
