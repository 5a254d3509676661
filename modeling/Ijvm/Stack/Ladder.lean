import Mathlib.Order.Bounds.Basic
import Ijvm.Machine.Power
import Ijvm.Machine.Started
import Ijvm.Stack.Growth

/-!
# The ladder of stack sizes

The stack is meant to start with the smallest of the sizes `STACK_MIN_SIZE * 8 ^ k` that
has room for the main method, and to climb from there to `2 ^ 30` cells. Growth keeps it on
the ladder. The start does so up to 32512 variables of the main method; with more, the
third candidate is `STACK_MIN_SIZE * power 8 2`, which is no rung.
-/

namespace Ijvm

open Transcript Program

/-- `STACK_MIN_SIZE * 8 ^ k` cells, for a `k` up to 6. -/
def OnLadder (size : Int) : Prop := ∃ k ≤ 6, size = (stackMinSize : Int) * 8 ^ k

/-- A stack of this size has room for the variables and a margin of 1024 bytes. -/
def RoomFor (vars size : Int) : Prop := vars * 4 + 1024 ≤ size * 4

/-- The stack sizes that an event shows are on the ladder. -/
def Event.onLadder : Event → Prop
  | .stack _ _ size => OnLadder size
  | .gc entry => OnLadder entry.gCpu.stackSize
  | _ => True

/-- A rung of the ladder that is not below the rung `low`. -/
def Cpu.OnRung (low : Nat) (c : Cpu) : Prop :=
  ∃ k, low ≤ k ∧ k ≤ 6 ∧ c.stackSize = (stackMinSize : Int) * 8 ^ k

/-- What holds where the machine stops. More than `2 ^ 30` words are needed if there is no
memory for them. -/
def StopsOnRung (low : Nat) (r : Stop) (t : State) : Prop :=
  t.gCpu.OnRung low ∧ (r = .error .stackOutOfMemory → 2 ^ 30 < t.gCpu.sp + 1)

section Climbing

variable {low : Nat} {c : Cpu}

theorem Cpu.OnRung.onLadder (h : c.OnRung low) : OnLadder c.stackSize := by
  obtain ⟨k, _, le, size⟩ := h
  exact ⟨k, le, size⟩

/-- The sizes of the ladder, as numbers. -/
theorem onLadder_cases {size : Int} (h : OnLadder size) :
    size = 2 ^ 12 ∨ size = 2 ^ 15 ∨ size = 2 ^ 18 ∨ size = 2 ^ 21 ∨ size = 2 ^ 24 ∨
      size = 2 ^ 27 ∨ size = 2 ^ 30 := by
  obtain ⟨k, le, rfl⟩ := h
  interval_cases k <;> decide

theorem OnLadder.sized (h : OnLadder c.stackSize) : c.Sized := by
  have := onLadder_cases h
  constructor <;> omega

/-- Every size of the ladder but the last can grow. -/
theorem OnLadder.not_growable (h : OnLadder c.stackSize) (stuck : ¬ c.Growable) :
    c.stackSize = 2 ^ 30 := by
  have := onLadder_cases h
  unfold Cpu.Growable at stuck
  omega

theorem Cpu.OnRung.octupled (h : c.OnRung low) (growable : c.Growable) :
    c.octupled.OnRung low := by
  obtain ⟨k, above, le, size⟩ := h
  have next : (stackMinSize : Int) * 8 ^ k * 8 = stackMinSize * 8 ^ (k + 1) := by
    rw [Int.pow_succ, Int.mul_assoc]
  refine ⟨k + 1, by omega, ?_, ?_⟩
  · by_contra last
    obtain rfl : k = 6 := by omega
    rw [Cpu.Growable, size, stackMinSize] at growable
    omega
  · rw [← next, ← size]
    rfl

theorem onRung_growth (low : Nat) :
    GrowthRules (Cpu.OnRung low) Event.onLadder (StopsOnRung low) where
  sized h := h.onLadder.sized
  octupled h growable _ := h.octupled growable
  aside {c e} h aside := by
    cases e with
    | gc entry =>
        show OnLadder entry.gCpu.stackSize
        rw [show entry.gCpu = c from aside]
        exact h.onLadder
    | stack access i n =>
        obtain ⟨_, _, rfl⟩ := aside
        exact h.onLadder
    | _ => trivial
  stops {c r t} h same limit := by
    refine ⟨by rw [same]; exact h, fun oom => ?_⟩
    obtain ⟨above, stuck⟩ := limit oom
    have := h.onLadder.not_growable stuck
    rw [same]
    omega

theorem onRung_rules (low : Nat) :
    StackRules (Cpu.OnRung low) (Cpu.OnRung low) Event.onLadder (StopsOnRung low) where
  growth := onRung_growth low
  weaken h := h
  raised h := h
  settled h _ := h
  popped h _ := h
  same h _ size := by
    obtain ⟨k, above, le, eq⟩ := h
    exact ⟨k, above, le, size.trans eq⟩
  computing {e} computing := by
    cases e with
    | gc entry => exact computing.elim
    | stack access i n => exact computing.elim
    | _ => trivial
  access h _ := h.onLadder

/-- The program leaves the stack on the ladder, and does not take it down. -/
abbrev Climbs (low : Nat) (α : Type) (m : VM α) : Prop :=
  StackRules.Survives (Cpu.OnRung low) Event.onLadder (StopsOnRung low) α m

theorem modify_climbs {f : Cpu → Cpu} (size : ∀ c, (f c).stackSize = c.stackSize) :
    Climbs low Unit (modifyCpu f) :=
  .modify fun t ht => by
    obtain ⟨k, above, le, eq⟩ := ht
    exact ⟨k, above, le, (size t.gCpu).trans eq⟩

/-- Climbing has the rules of all instructions. -/
theorem climbs_rules (low : Nat) : MachineRules (Climbs low) where
  toFrameRules := (onRung_rules low).rules
  registers size := modify_climbs size
  linkage := (onRung_rules low).pop .linkage nofun
  clear := (onRung_rules low).clearCells
  prefixed _ := .modify fun _ ht => ht

/-- A step keeps the stack on the ladder. -/
theorem step_climbs : Climbs low Bool step := (climbs_rules low).step

end Climbing

section Starting

variable {env : Env} {file : List Byte} {s : State}

/-- The number of variables that the scan finds in the main method of a binary. -/
def mainVariables (env : Env) (file : List Byte) : Option Int :=
  ((do
    let _ ← loadBin (some file)
    initRegisters
    getNumLocalVarsMain : VM Int).run env State.fresh).value?

/-- The candidates that the search of `initStack` tries first. -/
theorem initialStackSize_eq {n : Nat} (few : n ≤ 32768) :
    initialStackSize n =
      some (if n ≤ 3840 then 4096 else if n ≤ 32512 then 32768 else 131072) := by
  have p₀ : power 8 0 = 1 := by decide
  have p₁ : power 8 1 = 8 := by decide
  have p₂ : power 8 2 = 32 := by decide
  have range : List.range 7 = [0, 1, 2, 3, 4, 5, 6] := by decide
  rw [initialStackSize, range, stackMinSize]
  by_cases h₀ : n ≤ 3840
  · rw [if_pos h₀, List.find?_cons_of_pos (by simp [p₀]; omega), Option.map_some, p₀]
  rw [if_neg h₀, List.find?_cons_of_neg (by simp [p₀]; omega)]
  by_cases h₁ : n ≤ 32512
  · rw [if_pos h₁, List.find?_cons_of_pos (by simp [p₁]; omega), Option.map_some, p₁]
  rw [if_neg h₁, List.find?_cons_of_neg (by simp [p₁]; omega),
    List.find?_cons_of_pos (by simp [p₂]; omega), Option.map_some, p₂]

/-- The stack of a main method with `n` variables. -/
structure Cpu.SizedFor (n : Nat) (c : Cpu) : Prop where
  few : n ≤ 32768
  nv : c.nv = n
  size : c.stackSize = if n ≤ 3840 then 4096 else if n ≤ 32512 then 32768 else 131072

theorem initStack_sizes (env : Env) (s : State) :
    (initStack.run env s).Returns fun _ t => ∃ n : Nat,
      (getNumLocalVarsMain.run env s).value? = some (n : Int) ∧ t.gCpu.SizedFor n := by
  have counted := (getNumLocalVarsMain_scans (I := fun _ => True) env s trivial
    fun _ _ => trivial).1
  rw [initStack, run_bind]
  cases run : getNumLocalVarsMain.run env s with
  | stopped r t es => exact Outcome.returns_stopped
  | done v t es =>
      obtain ⟨_, nonneg, few⟩ := counted v t es run
      obtain ⟨n, rfl⟩ := Int.eq_ofNat_of_zero_le nonneg
      have few : n ≤ 32768 := by omega
      rw [Outcome.andThen_done, Outcome.returns_prepend, if_neg (by omega), Int.toNat_natCast,
        initialStackSize_eq few]
      simp only [run_bind, run_modifyCpu, run_allocate, Outcome.andThen_done, Outcome.prepend_nil]
      cases env.alloc t.clock with
      | false => exact Outcome.returns_stopped
      | true =>
          refine Outcome.returns_done.mpr ⟨n, rfl, few, rfl, ?_⟩
          push_cast
          rfl

theorem mainVariables_of_load {fs : List Event}
    (load : (loadBin (some file)).run env State.fresh = .done true s fs) :
    mainVariables env file = (getNumLocalVarsMain.run env (s.withPc 0)).value? := by
  rw [mainVariables, run_bind, load, Outcome.andThen_done, Outcome.value?_prepend, run_bind,
    initRegisters, run_modifyCpu, Outcome.andThen_done, Outcome.prepend_nil]
  rfl

/-- A machine that is ready has a stack for the number of variables that the scan found. -/
theorem sizedFor_of_after (started : after env file 0 = some s) :
    ∃ n : Nat, mainVariables env file = some (n : Int) ∧ s.gCpu.SizedFor n := by
  obtain ⟨es, init⟩ := init_of_after started
  suffices sizes : ((initIjvm (some file)).run env State.fresh).Returns fun code t =>
      code = 0 → ∃ n : Nat, mainVariables env file = some (n : Int) ∧ t.gCpu.SizedFor n from
    sizes 0 s es init rfl
  rw [initIjvm, run_bind]
  cases load : (loadBin (some file)).run env State.fresh with
  | stopped r t fs => exact Outcome.returns_stopped
  | done loaded t fs =>
      rw [Outcome.andThen_done, Outcome.returns_prepend]
      cases loaded with
      | false =>
          rw [if_pos (by simp), run_bind]
          refine Outcome.Returns.andThen (Q := fun _ _ => True) (fun _ _ _ _ => trivial) ?_
          exact fun _ _ _ => Outcome.returns_done.mpr fun failed => absurd failed (by decide)
      | true =>
          rw [if_neg (by simp), run_bind, initRegisters, run_modifyCpu, Outcome.andThen_done,
            Outcome.prepend_nil, run_bind, mainVariables_of_load load]
          refine (initStack_sizes env (t.withPc 0)).andThen ?_
          rintro _ u ⟨n, scanned, few, nv, size⟩
          exact Outcome.returns_done.mpr fun _ => ⟨n, scanned, few, nv, size⟩

/-- Up to 32512 variables, the search finds the smallest size that is large enough. -/
theorem Cpu.SizedFor.isLeast_iff {n : Nat} {c : Cpu} (h : c.SizedFor n) :
    IsLeast {size | OnLadder size ∧ RoomFor c.nv size} c.stackSize ↔ n ≤ 32512 := by
  obtain ⟨few, nv, size⟩ := h
  constructor
  · rintro ⟨⟨ladder, _⟩, _⟩
    have := onLadder_cases ladder
    by_contra many
    rw [if_neg (by omega), if_neg many] at size
    omega
  · intro low
    rw [if_pos low] at size
    by_cases fewer : n ≤ 3840
    · rw [if_pos fewer] at size
      refine ⟨⟨⟨0, by decide, by rw [size]; decide⟩, by unfold RoomFor; omega⟩, ?_⟩
      rintro z ⟨ladder, _⟩
      have := onLadder_cases ladder
      omega
    · rw [if_neg fewer] at size
      refine ⟨⟨⟨1, by decide, by rw [size]; decide⟩, by unfold RoomFor; omega⟩, ?_⟩
      rintro z ⟨ladder, room⟩
      have := onLadder_cases ladder
      unfold RoomFor at room
      omega

end Starting

/-- The stack of a run is sized as documented. -/
structure FollowsLadder (env : Env) (file : List Byte) : Prop where
  start : ∀ s, after env file 0 = some s →
    IsLeast {size | OnLadder size ∧ RoomFor s.gCpu.nv size} s.gCpu.stackSize
  states : ∀ s, Reachable env file s → OnLadder s.gCpu.stackSize
  events : ∀ s, Reachable env file s → finished s.gCpu = false →
    ∀ e ∈ (step.run env s).events, e.onLadder
  growth : ∀ s b t es, Reachable env file s → finished s.gCpu = false →
    step.run env s = .done b t es → ∃ j, t.gCpu.stackSize = s.gCpu.stackSize * 8 ^ j
  memory : ∀ s t es, Reachable env file s → finished s.gCpu = false →
    step.run env s = .stopped (.error .stackOutOfMemory) t es → 2 ^ 30 < t.gCpu.sp + 1

/-- A growth multiplies by 8 and stays on the ladder, which ends at `2 ^ 30`. -/
def GrowthOctuples : Prop :=
  ∀ (env : Env) (s : State), OnLadder s.gCpu.stackSize → (octupleStackSize.run env s).Returns
    fun _ t => t.gCpu.stackSize = s.gCpu.stackSize * 8 ∧ OnLadder t.gCpu.stackSize

theorem growthOctuples : GrowthOctuples := by
  intro env s ladder
  obtain ⟨k, le, size⟩ := id ladder
  have rung : s.gCpu.OnRung 0 := ⟨k, Nat.zero_le k, le, size⟩
  refine (octupleStackSize_meets ladder.sized env s rfl).returns ?_
  rintro b t es ⟨⟨_, growable, cpu⟩, _⟩
  rw [cpu]
  exact ⟨rfl, (rung.octupled growable).onLadder⟩

section Runs

variable {env : Env} {file : List Byte} {s : State}

theorem Reachable.onLadder (start : ∀ s, after env file 0 = some s → OnLadder s.gCpu.stackSize)
    (reached : Reachable env file s) : OnLadder s.gCpu.stackSize := by
  induction reached with
  | @start s es init => exact start s (by simp [after, init])
  | @step s t b es _ _ execution ih =>
      obtain ⟨k, le, size⟩ := ih
      have climbs : Climbs k Bool Ijvm.step := step_climbs
      have climbed := climbs env s ⟨k, Nat.le_refl k, le, size⟩
      rw [execution] at climbed
      exact climbed.1.onLadder

/-- From a rung on, a run climbs the ladder. -/
theorem followsLadder_of_start (start : ∀ s, after env file 0 = some s →
    IsLeast {size | OnLadder size ∧ RoomFor s.gCpu.nv size} s.gCpu.stackSize) :
    FollowsLadder env file := by
  have states (s : State) (reached : Reachable env file s) : OnLadder s.gCpu.stackSize :=
    reached.onLadder fun s started => (start s started).1.1
  have climbed (s : State) (reached : Reachable env file s) : ∃ k, s.gCpu.stackSize =
      (stackMinSize : Int) * 8 ^ k ∧ (step.run env s).Satisfies
        (fun _ t es => t.gCpu.OnRung k ∧ ∀ e ∈ es, e.onLadder)
        fun r t es => StopsOnRung k r t ∧ ∀ e ∈ es, e.onLadder := by
    obtain ⟨k, le, size⟩ := states s reached
    exact ⟨k, size, step_climbs env s ⟨k, Nat.le_refl k, le, size⟩⟩
  refine ⟨start, states, ?_, ?_, ?_⟩
  · intro s reached _
    obtain ⟨k, _, spec⟩ := climbed s reached
    exact spec.events (fun _ _ _ final => final.2) fun _ _ _ final => final.2
  · intro s b t es reached _ run
    obtain ⟨k, size, spec⟩ := climbed s reached
    rw [run] at spec
    obtain ⟨k', above, _, size'⟩ := spec.1
    refine ⟨k' - k, ?_⟩
    rw [size', size, Int.mul_assoc, ← Int.pow_add, Nat.add_sub_cancel' above]
  · intro s t es reached _ run
    obtain ⟨k, _, spec⟩ := climbed s reached
    rw [run] at spec
    exact spec.1.2 rfl

/-- `power` is right for the base 0, the exponents 0 and 1, and 4 squared only; the stack of
an accepted binary is sized as documented exactly if the main method has at most 32512
variables. -/
theorem stackSizing_iff (accepted : (after env file 0).isSome = true) :
    (∀ b n, b < 2 ^ 32 → n < 2 ^ 32 →
      (power b n = b ^ n ↔ b = 0 ∨ n ≤ 1 ∨ (b = 4 ∧ n = 2))) ∧
    GrowthOctuples ∧
    (FollowsLadder env file ↔ ∀ n, mainVariables env file = some n → n ≤ 32512) := by
  refine ⟨fun b n base exponent => power_correct_iff base exponent, growthOctuples, ?_⟩
  obtain ⟨s, started⟩ := Option.isSome_iff_exists.mp accepted
  obtain ⟨n, scanned, sized⟩ := sizedFor_of_after started
  have bound : (∀ v, mainVariables env file = some v → v ≤ 32512) ↔ n ≤ 32512 := by
    rw [scanned]
    simp only [Option.some.injEq, forall_eq']
    omega
  rw [bound, ← sized.isLeast_iff]
  constructor
  · exact fun follows => follows.start s started
  · intro least
    refine followsLadder_of_start fun s' started' => ?_
    obtain rfl := Option.some.inj (started.symm.trans started')
    exact least

end Runs

/-- A main method that loads the variable `i`: WIDE ILOAD; HALT. -/
def wideLoad (i : BitVec 16) : List Byte :=
  assemble [] [Op.wide.code, Op.iload.code, (i >>> 8).setWidth 8, i.setWidth 8, Op.halt.code]

/-- The function `power` is wrong for 8 squared, and with 32513 variables the stack starts
with 131072 cells. -/
theorem wideLoad_off_ladder : power 8 2 ≠ 8 ^ 2 ∧
    ¬ ∀ env file, (after env file 0).isSome = true → FollowsLadder env file := by
  refine ⟨by decide, fun follows => ?_⟩
  have size : (after Env.quiet (wideLoad 32512) 0).any (fun s =>
      decide (s.gCpu.stackSize = 131072)) = true := by decide +kernel
  obtain ⟨s, started, large⟩ := (Option.any_eq_true _ _).mp size
  have ladder := (follows Env.quiet (wideLoad 32512) (by rw [started]; rfl)).start s started
  have := onLadder_cases ladder.1.1
  have := of_decide_eq_true large
  omega

theorem stackSizing_iff_wideLoad : (∀ b n, b < 2 ^ 32 → n < 2 ^ 32 →
      (power b n = b ^ n ↔ b = 0 ∨ n ≤ 1 ∨ (b = 4 ∧ n = 2))) ∧
    GrowthOctuples ∧ (FollowsLadder Env.quiet (wideLoad 32511) ↔
      ∀ n, mainVariables Env.quiet (wideLoad 32511) = some n → n ≤ 32512) :=
  stackSizing_iff (by decide +kernel)

end Ijvm
