import Ijvm.Collector.Sweep
import Ijvm.Machine.Decode
import Ijvm.Machine.Quiet

/-!
# Pushing and popping

One specification for each function that uses the stack. A push either writes the cell
above the top, on a stack that may have grown, or ends the machine with an error; the
loops that enlarge the stack never run out of fuel. A pop returns the top word exactly
if `sp` is neither below `lv` nor below 0.
-/

namespace Ijvm

open Transcript

/-- Only the stack size of the CPU differs, and the size is at least as large. -/
def Cpu.Grown (c c' : Cpu) : Prop :=
  c.stackSize ≤ c'.stackSize ∧ c' = { c with stackSize := c'.stackSize }

theorem Cpu.Grown.refl (c : Cpu) : c.Grown c := ⟨Int.le_refl _, rfl⟩

theorem Cpu.Grown.trans {c c' c'' : Cpu} (first : c.Grown c') (second : c'.Grown c'') :
    c.Grown c'' := by
  obtain ⟨le, eq⟩ := first
  obtain ⟨le', eq'⟩ := second
  refine ⟨Int.le_trans le le', ?_⟩
  rw [eq', eq]

/-- The machine ended with an error, without a use of the stack. -/
structure Refused (r : Stop) (es : List Event) : Prop where
  error : ∃ e, r = .error e
  quiet : ∀ e ∈ es, e.quiet

theorem Refused.after {r : Stop} {es fs : List Event} (quiet : ∀ e ∈ es, e.quiet)
    (h : Refused r fs) : Refused r (es ++ fs) := by
  refine ⟨h.error, ?_⟩
  intro e member
  exact (List.mem_append.mp member).elim (quiet e) (h.quiet e)

/-- The collector and the CPU: its result counts the arrays that are gone. -/
theorem arrGc_cpu (env : Env) (s : State) :
    (arrGc.run env s).Satisfies
      (fun n t es => n + t.arrMem.claimed.card = s.arrMem.claimed.card ∧ t.gCpu = s.gCpu ∧
        t.nextOpWide = s.nextOpWide ∧ ∀ e ∈ es, e.quiet)
      (fun r _ es => Refused r es) := by
  have spec := arrGc_satisfies env s
  have frame := arrGc_quiet.returns env s
  have quiet := arrGc_quiet.events env s
  cases run : arrGc.run env s with
  | done n t es =>
      rw [run] at spec frame quiet
      obtain ⟨cpu, wide⟩ := frame n t es rfl
      exact ⟨spec.2.2.count, cpu, wide, quiet⟩
  | stopped r t es =>
      rw [run] at spec quiet
      refine ⟨?_, quiet⟩
      rcases spec with ⟨rfl, _⟩ | ⟨rfl, _⟩
      · exact ⟨_, rfl⟩
      · exact ⟨_, rfl⟩

section Growth

variable {env : Env}

/-- The stack has eight times its size, which was neither 0 nor too large. -/
structure Octupled (s t : State) : Prop where
  positive : 0 < s.gCpu.stackSize
  bound : s.gCpu.stackSize ≤ 2 ^ 27
  cpu : t.gCpu = { s.gCpu with stackSize := s.gCpu.stackSize * 8 }
  wide : t.nextOpWide = s.nextOpWide

theorem expectedSize_range {size : Int} (nonneg : 0 ≤ size) (bound : size < 2 ^ 31)
    (fits : ¬ (expectedSize size > 4294967296 ∨ expectedSize size = 0)) :
    0 < size ∧ size ≤ 2 ^ 27 := by
  rw [expectedSize, Int.emod_eq_of_lt nonneg (by omega)] at fits
  omega

theorem octupleStackSizeFuel_run (env : Env) (s : State) (fuel : Nat) :
    (octupleStackSizeFuel (fuel + 1)).run env s =
      if expectedSize s.gCpu.stackSize > 4294967296 ∨ expectedSize s.gCpu.stackSize = 0 then
        .stopped (.error .stackOutOfMemory) s []
      else if env.alloc s.clock then
        .done true { s with
          gCpu := { s.gCpu with stackSize := s.gCpu.stackSize * 8 }, clock := s.clock + 1 } []
      else
        (arrGc.run env { s with clock := s.clock + 1 }).andThen fun n t =>
          (if n ≠ 0 then octupleStackSizeFuel fuel else destroyIjvmNow .stackAlloc).run env t := by
  simp only [octupleStackSizeFuel, Program.run_bind, Program.run_get, Outcome.andThen_done,
    Outcome.prepend_nil]
  split
  · rfl
  · simp only [Program.run_bind, run_allocate, Outcome.andThen_done, Outcome.prepend_nil]
    split
    · rfl
    · rfl

/-- A repetition after a failed allocation has freed an array, so that the number of
arrays bounds the repetitions. -/
theorem octupleStackSizeFuel_satisfies {s : State} {fuel : Nat} (nonneg : 0 ≤ s.gCpu.stackSize)
    (bound : s.gCpu.stackSize < 2 ^ 31) (enough : s.arrMem.claimed.card < fuel) :
    ((octupleStackSizeFuel fuel).run env s).Satisfies
      (fun b t es => b = true ∧ Octupled s t ∧ ∀ e ∈ es, e.quiet)
      (fun r _ es => Refused r es) := by
  induction fuel generalizing s with
  | zero => omega
  | succ fuel ih =>
      rw [octupleStackSizeFuel_run]
      by_cases limit : expectedSize s.gCpu.stackSize > 4294967296 ∨
          expectedSize s.gCpu.stackSize = 0
      · rw [if_pos limit]
        exact ⟨⟨_, rfl⟩, by simp⟩
      · obtain ⟨positive, small⟩ := expectedSize_range nonneg bound limit
        rw [if_neg limit]
        by_cases granted : env.alloc s.clock = true
        · rw [if_pos granted]
          exact ⟨rfl, ⟨positive, small, rfl, rfl⟩, by simp⟩
        · rw [if_neg granted]
          refine Outcome.Satisfies.andThen ((arrGc_cpu env _).mono (fun _ _ _ done => done) ?_) ?_
          · exact fun _ _ _ refused => refused
          · rintro n t es ⟨count, cpu, wide, quiet⟩
            by_cases freed : n ≠ 0
            · rw [if_pos freed]
              refine (ih (by rw [cpu]; exact nonneg) (by rw [cpu]; exact bound) ?_).mono ?_ ?_
              · have : t.arrMem.claimed.card + n ≤ s.arrMem.claimed.card := by
                  rw [Nat.add_comm]
                  exact count.le
                omega
              · rintro b u fs ⟨rfl, ⟨positive', small', cpu', wide'⟩, quiet'⟩
                refine ⟨rfl, ⟨positive, small, by rw [cpu', cpu], wide'.trans wide⟩, ?_⟩
                intro e member
                exact (List.mem_append.mp member).elim (quiet e) (quiet' e)
              · intro r u fs refused
                exact refused.after quiet
            · rw [if_neg freed]
              exact Refused.after quiet ⟨⟨_, rfl⟩, by simp⟩

theorem octupleStackSize_satisfies {s : State} (nonneg : 0 ≤ s.gCpu.stackSize)
    (bound : s.gCpu.stackSize < 2 ^ 31) :
    (octupleStackSize.run env s).Satisfies
      (fun b t es => b = true ∧ Octupled s t ∧ ∀ e ∈ es, e.quiet)
      (fun r _ es => Refused r es) := by
  have card := s.arrMem.card_claimed_le
  simp only [octupleStackSize, Program.run_bind, Program.run_get, Outcome.andThen_done,
    Outcome.prepend_nil]
  exact octupleStackSizeFuel_satisfies nonneg bound (by omega)

/-- The stack has grown until it contains `sp`. -/
structure Fitted (s t : State) : Prop where
  grown : s.gCpu.Grown t.gCpu
  below : t.gCpu.sp < t.gCpu.stackSize
  bound : t.gCpu.stackSize < 2 ^ 31
  wide : t.nextOpWide = s.nextOpWide

/-- The loop ends once the stack contains `sp`. -/
theorem growStackFuel_fits {s : State} (below : s.gCpu.sp < s.gCpu.stackSize) (fuel : Nat) :
    (growStackFuel (fuel + 1)).run env s = .done true s [] := by
  rw [growStackFuel, Program.run_bind, Program.run_get, Outcome.andThen_done, Outcome.prepend_nil,
    if_neg (Int.not_le_of_gt below)]
  rfl

theorem growStackFuel_grows {s : State} (above : s.gCpu.stackSize ≤ s.gCpu.sp) (fuel : Nat) :
    (growStackFuel (fuel + 1)).run env s = (octupleStackSize.run env s).andThen fun b t =>
      (if b ≠ true then return false else growStackFuel fuel : VM Bool).run env t := by
  rw [growStackFuel, Program.run_bind, Program.run_get, Outcome.andThen_done, Outcome.prepend_nil,
    if_pos above, Program.run_bind]

/-- Each growth adds a cell at least, so that the distance of `sp` bounds the growths. -/
theorem growStackFuel_satisfies {s : State} {fuel : Nat} (nonneg : 0 ≤ s.gCpu.stackSize)
    (bound : s.gCpu.stackSize < 2 ^ 31)
    (enough : (s.gCpu.sp - s.gCpu.stackSize + 1).toNat < fuel) :
    ((growStackFuel fuel).run env s).Satisfies
      (fun b t es => b = true ∧ Fitted s t ∧ ∀ e ∈ es, e.quiet)
      (fun r _ es => Refused r es) := by
  induction fuel generalizing s with
  | zero => omega
  | succ fuel ih =>
      by_cases outside : s.gCpu.stackSize ≤ s.gCpu.sp
      · rw [growStackFuel_grows outside]
        refine Outcome.Satisfies.andThen (octupleStackSize_satisfies nonneg bound) ?_
        rintro b t es ⟨rfl, ⟨positive, small, cpu, wide⟩, quiet⟩
        have grown : s.gCpu.Grown t.gCpu := by
          refine ⟨?_, by rw [cpu]⟩
          rw [cpu]
          dsimp only
          omega
        rw [if_neg (by simp)]
        refine (ih (by rw [cpu]; dsimp only; omega) (by rw [cpu]; dsimp only; omega)
          (by rw [cpu]; dsimp only; omega)).mono ?_ ?_
        · rintro b u fs ⟨rfl, ⟨grown', below, bound', wide'⟩, quiet'⟩
          refine ⟨rfl, ⟨grown.trans grown', below, bound', wide'.trans wide⟩, ?_⟩
          intro e member
          exact (List.mem_append.mp member).elim (quiet e) (quiet' e)
        · intro r u fs refused
          exact refused.after quiet
      · rw [growStackFuel_fits (Int.lt_of_not_ge outside)]
        exact ⟨rfl, ⟨Cpu.Grown.refl _, by omega, bound, rfl⟩, by simp⟩

theorem growStack_run (env : Env) (s : State) :
    growStack.run env s =
      (growStackFuel ((s.gCpu.sp - s.gCpu.stackSize).toNat + 2)).run env s := by
  rw [growStack, Program.run_bind, Program.run_get, Outcome.andThen_done, Outcome.prepend_nil]

theorem growStack_satisfies (env : Env) {s : State} (nonneg : 0 ≤ s.gCpu.stackSize)
    (bound : s.gCpu.stackSize < 2 ^ 31) :
    (growStack.run env s).Satisfies
      (fun b t es => b = true ∧ Fitted s t ∧ ∀ e ∈ es, e.quiet)
      (fun r _ es => Refused r es) := by
  rw [growStack_run]
  exact growStackFuel_satisfies nonneg bound (by omega)

end Growth

section PushPop

variable {env : Env}

/-- The size of the stack is one that an `int` can hold. -/
structure Cpu.Sized (c : Cpu) : Prop where
  nonneg : 0 ≤ c.stackSize
  bound : c.stackSize < 2 ^ 31

/-- The CPU after a push: the cell above the top holds the word, on a stack of this size. -/
def Cpu.pushed (c : Cpu) (e : Word) (size : Int) : Cpu :=
  { c with sp := c.sp + 1, stackSize := size, stack := setCell c.stack (c.sp + 1) e }

/-- A push returns with the word in the cell above the top. -/
structure Pushed (c : Cpu) (e : Word) (c' : Cpu) : Prop where
  eq : c' = c.pushed e c'.stackSize
  size_le : c.stackSize ≤ c'.stackSize
  inside : c.sp + 1 < c'.stackSize
  sized : c'.Sized

theorem writeTop_run (e : Word) (s : State) :
    (writeTop e).run env s =
      .done () { s with gCpu := { s.gCpu with stack := setCell s.gCpu.stack s.gCpu.sp e } }
        [.stack .push s.gCpu.sp s.gCpu.stackSize] := by
  simp only [writeTop, Program.run_bind, Program.run_get, Program.run_emit, Outcome.andThen_done,
    run_modifyCpu, Outcome.prepend_done, List.append_nil, List.nil_append]

/-- A push below the end of the stack. -/
theorem stackPush_inside {s : State} (inside : s.gCpu.sp + 1 < s.gCpu.stackSize) (e : Word) :
    (stackPush e).run env s =
      .done true { s with gCpu := s.gCpu.pushed e s.gCpu.stackSize }
        [.stack .push (s.gCpu.sp + 1) s.gCpu.stackSize] := by
  simp only [stackPush, Program.run_bind, run_modifyCpu, Program.run_get, Outcome.andThen_done,
    Outcome.prepend_nil]
  rw [if_pos inside]
  simp only [Program.run_bind, writeTop_run, Outcome.andThen_done, Program.run_pure,
    Outcome.prepend_done, List.append_nil]
  rfl

/-- A push at the end of the stack, or past it, enlarges the stack first. -/
theorem stackPush_outside {s : State} (outside : ¬ s.gCpu.sp + 1 < s.gCpu.stackSize) (e : Word) :
    (stackPush e).run env s =
      (growStack.run env { s with gCpu := { s.gCpu with sp := s.gCpu.sp + 1 } }).andThen fun b t =>
        (if b ≠ true then return false else do writeTop e; return true : VM Bool).run env t := by
  simp only [stackPush, Program.run_bind, run_modifyCpu, Program.run_get, Outcome.andThen_done,
    Outcome.prepend_nil]
  rw [if_neg outside, Program.run_bind]

theorem stackPush_satisfies {s : State} (sized : s.gCpu.Sized) (e : Word) :
    ((stackPush e).run env s).Satisfies
      (fun b t es => b = true ∧ Pushed s.gCpu e t.gCpu ∧ t.nextOpWide = s.nextOpWide ∧
        ∀ ev ∈ es, ev.quiet ∨ ev = .stack .push (s.gCpu.sp + 1) t.gCpu.stackSize)
      (fun r _ es => Refused r es) := by
  by_cases inside : s.gCpu.sp + 1 < s.gCpu.stackSize
  · rw [stackPush_inside inside]
    exact ⟨rfl, ⟨rfl, Int.le_refl _, inside, ⟨sized.nonneg, sized.bound⟩⟩, rfl, by
      simp [Cpu.pushed]⟩
  · rw [stackPush_outside inside]
    refine Outcome.Satisfies.andThen (growStack_satisfies env sized.nonneg sized.bound) ?_
    rintro b t es ⟨rfl, ⟨⟨le, cpu⟩, below, bound, wide⟩, quiet⟩
    rw [if_neg (by simp)]
    simp only [Program.run_bind, writeTop_run, Outcome.andThen_done, Program.run_pure,
      Outcome.prepend_done, List.append_nil]
    have sp : t.gCpu.sp = s.gCpu.sp + 1 := by rw [cpu]
    refine ⟨rfl, ⟨?_, le, by rw [← sp]; exact below, ⟨?_, bound⟩⟩, wide, ?_⟩
    · rw [Cpu.pushed, cpu]
    · exact Int.le_trans sized.nonneg le
    · intro ev member
      rcases List.mem_append.mp member with early | last
      · exact Or.inl (quiet ev early)
      · rw [List.mem_singleton] at last
        rw [last, sp]
        exact Or.inr rfl

/-- The check of `stackPop`. -/
def Cpu.Empty (c : Cpu) : Prop := c.sp < c.lv ∨ c.sp ≤ -1

instance (c : Cpu) : Decidable c.Empty := inferInstanceAs (Decidable (_ ∨ _))

theorem Cpu.not_empty_iff {c : Cpu} : ¬ c.Empty ↔ c.lv ≤ c.sp ∧ 0 ≤ c.sp := by
  unfold Cpu.Empty
  omega

theorem stackPop_run (access : StackAccess) (s : State) :
    (stackPop access).run env s =
      if s.gCpu.Empty then .stopped (.error .stackPopEmpty) s []
      else .done (s.gCpu.stack s.gCpu.sp) { s with gCpu := { s.gCpu with sp := s.gCpu.sp - 1 } }
        [.stack access s.gCpu.sp s.gCpu.stackSize] := by
  simp only [stackPop, Program.run_bind, Program.run_get, Outcome.andThen_done,
    Outcome.prepend_nil]
  by_cases empty : s.gCpu.Empty
  · rw [if_pos (show s.gCpu.sp < s.gCpu.lv ∨ s.gCpu.sp ≤ -1 from empty), if_pos empty]
    rfl
  · rw [if_neg (show ¬ (s.gCpu.sp < s.gCpu.lv ∨ s.gCpu.sp ≤ -1) from empty), if_neg empty]
    rfl

end PushPop

section Operands

variable {env : Env}

/-- The addresses up to `n` bytes behind the program counter are values of an `int`. -/
def Cpu.Counts (c : Cpu) (n : Int) : Prop := c.pc + n < 2 ^ 31

instance (c : Cpu) (n : Int) : Decidable (c.Counts n) := inferInstanceAs (Decidable (_ < _))

/-- How an instruction ends whose argument of `k` bytes goes beyond the code. -/
def Cpu.argStop (c : Cpu) (k : Nat) (e : Err) : Stop :=
  if c.Counts k then .error e else .undefined

/-- What it reads there. -/
def Cpu.argReads (c : Cpu) (k : Nat) : List Event :=
  if c.Counts k then [] else (List.range k).map fun i : Nat => .code (c.pc + i) c.codeMemSize

theorem argOutside_run {α : Type} (k : Nat) (e : Err) (s : State) :
    (argOutside k e : VM α).run env s =
      .stopped (s.gCpu.argStop k e) s (s.gCpu.argReads k) := by
  rw [argOutside, Program.run_bind, Program.run_get, Outcome.andThen_done, Outcome.prepend_nil,
    Cpu.argStop, Cpu.argReads]
  by_cases counts : s.gCpu.Counts k
  · rw [if_pos counts, if_pos counts, if_pos (show s.gCpu.pc + k < 2 ^ 31 from counts)]
    rfl
  · rw [if_neg counts, if_neg counts, if_neg (show ¬ s.gCpu.pc + k < 2 ^ 31 from counts)]
    exact congrArg _ (List.append_nil _)

theorem mem_argReads {c : Cpu} {k : Nat} {ev : Event} (member : ev ∈ c.argReads k) :
    ∃ i < k, ev = .code (c.pc + i) c.codeMemSize ∧ 2 ^ 31 ≤ c.pc + k := by
  unfold Cpu.argReads at member
  split at member
  · contradiction
  · rename_i uncounted
    obtain ⟨i, below, rfl⟩ := List.mem_map.mp member
    exact ⟨i, List.mem_range.mp below, rfl, Int.not_lt.mp uncounted⟩

theorem getArgByte_run (s : State) :
    getArgByte.run env s =
      if s.gCpu.pc + 1 > s.gCpu.codeMemSize then
        .stopped (s.gCpu.argStop 1 .argByte) s (.signed (s.gCpu.pc + 1) :: s.gCpu.argReads 1)
      else .done (s.gCpu.codeMem s.gCpu.pc) { s with gCpu := { s.gCpu with pc := s.gCpu.pc + 1 } }
        [.signed (s.gCpu.pc + 1), .code s.gCpu.pc s.gCpu.codeMemSize] := by
  simp only [getArgByte, Program.run_bind, Program.run_get, run_signed, Outcome.andThen_done]
  split
  · rw [argOutside_run]
    rfl
  · rfl

/-- The two byte argument at `pc`. -/
def Cpu.short (c : Cpu) (pc : Int) : BitVec 16 := joinBytes (c.codeMem pc) (c.codeMem (pc + 1))

theorem getArgShort_run (s : State) :
    getArgShort.run env s =
      if s.gCpu.pc + 2 > s.gCpu.codeMemSize then
        .stopped (s.gCpu.argStop 2 .argShort) s (.signed (s.gCpu.pc + 2) :: s.gCpu.argReads 2)
      else .done (s.gCpu.short s.gCpu.pc) { s with gCpu := { s.gCpu with pc := s.gCpu.pc + 2 } }
        [.signed (s.gCpu.pc + 2), .code s.gCpu.pc s.gCpu.codeMemSize,
          .code (s.gCpu.pc + 1) s.gCpu.codeMemSize] := by
  simp only [getArgShort, Program.run_bind, Program.run_get, run_signed, Outcome.andThen_done]
  split
  · rw [argOutside_run]
    rfl
  · rfl

/-- The index of a local variable in the instruction that is executed, if its bytes are
inside the code. -/
def State.varIndex? (s : State) : Option Int :=
  let c := s.gCpu
  if s.nextOpWide then
    if c.pc + 2 ≤ c.codeMemSize then some (c.short c.pc).toNat else none
  else
    if c.pc + 1 ≤ c.codeMemSize then some (c.codeMem c.pc).toNat else none

/-- The index in an IINC, if its bytes and the constant are inside the code. A wide index
is signed here. -/
def State.incIndex? (s : State) : Option Int :=
  let c := s.gCpu
  if s.nextOpWide then
    if c.pc + 3 ≤ c.codeMemSize then some (c.short c.pc).toInt else none
  else
    if c.pc + 2 ≤ c.codeMemSize then some (c.codeMem c.pc).toNat else none

/-- The number of bytes that hold the index of a local variable. -/
def State.indexBytes (s : State) : Int := if s.nextOpWide then 2 else 1

/-- The state with another program counter. -/
def State.withPc (s : State) (pc : Int) : State := { s with gCpu := { s.gCpu with pc } }

/-- Events that are no stack accesses. -/
def Event.offStack : Event → Prop
  | .stack .. => False
  | _ => True

theorem getVarIndex_some (env : Env) {s : State} {i : Int} (h : s.varIndex? = some i) :
    0 ≤ i ∧ i < 2 ^ 16 ∧ ∃ pc es, getVarIndex.run env s = .done i (s.withPc pc) es ∧
      ∀ e ∈ es, e.offStack := by
  unfold State.varIndex? at h
  dsimp only at h
  simp only [getVarIndex, Program.run_bind, Program.run_get, Outcome.andThen_done,
    Outcome.prepend_nil]
  split at h
  · rename_i wide
    split at h
    · rename_i inside
      injection h with h
      subst h
      have small := (s.gCpu.short s.gCpu.pc).isLt
      rw [if_pos wide, Program.run_bind, getArgShort_run, if_neg (by omega)]
      exact ⟨by omega, by omega, _, _, rfl, by simp [Event.offStack]⟩
    · contradiction
  · rename_i narrow
    split at h
    · rename_i inside
      injection h with h
      subst h
      have small := (s.gCpu.codeMem s.gCpu.pc).isLt
      rw [if_neg narrow, Program.run_bind, getArgByte_run, if_neg (by omega)]
      exact ⟨by omega, by omega, _, _, rfl, by simp [Event.offStack]⟩
    · contradiction

theorem argReads_offStack {c : Cpu} {k : Nat} {ev : Event} (member : ev ∈ c.argReads k) :
    ev.offStack := by
  obtain ⟨i, _, rfl, _⟩ := mem_argReads member
  trivial

/-- The check of an index, and the reads when it fails, are no stack accesses. -/
theorem argStop_offStack {c : Cpu} {k : Nat} {v : Int} :
    ∀ ev ∈ (.signed v :: c.argReads k : List Event), ev.offStack :=
  List.forall_mem_cons.mpr ⟨trivial, fun _ => argReads_offStack⟩

theorem getVarIndex_none (env : Env) {s : State} (h : s.varIndex? = none) :
    ∃ r es, getVarIndex.run env s = .stopped r s es ∧ ∀ ev ∈ es, ev.offStack := by
  unfold State.varIndex? at h
  dsimp only at h
  simp only [getVarIndex, Program.run_bind, Program.run_get, Outcome.andThen_done,
    Outcome.prepend_nil]
  split at h
  · rename_i wide
    split at h
    · contradiction
    · rw [if_pos wide, Program.run_bind, getArgShort_run, if_pos (by omega)]
      exact ⟨_, _, rfl, argStop_offStack⟩
  · rename_i narrow
    split at h
    · contradiction
    · rw [if_neg narrow, Program.run_bind, getArgByte_run, if_pos (by omega)]
      exact ⟨_, _, rfl, argStop_offStack⟩

theorem getConstant_run (i : Int) (s : State) :
    (getConstant i).run env s =
      if i < 0 ∨ i ≥ s.gCpu.constMemSize.tdiv 4 then .stopped (.error .constantIndex) s []
      else .done (s.gCpu.constMem.getD i.toNat 0) s [] := by
  simp only [getConstant, Program.run_bind, Program.run_get, Outcome.andThen_done,
    Outcome.prepend_nil]
  split
  · rfl
  · rfl

theorem getLocalVariable_run (i : Int) (s : State) :
    (getLocalVariable i).run env s =
      if i < 0 ∨ i ≥ s.gCpu.nv then .stopped (.error .localGet) s []
      else .done (s.gCpu.stack ((s.gCpu.lv + i) % 2 ^ 32)) s
        [.stack .load ((s.gCpu.lv + i) % 2 ^ 32) s.gCpu.stackSize] := by
  simp only [getLocalVariable, Program.run_bind, Program.run_get, Outcome.andThen_done,
    Outcome.prepend_nil]
  split
  · rfl
  · rfl

theorem updateLocalVariable_run (v : Word) (i : Int) (s : State) :
    (updateLocalVariable v i).run env s =
      if i < 0 ∨ i ≥ s.gCpu.nv then .stopped (.error .localUpdate) s []
      else .done ()
        { s with gCpu := { s.gCpu with stack := setCell s.gCpu.stack (s.gCpu.lv + i) v } }
        [.stack .store (s.gCpu.lv + i) s.gCpu.stackSize] := by
  simp only [updateLocalVariable, Program.run_bind, Program.run_get, Outcome.andThen_done,
    Outcome.prepend_nil]
  split
  · rfl
  · rfl

theorem jump_run (offset : Int) (s : State) :
    (jump offset).run env s =
      if s.gCpu.pc + offset < 0 ∨ offset ≥ s.gCpu.codeMemSize then
        .stopped (.error .jumpOffset) s [.signed (s.gCpu.pc + offset)]
      else .done () { s with gCpu := { s.gCpu with pc := s.gCpu.pc + offset } }
        [.signed (s.gCpu.pc + offset)] := by
  simp only [jump, Program.run_bind, Program.run_get, run_signed, Outcome.andThen_done,
    Outcome.prepend_nil]
  split
  · rfl
  · rfl

end Operands

end Ijvm
