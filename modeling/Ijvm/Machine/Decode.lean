import Ijvm.Machine.Interpreter

/-!
# Which instruction a step executes

A step skips the WIDE prefixes at PC and executes the instruction behind them. `opAddr?`
is the address of its opcode, and `step_run` unfolds a step into that one instruction:
what the nested steps add is the WIDE flag before it and the reset of the flag after it.
-/

namespace Ijvm

open Transcript

/-- The first address from `pc` on whose byte is not a WIDE prefix. -/
def opAddrFrom (codeMem : Int → Byte) (size : Int) : Nat → Int → Option Int
  | 0, _ => none
  | fuel + 1, pc =>
      if pc < 0 ∨ pc ≥ size then none
      else if codeMem pc = Op.wide.code then opAddrFrom codeMem size fuel (pc + 1)
      else some pc

/-- The address of the opcode that the next step executes, if there is one. -/
def Cpu.opAddr? (c : Cpu) : Option Int :=
  opAddrFrom c.codeMem c.codeMemSize ((c.codeMemSize - c.pc).toNat + 1) c.pc

/-- The instruction that the next step executes, if there is one. -/
def Cpu.op? (c : Cpu) : Option Op := c.opAddr?.bind fun a => Op.ofByte? (c.codeMem a)

/-- The state in which the instruction with its opcode at `a` is executed. -/
def State.atOp (s : State) (a : Int) : State :=
  { s with
    gCpu := { s.gCpu with pc := a + 1 }
    nextOpWide := s.nextOpWide || decide (a ≠ s.gCpu.pc) }

/-- The end of a step at `pc` whose opcode was at `a`. -/
def endOfStep (pc a : Int) (b : Bool) (t : State) : Outcome State Event Stop Bool :=
  if a = pc then .done b t [] else .done true { t with nextOpWide := false } []

/-- The end of a step at most resets the WIDE flag. -/
theorem endOfStep_done (pc a : Int) (b : Bool) (t : State) :
    ∃ flag, endOfStep pc a b t = .done (b || decide (a ≠ pc)) { t with nextOpWide := flag } [] := by
  by_cases here : a = pc
  · exact ⟨t.nextOpWide, by simp [endOfStep, here]⟩
  · exact ⟨false, by simp [endOfStep, here]⟩

theorem opAddrFrom_bounds {codeMem : Int → Byte} {size : Int} {fuel : Nat} {pc a : Int}
    (h : opAddrFrom codeMem size fuel pc = some a) :
    pc ≤ a ∧ 0 ≤ a ∧ a < size ∧ codeMem a ≠ Op.wide.code := by
  induction fuel generalizing pc with
  | zero => contradiction
  | succ fuel ih =>
      rw [opAddrFrom] at h
      split at h
      · contradiction
      · split at h
        · obtain ⟨le, rest⟩ := ih h
          exact ⟨by omega, rest⟩
        · rename_i inside plain
          injection h with same
          subst same
          exact ⟨Int.le_refl _, by omega, by omega, plain⟩

theorem dispatch_some {byte : Byte} {op : Op} (decoded : Op.ofByte? byte = some op)
    (nested : VM Bool) :
    dispatch nested byte = (do execOp nested op; return true) := by
  rw [dispatch, decoded]

/-- A byte that is no opcode sets the error flag and ends the step. -/
theorem dispatch_none {byte : Byte} (unknown : Op.ofByte? byte = none) (nested : VM Bool) :
    dispatch nested byte =
      (do modifyCpu fun c => { c with errorFlag := true }; return false) := by
  rw [dispatch, unknown]

/-- Only the prefix uses the nested step. -/
theorem dispatch_of_ne_wide {op : Byte} (plain : op ≠ Op.wide.code) (nested nested' : VM Bool) :
    dispatch nested op = dispatch nested' op := by
  cases decoded : Op.ofByte? op with
  | none => rw [dispatch_none decoded, dispatch_none decoded]
  | some o =>
      have ne : o ≠ .wide := by
        rintro rfl
        exact plain (Op.ofByte?_eq_some.mp decoded)
      rw [dispatch_some decoded, dispatch_some decoded]
      cases o <;> first | rfl | exact absurd rfl ne

/-- The instruction with its opcode at `a`, which is no prefix. -/
def execAt (c : Cpu) (a : Int) : VM Bool := dispatch (pure true) (c.codeMem a)

theorem fetchOp_run {env : Env} {s : State}
    (inside : ¬ (s.gCpu.pc < 0 ∨ s.gCpu.pc ≥ s.gCpu.codeMemSize)) :
    fetchOp.run env s = .done (s.gCpu.codeMem s.gCpu.pc)
      { s with gCpu := { s.gCpu with pc := s.gCpu.pc + 1 } }
      [.code s.gCpu.pc s.gCpu.codeMemSize] := by
  simp only [fetchOp, Program.run_bind, Program.run_get, Program.run_emit, Outcome.andThen_done,
    if_neg inside, run_modifyCpu, Program.run_pure, Outcome.prepend_done, List.append_nil,
    List.nil_append]

theorem step_eq (env : Env) (s : State) :
    step.run env s = (stepFuel ((s.gCpu.codeMemSize - s.gCpu.pc).toNat + 1)).run env s := by
  simp only [step, Program.run_bind, Program.run_get, Outcome.andThen_done, Outcome.prepend_nil]

/-- A step whose `pc` is outside the code. -/
theorem stepFuel_outside {env : Env} {s : State}
    (outside : s.gCpu.pc < 0 ∨ s.gCpu.pc ≥ s.gCpu.codeMemSize) (fuel : Nat) :
    (stepFuel (fuel + 1)).run env s =
      .stopped .undefined s [.code s.gCpu.pc s.gCpu.codeMemSize] := by
  simp only [stepFuel, fetchOp, Program.run_bind, Program.run_get, Program.run_emit,
    Outcome.andThen_done, if_pos outside, Program.run_stop, Outcome.prepend_stopped,
    Outcome.andThen_stopped, List.append_nil, List.nil_append]

theorem stepFuel_fetch {env : Env} {s : State}
    (inside : ¬ (s.gCpu.pc < 0 ∨ s.gCpu.pc ≥ s.gCpu.codeMemSize)) (fuel : Nat) :
    (stepFuel (fuel + 1)).run env s =
      ((dispatch (stepFuel fuel) (s.gCpu.codeMem s.gCpu.pc)).run env
        { s with gCpu := { s.gCpu with pc := s.gCpu.pc + 1 } }).prepend
          [.code s.gCpu.pc s.gCpu.codeMemSize] := by
  rw [stepFuel, Program.run_bind, fetchOp_run inside, Outcome.andThen_done]

/-- At a prefix, the nested step runs one byte further on with the flag set, which is reset
when it returns. -/
theorem stepFuel_wide {env : Env} {s : State}
    (inside : ¬ (s.gCpu.pc < 0 ∨ s.gCpu.pc ≥ s.gCpu.codeMemSize))
    (wide : s.gCpu.codeMem s.gCpu.pc = Op.wide.code) (fuel : Nat) :
    (stepFuel (fuel + 1)).run env s =
      (((stepFuel fuel).run env { s with
          gCpu := { s.gCpu with pc := s.gCpu.pc + 1 }, nextOpWide := true }).andThen
        fun _ t => .done true { t with nextOpWide := false } []).prepend
          [.code s.gCpu.pc s.gCpu.codeMemSize] := by
  rw [stepFuel_fetch inside, wide, dispatch_some (Op.ofByte?_code .wide)]
  simp only [execOp, execOpWide, setNextOpWide, Program.run_bind, Program.run_modify,
    Outcome.andThen_done, Outcome.prepend_nil]
  cases (stepFuel fuel).run env { s with
      gCpu := { s.gCpu with pc := s.gCpu.pc + 1 }, nextOpWide := true } with
  | stopped e t es => rfl
  | done b t es => simp

/-- The opcode fetches of a step. -/
def Fetches (c : Cpu) (a : Int) (es : List Event) : Prop :=
  ∀ e ∈ es, ∃ i, e = .code i c.codeMemSize ∧ c.pc ≤ i ∧ i ≤ a

theorem Fetches.cons {c : Cpu} {a : Int} {es : List Event} (le : c.pc + 1 ≤ a)
    (h : Fetches { c with pc := c.pc + 1 } a es) :
    Fetches c a (.code c.pc c.codeMemSize :: es) := by
  intro e member
  rcases List.mem_cons.mp member with rfl | later
  · exact ⟨c.pc, rfl, Int.le_refl _, by omega⟩
  · obtain ⟨i, rfl, above, below⟩ := h e later
    exact ⟨i, rfl, by dsimp only at above; omega, below⟩

theorem stepFuel_run {env : Env} {fuel : Nat} {s : State} {a : Int}
    (found : opAddrFrom s.gCpu.codeMem s.gCpu.codeMemSize fuel s.gCpu.pc = some a) :
    ∃ es, Fetches s.gCpu a es ∧ (stepFuel fuel).run env s =
      (((execAt s.gCpu a).run env (s.atOp a)).andThen (endOfStep s.gCpu.pc a)).prepend es := by
  induction fuel generalizing s with
  | zero => contradiction
  | succ fuel ih =>
      rw [opAddrFrom] at found
      split at found
      · contradiction
      · rename_i inside
        split at found
        · -- A prefix: the nested step runs one byte further on, with the flag set.
          rename_i wide
          have le := (opAddrFrom_bounds found).1
          have ne : a ≠ s.gCpu.pc := by omega
          obtain ⟨es, fetches, run⟩ := ih (s := { s with
            gCpu := { s.gCpu with pc := s.gCpu.pc + 1 }, nextOpWide := true }) found
          refine ⟨_, fetches.cons le, ?_⟩
          have here : State.atOp { s with
              gCpu := { s.gCpu with pc := s.gCpu.pc + 1 }, nextOpWide := true } a = s.atOp a := by
            simp [State.atOp, ne]
          rw [here, show execAt { s.gCpu with pc := s.gCpu.pc + 1 } a = execAt s.gCpu a from rfl]
            at run
          rw [stepFuel_wide inside wide, run]
          cases (execAt s.gCpu a).run env (s.atOp a) with
          | stopped e t fs => rfl
          | done b t fs =>
              simp only [Outcome.andThen_done, endOfStep, if_neg ne]
              split <;> simp
        · rename_i plain
          injection found with same
          subst same
          refine ⟨[.code s.gCpu.pc s.gCpu.codeMemSize], ?_, ?_⟩
          · intro e member
            exact ⟨_, List.mem_singleton.mp member, Int.le_refl _, Int.le_refl _⟩
          · rw [stepFuel_fetch inside, dispatch_of_ne_wide plain (stepFuel fuel) (pure true)]
            have here : { s with gCpu := { s.gCpu with pc := s.gCpu.pc + 1 } } =
                s.atOp s.gCpu.pc := by
              simp [State.atOp]
            rw [here, execAt]
            cases (dispatch (pure true) (s.gCpu.codeMem s.gCpu.pc)).run env (s.atOp s.gCpu.pc) with
            | stopped e t fs => rfl
            | done b t fs => simp [endOfStep]

/-- A step executes the instruction behind the prefixes. -/
theorem step_run (env : Env) {s : State} {a : Int} (found : s.gCpu.opAddr? = some a) :
    ∃ es, Fetches s.gCpu a es ∧ step.run env s =
      (((execAt s.gCpu a).run env (s.atOp a)).andThen (endOfStep s.gCpu.pc a)).prepend es := by
  rw [step_eq]
  exact stepFuel_run found

theorem stepFuel_stops {env : Env} {fuel : Nat} {s : State}
    (missing : opAddrFrom s.gCpu.codeMem s.gCpu.codeMemSize fuel s.gCpu.pc = none)
    (enough : (s.gCpu.codeMemSize - s.gCpu.pc).toNat < fuel) :
    ∃ t es, (stepFuel fuel).run env s = .stopped .undefined t es ∧
      ∀ e ∈ es, ∃ i, e = .code i s.gCpu.codeMemSize := by
  induction fuel generalizing s with
  | zero => omega
  | succ fuel ih =>
      rw [opAddrFrom] at missing
      by_cases outside : s.gCpu.pc < 0 ∨ s.gCpu.pc ≥ s.gCpu.codeMemSize
      · exact ⟨s, [.code s.gCpu.pc s.gCpu.codeMemSize], stepFuel_outside outside fuel, by simp⟩
      · rw [if_neg outside] at missing
        by_cases wide : s.gCpu.codeMem s.gCpu.pc = Op.wide.code
        · rw [if_pos wide] at missing
          obtain ⟨t, es, run, codes⟩ := ih (s := { s with
            gCpu := { s.gCpu with pc := s.gCpu.pc + 1 }, nextOpWide := true }) missing
            (by dsimp only; omega)
          refine ⟨t, .code s.gCpu.pc s.gCpu.codeMemSize :: es, ?_, ?_⟩
          · rw [stepFuel_wide outside wide, run]
            rfl
          · intro e member
            rcases List.mem_cons.mp member with rfl | later
            · exact ⟨_, rfl⟩
            · exact codes e later
        · rw [if_neg wide] at missing
          contradiction

/-- A step without an opcode behind the prefixes runs out of the code. -/
theorem step_stops (env : Env) {s : State} (missing : s.gCpu.opAddr? = none) :
    ∃ t es, step.run env s = .stopped .undefined t es ∧
      ∀ e ∈ es, ∃ i, e = .code i s.gCpu.codeMemSize := by
  rw [step_eq]
  exact stepFuel_stops missing (by omega)

/-- A step that returns has executed an instruction. -/
theorem step_done {env : Env} {s t : State} {b : Bool} {es : List Event}
    (run : step.run env s = .done b t es) :
    ∃ a b' t' fetches es', s.gCpu.opAddr? = some a ∧ Fetches s.gCpu a fetches ∧
      (execAt s.gCpu a).run env (s.atOp a) = .done b' t' es' ∧ es = fetches ++ es' ∧
      t.gCpu = t'.gCpu ∧ t.arrMem = t'.arrMem ∧ t.netConn = t'.netConn := by
  cases found : s.gCpu.opAddr? with
  | none =>
      obtain ⟨_, _, stops, _⟩ := step_stops env found
      rw [stops] at run
      contradiction
  | some a =>
      obtain ⟨fetches, codes, eq⟩ := step_run env found
      rw [eq] at run
      cases exec : (execAt s.gCpu a).run env (s.atOp a) with
      | stopped e u fs =>
          rw [exec] at run
          contradiction
      | done b' t' es' =>
          obtain ⟨flag, ending⟩ := endOfStep_done s.gCpu.pc a b' t'
          rw [exec, Outcome.andThen_done, ending] at run
          simp only [Outcome.prepend_done, List.append_nil] at run
          injection run with _ state events
          subst state
          exact ⟨a, b', t', fetches, es', rfl, codes, exec, events.symm, rfl, rfl, rfl⟩

/-- The next step of `s` executes `op`, with its opcode at `a`. -/
structure State.Executes (s : State) (a : Int) (op : Op) : Prop where
  found : s.gCpu.opAddr? = some a
  decoded : Op.ofByte? (s.gCpu.codeMem a) = some op

theorem State.Executes.unprefixed {s : State} {a : Int} {op : Op} (h : s.Executes a op) :
    op ≠ .wide := by
  rintro rfl
  exact (opAddrFrom_bounds h.found).2.2.2 (Op.ofByte?_eq_some.mp h.decoded)

theorem State.Executes.unique {s : State} {a a' : Int} {op op' : Op} (h : s.Executes a op)
    (h' : s.Executes a' op') : a = a' ∧ op = op' := by
  have same : a = a' := Option.some.inj (h.found.symm.trans h'.found)
  subst same
  exact ⟨rfl, Option.some.inj (h.decoded.symm.trans h'.decoded)⟩

theorem State.Executes.op? {s : State} {a : Int} {op : Op} (h : s.Executes a op) :
    s.gCpu.op? = some op := by
  rw [Cpu.op?, h.found, Option.bind_some, h.decoded]

theorem State.executes_of_op? {s : State} {op : Op} (h : s.gCpu.op? = some op) :
    ∃ a, s.Executes a op := by
  obtain ⟨a, found, decoded⟩ := Option.bind_eq_some_iff.mp h
  exact ⟨a, found, decoded⟩

theorem execAt_run {env : Env} {s t : State} {a : Int} {op : Op} (h : s.Executes a op) :
    (execAt s.gCpu a).run env t =
      ((execOp (pure true) op).run env t).andThen fun _ t' => .done true t' [] := by
  rw [execAt, dispatch_some h.decoded, Program.run_bind]
  rfl

/-- A step returns if its instruction does. -/
theorem step_of_execOp {env : Env} {s t : State} {a : Int} {op : Op} {es : List Event}
    (h : s.Executes a op) (exec : (execOp (pure true) op).run env (s.atOp a) = .done () t es) :
    ∃ t' fs, step.run env s = .done true t' fs ∧ t'.gCpu = t.gCpu := by
  obtain ⟨fetches, _, run⟩ := step_run env h.found
  obtain ⟨flag, ending⟩ := endOfStep_done s.gCpu.pc a true t
  rw [run, execAt_run h, exec, Outcome.andThen_done, Outcome.prepend_done, Outcome.andThen_done,
    ending]
  exact ⟨_, _, rfl, rfl⟩

/-- The instruction of a step that returns. -/
theorem execOp_of_step {env : Env} {s t : State} {a : Int} {op : Op} {b : Bool} {es : List Event}
    (h : s.Executes a op) (run : step.run env s = .done b t es) :
    ∃ t' fetches es', (execOp (pure true) op).run env (s.atOp a) = .done () t' es' ∧
      es = fetches ++ es' ∧ t.gCpu = t'.gCpu := by
  obtain ⟨a', b', t', fetches, es', found, _, exec, events, cpu, _⟩ := step_done run
  have same : a' = a := Option.some.inj (found.symm.trans h.found)
  subst same
  rw [execAt_run h] at exec
  cases inner : (execOp (pure true) op).run env (s.atOp a') with
  | stopped r u fs =>
      rw [inner] at exec
      contradiction
  | done v u fs =>
      rw [inner, Outcome.andThen_done, Outcome.prepend_done, List.append_nil] at exec
      injection exec with _ state same
      subst state same
      exact ⟨u, fetches, fs, rfl, events, cpu⟩

/-- A step stops exactly as its instruction does. -/
theorem step_stopped_iff {env : Env} {s : State} {a : Int} {op : Op} {r : Stop}
    (h : s.Executes a op) :
    (∃ t es, step.run env s = .stopped r t es) ↔
      ∃ t es, (execOp (pure true) op).run env (s.atOp a) = .stopped r t es := by
  obtain ⟨fetches, _, run⟩ := step_run env h.found
  rw [run, execAt_run h]
  cases (execOp (pure true) op).run env (s.atOp a) with
  | stopped r' t es =>
      constructor
      · rintro ⟨_, _, eq⟩
        injection eq with reason
        exact ⟨t, es, by rw [reason]⟩
      · rintro ⟨_, _, eq⟩
        injection eq with reason
        exact ⟨t, fetches ++ es, by rw [reason]; rfl⟩
  | done u t es =>
      obtain ⟨flag, ending⟩ := endOfStep_done s.gCpu.pc a true t
      rw [Outcome.andThen_done, Outcome.prepend_done, Outcome.andThen_done, ending]
      constructor
      · rintro ⟨_, _, eq⟩
        cases eq
      · rintro ⟨_, _, eq⟩
        cases eq

/-- What holds of the CPU after an instruction holds after its step. -/
theorem step_returns {env : Env} {s : State} {a : Int} {op : Op} {Q : Cpu → Prop}
    (executes : s.Executes a op)
    (unprefixed : s.nextOpWide = false)
    (exec : ((execOp (pure true) op).run env (s.atOp a)).Returns fun _ t =>
      t.nextOpWide = (s.atOp a).nextOpWide ∧ Q t.gCpu) :
    (step.run env s).Returns fun _ t => t.nextOpWide = false ∧ Q t.gCpu := by
  obtain ⟨fetches, _, run⟩ := step_run env executes.found
  rw [run, execAt_run executes, Outcome.returns_prepend]
  refine Outcome.Returns.andThen (Q := fun _ t => t.nextOpWide = (s.atOp a).nextOpWide ∧ Q t.gCpu)
    (exec.andThen fun _ t h => Outcome.returns_done.mpr h) ?_
  rintro b t ⟨flag, holds⟩
  unfold endOfStep
  split
  · rename_i here
    refine Outcome.returns_done.mpr ⟨?_, holds⟩
    rw [flag, State.atOp, unprefixed, here]
    simp
  · exact Outcome.returns_done.mpr ⟨rfl, holds⟩

theorem pc_bounds {c : Cpu} (running : finished c = false) : 0 ≤ c.pc ∧ c.pc < c.codeMemSize := by
  simp only [finished, Bool.or_eq_false_iff, decide_eq_false_iff_not] at running
  omega

/-- A step that is completed has fetched its opcode. -/
theorem pc_of_step {env : Env} {s t : State} {b : Bool} {es : List Event}
    (execution : step.run env s = .done b t es) :
    0 ≤ s.gCpu.pc ∧ s.gCpu.pc < s.gCpu.codeMemSize := by
  by_contra outside
  rw [step_eq, stepFuel_outside (by omega)] at execution
  contradiction

/-- Where there is no prefix at PC, the instruction there is executed. -/
theorem executes_here {s : State} {op : Op}
    (inside : 0 ≤ s.gCpu.pc ∧ s.gCpu.pc < s.gCpu.codeMemSize)
    (here : s.gCpu.codeMem s.gCpu.pc = op.code) (unprefixed : op ≠ .wide) :
    s.Executes s.gCpu.pc op := by
  obtain ⟨low, high⟩ := inside
  have decoded : Op.ofByte? (s.gCpu.codeMem s.gCpu.pc) = some op := by rw [here, Op.ofByte?_code]
  have plain : s.gCpu.codeMem s.gCpu.pc ≠ Op.wide.code := by
    intro wide
    rw [wide, Op.ofByte?_code] at decoded
    exact unprefixed (Option.some.inj decoded).symm
  refine ⟨?_, decoded⟩
  rw [Cpu.opAddr?, opAddrFrom, if_neg (by omega), if_neg plain]

/-- An unfinished machine with no prefix at PC executes the instruction there. -/
theorem executes_at_pc {s : State} {op : Op} (running : finished s.gCpu = false)
    (here : s.gCpu.codeMem s.gCpu.pc = op.code) (unprefixed : op ≠ .wide) :
    s.Executes s.gCpu.pc op :=
  executes_here (pc_bounds running) here unprefixed

end Ijvm
