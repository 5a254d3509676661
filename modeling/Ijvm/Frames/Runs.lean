import Ijvm.Frames.Instructions
import Ijvm.Machine.Streams

/-!
# Every run of the interpreter is a run of the machine with frames

A successful initialization shows the machine with frames in the main method, with variables
that are zero. From there on, each turn of the interpreter is one instruction of that machine,
for as long as the program keeps to the discipline of frames: it takes operands of its own frame
only, and does not return from main. The index of a variable that does not exist is an error of
both machines. The answers are the words that
the interpreter has on top of its stack after each turn, where it puts the results of the
instructions on arrays and connections.
-/

namespace Ijvm.Frames

open Transcript Program Transitions

section Steps

variable {env : Env} {im : Image} {s t : State} {c : Config} {a : Int} {op : Op}

/-- The search for the opcode does not leave the code. -/
theorem opAddrFrom_congr {code code' : Int → Byte} {size : Int}
    (same : ∀ i, 0 ≤ i → i < size → code i = code' i) (fuel : Nat) (pc : Int) :
    opAddrFrom code size fuel pc = opAddrFrom code' size fuel pc := by
  induction fuel generalizing pc with
  | zero => rfl
  | succ fuel ih =>
      rw [opAddrFrom, opAddrFrom]
      split
      · rfl
      · rw [same pc (by omega) (by omega), ih]

theorem opAddr?_eq (h : Represents im false s c) : im.opAddr? c.pc = s.gCpu.opAddr? := by
  rw [← h.image, ← h.pc]
  exact opAddrFrom_congr (fun i low high => Image.code_of low high) _ _

theorem opcode_eq (h : Represents im false s c) (found : s.gCpu.opAddr? = some a) :
    im.code a = s.gCpu.codeMem a := by
  obtain ⟨_, low, high, _⟩ := opAddrFrom_bounds found
  rw [← h.image]
  exact Image.code_of low high

theorem ended_eq (h : Represents im false s c) : ended im c = finished s.gCpu := by
  rw [ended, finished, ← h.image, ← h.pc, ← h.flags.1, ← h.flags.2]
  rfl

/-- The states in which the instruction behind the prefixes is executed. -/
theorem Represents.atOp (h : Represents im false s c) (found : s.gCpu.opAddr? = some a) :
    Represents im (decide (a ≠ c.pc)) (s.atOp a) { c with pc := a + 1 } := by
  have bounds := opAddrFrom_bounds found
  refine ⟨h.image, h.range.withPc _, rfl, ?_, h.layout.congr rfl rfl rfl rfl rfl, h.flags, h.files,
    ?_⟩
  · show 0 ≤ a + 1
    omega
  · rw [← h.pc, State.atOp, h.wide, Bool.false_or]

/-- The end of a step leaves the WIDE flag reset. -/
theorem Represents.settled {c' : Config}
    (h : Represents im (decide (a ≠ s.gCpu.pc)) t c') : Represents im false (s.settled a t) c' := by
  have wide : (s.settled a t).nextOpWide = false := by
    unfold State.settled
    split
    · rename_i here
      rw [h.wide, here]
      exact decide_eq_false (fun ne => ne rfl)
    · rfl
  rw [State.settled_eq] at wide ⊢
  exact ⟨h.image, h.range, h.pc, h.pc_nonneg, h.layout, h.flags, h.files, wide⟩

/-- The next step makes a connection, for which it needs a `malloc`. -/
def Connects (s : State) : Prop := s.gCpu.op? = some .netbind ∨ s.gCpu.op? = some .netconnect

/-- The step of an opcode is the one of the machine with frames. -/
theorem step_executes (h : Represents im false s c) (executes : s.Executes a op) {w : Word}
    (answer : ∀ b t es, step.run env s = .done b t es → t.gCpu.stack t.gCpu.sp = w) :
    (step.run env s).Refines (frameStops (Connects s)) (fun _ => Represents im false)
      (perform im w c) := by
  obtain ⟨fetches, _, run⟩ := step_run env executes.found
  rw [run, execAt_run executes, Outcome.andThen_assoc] at answer ⊢
  rw [Outcome.refines_prepend, perform, opAddr?_eq h, executes.found]
  dsimp only
  rw [opcode_eq h executes.found, executes.decoded]
  dsimp only
  have connects : Connects s ↔ op = .netbind ∨ op = .netconnect := by
    rw [Connects, executes.op?, Option.some.injEq, Option.some.injEq]
  rw [connects]
  refine (execOp_answers (x := { image := im, wide := decide (a ≠ c.pc), answer := w })
    (pure true) executes.unprefixed _ _ (h.atOp executes.found) ?_).andThen ?_
  · intro t es exec
    rw [exec, Outcome.andThen_done, Outcome.andThen_done, endOfStep_settled] at answer
    have top := answer _ _ _ rfl
    rw [State.gCpu_settled] at top
    exact top
  · intro _ t c' related
    rw [Outcome.andThen_done, Outcome.prepend_nil, endOfStep_settled]
    refine .of_done ?_
    rw [← h.pc] at related
    exact related.settled

/-- A byte that is no opcode sets the error flag of both machines. -/
theorem step_unknown (h : Represents im false s c) (found : s.gCpu.opAddr? = some a)
    (unknown : Op.ofByte? (s.gCpu.codeMem a) = none) (w : Word) :
    (step.run env s).Refines (frameStops (Connects s)) (fun _ => Represents im false)
      (perform im w c) := by
  obtain ⟨fetches, _, run⟩ := step_run env found
  have atOp := h.atOp found
  rw [run, Outcome.refines_prepend, execAt, dispatch_none unknown, perform, opAddr?_eq h, found]
  dsimp only
  rw [opcode_eq h found, unknown]
  simp only [run_bind, run_modifyCpu, run_pure, Outcome.andThen_done, Outcome.prepend_nil,
    endOfStep_settled, Bool.false_or]
  rw [h.pc]
  refine .of_done (Represents.settled ?_)
  rw [h.pc]
  exact ⟨atOp.image, atOp.range.withControl _ _ _ _, atOp.pc, atOp.pc_nonneg,
    atOp.layout.congr rfl rfl rfl rfl rfl, ⟨rfl, atOp.flags.2⟩, atOp.files, atOp.wide⟩

/-- Each step of the interpreter is one of the machine with frames. -/
theorem step_follows (env : Env) (h : Represents im false s c) {w : Word}
    (answer : ∀ b t es, step.run env s = .done b t es → t.gCpu.stack t.gCpu.sp = w) :
    (step.run env s).Refines (frameStops (Connects s)) (fun _ => Represents im false)
      (perform im w c) := by
  cases found : s.gCpu.opAddr? with
  | none =>
      obtain ⟨t, es, run, _⟩ := step_stops env found
      rw [run, perform, opAddr?_eq h, found]
      exact .of_matching (Or.inr ⟨rfl, rfl⟩)
  | some a =>
      cases decoded : Op.ofByte? (s.gCpu.codeMem a) with
      | none => exact step_unknown h found decoded w
      | some op => exact step_executes h ⟨found, decoded⟩ answer

end Steps

section Runs

variable {env : Env} {im : Image} {s t : State} {c : Config} {n : Nat}

/-- The words on top of the stack after each of the next `n` turns. -/
def answers (env : Env) : Nat → State → List Word
  | 0, _ => []
  | n + 1, s => (turn env s).elim [] fun t => t.gCpu.stack t.gCpu.sp :: answers env n t

/-- Further answers go on with the run. -/
theorem run_append (xs ys : List Word) (c : Config) :
    run im (xs ++ ys) c = (run im xs c).andThen fun _ c' => run im ys c' := by
  induction xs generalizing c with
  | nil => rw [List.nil_append, run, Outcome.andThen_done, Outcome.prepend_nil]
  | cons x xs ih =>
      rw [List.cons_append, run, run]
      by_cases past : ended im c = true
      · rw [if_pos past, if_pos past, Outcome.andThen_done, Outcome.prepend_nil]
        cases ys with
        | nil => rfl
        | cons y ys => rw [run, if_pos past]
      · rw [if_neg past, if_neg past, Outcome.andThen_assoc]
        congr 1
        funext _ c'
        exact ih c'

/-- A run of the interpreter is one of the machine with frames, until the program leaves the
discipline of frames. -/
theorem advance_follows (h : Represents im false s c) (taken : advance (turn env) n s = some t) :
    (run im (answers env n s) c).Satisfies (fun _ c' _ => Represents im false t c')
      fun f _ _ => f = .undisciplined := by
  induction n generalizing s c with
  | zero =>
      injection taken with same
      exact same ▸ h
  | succ n ih =>
      obtain ⟨u, first, rest⟩ := advance_succ_eq_some.mp taken
      obtain ⟨running, b, es, execution⟩ := turn_eq_some first
      have follows := step_follows env (w := u.gCpu.stack u.gCpu.sp) h (by
        rw [execution]
        rintro _ _ _ ⟨⟩
        rfl)
      rw [execution] at follows
      rw [answers, first, Option.elim_some, run, ended_eq h, running, if_neg Bool.false_ne_true]
      refine follows.done_left.andThen ?_
      rintro _ c' _ ⟨_, related⟩
      exact (ih related rest).mono (fun _ _ _ final => final) fun _ _ _ left => left

/-- The end of an instruction that the interpreter stops at for the reason `r`. -/
abbrev StopsLike {α : Type} (r : Stop) (o : Outcome Config Empty Fault α) : Prop :=
  o.Satisfies (fun _ _ _ => False) fun f _ _ => f = .undisciplined ∨ (frameStops False).matching r f

/-- An instruction that stops the interpreter with an error of its own stops the machine with
frames, in the configuration that the turns before it have reached. -/
theorem advance_stops_at {r : Stop} {u : State} {es : List Event} (h : Represents im false s c)
    (taken : advance (turn env) n s = some t) (stops : step.run env t = .stopped r u es)
    (own : ¬ r.external (Connects t)) (w : Word) :
    (run im (answers env n s) c).Satisfies
      (fun _ c' _ => Represents im false t c' ∧ StopsLike r (perform im w c'))
      fun f _ _ => f = .undisciplined := by
  refine (advance_follows h taken).mono (fun _ c' _ related => ⟨related, ?_⟩)
    fun _ _ _ left => left
  have follows := step_follows env (w := w) related (by
    rw [stops]
    rintro _ _ _ ⟨⟩)
  rw [stops] at follows
  exact follows.stopped_left own

theorem advance_stops {r : Stop} {u : State} {es : List Event} (h : Represents im false s c)
    (taken : advance (turn env) n s = some t) (running : finished t.gCpu = false)
    (stops : step.run env t = .stopped r u es) (own : ¬ r.external (Connects t)) (w : Word) :
    StopsLike r (run im (answers env n s ++ [w]) c) := by
  rw [StopsLike, run_append]
  refine Outcome.Satisfies.andThen ((advance_stops_at h taken stops own w).mono
    (fun _ _ _ final => final) fun _ _ _ left => Or.inl left) fun _ c' _ last => ?_
  rw [run, ended_eq last.1, running, if_neg Bool.false_ne_true]
  exact last.2.andThen fun _ _ _ absurd => absurd.elim

end Runs

section Starts

variable {env : Env}

/-- The variables of the main method start out as zeros. -/
theorem initStack_zeroes (s : State) :
    (initStack.run env s).Returns fun _ t =>
      ∀ j, 0 ≤ j → j < t.gCpu.nv → t.gCpu.stack j = 0 := by
  have anyway {α : Type} (o : Outcome State Event Stop α) : o.Returns fun _ _ => True :=
    fun _ _ _ _ => trivial
  rw [initStack, run_bind]
  refine (anyway _).andThen fun n t _ => ?_
  split
  · exact Outcome.returns_stopped
  · have rest (t : State) : ((do
        if (← allocate) = false then
          destroyIjvmNow .initStackAlloc
        else
          let env ← Program.ask
          modifyCpu fun c => { c with
            sp := n - 1
            lv := 0
            nv := n
            fp := n
            stack := fun i => if 0 ≤ i ∧ i < n then 0 else env.stackMemory i } : VM Unit).run
        env t).Returns fun _ t => ∀ j, 0 ≤ j → j < t.gCpu.nv → t.gCpu.stack j = 0 := by
      rw [run_bind]
      refine (anyway _).andThen fun granted t _ => ?_
      split
      · exact Outcome.returns_stopped
      · rw [run_bind, run_ask, Outcome.andThen_done, Outcome.prepend_nil, run_modifyCpu]
        exact Outcome.returns_done.mpr fun j nonneg below => if_pos ⟨nonneg, below⟩
    cases initialStackSize n.toNat with
    | none => exact rest t
    | some size =>
        dsimp only
        rw [run_bind, run_modifyCpu, Outcome.andThen_done, Outcome.prepend_nil]
        exact rest _

theorem zeroes_of_init {file : Option (List Byte)} {s₀ s : State} {es : List Event}
    (init : (initIjvm file).run env s₀ = .done 0 s es) :
    ∀ j, 0 ≤ j → j < s.gCpu.nv → s.gCpu.stack j = 0 := by
  have anyway {α : Type} (o : Outcome State Event Stop α) : o.Returns fun _ _ => True :=
    fun _ _ _ _ => trivial
  have zeroes : ((initIjvm file).run env s₀).Returns fun code t => code = 0 →
      ∀ j, 0 ≤ j → j < t.gCpu.nv → t.gCpu.stack j = 0 := by
    rw [initIjvm, run_bind]
    refine (anyway _).andThen fun loaded t _ => ?_
    split
    · rw [run_bind]
      exact (anyway _).andThen fun _ _ _ => Outcome.returns_done.mpr fun h => absurd h (by decide)
    · rw [run_bind]
      refine (anyway _).andThen fun _ t _ => ?_
      rw [run_bind]
      refine (initStack_zeroes t).andThen fun _ u zero => ?_
      rw [run_bind]
      exact Outcome.returns_done.mpr fun _ => zero
  exact zeroes 0 s es init rfl

/-- A successful initialization shows the start of the machine with frames. -/
theorem start_represents {file : List Byte} {s : State} (started : after env file 0 = some s) :
    Represents (Image.of s.gCpu) false s (start s.gCpu.nv.toNat env.stdin) := by
  obtain ⟨es, init⟩ := init_of_after started
  obtain ⟨main, noError, noHalt, unprefixed, noOutput⟩ := started_of_init init
  have nv : s.gCpu.nv = s.gCpu.nv.toNat := (Int.toNat_of_nonneg main.nv_nonneg).symm
  have zero := zeroes_of_init init
  have layout : Layout s.gCpu (start s.gCpu.nv.toNat env.stdin).frame [] := by
    refine ⟨?_, ?_, ⟨fun k w found => ?_, ?_, rfl⟩, main.lv⟩
    · simpa [start] using nv
    · rw [main.lv, main.fp, Int.zero_add]
    · obtain ⟨inside, rfl⟩ := by simpa [start, List.getElem?_replicate] using found
      rw [main.lv, Int.zero_add]
      exact zero k (Int.natCast_nonneg k) (by omega)
    · simp [base, start, main.sp, main.fp]
  refine ⟨rfl, main.inRange, main.pc, Int.le_refl _, layout, ⟨noError, noHalt⟩, ?_, unprefixed⟩
  rw [State.files, inFile_of_init init, noOutput]
  rfl

/-- Every run of the interpreter is one of the machine with frames: after each number of
turns the interpreter shows the state of that machine, unless the program has left the
discipline of frames on the way. -/
theorem after_follows {file : List Byte} {n : Nat} {s₀ s : State}
    (started : after env file 0 = some s₀) (reached : after env file n = some s) :
    (run (Image.of s₀.gCpu) (answers env n s₀) (start s₀.gCpu.nv.toNat env.stdin)).Satisfies
      (fun _ c _ => Represents (Image.of s₀.gCpu) false s c) fun f _ _ => f = .undisciplined :=
  advance_follows (start_represents started) (advance_of_after started reached)

/-- Read a byte, add one to it in a method, and write the sum: IN; INVOKEVIRTUAL 0; OUT; HALT,
and the method BIPUSH 1; ILOAD 0; IADD; IRETURN with one argument. -/
def successor : List Byte := assemble [6]
  [Op.in.code, Op.invokevirtual.code, 0, 0, Op.out.code, Op.halt.code, 0, 1, 0, 0,
    Op.bipush.code, 1, Op.iload.code, 0, Op.iadd.code, Op.ireturn.code]

/-- The call, the return and the output of the sum are those of the machine with frames, which
keeps to the discipline of frames. -/
theorem after_follows_successor : ∃ s₀ s c, after Env.twoBytes successor 0 = some s₀ ∧
    after Env.twoBytes successor 7 = some s ∧ c.output = [66] ∧
    run (Image.of s₀.gCpu) (answers Env.twoBytes 7 s₀) (start 0 [65, 66]) = .done () c [] ∧
    Represents (Image.of s₀.gCpu) false s c := by
  have check : (after Env.twoBytes successor 0).any (fun s₀ =>
      (after Env.twoBytes successor 7).isSome && s₀.gCpu.nv == 0 &&
        match run (Image.of s₀.gCpu) (answers Env.twoBytes 7 s₀) (start 0 [65, 66]) with
        | .done _ c es => c.output == [66] && es.isEmpty
        | .stopped .. => false) = true := by
    decide +kernel
  obtain ⟨s₀, started, facts⟩ := (Option.any_eq_true _ _).mp check
  simp only [Bool.and_eq_true, beq_iff_eq] at facts
  obtain ⟨⟨reaches, nv⟩, machine⟩ := facts
  obtain ⟨s, reached⟩ := Option.isSome_iff_exists.mp reaches
  have follows := after_follows started reached
  rw [nv] at follows
  cases ran : run (Image.of s₀.gCpu) (answers Env.twoBytes 7 s₀) (start 0 [65, 66]) with
  | stopped f c es =>
      rw [ran] at machine
      contradiction
  | done _ c es =>
      rw [ran, Bool.and_eq_true, beq_iff_eq, List.isEmpty_iff] at machine
      rw [show (0 : Int).toNat = 0 from rfl, show Env.twoBytes.stdin = [65, 66] from rfl, ran]
        at follows
      exact ⟨s₀, s, c, started, reached, machine.1, by rw [ran, machine.2],
        follows⟩

/-- A constant that does not exist: BIPUSH 7; LDC_W 0. -/
def noConstant : List Byte := assemble [] [Op.bipush.code, 7, Op.ldcW.code, 0, 0]

end Starts

end Ijvm.Frames
