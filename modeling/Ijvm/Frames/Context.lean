import Ijvm.Frames.Runs

/-!
# A method runs the same in front of any callers

`Config.under` puts more callers below a configuration. As long as the program keeps to the
discipline of frames without them, it goes through the same configurations with them. So a
method can be run on its own, and what it does there is what it does in every call: its result
takes the place of its arguments, and the frames of its callers are as they were.
-/

namespace Ijvm.Frames

open Transcript Program Transitions

/-- The configuration in front of further callers. -/
def Config.under (c : Config) (ks : List Suspension) : Config :=
  { c with callers := c.callers ++ ks }

/-- The two runs report the same, as long as the second has a meaning. -/
def sameStops : Stops Fault Fault where
  matching r f := r = f
  excused _ := False
  wild f := f = .undisciplined

section Parts

variable {x : Setting} {w : Word} {ks : List Suspension} {α : Type}

/-- In front of further callers, the program does what it does without them and with another
answer from outside. -/
abbrev Heedless {α : Type} (x : Setting) (w : Word) (ks : List Suspension) (m : FM α) : Prop :=
  Simulates sameStops x { x with answer := w } (fun t c => t = c.under ks) m m

theorem fault_heedless (e : Err) : Heedless x w ks (fault e : FM α) := .stop rfl

theorem undisciplined_heedless : Heedless x w ks (undisciplined : FM α) := .stop rfl

theorem modify_heedless {f : Config → Config} (h : ∀ c : Config, f (c.under ks) = (f c).under ks) :
    Heedless x w ks (modify f) :=
  .modify fun t c same => by rw [same, h]

/-- A program that reads the configuration. -/
theorem get_heedless {f : Config → FM α}
    (next : ∀ c, Refines sameStops x { x with answer := w } (fun t c => t = c.under ks)
      (f (c.under ks)) (f c) fun _ t c => t = c.under ks) : Heedless x w ks (get >>= f) := by
  refine .get_bind fun t c start => ?_
  subst start
  refine .mono (next c) ?_ fun _ _ _ final => final
  rintro _ _ ⟨rfl, rfl⟩
  rfl

theorem push_heedless (v : Word) : Heedless x w ks (push v) := modify_heedless fun _ => rfl

theorem pop_heedless : Heedless x w ks pop := by
  refine get_heedless fun c => ?_
  rw [show (c.under ks).frame = c.frame from rfl]
  cases c.frame.operands with
  | nil => exact undisciplined_heedless
  | cons v rest => exact .bind (modify_heedless fun _ => rfl) fun _ => .pure fun _ _ same => same

theorem load_heedless (i : Int) : Heedless x w ks (load i) :=
  get_heedless fun _ =>
    .ite Iff.rfl (fun _ => fault_heedless _) fun _ => .pure fun _ _ same => same

theorem store_heedless (v : Word) (i : Int) : Heedless x w ks (store v i) :=
  get_heedless fun _ =>
    .ite Iff.rfl (fun _ => fault_heedless _) fun _ => modify_heedless fun _ => rfl

theorem argByte_heedless : Heedless x w ks argByte :=
  .asks_bind <| get_heedless fun _ =>
    .ite Iff.rfl (fun _ => .stop rfl) fun _ =>
      .bind (modify_heedless fun _ => rfl) fun _ => .pure fun _ _ same => same

theorem argShort_heedless : Heedless x w ks argShort :=
  .asks_bind <| get_heedless fun _ =>
    .ite Iff.rfl (fun _ => .stop rfl) fun _ =>
      .bind (modify_heedless fun _ => rfl) fun _ => .pure fun _ _ same => same

theorem varIndex_heedless : Heedless x w ks varIndex :=
  .asks_bind <| .ite Iff.rfl
    (fun _ => .bind argShort_heedless fun _ => .pure fun _ _ same => same)
    fun _ => .bind argByte_heedless fun _ => .pure fun _ _ same => same

theorem constant_heedless (i : Int) : Heedless x w ks (constant i) :=
  .asks_bind <| .ite Iff.rfl (fun _ => fault_heedless _) fun _ => .pure fun _ _ same => same

theorem jump_heedless (offset : Int) : Heedless x w ks (jump offset) :=
  .asks_bind <| get_heedless fun _ =>
    .ite Iff.rfl (fun _ => fault_heedless _) fun _ => modify_heedless fun _ => rfl

theorem jumpOffset_heedless : Heedless x w ks jumpOffset :=
  .bind argShort_heedless fun _ => .pure fun _ _ same => same

theorem enter_heedless (returnAddress : Int) (numArgs numLocals : Nat) :
    Heedless x w ks (enter returnAddress numArgs numLocals) :=
  get_heedless fun _ =>
    .ite Iff.rfl (fun _ => undisciplined_heedless) fun _ => modify_heedless fun _ => rfl

theorem invoke_heedless : Heedless x w ks invoke := by
  refine .bind (.asks_bind <| .bind argShort_heedless fun _ => .bind (constant_heedless _) fun _ =>
    get_heedless fun _ => .ite Iff.rfl (fun _ => fault_heedless _)
      fun _ => .bind (modify_heedless fun _ => rfl) fun _ => .bind argShort_heedless fun _ =>
        .bind argShort_heedless fun _ => .pure fun _ _ same => same) fun _ => ?_
  exact enter_heedless _ _ _

/-- A return needs a caller of its own. -/
theorem leave_heedless : Heedless x w ks leave := by
  refine .bind pop_heedless fun _ => .get_bind fun t c start => ?_
  subst start
  cases callers : c.callers with
  | nil =>
      intro _ _ _
      exact .of_wild rfl
  | cons r rest =>
      simp only [Config.under, callers, List.cons_append]
      refine .asks_bind (.ite Iff.rfl (fun _ => .stop rfl) fun _ => .modify ?_)
      rintro _ _ ⟨rfl, rfl⟩
      rfl

theorem discard_heedless (n : Nat) : Heedless x w ks (discard n) := by
  induction n with
  | zero => exact .pure fun _ _ same => same
  | succ n ih => exact .bind pop_heedless fun _ => ih

theorem request_heedless (same : x.answer = w) (n : Nat) : Heedless x w ks (request n) := by
  subst same
  induction n with
  | zero => exact .asks_bind (push_heedless _)
  | succ n ih => exact .bind pop_heedless fun _ => ih

theorem binary_heedless (f : Word → Word → Word) : Heedless x w ks (binary f) :=
  .bind pop_heedless fun _ => .bind pop_heedless fun _ => push_heedless _

theorem input_heedless : Heedless x w ks input := by
  refine .bind (get_heedless fun c => ?_) fun byte => ?_
  · rw [show (c.under ks).input = c.input from rfl]
    cases c.input with
    | nil => exact .pure fun _ _ same => same
    | cons b rest => exact .bind (modify_heedless fun _ => rfl) fun _ => .pure fun _ _ same => same
  · cases byte with
    | none => exact push_heedless _
    | some b => exact push_heedless _

theorem output_heedless : Heedless x w ks output :=
  .bind pop_heedless fun _ => modify_heedless fun _ => rfl

theorem branch_heedless (test : Word → Prop) [DecidablePred test] : Heedless x w ks (do
    let offset ← jumpOffset
    if test (← pop) then jump offset) :=
  .bind jumpOffset_heedless fun _ => .bind pop_heedless fun _ =>
    .ite Iff.rfl (fun _ => jump_heedless _) fun _ => .pure fun _ _ same => same

end Parts

/-- The instruction pushes a word from outside. -/
def asks : Op → Bool
  | .newarray | .iaload | .netbind | .netconnect | .netin => true
  | _ => false

/-- No instruction heeds the callers below. -/
theorem exec_heedless {x : Setting} {w : Word} {ks : List Suspension} (op : Op)
    (same : asks op = true → x.answer = w) : Heedless x w ks (exec op) := by
  cases op
  case nop | gc => exact .pure fun _ _ same => same
  case bipush => exact .bind argByte_heedless fun _ => push_heedless _
  case ldcW =>
    exact .bind argShort_heedless fun _ => .bind (constant_heedless _) fun _ => push_heedless _
  case iload =>
    exact .bind varIndex_heedless fun _ => .bind (load_heedless _) fun _ => push_heedless _
  case istore =>
    exact .bind pop_heedless fun _ => .bind varIndex_heedless fun _ => store_heedless _ _
  case dup => exact .bind pop_heedless fun _ => .bind (push_heedless _) fun _ => push_heedless _
  case swap =>
    exact .bind pop_heedless fun _ => .bind pop_heedless fun _ => .bind (push_heedless _) fun _ =>
      push_heedless _
  case iadd | isub | iand | ior => exact binary_heedless _
  case iinc =>
    have rest (i : Int) : Heedless x w ks (do
        let c ← argByte
        store ((← load i) + c.signExtend 32) i) :=
      .bind argByte_heedless fun _ => .bind (load_heedless _) fun _ => store_heedless _ _
    exact .asks_bind (.ite Iff.rfl
      (fun _ => .bind (.bind argShort_heedless fun _ => .pure fun _ _ same => same) rest)
      fun _ => .bind (.bind argByte_heedless fun _ => .pure fun _ _ same => same) rest)
  case ifeq => exact branch_heedless fun w => w = 0
  case iflt => exact branch_heedless fun w => w.toInt < 0
  case icmpeq =>
    exact .bind jumpOffset_heedless fun _ => .bind pop_heedless fun _ => .bind pop_heedless fun _ =>
      .ite Iff.rfl (fun _ => jump_heedless _) fun _ => .pure fun _ _ same => same
  case goto => exact .bind jumpOffset_heedless fun _ => jump_heedless _
  case ireturn => exact leave_heedless
  case invokevirtual => exact invoke_heedless
  case wide => exact .stop rfl
  case «in» => exact input_heedless
  case out => exact output_heedless
  case err | halt => exact modify_heedless fun _ => rfl
  case pop | iastore | netout | netclose => exact discard_heedless _
  case newarray | iaload | netbind | netconnect | netin => exact request_heedless (same rfl) _

section Runs

variable {im : Image} {c : Config} {ks : List Suspension}

/-- The next instruction of a configuration pushes a word from outside. -/
def Asks (im : Image) (c : Config) : Prop :=
  ∃ a op, im.opAddr? c.pc = some a ∧ Op.ofByte? (im.code a) = some op ∧ asks op = true

/-- One instruction in front of further callers. -/
theorem perform_under (ks : List Suspension) {w w' : Word} (same : Asks im c → w = w') :
    (perform im w (c.under ks)).Refines sameStops (fun _ t c' => t = c'.under ks)
      (perform im w' c) := by
  unfold perform
  rw [show (c.under ks).pc = c.pc from rfl]
  cases found : im.opAddr? c.pc with
  | none => exact .of_matching rfl
  | some a =>
      dsimp only
      cases decoded : Op.ofByte? (im.code a) with
      | none => exact .of_done rfl
      | some op =>
          refine (exec_heedless (x := ⟨im, decide (a ≠ c.pc), w⟩) (w := w') op
            (fun asks => same ⟨a, op, found, decoded, asks⟩) _ { c with pc := a + 1 }
              rfl).andThen ?_
          rintro _ _ c' rfl
          exact .of_done rfl

/-- A run in front of further callers goes through the same configurations. -/
theorem run_under (im : Image) (ks : List Suspension) (ws : List Word) (c : Config) :
    (run im ws (c.under ks)).Refines sameStops (fun _ t c' => t = c'.under ks)
      (run im ws c) := by
  induction ws generalizing c with
  | nil => exact .of_done rfl
  | cons w ws ih =>
      rw [run, run, show ended im (c.under ks) = ended im c from rfl]
      split
      · exact .of_done rfl
      · refine (perform_under ks fun _ => rfl).andThen ?_
        rintro _ _ c' rfl
        exact ih c'

/-- A run that ends on its own ends in the same way in front of further callers. -/
theorem run_under_done (ks : List Suspension) {ws : List Word} {c' : Config} {es : List Empty}
    (alone : run im ws c = .done () c' es) :
    ∃ fs, run im ws (c.under ks) = .done () (c'.under ks) fs := by
  have same := run_under im ks ws c
  rw [alone] at same
  cases ran : run im ws (c.under ks) with
  | stopped f t fs =>
      rw [ran] at same
      exact same.elim
  | done _ t fs =>
      rw [ran] at same
      obtain ⟨-, rfl⟩ := same
      exact ⟨fs, rfl⟩

end Runs

section Calls

variable {x : Setting} {im : Image} {c c' : Config} {es : List Empty} {a : Int} {v : Word}

/-- The method that the argument bytes at `a` name, on its own, with the arguments that it finds
among the operands. -/
def entry (im : Image) (a : Int) (c : Config) : Config :=
  { c with
    pc := im.method a + 4
    frame := {
      vars := (c.frame.operands.take (im.numArgs a)).reverse ++
        List.replicate (im.numLocals a) 0
      operands := [] }
    callers := [] }

/-- The caller, without the arguments, goes on behind the argument bytes at `a`. -/
def waiting (im : Image) (a : Int) (c : Config) : Suspension where
  frame := { c.frame with operands := c.frame.operands.drop (im.numArgs a) }
  pc := a + 2

/-- The method is found, or there is an error. -/
theorem findMethod_finds : (findMethod.run x c).Satisfies
    (fun r c' _ => r = (c.pc + 2, x.image.numArgs c.pc, x.image.numLocals c.pc) ∧
      c' = { c with pc := x.image.method c.pc + 4 }) fun f _ _ => f ≠ .undisciplined := by
  simp only [findMethod, run_bind, run_ask, argShort_run, Outcome.andThen_done,
    Outcome.prepend_nil]
  split
  · exact argFault_disciplined
  rw [Outcome.andThen_done, Outcome.prepend_nil, constant_run]
  split
  · exact nofun
  simp only [run_get, Outcome.andThen_done, Outcome.prepend_nil]
  split
  · exact nofun
  simp only [run_bind, run_modify, argShort_run, Outcome.andThen_done, Outcome.prepend_nil]
  split
  · exact argFault_disciplined
  rw [Outcome.andThen_done, Outcome.prepend_nil]
  split
  · exact argFault_disciplined
  refine ⟨rfl, ?_⟩
  rw [Int.add_assoc]
  rfl

/-- A call runs the method in front of the waiting caller. -/
theorem invoke_calls : (invoke.run x c).Satisfies
    (fun _ c' _ => c' = (entry x.image c.pc c).under (waiting x.image c.pc c :: c.callers))
    fun f _ _ => f = .undisciplined → c.frame.operands.length < x.image.numArgs c.pc := by
  rw [invoke, run_bind]
  refine Outcome.Satisfies.andThen (findMethod_finds.mono (fun _ _ _ final => final)
    fun _ _ _ fault absurd => (fault absurd).elim) ?_
  rintro _ _ _ ⟨rfl, rfl⟩
  dsimp only
  rw [enter_run]
  split
  · rename_i few
    exact fun _ => few
  · rfl

/-- The instruction of a step. -/
theorem perform_op {op : Op} (w : Word) (found : im.opAddr? c.pc = some a)
    (decoded : Op.ofByte? (im.code a) = some op) :
    perform im w c = ((exec op).run { image := im, wide := decide (a ≠ c.pc), answer := w }
      { c with pc := a + 1 }).andThen fun _ c' => .done true c' [] := by
  rw [perform, found]
  dsimp only
  rw [decoded]

end Calls

section Turns

variable {env : Env} {im : Image} {s t u : State} {c c' : Config} {a : Int} {op : Op} {n : Nat}

/-- A turn is one instruction of the machine with frames. -/
theorem turn_follows (h : Represents im false s c) (taken : turn env s = some t) :
    (perform im (t.gCpu.stack t.gCpu.sp) c).Satisfies (fun _ c' _ => Represents im false t c')
      fun f _ _ => f = .undisciplined := by
  obtain ⟨_, b, es, execution⟩ := turn_eq_some taken
  have follows := step_follows env (w := t.gCpu.stack t.gCpu.sp) h (by
    rw [execution]
    rintro _ _ _ ⟨⟩
    rfl)
  rw [execution] at follows
  exact follows.done_left.mono (fun _ _ _ final => final.2) fun _ _ _ wild => wild

/-- The same instruction of the machine with frames. -/
theorem Represents.decodes (h : Represents im false s c) (executes : s.Executes a op) :
    im.opAddr? c.pc = some a ∧ Op.ofByte? (im.code a) = some op :=
  ⟨(opAddr?_eq h).trans executes.found, by rw [opcode_eq h executes.found, executes.decoded]⟩

/-- A call of a method that on its own reaches an IRETURN: the result takes the place of the
arguments, the caller goes on behind the call, and the rest of its frame and its own callers
are as they were. -/
theorem call_returns {v : Word} {rest : List Word} {es : List Empty}
    (h : Represents im false s c) (calls : s.Executes a .invokevirtual)
    (enough : im.numArgs (a + 1) ≤ c.frame.operands.length)
    (first : turn env s = some u) (taken : advance (turn env) (n + 1) u = some t)
    (alone : run im (answers env n u) (entry im (a + 1) c) = .done () c' es)
    (own : c'.callers = []) (value : c'.frame.operands = v :: rest)
    (returns : (im.opAddr? c'.pc).bind (fun b => Op.ofByte? (im.code b)) = some .ireturn) :
    Represents im false t { c' with
      pc := a + 3
      frame := {
        vars := c.frame.vars
        operands := v :: c.frame.operands.drop (im.numArgs (a + 1)) }
      callers := c.callers } := by
  -- The call.
  obtain ⟨found, decoded⟩ := h.decodes calls
  have called := turn_follows h first
  rw [perform_op _ found decoded] at called
  have entered : Represents im false u
      ((entry im (a + 1) c).under (waiting im (a + 1) c :: c.callers)) := by
    have invoked := invoke_calls (x := ⟨im, decide (a ≠ c.pc), u.gCpu.stack u.gCpu.sp⟩)
      (c := { c with pc := a + 1 })
    rw [show exec .invokevirtual = invoke from rfl] at called
    cases ran : invoke.run ⟨im, decide (a ≠ c.pc), u.gCpu.stack u.gCpu.sp⟩
        { c with pc := a + 1 } with
    | stopped f d fs =>
        rw [ran] at called invoked
        have := invoked called
        dsimp only at this
        omega
    | done _ d fs =>
        rw [ran] at called invoked
        obtain rfl := invoked
        exact called
  -- The method.
  rw [advance_succ_last, Option.bind_eq_some_iff] at taken
  obtain ⟨v', body, last⟩ := taken
  obtain ⟨fs, inFront⟩ := run_under_done (waiting im (a + 1) c :: c.callers) alone
  have reached := advance_follows entered body
  rw [inFront] at reached
  -- The return.
  obtain ⟨b, found', decoded'⟩ := Option.bind_eq_some_iff.mp returns
  have returned := turn_follows reached last
  rw [perform_op _ (c := c'.under _) found' decoded', show exec .ireturn = leave from rfl,
    leave_run (c := { c'.under (waiting im (a + 1) c :: c.callers) with pc := b + 1 })
      value (show _ = waiting im (a + 1) c :: c.callers by simp [Config.under, own])] at returned
  split at returned
  · contradiction
  · rw [show a + 3 = a + 1 + 2 by omega]
    exact returned

/-- The method of `successor`, called with 65: on its own it gets to its IRETURN with 66. -/
theorem call_returns_successor : ∃ s₀ s t, after Env.twoBytes successor 0 = some s₀ ∧
    after Env.twoBytes successor 1 = some s ∧ advance (turn Env.twoBytes) 5 s = some t ∧
    Represents (Image.of s₀.gCpu) false t ⟨4, ⟨[], [66]⟩, [], [66], [], false, false⟩ := by
  let c : Config := ⟨1, ⟨[], [65]⟩, [], [66], [], false, false⟩
  let c' : Config := ⟨15, ⟨[65], [66]⟩, [], [66], [], false, false⟩
  have check : (after Env.twoBytes successor 0).any (fun s₀ =>
      let im := Image.of s₀.gCpu
      let before := run im (answers Env.twoBytes 1 s₀) (start s₀.gCpu.nv.toNat [65, 66])
      decide (before.value? = some () ∧ before.state = c ∧ im.numArgs 2 = 1 ∧
        (im.opAddr? 15).bind (fun b => Op.ofByte? (im.code b)) = some .ireturn) &&
      (after Env.twoBytes successor 1).any fun s => (turn Env.twoBytes s).any fun u =>
        let alone := run im (answers Env.twoBytes 3 u) (entry im 2 c)
        decide (alone.value? = some () ∧ alone.state = c' ∧
          (advance (turn Env.twoBytes) 4 u).isSome = true ∧ s.gCpu.opAddr? = some 1 ∧
          Op.ofByte? (s.gCpu.codeMem 1) = some .invokevirtual)) = true := by
    decide +kernel
  obtain ⟨s₀, started, facts⟩ := (Option.any_eq_true _ _).mp check
  rw [Bool.and_eq_true, decide_eq_true_eq] at facts
  obtain ⟨⟨done, state, args, returns⟩, facts⟩ := facts
  obtain ⟨s, reached, facts⟩ := (Option.any_eq_true _ _).mp facts
  obtain ⟨u, first, facts⟩ := (Option.any_eq_true _ _).mp facts
  rw [decide_eq_true_eq] at facts
  obtain ⟨done', state', goesOn, found, decoded⟩ := facts
  obtain ⟨t, taken⟩ := Option.isSome_iff_exists.mp goesOn
  have related := advance_follows (start_represents started) (advance_of_after started reached)
  have alone := Outcome.eq_done_of_value? done'
  rw [show Env.twoBytes.stdin = [65, 66] from rfl, Outcome.eq_done_of_value? done, state] at related
  rw [state'] at alone
  refine ⟨s₀, s, t, started, reached, (advance_succ_of first).trans taken, ?_⟩
  have returned := call_returns related ⟨found, decoded⟩ args.le first taken alone rfl rfl returns
  rw [show (1 : Int) + 1 = 2 from rfl, args] at returned
  exact returned

end Turns

end Ijvm.Frames
