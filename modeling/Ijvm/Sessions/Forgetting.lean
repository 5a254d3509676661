import Ijvm.Machine.Oblivious
import Ijvm.Machine.Started

/-!
# What a new program can see of an old one

`destroyIjvm` leaves two globals of the machine as they were: the table of marks and the number
of elements created. No program reads old marks. The counter makes the collector run at
every hundredth creation, so a program that starts with another counter collects at other
moments. `State.forgets_of_unused` says that nothing else is left in the machine.
-/

namespace Ijvm

open Transcript Program

/-- No memory is allocated for the mapped array. -/
def MArr.none {α : Type} : MArr α := { size := 0, map := [], values := [] }

/-- The machine after `initIjvm` in a state and `n` turns of the loop of `run`. -/
def afterFrom (env : Env) (s : State) (file : Option (List Byte)) : Nat → Option State
  | 0 => match (initIjvm file).run env s with
    | .done code t _ => if code = 0 then some t else none
    | .stopped .. => none
  | n + 1 => (afterFrom env s file n).bind (turn env)

section Destroying

/-- There are no arrays and no connections. -/
def State.Released (s : State) : Prop := s.arrMem = .none ∧ s.netConn = .none

theorem anything {α : Type} (m : VM α) :
    Ensures (fun _ => True) (fun _ => True) (fun _ => True) m fun _ _ => True :=
  fun _ _ _ _ => ⟨fun _ _ _ _ => trivial, fun _ _ => trivial⟩

theorem destroyIjvm_releases :
    Ensures (fun _ => True) (fun _ => True) (fun _ => True) destroyIjvm
      fun _ t => t.Released := by
  have net : Ensures (fun _ => True) (fun _ => True) (fun _ => True) netDestroy
      fun _ t => t.netConn = .none :=
    .bind (anything _) fun _ => .bind (anything _) fun _ => .modify fun _ _ => rfl
  apply Ensures.bind net
  intro _
  refine .bind Keeps.get fun _ => .bind (Keeps.foldRange fun _ _ => ?_) fun _ =>
    .modify fun _ h => ⟨rfl, h⟩
  refine .bind (.bind .get fun _ => .ite (fun _ => .stop _) fun _ => .pure _) fun _ =>
    .ite (fun _ => ?_) fun _ => .pure _
  refine .bind (.bind .get fun _ => .ite (fun _ => .stop _) fun _ =>
    .ite (fun _ => .stop _) fun _ => .pure _) fun _ => ?_
  exact .bind .get fun _ => .ite (fun _ => .stop _) fun _ => .modify fun _ h => h

theorem initIjvm_refuses (file : Option (List Byte)) :
    Ensures (fun _ => True) (fun _ => True) (fun _ => True) (initIjvm file)
      fun code t => code = -1 → t.Released := by
  refine .bind (anything _) fun _ => .ite (fun _ => ?_) fun _ => ?_
  · exact .bind destroyIjvm_releases fun _ => .pure fun _ h _ => h
  · exact .bind (anything _) fun _ => .bind (anything _) fun _ => .bind (anything _) fun _ =>
      .bind (anything _) fun _ => .bind (anything _) fun _ => .bind (anything _) fun _ =>
      .pure fun _ _ wrong => absurd wrong (by decide)

end Destroying

section Initializing

/-- The states have no arrays and no connections, the same counter, and the same questions
to the environment ahead. -/
structure State.SameGround (s t : State) : Prop where
  left : s.Released
  right : t.Released
  elementCreations : s.elementCreations = t.elementCreations
  clock : s.clock = t.clock

/-- Such states with related CPUs. -/
def OnGround (R : Cpu → Cpu → Prop) (s t : State) : Prop := s.SameGround t ∧ R s.gCpu t.gCpu

structure Cpu.SameConsts (c c' : Cpu) : Prop where
  constMemSize : c.constMemSize = c'.constMemSize
  constMem : c.constMem = c'.constMem

structure Cpu.SameCode (c c' : Cpu) : Prop extends Cpu.SameConsts c c' where
  codeMemSize : c.codeMemSize = c'.codeMemSize
  codeMem : c.codeMem = c'.codeMem

structure Cpu.SameFrame (c c' : Cpu) : Prop extends Cpu.SameCode c c' where
  pc : c.pc = c'.pc
  stackSize : c.stackSize = c'.stackSize
  stack : c.stack = c'.stack
  sp : c.sp = c'.sp
  fp : c.fp = c'.fp
  lv : c.lv = c'.lv
  nv : c.nv = c'.nv

/-- Two runs of a part of the initialization. -/
abbrev Initializes {α : Type} (R : Cpu → Cpu → Prop) (m : VM α) (Q : α → Cpu → Cpu → Prop) :
    Prop :=
  Agrees (OnGround R) Eq m (fun a => OnGround (Q a)) fun _ _ => True

variable {R : Cpu → Cpu → Prop}

theorem initializes_pure {α : Type} {a : α} {Q : α → Cpu → Cpu → Prop}
    (h : ∀ c c', R c c' → Q a c c') : Initializes R (pure a : VM α) Q :=
  .pure fun _ _ hs => ⟨hs.1, h _ _ hs.2⟩

theorem initializes_modifyCpu {f : Cpu → Cpu} {Q : Unit → Cpu → Cpu → Prop}
    (h : ∀ c c', R c c' → Q () (f c) (f c')) : Initializes R (modifyCpu f) Q :=
  .modify fun _ _ hs => ⟨⟨hs.1.left, hs.1.right, hs.1.elementCreations, hs.1.clock⟩, h _ _ hs.2⟩

theorem initializes_allocate : Initializes R allocate fun _ => R := by
  intro env s t hs
  refine ⟨?_, ⟨⟨hs.1.left, hs.1.right, hs.1.elementCreations, ?_⟩, hs.2⟩, .nil⟩
  · rw [hs.1.clock]
  · show s.clock + 1 = t.clock + 1
    rw [hs.1.clock]

theorem loadConsts_initializes (f : List Byte) :
    Initializes (fun _ _ => True) (loadConsts f) fun r c c' => r ≠ none → c.SameConsts c' := by
  have refuse {R : Cpu → Cpu → Prop} : Initializes R (pure none : VM (Option (List Byte)))
      fun r c c' => r ≠ none → c.SameConsts c' :=
    initializes_pure fun _ _ _ wrong => absurd rfl wrong
  unfold loadConsts
  split
  · split
    · refine .bind (initializes_modifyCpu (Q := fun _ c c' => c.constMemSize = c'.constMemSize)
        fun _ _ _ => rfl) fun _ => .ite (fun _ => refuse) fun _ => ?_
      refine .bind initializes_allocate fun _ => .ite (fun _ => refuse) fun _ => ?_
      split
      · exact .bind (initializes_modifyCpu (Q := fun _ => Cpu.SameConsts) fun _ _ h => ⟨h, rfl⟩)
          fun _ => initializes_pure fun _ _ h _ => h
      · exact refuse
    · exact refuse
  · exact refuse

theorem loadCode_initializes (f : List Byte) :
    Initializes Cpu.SameConsts (loadCode f) fun r c c' => r ≠ none → c.SameCode c' := by
  have refuse {R : Cpu → Cpu → Prop} : Initializes R (pure none : VM (Option (List Byte)))
      fun r c c' => r ≠ none → c.SameCode c' :=
    initializes_pure fun _ _ _ wrong => absurd rfl wrong
  unfold loadCode
  split
  · split
    · refine .bind (initializes_modifyCpu
        (Q := fun _ c c' => c.SameConsts c' ∧ c.codeMemSize = c'.codeMemSize)
        fun _ _ h => ⟨⟨h.constMemSize, h.constMem⟩, rfl⟩) fun _ => ?_
      refine .bind initializes_allocate fun _ => .ite (fun _ => refuse) fun _ => ?_
      split
      · refine .bind .ask fun _ => .bind (initializes_modifyCpu (Q := fun _ => Cpu.SameCode)
          fun _ _ h => ⟨⟨h.1.constMemSize, h.1.constMem⟩, h.2, rfl⟩) fun _ => ?_
        exact initializes_pure fun _ _ h _ => h
      · exact refuse
    · exact refuse
  · exact refuse

theorem loadBin_initializes (file : Option (List Byte)) :
    Initializes (fun _ _ => True) (loadBin file) fun ok c c' => ok = true → c.SameCode c' := by
  have refuse {R : Cpu → Cpu → Prop} : Initializes R (pure false : VM Bool)
      fun ok c c' => ok = true → c.SameCode c' :=
    initializes_pure fun _ _ _ wrong => absurd wrong (by decide)
  unfold loadBin
  split
  · split
    · refine .ite (fun _ => refuse) fun _ => .bind (loadConsts_initializes _) fun rest => ?_
      cases rest with
      | none => exact refuse
      | some f =>
          refine .bind ((loadCode_initializes f).mono ?_ (fun _ _ _ h => h) (fun _ _ h => h)
            fun _ _ h => h) fun rest => ?_
          · exact fun _ _ h => ⟨h.1, h.2 (by simp)⟩
          · cases rest with
            | none => exact refuse
            | some f => exact initializes_pure fun _ _ h _ => h (by simp)
    · exact refuse
  · exact refuse

/-- The scan of the main method looks at the code and the constants only. -/
abbrev ScansAlike {α : Type} (m : VM α) : Prop := Initializes Cpu.SameCode m fun _ => Cpu.SameCode

theorem getCodeByte_alike (i : Int) : ScansAlike (getCodeByte i) := by
  refine .get_bind ?_ fun _ => .bind (.emit fun _ _ => rfl) fun _ => initializes_pure fun _ _ h => h
  intro s t hs
  dsimp only
  rw [hs.2.codeMemSize, hs.2.codeMem]

theorem getCodeShort_alike (i : Int) : ScansAlike (getCodeShort i) :=
  .bind (getCodeByte_alike i) fun _ => .bind (getCodeByte_alike _) fun _ =>
    initializes_pure fun _ _ h => h

theorem getConstant_alike (i : Int) : ScansAlike (getConstant i) := by
  refine .get_bind ?_ fun _ => .ite (fun _ => .stop fun _ _ _ => trivial) fun _ =>
    initializes_pure fun _ _ h => h
  intro s t hs
  dsimp only
  rw [hs.2.constMemSize, hs.2.constMem]

theorem scanVariable_alike (op : Op) (l : Scan) : ScansAlike (scanVariable op l) :=
  .ite (fun _ => .bind (.map _ (getCodeShort_alike _) fun _ _ _ h => h) fun _ =>
      initializes_pure fun _ _ h => h)
    fun _ => .bind (.map _ (getCodeByte_alike _) fun _ _ _ h => h) fun _ =>
      initializes_pure fun _ _ h => h

theorem scanInvoke_alike (l : Scan) : ScansAlike (scanInvoke l) := by
  refine .bind (getCodeShort_alike _) fun _ => .bind (getConstant_alike _) fun _ =>
    .get_bind ?_ fun _ => initializes_pure fun _ _ h => h
  intro s t hs
  rw [hs.2.codeMemSize]

theorem scanOp_alike (op : Byte) (l : Scan) : ScansAlike (scanOp op l) := by
  unfold scanOp
  split
  all_goals first
    | exact scanVariable_alike _ l
    | exact scanInvoke_alike l
    | exact initializes_pure fun _ _ h => h

theorem scanFuel_alike (fuel : Nat) (l : Scan) : ScansAlike (scanFuel fuel l) := by
  induction fuel generalizing l with
  | zero => exact .stop fun _ _ _ => trivial
  | succ fuel ih =>
      refine .get_bind ?_ fun _ => .ite (fun _ => initializes_pure fun _ _ h => h) fun _ =>
        .bind (getCodeByte_alike _) fun op => .ite (fun _ => initializes_pure fun _ _ h => h)
          fun _ => .bind (scanOp_alike op l) fun l => ih _
      intro s t hs
      dsimp only
      rw [hs.2.codeMemSize]

theorem getNumLocalVarsMain_alike : ScansAlike getNumLocalVarsMain := by
  refine .get_bind ?_ fun _ => .bind (scanFuel_alike _ _) fun _ => initializes_pure fun _ _ h => h
  intro s t hs
  dsimp only
  rw [hs.2.codeMemSize]

/-- The stack is new, and its size depends on the number of variables only. -/
theorem initStack_initializes :
    Initializes (fun c c' => c.SameCode c' ∧ c.pc = c'.pc) initStack fun _ => Cpu.SameFrame := by
  have scan : Initializes (fun c c' => c.SameCode c' ∧ c.pc = c'.pc) getNumLocalVarsMain
      fun _ c c' => c.SameCode c' ∧ c.pc = c'.pc := by
    intro env s t hs
    have alike := getNumLocalVarsMain_alike env s t ⟨hs.1, hs.2.1⟩
    have kept (s : State) := (getNumLocalVarsMain_scans (I := fun t => t.gCpu.pc = s.gCpu.pc)
      env s rfl fun _ _ => trivial).1
    cases run : getNumLocalVarsMain.run env s with
    | stopped e u es =>
        rw [run] at alike
        cases run' : getNumLocalVarsMain.run env t with
        | stopped e' v fs =>
            rw [run'] at alike
            exact alike
        | done n v fs =>
            rw [run'] at alike
            exact alike.elim
    | done n u es =>
        rw [run] at alike
        obtain ⟨v, fs, run', ⟨ground, code⟩, events⟩ := alike.done_left
        rw [run']
        have left := (kept s _ _ _ run).1
        have right := (kept t _ _ _ run').1
        exact ⟨rfl, ⟨ground, code, by rw [left, right]; exact hs.2.2⟩, events⟩
  apply Agrees.bind (scan.and_ensures (getNumLocalVarsMain_scans (I := fun _ => True)))
  intro n
  by_cases range : 0 ≤ n ∧ n ≤ 32768
  swap
  · exact fun _ _ _ h => absurd h.2.2 range
  obtain ⟨size, found, _⟩ := initialStackSize_eq_some (n := n.toNat) (by omega)
  rw [if_neg (by omega), found]
  refine Agrees.mono ?_ (fun _ _ h => h.1) (fun _ _ _ h => h) (fun _ _ h => h) fun _ _ h => h
  refine .bind (initializes_modifyCpu (Q := fun _ c c' =>
    (c.SameCode c' ∧ c.pc = c'.pc) ∧ c.stackSize = c'.stackSize) ?_) fun _ => ?_
  · rintro c c' ⟨code, pc⟩
    exact ⟨⟨⟨⟨code.constMemSize, code.constMem⟩, code.codeMemSize, code.codeMem⟩, pc⟩, rfl⟩
  refine .bind initializes_allocate fun _ => .ite (fun _ => .stop fun _ _ _ => trivial) fun _ =>
    .bind .ask fun env => initializes_modifyCpu ?_
  rintro c c' ⟨⟨code, pc⟩, stackSize⟩
  exact ⟨⟨⟨code.constMemSize, code.constMem⟩, code.codeMemSize, code.codeMem⟩, pc, stackSize, rfl,
    rfl, rfl, rfl, rfl⟩

/-- Without arrays and connections there is nothing to destroy. -/
theorem destroyIjvm_run {env : Env} {s : State} (released : s.Released) :
    destroyIjvm.run env s = .done () s [] := by
  obtain ⟨gCpu, arrMem, marks, counter, netConn, wide, inFile, outFile, clock⟩ := s
  obtain ⟨rfl, rfl⟩ := released
  rfl

/-- Two initializations that start without arrays and connections leave the same machine. -/
theorem initIjvm_agrees (file : Option (List Byte)) :
    Agrees State.SameGround Eq (initIjvm file) (fun code s t => code = 0 → s.SameButMarks t)
      fun _ _ => True := by
  refine .bind ((loadBin_initializes file).mono (fun _ _ h => ⟨h, trivial⟩) (fun _ _ _ h => h)
    (fun _ _ h => h) fun _ _ h => h) fun ok => .ite (fun _ => ?_) fun loaded => ?_
  · refine .bind (Q := fun _ _ _ => True) ?_ fun _ =>
      .pure fun _ _ _ wrong => absurd wrong (by decide)
    intro env s t hs
    rw [destroyIjvm_run hs.1.left, destroyIjvm_run hs.1.right]
    exact ⟨rfl, trivial, .nil⟩
  · rw [ne_eq, not_not] at loaded
    refine Agrees.bind (Q := fun _ => OnGround fun c c' => c.SameCode c' ∧ c.pc = c'.pc) ?_ fun _ =>
      .bind initStack_initializes fun _ => ?_
    · refine .modify fun s t hs => ⟨⟨hs.1.left, hs.1.right, hs.1.elementCreations, hs.1.clock⟩, ?_⟩
      have code := hs.2 loaded
      exact ⟨⟨⟨code.constMemSize, code.constMem⟩, code.codeMemSize, code.codeMem⟩, rfl⟩
    · refine .bind (initializes_modifyCpu (Q := fun _ c c' => c = c') ?_) fun _ => ?_
      · rintro ⟨⟩ ⟨⟩ ⟨⟨⟨⟨⟩, ⟨⟩⟩, ⟨⟩, ⟨⟩⟩, ⟨⟩, ⟨⟩, ⟨⟩, ⟨⟩, ⟨⟩, ⟨⟩, ⟨⟩⟩
        rfl
      · refine .bind .ask fun env => .bind (Q := fun _ s t => (s.SameGround t ∧ s.gCpu = t.gCpu) ∧
          s.inFile = t.inFile ∧ s.outFile = t.outFile) (.modify ?_) fun _ =>
          .bind (Q := fun _ => State.SameButMarks) (.modify ?_) fun _ => .pure fun _ _ h _ => h
        · rintro s t ⟨ground, cpu⟩
          obtain ⟨left, right, elementCreations, clock⟩ := ground
          exact ⟨⟨⟨left, right, elementCreations, clock⟩, cpu⟩, rfl, rfl⟩
        · rintro ⟨⟩ ⟨⟩ ⟨⟨⟨⟨⟨⟩, ⟨⟩⟩, ⟨⟨⟩, ⟨⟩⟩, ⟨⟩, ⟨⟩⟩, ⟨⟩⟩, ⟨⟩, ⟨⟩⟩
          exact ⟨_, rfl⟩

end Initializing

section Forgetting

/-- What two sessions are compared by: all but the table of marks, the counter of creations
and the number of questions asked. -/
def State.visible (s : State) : State :=
  { s with markedArrays := [], elementCreations := 0, clock := 0 }

/-- Every program makes the machine do the same as in a process that has just started, with the
same answers ahead. -/
def State.Forgets (u : State) : Prop :=
  ∀ env file n, (∀ k, env.alloc k = true) →
    (afterFrom env u file n).map State.visible =
      (afterFrom env { State.fresh with clock := u.clock } file n).map State.visible

theorem turn_agrees {env : Env} {s t : State} (same : s.SameButMarks t) :
    Option.Rel State.SameButMarks (turn env s) (turn env t) := by
  have agree := step_oblivious env s t same
  obtain ⟨marks, rfl⟩ := same
  unfold turn
  by_cases ended : finished s.gCpu = true
  · rw [if_pos ended, if_pos ended]
    exact .none
  · rw [if_neg ended, if_neg ended]
    cases run : step.run env s with
    | done b u es =>
        rw [run] at agree
        obtain ⟨v, fs, run', related, _⟩ := agree.done_left
        rw [run']
        exact .some related
    | stopped e u es =>
        rw [run] at agree
        cases run' : step.run env { s with markedArrays := marks } with
        | done b v fs =>
            rw [run'] at agree
            exact agree.elim
        | stopped e' v fs => exact .none

theorem afterFrom_agrees (env : Env) {s t : State} (file : Option (List Byte)) (n : Nat)
    (ground : s.SameGround t) :
    Option.Rel State.SameButMarks (afterFrom env s file n) (afterFrom env t file n) := by
  induction n with
  | zero =>
      have agree := initIjvm_agrees file env s t ground
      unfold afterFrom
      cases run : (initIjvm file).run env s with
      | done code u es =>
          rw [run] at agree
          obtain ⟨v, fs, run', related, _⟩ := agree.done_left
          rw [run']
          by_cases success : code = 0
          · simpa only [if_pos success] using .some (related success)
          · simpa only [if_neg success] using .none
      | stopped e u es =>
          rw [run] at agree
          cases run' : (initIjvm file).run env t with
          | done b v fs =>
              rw [run'] at agree
              exact agree.elim
          | stopped e' v fs => exact .none
  | succ n ih =>
      rw [afterFrom, afterFrom]
      generalize afterFrom env s file n = o, afterFrom env t file n = o' at ih
      cases ih with
      | none => exact .none
      | some same => exact turn_agrees same

theorem visible_eq {o o' : Option State} (same : Option.Rel State.SameButMarks o o') :
    o.map State.visible = o'.map State.visible := by
  cases same with
  | none => rfl
  | some related =>
      obtain ⟨marks, rfl⟩ := related
      rfl

/-- Nothing but the counter can show what was run before. -/
theorem State.forgets_of_unused {u : State} (released : u.Released)
    (unused : u.elementCreations = 0) : u.Forgets :=
  fun _ _ _ _ => visible_eq (afterFrom_agrees _ _ _ ⟨released, ⟨rfl, rfl⟩, unused, rfl⟩)

end Forgetting

end Ijvm
