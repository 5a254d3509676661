import Ijvm.Scan.Turns
import Ijvm.Code.Fetch

/-!
# What the scan does to code that is no main method

The scan reads the bytes behind an opcode without asking whether they are there, and ends
the machine at a call with an invalid constant index. `Cpu.Sweepable` says that neither
happens: up to the end of the main method, each opcode has the operand bytes that the scan
looks at, and each call a constant.
-/

namespace Ijvm

open Transcript

/-- The run returns, and reads code memory inside its bounds only. -/
def Harmless {α : Type} (o : Outcome State Event Stop α) : Prop :=
  o.isDone = true ∧ ∀ e ∈ o.events, e.inCode

instance {α : Type} (o : Outcome State Event Stop α) : Decidable (Harmless o) :=
  inferInstanceAs (Decidable (_ ∧ _))

/-- The machine is ready, unless there is no memory for the stack. -/
def Accepts (o : Outcome State Event Stop Int) : Prop :=
  o.Satisfies (fun code _ _ => code = 0) fun reason _ _ => reason = .error .initStackAlloc

/-- From `i` on, up to the end `e` of the main method, each opcode has its operand bytes and
each call a constant. `wide` is a pending prefix. -/
inductive Cpu.Sweepable (c : Cpu) : Nat → Bool → Nat → Prop
  | outside {i : Nat} {wide : Bool} {e : Nat} (outside : c.codeMemSize ≤ i) : Sweepable c i wide e
  | past {i : Nat} {wide : Bool} {e : Nat} (past : e < i + 2) : Sweepable c i wide e
  | byte {i : Nat} {wide : Bool} {e : Nat} (unknown : c.opAt? i = none)
      (rest : Sweepable c (i + 1) wide e) : Sweepable c i wide e
  | op {i : Nat} {wide : Bool} {e : Nat} {op : Op} (found : c.opAt? i = some op)
      (operands : ((i + 1 + op.scannedBytes wide : Nat) : Int) ≤ c.codeMemSize)
      (constant : op = .invokevirtual → c.HasConstant (c.constIndex i))
      (rest : Sweepable c (i + 1 + op.operandBytes wide)
        (decide (op = .wide) || (wide && !op.isVariable))
        (if op = .invokevirtual then c.endAfter e (c.callTarget i) else e)) :
      Sweepable c i wide e

theorem harmless_prepend {α : Type} {o : Outcome State Event Stop α} {es : List Event} :
    Harmless (o.prepend es) ↔ (∀ e ∈ es, e.inCode) ∧ Harmless o := by
  have done : (o.prepend es).isDone = o.isDone := by cases o <;> rfl
  rw [Harmless, Harmless, done, Outcome.events_prepend, List.forall_mem_append]
  exact and_left_comm

section Sweeping

variable {c : Cpu} {l : Scan}

/-- The code can be swept from where the loop is. -/
def Scan.Sweepable (c : Cpu) (l : Scan) : Prop :=
  c.Sweepable l.i l.nextWide l.addrFirstMethodAfterMain

/-- The bytes that a turn looks at are there. -/
def Scan.Covered (c : Cpu) (l : Scan) : Prop := ((l.i + l.bytesRead c : Nat) : Int) ≤ c.codeMemSize

theorem Scan.reads_inCode : (∀ e ∈ l.reads c, e.inCode) ↔ l.Inside c ∧ l.Covered c := by
  have first : 1 ≤ l.bytesRead c := by
    unfold bytesRead
    split
    · exact Nat.le_add_right 1 _
    · exact Nat.le_refl 1
  have opcode : Event.inCode (.code l.i c.codeMemSize) ↔ l.Inside c :=
    and_iff_right (Int.natCast_nonneg _)
  have operands : (∀ e ∈ l.operandReads c, e.inCode) ↔
      ∀ k < l.bytesRead c - 1, 0 ≤ (l.i : Int) + 1 + k ∧ (l.i : Int) + 1 + k < c.codeMemSize := by
    simp [operandReads, Cpu.codeReads, Event.inCode]
  rw [reads, List.forall_mem_cons, opcode, operands]
  refine and_congr_right fun inside => ?_
  have here : (l.i : Int) < c.codeMemSize := inside
  rw [Covered]
  constructor
  · intro all
    by_cases more : l.bytesRead c - 1 = 0
    · omega
    · have := all (l.bytesRead c - 1 - 1) (by omega)
      omega
  · intro covered k below
    omega

/-- In front of the end, the code can be swept if a turn goes well and the code behind it
can be swept. -/
theorem Scan.sweepable_turn_iff (fits : c.codeMemSize < 2 ^ 31) (inside : l.Inside c)
    (before : ¬ l.Past) :
    l.Sweepable c ↔ ¬ l.Fatal c ∧ l.Covered c ∧ (l.next c).Sweepable c := by
  have here : (l.i : Int) < c.codeMemSize := inside
  have notPast : ¬ l.addrFirstMethodAfterMain < l.i + 2 := by
    unfold Past at before
    rw [sizeMaxUint32] at before
    omega
  constructor
  · intro sweepable
    cases sweepable with
    | outside outside => omega
    | past past => exact absurd past notPast
    | byte unknown rest =>
        refine ⟨by simp [Fatal, unknown], ?_, ?_⟩
        · rw [Covered, bytesRead, unknown]
          dsimp only
          omega
        · rw [Scan.Sweepable, Scan.next, unknown]
          exact rest
    | op found operands constant rest =>
        refine ⟨?_, ?_, ?_⟩
        · rintro ⟨call, invalid⟩
          exact invalid (constant (Option.some.inj (found.symm.trans call)))
        · rw [Covered, bytesRead, found, ← Nat.add_assoc]
          exact operands
        · rw [Scan.Sweepable, Scan.next, found]
          exact rest
  · rintro ⟨valid, covered, rest⟩
    cases found : c.opAt? l.i with
    | none =>
        rw [Scan.Sweepable, Scan.next, found] at rest
        exact .byte found rest
    | some op =>
        rw [Scan.Sweepable, Scan.next, found] at rest
        rw [Covered, bytesRead, found, ← Nat.add_assoc] at covered
        refine .op found covered ?_ rest
        rintro rfl
        exact not_not.mp fun invalid => valid ⟨found, invalid⟩

/-- The loop is harmless exactly if the code can be swept. -/
theorem scanFuel_harmless_iff (env : Env) {s : State} (fuel : Nat) {l : Scan} (fits : CodeFits s)
    (enough : s.gCpu.codeMemSize ≤ l.i + fuel) :
    Harmless ((scanFuel (fuel + 1) l).run env s) ↔ l.Sweepable s.gCpu := by
  induction fuel generalizing l with
  | zero =>
      have outside : ¬ l.Inside s.gCpu := Scan.not_inside_iff.mpr (by omega)
      rw [scanFuel_turn, if_pos outside]
      exact iff_of_true ⟨rfl, by simp⟩ (.outside (Scan.not_inside_iff.mp outside))
  | succ fuel ih =>
      rw [scanFuel_turn]
      by_cases inside : l.Inside s.gCpu
      swap
      · rw [if_pos inside]
        exact iff_of_true ⟨rfl, by simp⟩ (.outside (Scan.not_inside_iff.mp inside))
      rw [if_neg (not_not.mpr inside)]
      by_cases past : l.Past
      · rw [if_pos past]
        refine iff_of_true ⟨rfl, ?_⟩ (.past (by unfold Scan.Past at past; omega))
        have opcode : Event.inCode (.code l.i s.gCpu.codeMemSize) := ⟨Int.natCast_nonneg _, inside⟩
        simpa using opcode
      rw [if_neg past, Scan.sweepable_turn_iff fits inside past]
      by_cases fatal : l.Fatal s.gCpu
      · rw [if_pos fatal]
        exact iff_of_false (fun h => Bool.false_ne_true h.1) fun h => h.1 fatal
      · have advances := l.i_lt_next s.gCpu
        rw [if_neg fatal, harmless_prepend, Scan.reads_inCode, ih (by omega), and_assoc]
        simp [inside, fatal]

/-- The program counter does not matter. -/
theorem Cpu.Sweepable.withPc {i : Nat} {wide : Bool} {e : Nat} (h : c.Sweepable i wide e)
    (pc : Int) : ({ c with pc } : Cpu).Sweepable i wide e := by
  induction h with
  | outside outside => exact .outside outside
  | past past => exact .past past
  | byte unknown rest ih => exact .byte unknown ih
  | op found operands constant rest ih => exact .op found operands constant ih

end Sweeping

section Starting

variable {env : Env} {s : State}

theorem getNumLocalVarsMain_harmless_iff (fits : CodeFits s) :
    Harmless (getNumLocalVarsMain.run env s) ↔ s.gCpu.Sweepable 0 false sizeMaxUint32 := by
  have loop := scanFuel_harmless_iff env s.gCpu.codeMemSize.toNat (l := Scan.start) fits
    (by simp only [Scan.start]; omega)
  have scan : getNumLocalVarsMain.run env s =
      ((scanFuel (s.gCpu.codeMemSize.toNat + 1) Scan.start).run env s).andThen
        fun l t => .done l.varNum t [] := by
    rw [getNumLocalVarsMain, Program.run_bind, Program.run_get, Outcome.andThen_done,
      Outcome.prepend_nil]
    rfl
  rw [scan]
  refine Iff.trans ?_ loop
  cases (scanFuel (s.gCpu.codeMemSize.toNat + 1) Scan.start).run env s with
  | done l t es => simp [Harmless, Outcome.isDone]
  | stopped r t es => simp [Harmless, Outcome.isDone]

/-- With a scan that returns, only a lack of memory keeps the stack from being set up. -/
theorem initStack_accepts (returns : (getNumLocalVarsMain.run env s).isDone = true) :
    (initStack.run env s).Satisfies (fun _ _ _ => True)
      fun reason _ _ => reason = .error .initStackAlloc := by
  have counted := (getNumLocalVarsMain_scans (I := fun _ => True) env s trivial
    fun _ _ => trivial).1
  rw [initStack, Program.run_bind]
  cases run : getNumLocalVarsMain.run env s with
  | stopped r t es =>
      rw [run] at returns
      contradiction
  | done n t es =>
      obtain ⟨_, nonneg, few⟩ := counted n t es run
      obtain ⟨size, found, _⟩ := initialStackSize_eq_some (n := n.toNat) (by omega)
      rw [Outcome.andThen_done, Outcome.satisfies_prepend, if_neg (by omega), found]
      simp only [Program.run_bind, run_modifyCpu, run_allocate, Outcome.andThen_done,
        Outcome.prepend_nil]
      cases env.alloc t.clock with
      | false => exact rfl
      | true => exact trivial

/-- A scan that returns lets `initIjvm` accept the binary. -/
theorem initIjvm_accepts {file : List Byte} {es : List Event}
    (accepted : (loadBin (some file)).run env State.fresh = .done true s es)
    (returns : (getNumLocalVarsMain.run env (s.withPc 0)).isDone = true) :
    Accepts ((initIjvm (some file)).run env State.fresh) := by
  rw [initIjvm, Program.run_bind, accepted, Outcome.andThen_done, if_neg (by simp), Accepts,
    Outcome.satisfies_prepend, Program.run_bind, initRegisters, run_modifyCpu, Outcome.andThen_done,
    Outcome.prepend_nil, Program.run_bind]
  exact (initStack_accepts returns).andThen fun _ _ _ _ => rfl

/-- The scan of a binary is harmless, and the binary is accepted, exactly if its code can be
swept. -/
theorem scan_harmless_iff {file : List Byte} {es : List Event}
    (accepted : (loadBin (some file)).run env State.fresh = .done true s es) :
    (Harmless (getNumLocalVarsMain.run env s) ∧
      Accepts ((initIjvm (some file)).run env State.fresh)) ↔
        s.gCpu.Sweepable 0 false sizeMaxUint32 := by
  have fits : CodeFits s :=
    (loadBin_fits (some file) env State.fresh trivial fun _ _ => trivial).1 _ _ _ accepted rfl
  rw [getNumLocalVarsMain_harmless_iff fits]
  refine and_iff_left_of_imp fun sweepable => initIjvm_accepts accepted ?_
  exact ((getNumLocalVarsMain_harmless_iff (s := s.withPc 0) fits).mpr (sweepable.withPc 0)).1

end Starting

/-- A call behind HALT, without constants. -/
def callBehindHalt : List Byte := assemble [] [0xFF, 0xB6, 0, 5]

theorem callBehindHalt_harms : ¬ ∀ (env : Env) (file : List Byte) (s : State) (es : List Event),
    (loadBin (some file)).run env State.fresh = .done true s es →
      Harmless (getNumLocalVarsMain.run env s) ∧
        Accepts ((initIjvm (some file)).run env State.fresh) := by
  intro harmless
  have accepted := Outcome.eq_done_of_value?
    (show ((loadBin (some callBehindHalt)).run Env.quiet State.fresh).value? = some true by
      decide +kernel)
  have harms : ¬ Harmless (getNumLocalVarsMain.run Env.quiet
      ((loadBin (some callBehindHalt)).run Env.quiet State.fresh).state) := by decide +kernel
  exact harms (harmless _ _ _ _ accepted).1

theorem scan_harmless_iff_callBehindHalt : ∃ s es,
    (loadBin (some callBehindHalt)).run Env.quiet State.fresh = .done true s es ∧
      ((Harmless (getNumLocalVarsMain.run Env.quiet s) ∧
        Accepts ((initIjvm (some callBehindHalt)).run Env.quiet State.fresh)) ↔
          s.gCpu.Sweepable 0 false sizeMaxUint32) := by
  have accepted := Outcome.eq_done_of_value?
    (show ((loadBin (some callBehindHalt)).run Env.quiet State.fresh).value? = some true by
      decide +kernel)
  exact ⟨_, _, accepted, scan_harmless_iff accepted⟩

end Ijvm
