import Ijvm.Machine.Launch

/-!
# The state in which a run starts

Whatever the binary and the surroundings are, a successful `initIjvm` leaves the
registers of the main method, on a stack with room above its variables. The scan that
counts the variables takes indices of two signed bytes, which bounds their number.
-/

namespace Ijvm

open Transcript Program

/-- The registers and sizes in the main method before its first instruction. -/
structure Cpu.InMain (c : Cpu) : Prop where
  pc : c.pc = 0
  sp : c.sp = c.nv - 1
  lv : c.lv = 0
  fp : c.fp = c.nv
  nv_nonneg : 0 ≤ c.nv
  nv_le : c.nv ≤ 32768
  room : c.nv + 256 ≤ c.stackSize
  size_le : c.stackSize ≤ 131072
  code_lt : c.codeMemSize < 2 ^ 31

/-- The machine before its first instruction. -/
structure State.Started (s : State) : Prop where
  main : s.gCpu.InMain
  noError : s.gCpu.errorFlag = false
  noHalt : s.gCpu.haltFlag = false
  unprefixed : s.nextOpWide = false
  noOutput : s.outFile = []

/-- One of the first three candidates is large enough. -/
theorem initialStackSize_eq_some {n : Nat} (few : n ≤ 32768) :
    ∃ size, initialStackSize n = some size ∧ n + 256 ≤ size ∧ size ≤ 131072 := by
  have p₀ : power 8 0 = 1 := by decide
  have p₁ : power 8 1 = 8 := by decide
  have p₂ : power 8 2 = 32 := by decide
  have range : List.range 7 = [0, 1, 2, 3, 4, 5, 6] := by decide
  unfold initialStackSize
  rw [range]
  by_cases h₀ : n * 4 + 1024 ≤ stackMinSize * 4 * power 8 0
  · refine ⟨stackMinSize * power 8 0, by simp [h₀], ?_⟩
    rw [p₀, stackMinSize] at *
    omega
  · by_cases h₁ : n * 4 + 1024 ≤ stackMinSize * 4 * power 8 1
    · refine ⟨stackMinSize * power 8 1, by simp [h₀, h₁], ?_⟩
      rw [p₁, stackMinSize] at *
      omega
    · have h₂ : n * 4 + 1024 ≤ stackMinSize * 4 * power 8 2 := by
        rw [p₂, stackMinSize]
        omega
      refine ⟨stackMinSize * power 8 2, by simp [h₀, h₁, h₂], ?_⟩
      rw [p₂, stackMinSize] at *
      omega

section Loading

/-- The size of code memory is one that an `int` can hold. -/
def CodeFits (s : State) : Prop := s.gCpu.codeMemSize < 2 ^ 31

/-- Whatever the program does, nothing is said about it. -/
theorem ensures_nothing {α : Type} (m : VM α) :
    Ensures (fun _ => True) (fun _ => True) (fun _ => True) m fun _ _ => True :=
  fun _ _ _ _ => ⟨fun _ _ _ _ => trivial, fun _ _ => trivial⟩

theorem allocate_fits : Keeps (fun _ => True) CodeFits (fun _ => True) allocate :=
  fun _ _ fits _ => ⟨Outcome.returns_done.mpr fits, by simp⟩

theorem loadCode_fits (f : List Byte) :
    Ensures (fun _ => True) (fun _ => True) (fun _ => True) (loadCode f)
      fun rest t => rest ≠ none → CodeFits t := by
  have refuses : Ensures (fun _ => True) CodeFits (fun _ => True)
      (pure none : VM (Option (List Byte))) fun rest t => rest ≠ none → CodeFits t :=
    .pure fun _ _ no => absurd rfl no
  have nothing : Ensures (fun _ => True) (fun _ => True) (fun _ => True)
      (pure none : VM (Option (List Byte))) fun rest t => rest ≠ none → CodeFits t :=
    .pure fun _ _ no => absurd rfl no
  unfold loadCode
  split
  · split
    · refine .bind (Q := fun _ => CodeFits) (.modify fun _ _ => BitVec.toInt_lt) fun _ => ?_
      refine .bind allocate_fits fun _ => .ite (fun _ => refuses) fun _ => ?_
      split
      · exact .bind Keeps.ask fun _ => .bind (.modify fun _ fits => fits) fun _ =>
          .pure fun _ fits _ => fits
      · exact refuses
    · exact nothing
  · exact nothing

theorem loadBin_fits (file : Option (List Byte)) :
    Ensures (fun _ => True) (fun _ => True) (fun _ => True) (loadBin file)
      fun loaded t => loaded = true → CodeFits t := by
  have refuses : Ensures (fun _ => True) (fun _ => True) (fun _ => True) (pure false : VM Bool)
      fun loaded t => loaded = true → CodeFits t := .pure fun _ _ => nofun
  unfold loadBin
  split
  · split
    · refine .ite (fun _ => refuses) fun _ => .bind (ensures_nothing _) fun rest => ?_
      split
      · refine .bind (loadCode_fits _) fun rest' => ?_
        split
        · exact .pure fun _ fits _ => fits nofun
        · exact .pure fun _ _ => nofun
      · exact refuses
    · exact refuses
  · exact refuses

end Loading

section Scanning

variable {I : State → Prop} {guar : Event → Prop}

theorem getCodeByte_keeps (i : Int) : Keeps (fun _ => True) I (fun _ => True) (getCodeByte i) :=
  .bind .get fun _ => .bind (.emit fun _ _ _ => trivial) fun _ => .pure _

theorem getCodeShort_keeps (i : Int) : Keeps (fun _ => True) I (fun _ => True) (getCodeShort i) :=
  .bind (getCodeByte_keeps i) fun _ => .bind (getCodeByte_keeps _) fun _ => .pure _

theorem getConstant_keeps (i : Int) : Keeps (fun _ => True) I (fun _ => True) (getConstant i) :=
  .bind .get fun _ => .ite (fun _ => .stop _) fun _ => .pure _

/-- The number of variables seen so far. -/
def Scan.Counted (l : Scan) : Prop := 0 ≤ l.varNum ∧ l.varNum ≤ 32768

/-- The scan changes nothing, and every index that it meets is below 32768. -/
abbrev Scans (I : State → Prop) (m : VM Scan) : Prop :=
  Ensures (fun _ => True) I (fun _ => True) m fun l t => I t ∧ l.Counted

theorem scans_pure {l : Scan} (counted : l.Counted) : Scans I (pure l) :=
  Ensures.pure fun _ hs => ⟨hs, counted⟩

theorem scanVariable_scans (op : Op) {l : Scan} (counted : l.Counted) :
    Scans I (scanVariable op l) := by
  obtain ⟨nonneg, le⟩ := counted
  have counts {i : Int} (below : i < 32768) :
      0 ≤ (if i + 1 > l.varNum then i + 1 else l.varNum) ∧
        (if i + 1 > l.varNum then i + 1 else l.varNum) ≤ 32768 := by
    split
    · omega
    · omega
  unfold scanVariable
  apply Ensures.ite
  · intro _
    refine .bind (Q := fun i t => I t ∧ i < 32768) ?_ fun i => .pure fun t h => ⟨h.1, counts h.2⟩
    exact .bind (getCodeShort_keeps _) fun b => .pure fun t ht => ⟨ht, BitVec.toInt_lt⟩
  · intro _
    refine .bind (Q := fun i t => I t ∧ i < 32768) ?_ fun i => .pure fun t h => ⟨h.1, counts h.2⟩
    refine .bind (getCodeByte_keeps _) fun b => .pure fun t ht => ⟨ht, ?_⟩
    have := b.isLt
    show (b.toNat : Int) < 32768
    omega

theorem scanInvoke_scans {l : Scan} (counted : l.Counted) : Scans I (scanInvoke l) :=
  .bind (getCodeShort_keeps _) fun _ => .bind (getConstant_keeps _) fun _ =>
    .bind Keeps.get fun _ => scans_pure counted

theorem scanOp_scans (op : Byte) {l : Scan} (counted : l.Counted) : Scans I (scanOp op l) := by
  unfold scanOp
  split
  all_goals first
    | exact scanVariable_scans _ counted
    | exact scanInvoke_scans counted
    | exact scans_pure counted

theorem scanFuel_scans {fuel : Nat} {l : Scan} (counted : l.Counted) :
    Scans I (scanFuel fuel l) := by
  induction fuel generalizing l with
  | zero => exact .stop _
  | succ fuel ih =>
      refine .bind Keeps.get fun s => .ite (fun _ => scans_pure counted) fun _ => ?_
      refine .bind (getCodeByte_keeps _) fun op => .ite (fun _ => scans_pure counted) fun _ => ?_
      apply Ensures.bind (scanOp_scans op counted)
      intro l'
      by_cases counted' : l'.Counted
      · exact (ih (l := { l' with i := l'.i + 1 }) counted').mono (fun _ h => h.1) fun _ _ h => h
      · exact fun _ _ h => absurd h.2 counted'

theorem getNumLocalVarsMain_scans :
    Ensures (fun _ => True) I (fun _ => True) getNumLocalVarsMain
      fun n t => I t ∧ 0 ≤ n ∧ n ≤ 32768 := by
  refine .bind Keeps.get fun s => .bind (scanFuel_scans (I := I) ⟨Int.le_refl _, by decide⟩)
    fun l => ?_
  exact .pure fun _ h => h

end Scanning

theorem initStack_inMain :
    Ensures (fun _ => True) (fun t => CodeFits t ∧ t.gCpu.pc = 0) (fun _ => True) initStack
      fun _ t => t.gCpu.InMain := by
  apply Ensures.bind getNumLocalVarsMain_scans
  intro n
  by_cases range : 0 ≤ n ∧ n ≤ 32768
  swap
  · exact fun _ _ h => absurd h.2 range
  obtain ⟨nonneg, few⟩ := range
  obtain ⟨size, found, room, small⟩ := initialStackSize_eq_some (n := n.toNat) (by omega)
  rw [if_neg (by omega), found]
  refine .bind (Q := fun _ t => CodeFits t ∧ t.gCpu.pc = 0 ∧ t.gCpu.stackSize = size) ?_ fun _ => ?_
  · exact .modify fun t h => ⟨h.1.1, h.1.2, rfl⟩
  refine .bind (Q := fun _ t => CodeFits t ∧ t.gCpu.pc = 0 ∧ t.gCpu.stackSize = size) ?_ fun _ => ?_
  · exact fun _ _ h _ => ⟨Outcome.returns_done.mpr h, by simp⟩
  refine .ite (fun _ => .stop _) fun _ => .bind Keeps.ask fun env => .modify ?_
  rintro t ⟨fits, pc, same⟩
  refine ⟨pc, rfl, rfl, rfl, nonneg, few, ?_, ?_, fits⟩
  · show n + 256 ≤ t.gCpu.stackSize
    omega
  · show t.gCpu.stackSize ≤ 131072
    omega

/-- A successful initialization ends in the main method. -/
theorem initIjvm_started (file : Option (List Byte)) :
    Ensures (fun _ => True) (fun _ => True) (fun _ => True) (initIjvm file)
      fun code t => code = 0 → t.Started := by
  refine .bind (loadBin_fits file) fun loaded => .ite (fun _ => ?_) fun accepted => ?_
  · exact .mono (.bind (ensures_nothing _) fun _ => .pure fun t _ h => absurd h (by decide))
      (fun _ _ => trivial) fun _ _ h => h
  · refine Ensures.mono (P := CodeFits) ?_ (fun _ fits => fits (by simpa using accepted))
      fun _ _ h => h
    refine .bind (Q := fun _ t => CodeFits t ∧ t.gCpu.pc = 0) (.modify fun t h => ⟨h, rfl⟩)
      fun _ => .bind initStack_inMain fun _ => ?_
    refine .bind (Q := fun _ t => t.gCpu.InMain ∧ t.gCpu.errorFlag = false ∧
      t.gCpu.haltFlag = false) (.modify fun t h => ⟨?_, rfl, rfl⟩)
      fun _ => .bind Keeps.ask fun env => ?_
    · exact ⟨h.pc, h.sp, h.lv, h.fp, h.nv_nonneg, h.nv_le, h.room, h.size_le, h.code_lt⟩
    · refine .bind (Q := fun _ t => (t.gCpu.InMain ∧ t.gCpu.errorFlag = false ∧
        t.gCpu.haltFlag = false) ∧ t.outFile = []) (.modify fun t h => ⟨h, rfl⟩) fun _ => ?_
      refine .bind (Q := fun _ t => t.Started)
        (.modify fun t h => ⟨h.1.1, h.1.2.1, h.1.2.2, rfl, h.2⟩) fun _ => .pure fun t h _ => h

theorem started_of_init {env : Env} {file : Option (List Byte)} {s t : State} {es : List Event}
    (init : (initIjvm file).run env s = .done 0 t es) : t.Started :=
  (initIjvm_started file env s trivial fun _ _ => trivial).1 0 t es init rfl

/-- The machine has something to execute exactly if there is code. -/
theorem State.Started.finished_iff {s : State} (h : s.Started) :
    finished s.gCpu = false ↔ 0 < s.gCpu.codeMemSize := by
  simp [finished, h.noError, h.noHalt, h.main.pc]

end Ijvm
