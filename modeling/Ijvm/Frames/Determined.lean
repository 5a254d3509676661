import Ijvm.Frames.Context
import Ijvm.Loader.Format

/-!
# What determines a run

A configuration of the machine with frames determines the registers and every cell of the stack
up to `sp`. So two interpreters that show the same configuration differ only above `sp`, in the
size of the stack, and in their arrays and connections. They start with the same configuration
if they have the same binary, the same standard input and as many variables of the main method,
and as long as no instruction asks for a word from outside, they go through the same
configurations, whatever the allocator, the fresh memory and the rest of the file are.
-/

namespace Ijvm.Frames

open Transcript Program Transitions

section Cells

variable {mem mem' : Int → Word} {fp lv low sp : Int} {f : Activation} {callers : List Suspension}

/-- The number of linkage words of a method with these callers. -/
def linkageSize : List Suspension → Nat
  | [] => 0
  | _ :: _ => 4

def cells : List Suspension → Nat
  | [] => 0
  | r :: rest => cells rest + r.frame.vars.length + linkageSize rest + r.frame.operands.length

theorem base_eq (fp : Int) (callers : List Suspension) :
    base fp callers = fp + linkageSize callers - 1 := by
  cases callers with
  | nil => simp [base, linkageSize]
  | cons r rest =>
      rw [base, linkageSize]
      omega

theorem Below.lv_eq (h : Below mem fp lv callers) : lv = cells callers := by
  induction callers generalizing fp lv with
  | nil => exact h
  | cons r rest ih =>
      obtain ⟨_, fp', lv', _, adjacent, holds, below⟩ := h
      have := ih below
      have := holds.top
      have := base_eq fp' rest
      rw [cells]
      omega

theorem Holds.same_vars (h : Holds mem lv low sp f) (h' : Holds mem' lv low sp f) {i : Int}
    (above : lv ≤ i) (inside : i < lv + f.vars.length) : mem i = mem' i := by
  obtain ⟨k, rfl⟩ : ∃ k : Nat, i = lv + k := ⟨(i - lv).toNat, by omega⟩
  have found := List.getElem?_eq_getElem (l := f.vars) (i := k) (by omega)
  rw [h.vars k _ found, h'.vars k _ found]

theorem Holds.same_operands (h : Holds mem lv low sp f) (h' : Holds mem' lv low sp f) {i : Int}
    (above : low < i) (le : i ≤ sp) : mem i = mem' i := by
  have top := h.top
  obtain ⟨k, rfl⟩ : ∃ k : Nat, i = sp - k := ⟨(sp - i).toNat, by omega⟩
  have found := List.getElem?_eq_getElem (l := f.operands) (i := k) (by omega)
  rw [h.operand found, h'.operand found]

/-- The linkage words describe the caller. -/
theorem Below.same_linkage (h : Below mem fp lv callers) (h' : Below mem' fp lv callers) {i : Int}
    (above : fp ≤ i) (inside : i < fp + linkageSize callers) : mem i = mem' i := by
  cases callers with
  | nil =>
      rw [linkageSize] at inside
      omega
  | cons r rest =>
      obtain ⟨_, fp₁, lv₁, link, adjacent, _, below⟩ := h
      obtain ⟨_, fp₁', lv₁', link', adjacent', _, below'⟩ := h'
      obtain rfl : lv₁ = lv₁' := below.lv_eq.trans below'.lv_eq.symm
      obtain rfl : fp₁ = fp₁' := adjacent.symm.trans adjacent'
      have cell : i = fp ∨ i = fp + 1 ∨ i = fp + 2 ∨ i = fp + 3 := by
        rw [linkageSize] at inside
        omega
      refine BitVec.eq_of_toInt_eq ?_
      obtain rfl | rfl | rfl | rfl := cell
      · rw [link.lv, link'.lv]
      · rw [link.nv, link'.nv]
      · rw [link.fp, link'.fp]
      · rw [link.pc, link'.pc]

/-- The callers determine every cell below `lv`. -/
theorem Below.same (h : Below mem fp lv callers) (h' : Below mem' fp lv callers) {i : Int}
    (nonneg : 0 ≤ i) (small : i < lv) : mem i = mem' i := by
  induction callers generalizing fp lv with
  | nil =>
      have : lv = 0 := h
      omega
  | cons r rest ih =>
      obtain ⟨_, fp₁, lv₁, _, adjacent, holds, below⟩ := h
      obtain ⟨_, fp₁', lv₁', _, adjacent', holds', below'⟩ := h'
      obtain rfl : lv₁ = lv₁' := below.lv_eq.trans below'.lv_eq.symm
      obtain rfl : fp₁ = fp₁' := adjacent.symm.trans adjacent'
      have size := base_eq fp₁ rest
      by_cases deep : i < lv₁
      · exact ih below below' deep
      by_cases inVars : i < fp₁
      · exact holds.same_vars holds' (by omega) (by omega)
      by_cases link : i < fp₁ + linkageSize rest
      · exact below.same_linkage below' (by omega) link
      · exact holds.same_operands holds' (by omega) (by omega)

/-- The registers and the cells that two stacks have in common. -/
structure SameStack (c c' : Cpu) : Prop where
  sp : c.sp = c'.sp
  fp : c.fp = c'.fp
  lv : c.lv = c'.lv
  nv : c.nv = c'.nv
  stack : ∀ i, 0 ≤ i → i ≤ c.sp → c.stack i = c'.stack i

/-- The frames determine the stack. -/
theorem Layout.same {c c' : Cpu} (h : Layout c f callers) (h' : Layout c' f callers) :
    SameStack c c' := by
  have lv : c.lv = c'.lv := h.below.lv_eq.trans h'.below.lv_eq.symm
  have nv : c.nv = c'.nv := h.nv.trans h'.nv.symm
  have fp : c.fp = c'.fp := by rw [← h.adjacent, ← h'.adjacent, lv, nv]
  have sp : c.sp = c'.sp := by rw [h.holds.top, h'.holds.top, fp]
  obtain ⟨_, adjacent', holds', below'⟩ := h'
  rw [← lv, ← fp, ← sp] at holds'
  rw [← lv, ← fp] at below'
  refine ⟨sp, fp, lv, nv, fun i nonneg le => ?_⟩
  have size := base_eq c.fp callers
  have adjacent := h.adjacent
  have vars := h.nv
  by_cases deep : i < c.lv
  · exact h.below.same below' nonneg deep
  by_cases inVars : i < c.fp
  · exact h.holds.same_vars holds' (by omega) (by omega)
  by_cases link : i < c.fp + linkageSize callers
  · exact h.below.same_linkage below' (by omega) link
  · exact h.holds.same_operands holds' (by omega) le

end Cells

section Starts

variable {env : Env} {b : Binary} {trailing : List Byte}

def Image.ofBinary (b : Binary) : Image where
  codeSize := b.textSize.toInt
  code i := if 0 ≤ i ∧ i < b.textSize.toInt then b.code.getD i.toNat 0 else 0
  constCount := b.constSize.toInt.tdiv 4
  consts := b.consts

theorem Image.of_loaded (b : Binary) (env : Env) (c : Cpu) :
    Image.of (b.loaded env c) = Image.ofBinary b := by
  have size : b.textSize.toInt ≤ b.textSize.toNat := by
    rw [BitVec.toInt_eq_toNat_cond]
    split
    · omega
    · omega
  rw [Image.of, Image.ofBinary, Binary.loaded]
  congr 1
  funext i
  dsimp only
  by_cases inside : 0 ≤ i ∧ i < b.textSize.toInt
  · rw [if_pos inside, if_pos inside, if_pos ⟨inside.1, by omega⟩]
  · rw [if_neg inside, if_neg inside]

/-- A block whose memory is refused is not loaded. -/
theorem loadConsts_refused {s : State} (refused : env.alloc s.clock = false) (f : List Byte) :
    ((loadConsts f).run env s).Returns fun rest _ => rest = none := by
  unfold loadConsts
  cases readWord f with
  | none => exact Outcome.returns_done.mpr rfl
  | some p =>
      dsimp only
      cases readWord p.2 with
      | none => exact Outcome.returns_done.mpr rfl
      | some q =>
          simp only [run_bind, run_modifyCpu, Outcome.andThen_done, Outcome.prepend_nil]
          split
          · exact Outcome.returns_done.mpr rfl
          · simp only [run_bind, run_allocate, refused, Outcome.andThen_done, Outcome.prepend_nil]
            exact Outcome.returns_done.mpr rfl

theorem loadCode_refused {s : State} (refused : env.alloc s.clock = false) (f : List Byte) :
    ((loadCode f).run env s).Returns fun rest _ => rest = none := by
  unfold loadCode
  cases readWord f with
  | none => exact Outcome.returns_done.mpr rfl
  | some p =>
      dsimp only
      cases readWord p.2 with
      | none => exact Outcome.returns_done.mpr rfl
      | some q =>
          simp only [run_bind, run_modifyCpu, run_allocate, refused, Outcome.andThen_done,
            Outcome.prepend_nil]
          exact Outcome.returns_done.mpr rfl

/-- A binary that is loaded is in memory, whatever follows it in the file. -/
theorem loadBin_image (s : State) :
    ((loadBin (some (b.bytes ++ trailing))).run env s).Returns fun ok t =>
      ok = true → Image.of t.gCpu = Image.ofBinary b := by
  obtain ⟨magic, first, signature⟩ := readWord_bigEndian magicNumber
    (b.constOrigin ++ (bigEndian b.constSize ++ (b.constBytes ++
      (b.textOrigin ++ (bigEndian b.textSize ++ (b.code ++ trailing))))))
  have whole : b.bytes ++ trailing = bigEndian magicNumber ++
      (b.constOrigin ++ (bigEndian b.constSize ++ (b.constBytes ++
        (b.textOrigin ++ (bigEndian b.textSize ++ (b.code ++ trailing)))))) := by
    simp only [Binary.bytes, magicNumber_bytes, List.append_assoc]
  have good : checkFileSignature magic = true := by
    rw [checkFileSignature, signature]
    rfl
  simp only [loadBin, whole, first, good]
  rw [if_neg (by simp), run_bind]
  cases granted : env.alloc s.clock with
  | false =>
      refine (loadConsts_refused granted _).andThen ?_
      rintro _ t rfl
      exact Outcome.returns_done.mpr fun absurd => (Bool.false_ne_true absurd).elim
  | true =>
      rw [loadConsts_run granted b.constOrigin_length b.constSize_whole b.constBytes_length,
        Outcome.andThen_done, Outcome.prepend_nil]
      dsimp only
      rw [run_bind]
      cases granted' : env.alloc (s.clock + 1) with
      | false =>
          refine (loadCode_refused granted' _).andThen ?_
          rintro _ t rfl
          exact Outcome.returns_done.mpr fun absurd => (Bool.false_ne_true absurd).elim
      | true =>
          rw [loadCode_run granted' b.textOrigin_length b.code_length, Outcome.andThen_done,
            Outcome.prepend_nil]
          exact Outcome.returns_done.mpr fun _ => Image.of_loaded b env s.gCpu

/-- The rest of the initialization does not change the image. -/
theorem initStack_image (im : Image) :
    Ensures (fun _ => True) (fun t : State => Image.of t.gCpu = im) (fun _ => True) initStack
      fun _ t => Image.of t.gCpu = im := by
  refine .bind (getNumLocalVarsMain_scans.mono (fun _ h => h) fun _ _ h => h.1) fun n =>
    .ite (fun _ => .stop _) fun _ => ?_
  have rest : Keeps (fun _ => True) (fun t : State => Image.of t.gCpu = im) (fun _ => True) (do
      if (← allocate) = false then
        destroyIjvmNow .initStackAlloc
      else
        let env ← Program.ask
        modifyCpu fun c => { c with
          sp := n - 1
          lv := 0
          nv := n
          fp := n
          stack := fun i => if 0 ≤ i ∧ i < n then 0 else env.stackMemory i } : VM Unit) := by
    refine .bind (fun _ _ same _ => ⟨Outcome.returns_done.mpr same, by simp⟩) fun _ => ?_
    exact .ite (fun _ => .stop _) fun _ => .bind .ask fun _ => .modify fun _ same => same
  cases initialStackSize n.toNat with
  | none => exact rest
  | some size => exact .bind (.modify fun _ same => same) fun _ => rest

/-- The image of a machine that is ready is the one in the binary. -/
theorem image_of_after {s : State} (started : after env (b.bytes ++ trailing) 0 = some s) :
    Image.of s.gCpu = Image.ofBinary b := by
  obtain ⟨es, init⟩ := init_of_after started
  suffices loads : ((initIjvm (some (b.bytes ++ trailing))).run env State.fresh).Returns
      fun code t => code = 0 → Image.of t.gCpu = Image.ofBinary b from loads 0 s es init rfl
  have anyway {α : Type} (o : Outcome State Event Stop α) : o.Returns fun _ _ => True :=
    fun _ _ _ _ => trivial
  rw [initIjvm, run_bind]
  refine (loadBin_image State.fresh).andThen fun ok t loaded => ?_
  cases ok with
  | false =>
      rw [if_pos (by simp), run_bind]
      exact (anyway _).andThen fun _ _ _ => Outcome.returns_done.mpr fun h => absurd h (by decide)
  | true =>
      rw [if_neg (by simp), run_bind, initRegisters, run_modifyCpu, Outcome.andThen_done,
        Outcome.prepend_nil, run_bind]
      have kept := initStack_image (Image.ofBinary b) env
        { t with gCpu := { t.gCpu with pc := 0 } } (loaded rfl) fun _ _ => trivial
      refine kept.1.andThen fun _ u same => ?_
      exact Outcome.returns_done.mpr fun _ => same

end Starts

section Runs

variable {env env' : Env} {im : Image} {s s' t t' : State} {c : Config} {n : Nat}

/-- The next instruction pushes a word from outside. -/
def State.Asks (s : State) : Prop := ∃ op, s.gCpu.op? = some op ∧ asks op = true

theorem asks_of (h : Represents im false s c) (asked : Asks im c) : State.Asks s := by
  obtain ⟨a, op, found, decoded, asks⟩ := asked
  rw [opAddr?_eq h] at found
  rw [opcode_eq h found] at decoded
  exact ⟨op, by rw [Cpu.op?, found, Option.bind_some, decoded], asks⟩

/-- The turns of two interpreters in the same configuration. -/
theorem turns_same (h : Represents im false s c) (h' : Represents im false s' c)
    (taken : turn env s = some t) (taken' : turn env' s' = some t') (unasked : ¬ State.Asks s) :
    (perform im (t'.gCpu.stack t'.gCpu.sp) c).Satisfies
      (fun _ c' _ => Represents im false t c' ∧ Represents im false t' c')
      fun f _ _ => f = .undisciplined := by
  have left := turn_follows h taken
  have right := turn_follows h' taken'
  have answered (asked : Asks im c) : t.gCpu.stack t.gCpu.sp = t'.gCpu.stack t'.gCpu.sp :=
    absurd (asks_of h asked) unasked
  have same := perform_under [] answered
  rw [show c.under [] = c by simp [Config.under]] at same
  cases ran : perform im (t'.gCpu.stack t'.gCpu.sp) c with
  | stopped f d es =>
      rw [ran] at right
      exact right
  | done b d es =>
      rw [ran] at right same
      cases ran' : perform im (t.gCpu.stack t.gCpu.sp) c with
      | stopped f e fs =>
          rw [ran'] at same
          exact same.elim
      | done b' e fs =>
          rw [ran'] at left same
          obtain ⟨-, rfl⟩ := same
          rw [show d.under [] = d by simp [Config.under]] at left
          exact ⟨left, right⟩

/-- The runs of two interpreters in the same configuration. -/
theorem advance_same (h : Represents im false s c) (h' : Represents im false s' c)
    (taken : advance (turn env) n s = some t) (taken' : advance (turn env') n s' = some t')
    (unasked : ∀ u ∈ visited (turn env) n s, ¬ State.Asks u) :
    (run im (answers env' n s') c).Satisfies
      (fun _ c' _ => Represents im false t c' ∧ Represents im false t' c')
      fun f _ _ => f = .undisciplined := by
  induction n generalizing s s' c with
  | zero =>
      injection taken with same
      injection taken' with same'
      subst same same'
      exact ⟨h, h'⟩
  | succ n ih =>
      obtain ⟨u, first, rest⟩ := advance_succ_eq_some.mp taken
      obtain ⟨u', first', rest'⟩ := advance_succ_eq_some.mp taken'
      rw [visited_succ_of first, List.forall_mem_cons] at unasked
      have running := (turn_eq_some first').1
      rw [answers, first', Option.elim_some, run, ended_eq h', running,
        if_neg Bool.false_ne_true]
      refine (turns_same h h' first first' unasked.1).andThen fun _ c' _ related => ?_
      exact ih related.1 related.2 rest rest' unasked.2

/-- What two runs of a program can be compared by. -/
structure SameRun (s s' : State) : Prop where
  pc : s.gCpu.pc = s'.gCpu.pc
  stack : SameStack s.gCpu s'.gCpu
  errorFlag : s.gCpu.errorFlag = s'.gCpu.errorFlag
  haltFlag : s.gCpu.haltFlag = s'.gCpu.haltFlag
  files : s.files = s'.files

theorem Represents.sameRun (h : Represents im false s c) (h' : Represents im false s' c) :
    SameRun s s' where
  pc := h.pc.trans h'.pc.symm
  stack := h.layout.same h'.layout
  errorFlag := h.flags.1.trans h'.flags.1.symm
  haltFlag := h.flags.2.trans h'.flags.2.symm
  files := h.files.trans h'.files.symm

/-- Two runs of the same binary on the same input, in surroundings that can have other
allocators, other fresh memory and other bytes behind the binary, are the same turn by turn, as
long as the program keeps to the discipline of frames and asks for no word from outside. -/
theorem after_same {b : Binary} {trailing trailing' : List Byte} {s₀ s₀' : State}
    (input : env.stdin = env'.stdin)
    (started : after env (b.bytes ++ trailing) 0 = some s₀)
    (started' : after env' (b.bytes ++ trailing') 0 = some s₀')
    (vars : s₀.gCpu.nv = s₀'.gCpu.nv)
    (reached : after env (b.bytes ++ trailing) n = some s)
    (reached' : after env' (b.bytes ++ trailing') n = some s')
    (unasked : ∀ u ∈ visited (turn env) n s₀, ¬ State.Asks u) :
    (run (Image.ofBinary b) (answers env' n s₀')
      (start s₀.gCpu.nv.toNat env.stdin)).Satisfies (fun _ _ _ => SameRun s s')
      fun f _ _ => f = .undisciplined := by
  have left := start_represents started
  have right := start_represents started'
  rw [image_of_after started] at left
  rw [image_of_after started', ← vars, ← input] at right
  replace reached := advance_of_after started reached
  replace reached' := advance_of_after started' reached'
  exact (advance_same left right reached reached' unasked).mono
    (fun _ _ _ both => both.1.sameRun both.2) fun _ _ _ wild => wild

/-- `successor` as a binary. -/
def successorBinary : Binary where
  constOrigin := [0, 1, 0, 0]
  constSize := 4
  constBytes := [0, 0, 0, 6]
  textOrigin := [0, 2, 0, 0]
  textSize := 16
  code := [Op.in.code, Op.invokevirtual.code, 0, 0, Op.out.code, Op.halt.code, 0, 1, 0, 0,
    Op.bipush.code, 1, Op.iload.code, 0, Op.iadd.code, Op.ireturn.code]
  constOrigin_length := rfl
  constSize_whole := ⟨1, rfl⟩
  constBytes_length := rfl
  textOrigin_length := rfl
  code_length := rfl

/-- Surroundings with the same input, whose fresh memory is full of words like references, and
which give memory three times only. -/
def Env.dirty : Env :=
  { Env.twoBytes with
    alloc := (· < 3), stackMemory := fun _ => 0xAA00000A, codeMemory := fun _ => 1 }

/-- The runs of `successor` are the same up to its end. -/
theorem after_same_successor : ∃ s s', after Env.twoBytes (successorBinary.bytes ++ []) 7 = some s ∧
    after Env.dirty (successorBinary.bytes ++ [1, 2, 3]) 7 = some s' ∧ SameRun s s' := by
  have check : (after Env.twoBytes (successorBinary.bytes ++ []) 0).any (fun s₀ =>
      (after Env.dirty (successorBinary.bytes ++ [1, 2, 3]) 0).any fun s₀' =>
        decide (s₀.gCpu.nv = s₀'.gCpu.nv ∧
          (after Env.twoBytes (successorBinary.bytes ++ []) 7).isSome = true ∧
          (after Env.dirty (successorBinary.bytes ++ [1, 2, 3]) 7).isSome = true ∧
          (run (Image.ofBinary successorBinary) (answers Env.dirty 7 s₀')
            (start s₀.gCpu.nv.toNat [65, 66])).isDone = true ∧
          (∀ u ∈ visited (turn Env.twoBytes) 7 s₀, u.gCpu.op?.any asks = false))) = true := by
    decide +kernel
  obtain ⟨s₀, started, facts⟩ := (Option.any_eq_true _ _).mp check
  obtain ⟨s₀', started', facts⟩ := (Option.any_eq_true _ _).mp facts
  rw [decide_eq_true_eq] at facts
  obtain ⟨vars, goesOn, goesOn', disciplined, unasked⟩ := facts
  obtain ⟨s, reached⟩ := Option.isSome_iff_exists.mp goesOn
  obtain ⟨s', reached'⟩ := Option.isSome_iff_exists.mp goesOn'
  refine ⟨s, s', reached, reached', ?_⟩
  have input : Env.twoBytes.stdin = Env.dirty.stdin := rfl
  have same := after_same input started started' vars reached reached' fun u member => by
    rintro ⟨op, next, asks⟩
    have unasked := unasked u member
    rw [next, Option.any_some, asks] at unasked
    contradiction
  rw [show Env.twoBytes.stdin = [65, 66] from rfl] at same
  cases ran : run (Image.ofBinary successorBinary) (answers Env.dirty 7 s₀')
      (start s₀.gCpu.nv.toNat [65, 66]) with
  | stopped f d es =>
      rw [ran] at disciplined
      contradiction
  | done _ d es =>
      rw [ran] at same
      exact same

end Runs

end Ijvm.Frames
