import Ijvm.Arrays.History
import Ijvm.Arrays.Retaining
import Ijvm.Machine.Turns
import Ijvm.Network.Link
import Ijvm.Sessions.Starting

/-!
# The arrays of a run are a heap

`heapHistory` reads off a run what its instructions do to the arrays: NEWARRAY creates one with
the reference that it pushes, IALOAD and IASTORE get and set the element that their operands
name, and the collector can run in every turn. The array memory of the interpreter is a run of
the abstract heap along this history, for every program, so that a load pushes the word that
the program has stored last.
-/

namespace Ijvm

open Transcript Program ArrayHeap Transitions

/-- The operands of an instruction, the top first. -/
def State.operand (s : State) (k : Nat) : Word := s.gCpu.stack (s.gCpu.sp - k)

/-- The word that an instruction has left on top. -/
def State.result (s : State) : Word := s.gCpu.stack s.gCpu.sp

/-- What the turn from `s` to `t` does to the arrays, the last action first. -/
def heapActions (s t : State) : List (Action Word Word) :=
  match s.gCpu.op? with
  | some .newarray => [.collect, .create t.result (s.operand 0).toInt.toNat]
  | some .iaload => [.collect, .get (s.operand 0) (s.operand 1).toInt.toNat t.result]
  | some .iastore => [.set (s.operand 0) (s.operand 1).toInt.toNat (s.operand 2)]
  | _ => [.collect]

/-- What the next `n` turns do to the arrays. -/
def heapHistory (env : Env) : Nat → State → List (Action Word Word)
  | 0, _ => []
  | n + 1, s => (turn env s).elim [] fun t => heapHistory env n t ++ heapActions s t

section Instructions

variable {env : Env} {s t : State} {past : List (Action Word Word)} {es : List Event}

/-- A sound table that is a run of the heap. -/
structure HeapRun (past : List (Action Word Word)) (s : State) : Prop where
  table : ArrayTable s.arrMem
  run : Run past s.arrMem.arrays

/-- The size of a claimed array is the one that it was created with. -/
theorem HeapRun.size (h : HeapRun past s) {r : Word} (tagged : isArrRef r = true)
    (claimed : refToIndex r ∈ s.arrMem.claimed) :
    (s.arrMem.value (refToIndex r)).count = createdSize r past := by
  have size := (h.run.recorded r _ (MArr.arrays_live tagged claimed)).1
  rw [List.length_tail, (h.table.block _ claimed).length] at size
  exact size

/-- A read finds what was written last. -/
theorem HeapRun.get (h : HeapRun past s) {r i v : Word}
    (run : (arrGet r i).run env s = .done v t es) :
    isArrRef r = true ∧ 0 ≤ i.toInt ∧ i.toInt < createdSize r past ∧
      v = lastWritten r i.toInt.toNat past := by
  have valid : ValidAccess s.arrMem r i := (arrGet_done_iff h.table).mp (by rw [run]; rfl)
  have inside := valid.inside h.table
  have nonneg := valid.nonneg
  rw [h.size valid.tagged valid.claimed] at inside
  refine ⟨valid.tagged, nonneg, by omega, ?_⟩
  obtain ⟨rfl, step⟩ := arrGet_step h.table run
  cases step with
  | get live element => exact (h.run.recorded r _ live).2 _ v element

/-- What is only retained may have been collected. -/
theorem HeapRun.retained (h : HeapRun past s) (left : Retained s.arrMem t.arrMem) :
    HeapRun (.collect :: past) t :=
  ⟨left.table, .step h.run (.collect left.collects)⟩

theorem HeapRun.performs {action : Action Word Word} (h : HeapRun past s)
    (performs : Performs env s action t) : HeapRun (action :: past) t := by
  obtain ⟨table, step⟩ := performs.step h.table
  exact ⟨table, .step h.run step⟩

theorem HeapRun.congr {s' : State} (h : HeapRun past s) (same : s'.arrMem = s.arrMem) :
    HeapRun past s' := by
  obtain ⟨table, run⟩ := h
  rw [← same] at table run
  exact ⟨table, run⟩

/-- An instruction that ends with a push of what it has got. -/
theorem pushed_of_done {m : VM Word} (run : (m >>= fun w => do let _ ← stackPush w).run env s =
    .done () t es) :
    ∃ u fs, m.run env s = .done t.result u fs ∧
      (ArrayTable u.arrMem → Retained u.arrMem t.arrMem) := by
  obtain ⟨w, u, fs, _, first, rest, -⟩ := run_bind_done.mp run
  obtain ⟨b, v, gs, _, push, last, -⟩ := run_bind_done.mp rest
  injection last with _ same
  subst same
  have top := (stackPush_top w env u trivial fun _ _ => trivial).1 b v gs push
  refine ⟨u, fs, ?_, fun table => stackPush_retaining w env u table b v gs push⟩
  rw [first, State.result, top]

theorem operand_pred (k : Nat) :
    ({ s with gCpu := { s.gCpu with sp := s.gCpu.sp - 1 } } : State).operand k =
      s.operand (k + 1) := by
  have cell : s.gCpu.sp - 1 - k = s.gCpu.sp - (k + 1 : Nat) := by omega
  exact congrArg s.gCpu.stack cell

/-- A pop takes the first operand. -/
theorem popped_operand {α : Type} {f : Word → VM α} {a : α}
    (run : (stackPop .pop >>= f).run env s = .done a t es) :
    ∃ u gs, (f (s.operand 0)).run env u = .done a t gs ∧ u.arrMem = s.arrMem ∧
      ∀ k, u.operand k = s.operand (k + 1) := by
  obtain ⟨w, u, fs, gs, pop, rest, -⟩ := run_bind_done.mp run
  obtain ⟨rfl, rfl, -⟩ := popped_of_done pop
  refine ⟨{ s with gCpu := { s.gCpu with sp := s.gCpu.sp - 1 } }, gs, ?_, rfl, operand_pred⟩
  rw [State.operand, Int.natCast_zero, Int.sub_zero]
  exact rest

theorem newarray_actions (h : HeapRun past s)
    (run : execOpNewarray.run env s = .done () t es) :
    HeapRun ([.collect, .create t.result (s.operand 0).toInt.toNat] ++ past) t := by
  obtain ⟨u, _, run, same, -⟩ := popped_operand run
  obtain ⟨v, fs, create, left⟩ := pushed_of_done run
  have created := (h.congr same).performs (.create create)
  exact created.retained (left created.table)

/-- A load gets the element that its operands name. -/
theorem iaload_gets (run : execOpIaload.run env s = .done () t es) :
    ∃ u v fs, u.arrMem = s.arrMem ∧
      (arrGet (s.operand 0) (s.operand 1)).run env u = .done t.result v fs ∧
        (ArrayTable v.arrMem → Retained v.arrMem t.arrMem) := by
  obtain ⟨u, _, run, same, shifted⟩ := popped_operand run
  obtain ⟨u', _, run, same', -⟩ := popped_operand run
  rw [shifted] at run
  obtain ⟨v, fs, get, left⟩ := pushed_of_done run
  exact ⟨u', v, fs, same'.trans same, get, left⟩

theorem iaload_actions (h : HeapRun past s) (run : execOpIaload.run env s = .done () t es) :
    HeapRun ([.collect, .get (s.operand 0) (s.operand 1).toInt.toNat t.result] ++ past) t := by
  obtain ⟨u, v, fs, same, get, left⟩ := iaload_gets run
  have read := (h.congr same).performs (.get get)
  exact read.retained (left read.table)

theorem iastore_actions (h : HeapRun past s) (run : execOpIastore.run env s = .done () t es) :
    HeapRun ([.set (s.operand 0) (s.operand 1).toInt.toNat (s.operand 2)] ++ past) t := by
  obtain ⟨u, _, run, same, shifted⟩ := popped_operand run
  obtain ⟨u', _, run, same', shifted'⟩ := popped_operand run
  obtain ⟨v, _, run, same'', -⟩ := popped_operand run
  rw [shifted', shifted, shifted] at run
  exact (((h.congr same).congr same').congr same'').performs (.set run)

end Instructions

section Runs

variable {env : Env} {n : Nat} {s t : State} {past : List (Action Word Word)}

/-- Each turn is what its instruction does to the heap. -/
theorem turn_heap (h : HeapRun past s) (taken : turn env s = some t) :
    HeapRun (heapActions s t ++ past) t := by
  obtain ⟨a, found, running, ⟨op, u, es, executes, exec, rfl⟩ | ⟨unknown, rfl⟩⟩ :=
    turn_cases taken
  · have start : HeapRun past (s.atOp a) := h.congr rfl
    have settled {past' : List (Action Word Word)} (h : HeapRun past' u) :
        HeapRun past' (s.settled a u) := by
      rw [State.settled_eq]
      exact h.congr rfl
    have result : (s.settled a u).result = u.result := by
      rw [State.settled_eq]
      rfl
    rw [heapActions, executes.op?]
    by_cases changes : op ≠ .newarray ∧ op ≠ .iastore
    · by_cases loads : op = .iaload
      · subst loads
        rw [result]
        exact settled (iaload_actions (s := s.atOp a) start exec)
      · have left := execOp_retaining (pure true) executes.unprefixed changes env _ start.table
          _ _ _ exec
        split
        · rename_i same
          exact absurd (Option.some.inj same) changes.1
        · rename_i same
          exact absurd (Option.some.inj same) loads
        · rename_i same
          exact absurd (Option.some.inj same) changes.2
        · exact settled (start.retained left)
    · by_cases creates : op = .newarray
      · subst creates
        rw [result]
        exact settled (newarray_actions (s := s.atOp a) start exec)
      · obtain rfl : op = .iastore := by
          by_contra stores
          exact changes ⟨creates, stores⟩
        exact settled (iastore_actions (s := s.atOp a) start exec)
  · have none : s.gCpu.op? = none := by rw [Cpu.op?, found, Option.bind_some, unknown]
    rw [heapActions, none]
    have same : (s.settled a { s.atOp a with
        gCpu := { (s.atOp a).gCpu with errorFlag := true } }).arrMem = s.arrMem := by
      rw [State.settled_eq]
      rfl
    refine h.retained ?_
    rw [same]
    exact .refl h.table

/-- A run of the interpreter is a run of the heap. -/
theorem advance_heap (h : HeapRun past s) (taken : advance (turn env) n s = some t) :
    HeapRun (heapHistory env n s ++ past) t := by
  induction n generalizing s past with
  | zero =>
      injection taken with same
      exact same ▸ h
  | succ n ih =>
      obtain ⟨u, first, rest⟩ := advance_succ_eq_some.mp taken
      rw [heapHistory, first, Option.elim_some, List.append_assoc]
      exact ih (turn_heap h first) rest

end Runs

section Starts

/-- A process starts with no arrays. -/
theorem heapRun_of_after {env : Env} {file : List Byte} {s : State}
    (started : after env file 0 = some s) : HeapRun [] s := by
  have history : History env [] s := .start (released_of_after started).1
  obtain ⟨table, run⟩ := history.simulates
  exact ⟨table, run⟩

variable {env : Env} {file : List Byte} {n : Nat} {s₀ s t : State}

/-- The arrays of every run are those of the heap along its history. -/
theorem after_heap (started : after env file 0 = some s₀) (reached : after env file n = some s) :
    HeapRun (heapHistory env n s₀) s := by
  have whole := advance_heap (heapRun_of_after started) (advance_of_after started reached)
  rwa [List.append_nil] at whole

/-- Store 7 in an array, collect, and load it: BIPUSH 2; NEWARRAY; ISTORE 0; BIPUSH 7; BIPUSH 1;
ILOAD 0; IASTORE; BIPUSH 1; GC; ILOAD 0; IALOAD; HALT. -/
def storeThenLoad : List Byte := assemble []
  [Op.bipush.code, 2, Op.newarray.code, Op.istore.code, 0, Op.bipush.code, 7, Op.bipush.code, 1,
    Op.iload.code, 0, Op.iastore.code, Op.bipush.code, 1, Op.gc.code, Op.iload.code, 0,
    Op.iaload.code, Op.halt.code]

end Starts

end Ijvm
