import Ijvm.Network.Descriptors
import Ijvm.Stack.Plain

/-!
# The operations on connections in a run of the machine

`Traced` says of a program that all it does to the connections is a sequence of the five
operations. It has the rules of `MachineRules`, so it holds of every step of every program,
and the account of descriptors is one of the machine: `run_noneOutlives_iff`.
-/

namespace Ijvm

open Transcript Program

/-- What the program does to the connections is a sequence of operations, and its system
calls are theirs. -/
def Traced (α : Type) (m : VM α) : Prop :=
  ∀ env s₀ s past, NetRun env s₀ s past → (m.run env s).Satisfies
    (fun _ t es => ∃ later, NetRun env s₀ t later ∧ history later = history past ++ calls es)
    fun _ t es => ∃ later, NetEnds env s₀ t later ∧ history later = history past ++ calls es

namespace Traced

variable {α β : Type}

protected theorem bind {m : VM α} {f : α → VM β} (first : Traced α m)
    (next : ∀ a, Traced β (f a)) : Traced β (m >>= f) := by
  intro env s₀ s past run
  rw [run_bind]
  refine (first env s₀ s past run).andThen ?_
  rintro a t es ⟨middle, run', same⟩
  refine (next a env s₀ t middle run').mono ?_ ?_
  · rintro b u fs ⟨later, run'', same'⟩
    exact ⟨later, run'', by rw [same', same, calls_append, List.append_assoc]⟩
  · rintro e u fs ⟨later, ends, same'⟩
    exact ⟨later, ends, by rw [same', same, calls_append, List.append_assoc]⟩

theorem of_offline {m : VM α} (h : Offline m) : Traced α m := by
  intro env s₀ s past run
  refine (h s.netConn env s rfl).mono ?_ ?_
  · rintro a t es ⟨same, silent⟩
    exact ⟨past, run.other same, by rw [calls_eq_nil silent, List.append_nil]⟩
  · rintro e t es ⟨same, silent⟩
    exact ⟨past, .idle (run.other same), by rw [calls_eq_nil silent, List.append_nil]⟩

/-- An operation, with or without its result. -/
theorem of_exec (op : NetOp) {m : VM α} (exec : op.exec = m >>= fun _ => pure ()) :
    Traced α m := by
  intro env s₀ s past run
  cases result : m.run env s with
  | done a t es =>
      have returns : op.exec.run env s = .done () t es := by simp [exec, result]
      exact ⟨_, run.call returns, history_concat ..⟩
  | stopped e t es =>
      have stops : op.exec.run env s = .stopped e t es := by simp [exec, result]
      exact ⟨_, .stopped run stops, history_concat ..⟩

theorem of_networking {m : VM α} (h : Networking m) : Traced α m := by
  cases h with
  | offline h => exact of_offline h
  | bind port => exact of_exec (.bind port) rfl
  | connect host port => exact of_exec (.connect host port) rfl
  | recv netRef => exact of_exec (.recv netRef) rfl
  | send netRef data => exact of_exec (.send netRef data) (bind_pure _).symm
  | close netRef => exact of_exec (.close netRef) (bind_pure _).symm

end Traced

section Machine

theorem modifyCpu_offline (f : Cpu → Cpu) : Offline (modifyCpu f) := .modify fun _ => rfl

theorem growStack_offline : Offline growStack := by
  have octuple (fuel : Nat) : Offline (octupleStackSizeFuel fuel) := by
    induction fuel with
    | zero => exact .stop _
    | succ fuel ih =>
        exact .bind .get fun _ => .ite (.stop _) (.bind allocate_offline fun _ => .ite
          (.bind (modifyCpu_offline _) fun _ => .pure _)
          (.bind arrGc_offline fun _ => .ite ih (.stop _)))
  have grow (fuel : Nat) : Offline (growStackFuel fuel) := by
    induction fuel with
    | zero => exact .stop _
    | succ fuel ih =>
        exact .bind .get fun _ => .ite (.bind (.bind .get fun _ => octuple _) fun _ =>
          .ite (.pure _) ih) (.pure _)
  exact .bind .get fun _ => grow _

theorem stackPush_offline (e : Word) : Offline (stackPush e) := by
  have write : Offline (writeTop e) :=
    .bind .get fun _ => .bind (.emit (by simp [Event.offline])) fun _ => modifyCpu_offline _
  exact .bind (modifyCpu_offline _) fun _ => .bind .get fun _ => .ite
    (.bind write fun _ => .pure _)
    (.bind growStack_offline fun _ => .ite (.pure _) (.bind write fun _ => .pure _))

theorem stackPop_offline (access : StackAccess) : Offline (stackPop access) :=
  .bind .get fun _ => .ite (.stop _) (.bind (.emit (by simp [Event.offline])) fun _ =>
    .bind (modifyCpu_offline _) fun _ => .pure _)

theorem traced_rules : MachineRules Traced where
  bind := Traced.bind
  aside _ networking := .of_networking networking
  computing computing := .of_offline (.emit fun e member => by
    cases e with
    | sys call n => exact (computing _ member).elim
    | _ => trivial)
  steers _ := .of_offline (modifyCpu_offline _)
  pop := .of_offline (stackPop_offline _)
  push e := .of_offline (stackPush_offline e)
  load i := .of_offline (.bind .get fun _ => .ite (.stop _)
    (.bind (.emit (by simp [Event.offline])) fun _ => .pure _))
  store v i := .of_offline (.bind .get fun _ => .ite (.stop _)
    (.bind (.emit (by simp [Event.offline])) fun _ => modifyCpu_offline _))
  dup := .of_offline (.bind .get fun _ => .bind (.emit (by simp [Event.offline])) fun _ =>
    .bind (stackPush_offline _) fun _ => .pure _)
  registers _ := .of_offline (modifyCpu_offline _)
  linkage := .of_offline (stackPop_offline _)
  clear start n := .of_offline (.bind .get fun _ => .bind (.emit fun e member => by
    obtain ⟨k, _, rfl⟩ := List.mem_map.mp member
    trivial) fun _ => modifyCpu_offline _)
  prefixed _ := .of_offline (.modify fun _ => rfl)

/-- The loop of `run` is a sequence of operations on the connections. -/
theorem runFuel_traced (fuel : Nat) : Traced Unit (runFuel fuel) := by
  induction fuel with
  | zero => exact .of_offline (.stop _)
  | succ fuel ih =>
      exact .bind traced_rules.get fun _ => PlainRules.ite (traced_rules.pure _)
        (.bind traced_rules.step fun _ => ih)

/-- However a program ends, its operations on connections are a history that loses no
descriptor exactly if each of them is releasable. -/
theorem run_noneOutlives_iff {env : Env} {s : State} (fuel : Nat)
    (empty : s.netConn = { size := 0, map := [], values := [] })
    (fresh : FreshFrom ∅ (calls ((runFuel fuel).run env s).events)) :
    ∃ past, NetEnds env s ((runFuel fuel).run env s).state past ∧
      history past = calls ((runFuel fuel).run env s).events ∧
      (NoneOutlives env ((runFuel fuel).run env s).state past ↔
        ∀ call ∈ past, Releasable (calls call.events)) := by
  have traced := runFuel_traced fuel env s s [] .start
  obtain ⟨past, ends, same⟩ : ∃ past, NetEnds env s ((runFuel fuel).run env s).state past ∧
      history past = calls ((runFuel fuel).run env s).events := by
    cases ending : (runFuel fuel).run env s with
    | done u t es =>
        rw [ending] at traced
        obtain ⟨past, run, same⟩ := traced
        exact ⟨past, .idle run, same⟩
    | stopped e t es =>
        rw [ending] at traced
        exact traced
  obtain ⟨conns, lost, ledger⟩ := ends.ledger empty (same ▸ fresh)
  exact ⟨past, ends, same, ledger.noneOutlives_iff env⟩

end Machine

end Ijvm
