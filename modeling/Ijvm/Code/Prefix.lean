import Ijvm.Machine.Launch
import Ijvm.Machine.Twins
import Ijvm.Stack.Access

/-!
# How far a WIDE prefix reaches

A prefix sets the flag, runs the next instruction as a nested step and resets the flag. The
nested step can be another prefix, which sets the flag again and resets it first. So any
number of prefixes does what one does, an instruction that does not read the flag does what
it does without a prefix, and no step that returns leaves the flag set.
-/

namespace Ijvm

open Transcript Program

/-- `n` prefixes are at PC, with a byte of the code behind them. -/
structure Cpu.Prefixed (c : Cpu) (n : Nat) : Prop where
  low : 0 ≤ c.pc
  high : c.pc + n < c.codeMemSize
  wide : ∀ k < n, c.codeMem (c.pc + (k : Nat)) = Op.wide.code

/-- Fetches of code, and behind them the events of another run up to the flag that the
collector has seen. -/
def FetchesThen (es fs : List Event) : Prop :=
  ∃ fetches rest, fs = fetches ++ rest ∧ (∀ e ∈ fetches, ∃ i n, e = .code i n) ∧
    List.Forall₂ (Event.Twins (State.Twins False false true) fun _ => True) es rest

/-- The end of the run `o'` is that of the run `o`: the same state, and the same events
behind some fetches of code. What a stop leaves in the flag is never read again. -/
def SameEffect (o o' : Outcome State Event Stop Bool) : Prop :=
  match o, o' with
  | .done _ t es, .done _ u fs => u = t ∧ FetchesThen es fs
  | .stopped e t es, .stopped e' u fs =>
      e' = e ∧ (∃ flag, u = { t with nextOpWide := flag }) ∧ FetchesThen es fs
  | _, _ => False

theorem FetchesThen.refl (es : List Event) (i n : Int) : FetchesThen es (.code i n :: es) :=
  ⟨[.code i n], es, rfl, fun _ member => ⟨i, n, List.mem_singleton.mp member⟩,
    List.forall₂_same.mpr fun _ _ => .same trivial⟩

theorem FetchesThen.prepend {es fs gs : List Event} (h : FetchesThen es fs)
    (codes : ∀ e ∈ gs, ∃ i n, e = .code i n) : FetchesThen es (gs ++ fs) := by
  obtain ⟨fetches, rest, rfl, codes', related⟩ := h
  exact ⟨gs ++ fetches, rest, by rw [List.append_assoc], List.forall_mem_append.mpr ⟨codes, codes'⟩,
    related⟩

theorem SameEffect.prepend {o o' : Outcome State Event Stop Bool} {gs : List Event}
    (h : SameEffect o o') (codes : ∀ e ∈ gs, ∃ i n, e = .code i n) :
    SameEffect o (o'.prepend gs) := by
  cases o with
  | done b t es =>
      cases o' with
      | done b' u fs => exact ⟨h.1, h.2.prepend codes⟩
      | stopped e u fs => exact h.elim
  | stopped e t es =>
      cases o' with
      | done b' u fs => exact h.elim
      | stopped e' u fs => exact ⟨h.1, h.2.1, h.2.2.prepend codes⟩

/-- One more fetch. -/
theorem SameEffect.of_prepend (o : Outcome State Event Stop Bool) (i n : Int) :
    SameEffect o (o.prepend [.code i n]) := by
  cases o with
  | done b t es => exact ⟨rfl, .refl es i n⟩
  | stopped e t es => exact ⟨rfl, ⟨t.nextOpWide, rfl⟩, .refl es i n⟩

section Steps

variable {s : State}

/-- What follows the nested step of a prefix. -/
def resetFlag (_ : Bool) (t : State) : Outcome State Event Stop Bool :=
  .done true { t with nextOpWide := false } []

/-- The state in which a prefix runs the next instruction. -/
def State.behindPrefix (s : State) : State :=
  { s with gCpu := { s.gCpu with pc := s.gCpu.pc + 1 }, nextOpWide := true }

/-- One prefix, and the step behind it. -/
theorem step_prefixed (env : Env) (low : 0 ≤ s.gCpu.pc) (high : s.gCpu.pc < s.gCpu.codeMemSize)
    (wide : s.gCpu.codeMem s.gCpu.pc = Op.wide.code) :
    step.run env s = ((step.run env s.behindPrefix).andThen resetFlag).prepend
      [.code s.gCpu.pc s.gCpu.codeMemSize] := by
  have fuel : (s.gCpu.codeMemSize - s.gCpu.pc).toNat =
      (s.gCpu.codeMemSize - (s.gCpu.pc + 1)).toNat + 1 := by omega
  have nested : step.run env s.behindPrefix =
      (stepFuel ((s.gCpu.codeMemSize - (s.gCpu.pc + 1)).toNat + 1)).run env s.behindPrefix :=
    step_eq env s.behindPrefix
  rw [step_eq, stepFuel_wide (by omega) wide, fuel, nested]
  rfl

/-- A byte that is no prefix. -/
theorem step_plain (env : Env) (low : 0 ≤ s.gCpu.pc) (high : s.gCpu.pc < s.gCpu.codeMemSize)
    (plain : s.gCpu.codeMem s.gCpu.pc ≠ Op.wide.code) :
    step.run env s = ((dispatch (pure true) (s.gCpu.codeMem s.gCpu.pc)).run env
      (s.withPc (s.gCpu.pc + 1))).prepend [.code s.gCpu.pc s.gCpu.codeMemSize] := by
  rw [step_eq, stepFuel_fetch (by omega), dispatch_of_ne_wide plain]
  rfl

theorem andThen_resetFlag (o : Outcome State Event Stop Bool) :
    (o.andThen resetFlag).andThen resetFlag = o.andThen resetFlag := by
  cases o with
  | stopped e t es => rfl
  | done b t es => simp [resetFlag]

/-- The first of two prefixes adds a fetch. -/
theorem step_twice_prefixed (env : Env) (two : s.gCpu.Prefixed 2) :
    step.run env s = (step.run env (s.withPc (s.gCpu.pc + 1))).prepend
      [.code s.gCpu.pc s.gCpu.codeMemSize] := by
  obtain ⟨low, high, wide⟩ := two
  have first : s.gCpu.codeMem s.gCpu.pc = Op.wide.code := by simpa using wide 0 (by omega)
  have second : s.gCpu.codeMem (s.gCpu.pc + 1) = Op.wide.code := wide 1 (by omega)
  rw [step_prefixed env low (by omega) first]
  have inner := step_prefixed (s := s.behindPrefix) env (by simp [State.behindPrefix]; omega)
    (by simp [State.behindPrefix]; omega) second
  have alone := step_prefixed (s := s.withPc (s.gCpu.pc + 1)) env (by simp [State.withPc]; omega)
    (by simp [State.withPc]; omega) second
  have same : (s.withPc (s.gCpu.pc + 1)).behindPrefix = s.behindPrefix.behindPrefix := rfl
  have idle : (step.run env s.behindPrefix).andThen resetFlag = step.run env s.behindPrefix := by
    rw [inner, Outcome.prepend_andThen, andThen_resetFlag]
  rw [idle, inner, alone, same]
  rfl

/-- All prefixes but the last one add fetches. -/
theorem step_past_prefixes (env : Env) {n : Nat} (prefixes : s.gCpu.Prefixed (n + 1)) :
    step.run env s = (step.run env (s.withPc (s.gCpu.pc + n))).prepend
      ((List.range n).map fun k : Nat => .code (s.gCpu.pc + k) s.gCpu.codeMemSize) := by
  induction n generalizing s with
  | zero => simp [State.withPc]
  | succ n ih =>
      obtain ⟨low, high, wide⟩ := prefixes
      have two : s.gCpu.Prefixed 2 := ⟨low, by omega, fun k below => wide k (by omega)⟩
      have rest : (s.withPc (s.gCpu.pc + 1)).gCpu.Prefixed (n + 1) := by
        refine ⟨by simp [State.withPc]; omega, by simp [State.withPc]; omega, fun k below => ?_⟩
        have byte := wide (k + 1) (by omega)
        simpa [State.withPc, Int.add_assoc, Int.add_comm 1] using byte
      have next (k : Nat) : s.gCpu.pc + 1 + k = s.gCpu.pc + (k + 1 : Nat) := by omega
      have later := ih rest
      simp only [State.withPc, next] at later
      rw [step_twice_prefixed env two, List.range_succ_eq_map, State.withPc, later,
        Outcome.prepend_prepend]
      simp only [List.map_cons, List.map_map, Int.natCast_zero, Int.add_zero]
      rfl

/-- A byte that does not stand for one of the instructions which read the flag. -/
theorem dispatch_unseen {op : Byte} {w w' : Bool} (plain : op ≠ Op.wide.code)
    (same : ∀ o, Op.ofByte? op = some o → o.readsFlag = true → w = w') :
    Unseen False w w' (fun _ => True) (dispatch (pure true) op) := by
  cases decoded : Op.ofByte? op with
  | none =>
      rw [dispatch_none decoded]
      exact .bind (.modify (fun _ _ _ => rfl) fun _ => ⟨rfl, rfl⟩) fun _ => .pure _
  | some o =>
      rw [dispatch_some decoded]
      have unprefixed : o ≠ .wide := by
        rintro rfl
        exact plain (Op.ofByte?_eq_some.mp decoded)
      exact .bind (execOp_unseen_all _ unprefixed (same o decoded)) fun _ => .pure _

/-- Behind a prefix such a byte has the effect that it has alone. -/
theorem sameEffect_of_agree {o o' : Outcome State Event Stop Bool} {i n j m : Int}
    (agree : Outcome.Agree (fun _ => State.Twins False false true) (State.Twins False false true)
      (Event.Twins (State.Twins False false true) fun _ => True) o o') :
    SameEffect (o.prepend [.code i n])
      (((o'.prepend [.code i n]).andThen resetFlag).prepend [.code j m]) := by
  have events {es fs : List Event} (related : List.Forall₂
      (Event.Twins (State.Twins False false true) fun _ => True) es fs) :
      FetchesThen (.code i n :: es) (.code j m :: .code i n :: fs) :=
    ⟨[.code j m], _, rfl, fun _ member => ⟨j, m, List.mem_singleton.mp member⟩,
      .cons (.same trivial) related⟩
  cases o with
  | done b t es =>
      cases o' with
      | stopped e u fs => exact agree.elim
      | done b' u fs =>
          obtain ⟨_, ⟨marks, visible, flag, rfl⟩, related⟩ := agree
          obtain rfl := visible.resolve_left id
          refine ⟨?_, by simpa using events related⟩
          rw [← flag]
  | stopped e t es =>
      cases o' with
      | done b' u fs => exact agree.elim
      | stopped e' u fs =>
          obtain ⟨rfl, ⟨marks, visible, flag, rfl⟩, related⟩ := agree
          obtain rfl := visible.resolve_left id
          exact ⟨rfl, ⟨true, rfl⟩, by simpa using events related⟩

theorem step_sameEffect (env : Env) (unprefixed : s.nextOpWide = false)
    (one : s.gCpu.Prefixed 1)
    (other : ∀ op, Op.ofByte? (s.gCpu.codeMem (s.gCpu.pc + 1)) = some op → op.readsFlag = false) :
    SameEffect (step.run env (s.withPc (s.gCpu.pc + 1))) (step.run env s) := by
  obtain ⟨low, high, wide⟩ := one
  have first : s.gCpu.codeMem s.gCpu.pc = Op.wide.code := by simpa using wide 0 (by omega)
  have low' : 0 ≤ (s.withPc (s.gCpu.pc + 1)).gCpu.pc := by simp [State.withPc]; omega
  have high' :
      (s.withPc (s.gCpu.pc + 1)).gCpu.pc < (s.withPc (s.gCpu.pc + 1)).gCpu.codeMemSize := by
    simp [State.withPc]; omega
  rw [step_prefixed env low (by omega) first]
  by_cases nested : s.gCpu.codeMem (s.gCpu.pc + 1) = Op.wide.code
  · have bare := step_prefixed env low' high' nested
    have behind := step_prefixed (s := s.behindPrefix) env low' high' nested
    have same : (s.withPc (s.gCpu.pc + 1)).behindPrefix = s.behindPrefix.behindPrefix := rfl
    rw [bare, behind, same, Outcome.prepend_andThen, andThen_resetFlag]
    exact .of_prepend _ _ _
  · have bare := step_plain env low' high' nested
    have behind := step_plain (s := s.behindPrefix) env low' high' nested
    rw [bare, behind]
    refine sameEffect_of_agree (dispatch_unseen nested ?_ env _ _
      ⟨s.markedArrays, Or.inr rfl, unprefixed, rfl⟩)
    intro op decoded reads
    rw [other op decoded] at reads
    contradiction

/-- No step that returns leaves the flag set. -/
theorem step_unset (env : Env) (unprefixed : s.nextOpWide = false) :
    (step.run env s).Returns fun _ t => t.nextOpWide = false := by
  by_cases inside : 0 ≤ s.gCpu.pc ∧ s.gCpu.pc < s.gCpu.codeMemSize
  · by_cases wide : s.gCpu.codeMem s.gCpu.pc = Op.wide.code
    · rw [step_prefixed env inside.1 inside.2 wide, Outcome.returns_prepend]
      cases step.run env s.behindPrefix with
      | stopped e t es => exact Outcome.returns_stopped
      | done b t es =>
          rw [Outcome.andThen_done, Outcome.returns_prepend]
          exact Outcome.returns_done.mpr rfl
    · rw [step_plain env inside.1 inside.2 wide, Outcome.returns_prepend]
      intro b t es run
      have agree := dispatch_unseen (w := false) wide (fun _ _ _ => rfl) env
        (s.withPc (s.gCpu.pc + 1)) _ ⟨s.markedArrays, Or.inr rfl, unprefixed, rfl⟩
      rw [run] at agree
      obtain ⟨_, _, _, ⟨_, _, flag, _⟩, _⟩ := agree.done_left
      exact flag
  · have missing : s.gCpu.opAddr? = none := by
      rw [Cpu.opAddr?, opAddrFrom, if_pos (by omega)]
    obtain ⟨t, es, stops, _⟩ := step_stops env missing
    rw [stops]
    exact Outcome.returns_stopped

end Steps

/-- The scope of WIDE: any number of prefixes is as good as one, all but the last one only
adding their own fetches; they have no effect on an instruction that does not read the flag;
and the flag is never left set. -/
structure WideIsScoped (env : Env) (s : State) : Prop where
  one_is_enough : ∀ n, 1 ≤ n → s.gCpu.Prefixed n →
    step.run env s = (step.run env (s.withPc (s.gCpu.pc + n - 1))).prepend
      ((List.range (n - 1)).map fun k : Nat => .code (s.gCpu.pc + k) s.gCpu.codeMemSize)
  others_ignore : ∀ n, 1 ≤ n → s.gCpu.Prefixed n →
    (∀ op, Op.ofByte? (s.gCpu.codeMem (s.gCpu.pc + n)) = some op → op.readsFlag = false) →
    SameEffect (step.run env (s.withPc (s.gCpu.pc + n))) (step.run env s)
  unset : (step.run env s).Returns fun _ t => t.nextOpWide = false

theorem wide_isScoped (env : Env) {s : State} (unprefixed : s.nextOpWide = false) :
    WideIsScoped env s := by
  refine ⟨fun n positive prefixes => ?_, fun n positive prefixes other => ?_,
    step_unset env unprefixed⟩
  · obtain ⟨k, rfl⟩ : ∃ k, n = k + 1 := ⟨n - 1, by omega⟩
    have last : s.gCpu.pc + ((k + 1 : Nat) : Int) - 1 = s.gCpu.pc + k := by omega
    rw [last, Nat.add_sub_cancel]
    exact step_past_prefixes env prefixes
  · obtain ⟨k, rfl⟩ : ∃ k, n = k + 1 := ⟨n - 1, by omega⟩
    have next : s.gCpu.pc + k + 1 = s.gCpu.pc + (k + 1 : Nat) := by omega
    have one : (s.withPc (s.gCpu.pc + k)).gCpu.Prefixed 1 := by
      obtain ⟨low, high, wide⟩ := prefixes
      refine ⟨by simp [State.withPc]; omega, by simp [State.withPc]; omega, fun j below => ?_⟩
      obtain rfl : j = 0 := by omega
      simpa [State.withPc] using wide k (by omega)
    have last := step_sameEffect env (s := s.withPc (s.gCpu.pc + k)) unprefixed one
      (by simpa [State.withPc, next] using other)
    rw [step_past_prefixes env prefixes, ← next]
    refine last.prepend fun e member => ?_
    obtain ⟨j, _, rfl⟩ := List.mem_map.mp member
    exact ⟨_, _, rfl⟩

/-- A machine whose code is three prefixes and an ILOAD. -/
def State.threePrefixes : State :=
  { State.fresh with
    gCpu := { State.fresh.gCpu with
      codeMemSize := 6
      codeMem := fun i => if i < 3 then Op.wide.code else if i = 3 then Op.iload.code else 0 } }

theorem wide_isScoped_threePrefixes : WideIsScoped Env.quiet State.threePrefixes :=
  wide_isScoped Env.quiet rfl

end Ijvm
