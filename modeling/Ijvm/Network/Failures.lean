import Ijvm.Machine.Launch
import Ijvm.Network.Connections

/-!
# What a failed connection attempt leaves behind

A socket gets its entry in the table of connections before the first system call that can
fail, and none of the four ways out after a failed call gives the entry back. Each failed
attempt takes one more index for good.
-/

namespace Ijvm

open Transcript Program

/-- A call of `net_bind` or `net_connect`. -/
inductive Attempt where
  | bind (port : Word)
  | connect (host port : Word)
  deriving DecidableEq, Repr

def Attempt.exec : Attempt → VM Word
  | .bind port => netBind port
  | .connect host port => netConnect host port

/-- A system call that ends an attempt. -/
def Failing : Answered → Prop
  | (.bind .., n) | (.listen .., n) | (.accept _, n) | (.connect .., n) => n = -1
  | _ => False

instance : DecidablePred Failing := fun c => by
  unfold Failing
  split <;> infer_instance

namespace Attempt

variable (a : Attempt) (env : Env) (s : State)

/-- If the attempt fails, the table holds the connections that it held before. -/
def LeavesNoTrace (conns : Conns) : Prop :=
  ∀ t es, a.exec.run env s = .done 0 t es → t.netConn.Holds conns

/-- No system call of the attempt fails. -/
def Untroubled : Prop := ∀ c ∈ calls (a.exec.run env s).events, ¬ Failing c

end Attempt

/-- One more index is claimed, for a socket that is not connected. -/
def Trace (conns : Conns) (t : State) : Prop :=
  ∃ i sock, conns i = none ∧ i < 2 ^ 20 ∧ t.netConn.Holds (Function.update conns i (some sock))

/-- How an attempt that returns ends. -/
def Outlives (conns : Conns) (r : Word) (t : State) (es : List Event) : Prop :=
  (r = 0 ∧ (∃ c ∈ calls es, Failing c) ∧ Trace conns t) ∨ (r ≠ 0 ∧ ∀ c ∈ calls es, ¬ Failing c)

section Attempts

variable {env : Env} {s : State} {conns : Conns}

theorem indexToRef_ne_zero (i : Nat) : indexToRef netTag i ≠ 0 := by
  intro zero
  have tagged : indexToRef netTag i &&& netTag = netTag := by
    unfold indexToRef
    ext k
    simp
    tauto
  rw [zero] at tagged
  exact absurd tagged (by decide)

theorem untroubled_of_sockets {es : List Event} (sockets : ∀ c ∈ calls es, c.1 = .socket) :
    ∀ c ∈ calls es, ¬ Failing c := by
  rintro ⟨call, n⟩ member failing
  obtain rfl : call = .socket := sockets _ member
  exact failing

theorem Claims.trace {sock : Sock} {i : Nat} {t : State} (claims : Claims conns sock i t)
    (fits : i < 2 ^ 20) : Trace conns t :=
  ⟨i, sock, claims.free, fits, claims.holds⟩

theorem netBind_outlives (holds : s.netConn.Holds conns) (below : conns.Below) (port : Word) :
    ((netBind port).run env s).Satisfies (Outlives conns)
      fun _ _ es => ∀ c ∈ calls es, ¬ Failing c := by
  refine .andThen ((socketCreate_creates holds below _ _).mono (fun _ _ _ h => h)
    fun _ _ _ h => untroubled_of_sockets h.2) ?_
  rintro _ t es ⟨fd, i, fits, rfl, created, claims⟩
  have entry : Function.update conns i (some (.unconnected fd inaddrAny (port.setWidth 16))) i =
    some (.unconnected fd inaddrAny (port.setWidth 16)) := Function.update_self ..
  simp only [run_bind, refToIndex_indexToRef netTag_isTag fits,
    marrGetElement_found claims.holds entry, run_sysCall, Outcome.andThen_done]
  split
  · rename_i failed
    exact Or.inl ⟨rfl, ⟨(.bind fd inaddrAny (port.setWidth 16), env.sys t.clock), by
      simp [created, Sock.unconnected], failed⟩, claims.trace fits⟩
  rename_i bound
  simp only [run_bind, run_sysCall, Outcome.andThen_done]
  split
  · rename_i failed
    exact Or.inl ⟨rfl, ⟨(.listen fd netMaxBacklog, env.sys (t.clock + 1)), by
      simp [created, Sock.unconnected], failed⟩, claims.trace fits⟩
  rename_i listening
  simp only [run_bind, run_sysCall, updateSock, run_modify, Outcome.andThen_done]
  split
  · rename_i failed
    refine Or.inl ⟨rfl, ⟨(.accept fd, env.sys (t.clock + 1 + 1)), by
      simp [created, Sock.unconnected], failed⟩, ?_⟩
    have accepted := claims.holds.set (claims.holds.value entry).1
      { Sock.unconnected fd inaddrAny (port.setWidth 16) with fds := env.sys (t.clock + 1 + 1) }
    rw [Function.update_idem] at accepted
    exact ⟨i, _, claims.free, fits, accepted⟩
  · rename_i success
    refine Or.inr ⟨indexToRef_ne_zero i, ?_⟩
    simp [created, Failing, bound, listening, success]

theorem netConnect_outlives (holds : s.netConn.Holds conns) (below : conns.Below)
    (host port : Word) :
    ((netConnect host port).run env s).Satisfies (Outlives conns)
      fun _ _ es => ∀ c ∈ calls es, ¬ Failing c := by
  refine .andThen ((socketCreate_creates holds below _ _).mono (fun _ _ _ h => h)
    fun _ _ _ h => untroubled_of_sockets h.2) ?_
  rintro _ t es ⟨fd, i, fits, rfl, created, claims⟩
  have entry : Function.update conns i (some (.unconnected fd host (port.setWidth 16))) i =
    some (.unconnected fd host (port.setWidth 16)) := Function.update_self ..
  simp only [run_bind, refToIndex_indexToRef netTag_isTag fits,
    marrGetElement_found claims.holds entry, run_sysCall, Outcome.andThen_done]
  split
  · rename_i failed
    exact Or.inl ⟨rfl, ⟨(.connect fd host (port.setWidth 16), env.sys t.clock), by
      simp [created, Sock.unconnected], failed⟩, claims.trace fits⟩
  · rename_i success
    refine Or.inr ⟨indexToRef_ne_zero i, ?_⟩
    simp [created, Failing, success]

/-- An attempt fails after a failed call, and then it has claimed an index. -/
theorem Attempt.outlives (env : Env) (holds : s.netConn.Holds conns) (below : conns.Below)
    (a : Attempt) :
    (a.exec.run env s).Satisfies (Outlives conns)
      fun _ _ es => ∀ c ∈ calls es, ¬ Failing c := by
  cases a with
  | bind port => exact netBind_outlives holds below port
  | connect host port => exact netConnect_outlives holds below host port

theorem Trace.not_holds {t : State} (trace : Trace conns t) : ¬ t.netConn.Holds conns := by
  obtain ⟨i, sock, free, _, holds⟩ := trace
  intro same
  have claimed : i ∈ t.netConn.claimed := holds.claimed_iff.mpr (by simp)
  exact same.claimed_iff.mp claimed free

/-- A failed call leaves its trace. -/
theorem Attempt.untroubled_of_leavesNoTrace (holds : s.netConn.Holds conns)
    (below : conns.Below) {a : Attempt} (traceless : a.LeavesNoTrace env s conns) :
    a.Untroubled env s := by
  have spec := a.outlives env holds below
  rw [Attempt.LeavesNoTrace] at traceless
  rw [Attempt.Untroubled]
  cases run : a.exec.run env s with
  | stopped e t es =>
      rw [run] at spec
      exact spec
  | done r t es =>
      rw [run] at spec
      rcases spec with ⟨rfl, _, trace⟩ | ⟨_, untroubled⟩
      · exact absurd (traceless t es run) trace.not_holds
      · exact untroubled

/-- Without a failed call, an attempt does not fail. -/
theorem Attempt.leavesNoTrace_of_untroubled (holds : s.netConn.Holds conns)
    (below : conns.Below) {a : Attempt} (untroubled : a.Untroubled env s) :
    a.LeavesNoTrace env s conns := by
  intro t es run
  have spec := a.outlives env holds below
  rw [Attempt.Untroubled, run] at untroubled
  rw [run] at spec
  rcases spec with ⟨_, ⟨c, member, failing⟩, _⟩ | ⟨other, _⟩
  · exact absurd failing (untroubled c member)
  · exact absurd rfl other

end Attempts

/-- `n` attempts, one after another, and all of them fail. -/
inductive FailsAgain (env : Env) : Nat → State → State → Prop
  | none (s : State) : FailsAgain env 0 s s
  | more {n : Nat} {a : Attempt} {s t u : State} {es : List Event}
      (failed : a.exec.run env s = .done 0 t es) (rest : FailsAgain env n t u) :
      FailsAgain env (n + 1) s u

section Sequences

variable {env : Env} {s t : State} {conns : Conns} {n : Nat}

theorem MArr.Holds.claimed_update {i : Nat} {sock : Sock} (holds : s.netConn.Holds conns)
    (next : t.netConn.Holds (Function.update conns i (some sock))) :
    t.netConn.claimed = insert i s.netConn.claimed := by
  ext j
  rw [Finset.mem_insert, next.claimed_iff, holds.claimed_iff]
  by_cases same : j = i
  · simp [same]
  · simp [same]

/-- Each failure takes an index. -/
theorem FailsAgain.takes (h : FailsAgain env n s t) (holds : s.netConn.Holds conns)
    (below : conns.Below) : ∃ conns', t.netConn.Holds conns' ∧ conns'.Below ∧
      t.netConn.claimed.card = s.netConn.claimed.card + n := by
  induction h generalizing conns with
  | none s => exact ⟨conns, holds, below, rfl⟩
  | @more n a s t u es failed rest ih =>
      have spec := a.outlives env holds below
      rw [failed] at spec
      rcases spec with ⟨_, _, i, sock, free, fits, next⟩ | ⟨other, _⟩
      · obtain ⟨conns', holds', below', card⟩ := ih next (below.update fun _ => fits)
        have fresh : i ∉ s.netConn.claimed := fun used => holds.claimed_iff.mp used free
        rw [holds.claimed_update next, Finset.card_insert_of_notMem fresh] at card
        exact ⟨conns', holds', below', by omega⟩
      · exact absurd rfl other

/-- The references are used up by the failures: there is room for `2 ^ 20` in all. -/
theorem FailsAgain.bounded (h : FailsAgain env n s t) (holds : s.netConn.Holds conns)
    (below : conns.Below) : s.netConn.claimed.card + n ≤ 2 ^ 20 := by
  obtain ⟨conns', holds', below', card⟩ := h.takes holds below
  have inside : t.netConn.claimed ⊆ Finset.range (2 ^ 20) := by
    intro i used
    exact Finset.mem_range.mpr (below' i (holds'.claimed_iff.mp used))
  have le := Finset.card_le_card inside
  rw [Finset.card_range] at le
  omega

end Sequences

/-- An attempt leaves the table of connections as it was when it fails, if none of its
system calls fails, and only then: no failed attempt does. -/
theorem leavesNoTrace_iff {s : State} {conns : Conns} (env : Env)
    (holds : s.netConn.Holds conns) (below : conns.Below) (a : Attempt) :
    a.LeavesNoTrace env s conns ↔ a.Untroubled env s :=
  ⟨a.untroubled_of_leavesNoTrace holds below, a.leavesNoTrace_of_untroubled holds below⟩

theorem leavesNoTrace_iff_fresh :
    (Attempt.bind 80).LeavesNoTrace Env.quiet State.fresh (fun _ => none) ↔
      (Attempt.bind 80).Untroubled Env.quiet State.fresh :=
  leavesNoTrace_iff Env.quiet .empty (fun _ used => absurd rfl used) _

/-- Surroundings in which every system call fails. -/
def Env.offline : Env := { Env.quiet with sys := fun _ => -1 }

/-- A refused connection stays in the table. -/
theorem refusedConnect_leavesTrace : ¬ ∀ env s conns (a : Attempt), s.netConn.Holds conns →
    conns.Below → a.LeavesNoTrace env s conns := by
  intro traceless
  have untroubled := Attempt.untroubled_of_leavesNoTrace .empty (fun _ used => absurd rfl used)
    (traceless Env.offline State.fresh (fun _ => none) (.connect 0 80) .empty
      fun _ used => absurd rfl used)
  have refused : ∃ c ∈ calls ((Attempt.connect 0 80).exec.run Env.offline State.fresh).events,
      Failing c := by decide +kernel
  obtain ⟨c, member, failing⟩ := refused
  exact untroubled c member failing

end Ijvm
