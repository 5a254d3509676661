import Ijvm.Arrays.Table
import Ijvm.Machine.Net
import Ijvm.Machine.Offline

/-!
# What the operations do to the connections

The table of connections is read as a partial function from indices to sockets. Each
operation on connections makes some system calls and changes at most one entry;
`Effect` lists the five ways in which the two can go together, and `NetOp.effect` says that
there is no other, whatever the system calls answer.

A reference carries 20 bits of an index. The search takes the first free index, so the
first index that no reference can carry is `2 ^ 20`, and the check of the new reference
stops the machine there.
-/

namespace Ijvm

open Transcript Program

/-- The connections by their indices. -/
abbrev Conns := Nat → Option Sock

/-- The table holds these connections. -/
structure MArr.Holds (m : MArr Sock) (conns : Conns) : Prop where
  map_length : m.map.length = m.size
  values_length : m.values.length = m.size
  entry : ∀ i, conns i = if i ∈ m.claimed then some (m.value i) else none

namespace MArr.Holds

variable {m : MArr Sock} {conns : Conns} {i : Nat} {sock : Sock}

theorem claimed_iff (h : m.Holds conns) : i ∈ m.claimed ↔ conns i ≠ none := by
  rw [h.entry i]
  split <;> simp [*]

theorem value (h : m.Holds conns) (entry : conns i = some sock) :
    i ∈ m.claimed ∧ m.value i = sock := by
  have claimed : i ∈ m.claimed := h.claimed_iff.mpr (by simp [entry])
  rw [h.entry i, if_pos claimed] at entry
  exact ⟨claimed, Option.some.inj entry⟩

theorem empty : ({ size := 0, map := [], values := [] } : MArr Sock).Holds fun _ => none :=
  ⟨rfl, rfl, fun i => by simp⟩

/-- A table of size 0 holds nothing. -/
theorem of_size_zero (h : m.Holds conns) (size : m.size = 0) : conns = fun _ => none := by
  funext i
  rw [h.entry i, if_neg]
  simp [size]

theorem store (h : m.Holds conns) (inside : i < m.size) :
    (m.store i sock).Holds (Function.update conns i (some sock)) := by
  refine ⟨by simpa [MArr.store] using h.map_length, by simpa [MArr.store] using h.values_length, ?_⟩
  intro j
  rw [MArr.claimed_store sock inside h.map_length]
  by_cases same : j = i
  · subst same
    simp [MArr.value_store_self inside h.values_length]
  · simp [same, MArr.value_store_ne same, h.entry j]

theorem clear (h : m.Holds conns) : (m.clear i).Holds (Function.update conns i none) := by
  refine ⟨by simpa [MArr.clear] using h.map_length, by simpa [MArr.clear] using h.values_length, ?_⟩
  intro j
  rw [MArr.claimed_clear]
  by_cases same : j = i
  · subst same
    simp
  · simp [same, MArr.clear_value_ne m (Ne.symm same), h.entry j]

/-- The socket behind a claimed index is changed in place. -/
theorem set (h : m.Holds conns) (claimed : i ∈ m.claimed) (sock : Sock) :
    { m with values := m.values.set i sock }.Holds (Function.update conns i (some sock)) := by
  refine ⟨h.map_length, by simpa using h.values_length, ?_⟩
  intro j
  have inside := (MArr.mem_claimed.mp claimed).1
  have same_claimed : j ∈ { m with values := m.values.set i sock }.claimed ↔ j ∈ m.claimed := by
    simp [MArr.mem_claimed, MArr.flag]
  simp only [same_claimed]
  by_cases same : j = i
  · subst same
    simp [claimed, MArr.value, List.getD_eq_getElem?_getD, h.values_length, inside]
  · simp [Function.update_of_ne same, h.entry j, MArr.value, List.getD_eq_getElem?_getD,
      List.getElem?_set_ne (Ne.symm same)]

theorem resized (h : m.Holds conns) {newSize : Nat} (larger : m.size ≤ newSize) :
    (m.resized newSize).Holds conns := by
  refine ⟨MArr.length_map_resized h.map_length larger,
    MArr.length_values_resized h.values_length larger, fun j => ?_⟩
  rw [MArr.claimed_resized h.map_length larger, MArr.value_resized h.values_length, h.entry j]

end MArr.Holds

section Claiming

variable {conns : Conns} {sock : Sock}

/-- The index was free and is now claimed for the socket; the indices before it were in use. -/
structure Claims (conns : Conns) (sock : Sock) (i : Nat) (t : State) : Prop where
  free : conns i = none
  before : ∀ j < i, conns j ≠ none
  holds : t.netConn.Holds (Function.update conns i (some sock))

theorem Offline.holds {α : Type} {m : VM α} (h : Offline m) :
    Meets (fun t => t.netConn.Holds conns) Event.offline m (fun _ t => t.netConn.Holds conns)
      fun _ t => t.netConn.Holds conns := by
  intro env s holds
  have kept {t : State} (same : t.netConn = s.netConn) : t.netConn.Holds conns := same ▸ holds
  exact (h s.netConn env s rfl).mono (fun _ _ _ final => ⟨kept final.1, final.2⟩)
    fun _ _ _ final => ⟨kept final.1, final.2⟩

theorem getFreeIndex_meets :
    Meets (fun t => t.netConn.Holds conns) Event.offline (getFreeIndex netConn)
      (fun i t => t.netConn.Holds conns ∧ (i ≠ sizeMaxUint32 →
        i < t.netConn.size ∧ conns i = none ∧ ∀ j < i, conns j ≠ none))
      fun _ t => t.netConn.Holds conns := by
  have search : Meets (fun t => t.netConn.Holds conns) Event.offline
      (do return ((netConn.get (← get)).firstFree.getD sizeMaxUint32) : VM Nat)
      (fun i t => t.netConn.Holds conns ∧ (i ≠ sizeMaxUint32 →
        i < t.netConn.size ∧ conns i = none ∧ ∀ j < i, conns j ≠ none))
      fun _ t => t.netConn.Holds conns := by
    refine .read_bind fun s holds => .pure ?_
    rintro t rfl
    refine ⟨holds, fun found => ?_⟩
    cases free : t.netConn.firstFree with
    | none => exact absurd (by simp [Ijvm.netConn, free]) found
    | some i =>
        obtain ⟨inside, unflagged, before⟩ := MArr.firstFree_eq_some free
        have unclaimed : i ∉ t.netConn.claimed := by simp [unflagged]
        simp only [Ijvm.netConn, free, Option.getD_some]
        refine ⟨inside, by rw [holds.entry i, if_neg unclaimed], fun j below => ?_⟩
        exact holds.claimed_iff.mp (before j below)
  refine .bind .get fun _ => .ite (fun _ => ?_) fun _ => ?_
  · exact .bind (.modify fun _ h => h) fun _ => .bind arrGc_offline.holds fun _ => search
  · exact .bind (.modify fun _ h => h) fun _ => search

theorem marrAddElement_meets :
    Meets (fun t => t.netConn.Holds conns) Event.offline (marrAddElement netConn sock)
      (fun i t => (i = sizeMaxUint32 → t.netConn.Holds conns) ∧
        (i ≠ sizeMaxUint32 → Claims conns sock i t))
      fun _ t => t.netConn.Holds conns := by
  refine .bind getFreeIndex_meets fun i => .ite (fun none => .pure ?_) fun found => ?_
  · exact fun _ h => ⟨fun _ => h.1, absurd none⟩
  · refine .read_bind fun s h => ?_
    obtain ⟨inside, free, before⟩ := h.2 found
    refine .bind (Q := fun _ t => Claims conns sock i t) (.modify ?_) fun _ => .pure fun _ h =>
      ⟨fun none => absurd none found, fun _ => h⟩
    rintro t rfl
    exact ⟨free, before, h.1.store inside⟩

theorem marrResize_meets (newSize : Nat) :
    Meets (fun t => t.netConn.Holds conns) Event.offline (marrResize netConn newSize)
      (fun _ t => t.netConn.Holds conns) fun _ t => t.netConn.Holds conns := by
  have attempt (fuel : Nat) :
      Meets (fun t => t.netConn.Holds conns) Event.offline (marrResizeFuel netConn fuel newSize)
        (fun _ t => t.netConn.Holds conns) fun _ t => t.netConn.Holds conns := by
    induction fuel with
    | zero => exact .stop fun _ h => h
    | succ fuel ih =>
        refine .read_bind fun s holds => .mono_pre (P := fun t => t.netConn = s.netConn) ?_ ?_
        · refine .ite (fun _ => .stop fun _ h => h ▸ holds) fun fits => .ite
            (fun _ => .stop fun _ h => h ▸ holds) fun _ => ?_
          have asked : Meets (fun t : State => t.netConn = s.netConn) Event.offline allocate
              (fun _ t => t.netConn = s.netConn) fun _ t => t.netConn.Holds conns :=
            (allocate_offline s.netConn).mono (fun _ h => h) (fun _ h => h) (fun _ _ h => h)
              fun _ _ h => h ▸ holds
          refine .bind asked fun _ => .bind asked fun _ => .ite (fun _ => ?_) fun _ => ?_
          · refine .bind (arrGc_offline.holds.mono_pre fun t h => h ▸ holds) fun _ => .ite
              (fun _ => ih) fun _ => .stop fun _ h => h
          · exact .modify fun t _ => holds.resized (Nat.le_of_not_lt fits)
        · rintro t rfl
          rfl
  exact .bind .get fun _ => attempt _

theorem socketPrepare_meets :
    Meets (fun t => t.netConn.Holds conns) Event.offline socketPrepare
      (fun _ t => t.netConn.Holds conns) fun _ t => t.netConn.Holds conns := by
  refine .read_bind fun s holds => .mono_pre (P := fun t => t.netConn.Holds conns) (.ite
    (fun size => ?_) fun _ => .pure fun _ h => h) ?_
  · have none := holds.of_size_zero size
    subst none
    exact .bind (.modify fun _ _ => .empty) fun _ => .ite (fun _ => .stop fun _ h => h)
      fun _ => marrResize_meets _
  · rintro t rfl
    exact holds

theorem socketSave_meets :
    Meets (fun t => t.netConn.Holds conns) Event.offline (socketSave sock)
      (fun i t => (i = sizeMaxUint32 → t.netConn.Holds conns) ∧
        (i ≠ sizeMaxUint32 → Claims conns sock i t))
      fun _ t => t.netConn.Holds conns := by
  refine .bind marrAddElement_meets fun i => .ite (fun full => ?_) fun found => .pure fun _ h => h
  refine .bind (Q := fun _ t => t.netConn.Holds conns) ?_ fun _ => ?_
  · exact Meets.get.mono_pre fun _ h => h.1 full
  · exact .bind (marrResize_meets _) fun _ => marrAddElement_meets

/-- Every index in use fits into a reference. -/
def Conns.Below (conns : Conns) : Prop := ∀ i, conns i ≠ none → i < 2 ^ 20

theorem isNetRef_sizeMax : isNetRef (indexToRef netTag sizeMaxUint32) = false := by decide

theorem isNetRef_limit : isNetRef (indexToRef netTag (2 ^ 20)) = false := by decide

/-- A new connection has an index that fits into its reference, or the machine stops. -/
theorem socketStore_meets (below : conns.Below) :
    Meets (fun t => t.netConn.Holds conns) Event.offline (socketStore sock)
      (fun r t => ∃ i < 2 ^ 20, r = indexToRef netTag i ∧ Claims conns sock i t)
      fun _ t => t.netConn.Holds conns ∨ ∃ i, Claims conns sock i t := by
  have early {α : Type} {m : VM α} {Q : α → State → Prop}
      (h : Meets (fun t => t.netConn.Holds conns) Event.offline m Q
        fun _ t => t.netConn.Holds conns) :
      Meets (fun t => t.netConn.Holds conns) Event.offline m Q
        fun _ t => t.netConn.Holds conns ∨ ∃ i, Claims conns sock i t :=
    h.mono (fun _ h => h) (fun _ h => h) (fun _ _ h => h) fun _ _ h => Or.inl h
  refine .bind (early socketPrepare_meets) fun _ => .bind (early socketSave_meets) fun i => ?_
  refine .bind (Q := fun _ t => i < 2 ^ 20 ∧ Claims conns sock i t) ?_ fun _ => .pure fun t h =>
    ⟨i, h.1, rfl, h.2⟩
  refine .ite (fun _ => .stop fun t h => ?_) fun valid => .pure fun t h => ?_
  · by_cases full : i = sizeMaxUint32
    · exact Or.inl (h.1 full)
    · exact Or.inr ⟨i, h.2 full⟩
  · have found : i ≠ sizeMaxUint32 := by
      rintro rfl
      exact valid isNetRef_sizeMax
    have claims := h.2 found
    refine ⟨?_, claims⟩
    rcases Nat.lt_trichotomy i (2 ^ 20) with fits | limit | beyond
    · exact fits
    · subst limit
      exact absurd isNetRef_limit valid
    · exact absurd (below _ (claims.before _ beyond)) (Nat.lt_irrefl _)

end Claiming

section Calls

abbrev Answered := SysCall × Int

def Event.call? : Event → Option Answered
  | .sys call n => some (call, n)
  | _ => none

def calls (es : List Event) : List Answered := es.filterMap Event.call?

@[simp] theorem calls_nil : calls [] = [] := rfl

@[simp] theorem calls_append (es fs : List Event) : calls (es ++ fs) = calls es ++ calls fs :=
  List.filterMap_append

@[simp] theorem calls_sys (call : SysCall) (n : Int) (es : List Event) :
    calls (.sys call n :: es) = (call, n) :: calls es := rfl

theorem calls_eq_nil {es : List Event} (h : ∀ e ∈ es, e.offline) : calls es = [] := by
  refine List.filterMap_eq_nil_iff.mpr fun e member => ?_
  cases e with
  | sys call n => exact (h _ member).elim
  | _ => rfl

end Calls

/-- An operation of a program on the connections. -/
inductive NetOp where
  | bind (port : Word)
  | connect (host port : Word)
  | recv (netRef : Word)
  | send (netRef data : Word)
  | close (netRef : Word)
  deriving DecidableEq, Repr

def NetOp.exec : NetOp → VM Unit
  | .bind port => do let _ ← netBind port
  | .connect host port => do let _ ← netConnect host port
  | .recv netRef => do let _ ← netRecv netRef
  | .send netRef data => netSend netRef data
  | .close netRef => netClose netRef

/-- The call obtains no descriptor, connects none and gives none back. -/
def Inert : Answered → Prop
  | (.socket, _) => False
  | (.accept _, n) => n = -1
  | (.connect .., n) => n = -1
  | (.close _, _) => False
  | _ => True

def Sock.connected (sock : Sock) : Bool := sock.client || sock.server

/-- The calls with which `netClose` closes the descriptor of a socket. -/
def closing (sock : Sock) : List SysCall :=
  (if sock.client then [.shutdown sock.fd 2, .close sock.fd] else []) ++
    if sock.server then [.shutdown sock.fd 2, .close sock.fd] else []

/-- A socket that is not connected yet, as `socketCreate` makes it. -/
def Sock.unconnected (fd : Int) (host : Word) (port : BitVec 16) : Sock :=
  { fd, fds := -1, client := false, server := false, host, port }

/-- What one operation can do to the connections, with its system calls. -/
inductive Effect (conns : Conns) : List Answered → Conns → Prop where
  /-- Nothing is obtained. -/
  | inert {cs : List Answered} (h : ∀ c ∈ cs, Inert c) : Effect conns cs conns
  /-- There is no room for the socket. -/
  | unsaved {fd : Int} : Effect conns [(.socket, fd)] conns
  /-- The socket is stored, but does not get connected. -/
  | idle {fd : Int} {cs : List Answered} {i : Nat} {host : Word} {port : BitVec 16}
      (free : conns i = none) (h : ∀ c ∈ cs, Inert c) :
      Effect conns ((.socket, fd) :: cs)
        (Function.update conns i (some (.unconnected fd host port)))
  | client {fd n : Int} {i : Nat} {host : Word} {port : BitVec 16} (free : conns i = none)
      (fits : i < 2 ^ 20) (success : n ≠ -1) :
      Effect conns [(.socket, fd), (.connect fd host port, n)]
        (Function.update conns i (some { Sock.unconnected fd host port with client := true }))
  | server {fd n k fds : Int} {i : Nat} {host : Word} {port : BitVec 16} (free : conns i = none)
      (fits : i < 2 ^ 20) (success : fds ≠ -1) :
      Effect conns [(.socket, fd), (.bind fd host port, n), (.listen fd netMaxBacklog, k),
          (.accept fd, fds)]
        (Function.update conns i (some { Sock.unconnected fd host port with fds, server := true }))
  | closed {cs : List Answered} {i : Nat} {sock : Sock} (claimed : conns i = some sock)
      (h : cs.map Prod.fst = closing sock) :
      Effect conns cs (Function.update conns i none)

section Operations

variable {env : Env} {s : State} {conns : Conns} {i : Nat} {sock : Sock}

theorem marrGetElement_found (holds : s.netConn.Holds conns) (entry : conns i = some sock) :
    (marrGetElement netConn i).run env s = .done sock s [] := by
  obtain ⟨claimed, rfl⟩ := holds.value entry
  exact marrGetElement_claimed netConn env claimed

theorem Conns.Below.update (below : conns.Below) {entry : Option Sock}
    (fits : entry ≠ none → i < 2 ^ 20) : Conns.Below (Function.update conns i entry) := by
  intro j used
  by_cases same : j = i
  · subst same
    exact fits (by rwa [Function.update_self] at used)
  · rw [Function.update_of_ne same] at used
    exact below j used

/-- What a stopped operation leaves behind. -/
def Spoiled (conns : Conns) (_ : Stop) (t : State) (es : List Event) : Prop :=
  ∃ conns', Effect conns (calls es) conns' ∧ t.netConn.Holds conns'

/-- What an operation that returns leaves behind. -/
def Settled (conns : Conns) (_ : Unit) (t : State) (es : List Event) : Prop :=
  ∃ conns', Effect conns (calls es) conns' ∧ t.netConn.Holds conns' ∧ conns'.Below

/-- `socketCreate` calls nothing but `socket`. -/
theorem socketCreate_creates (holds : s.netConn.Holds conns) (below : conns.Below)
    (host : Word) (port : BitVec 16) :
    ((socketCreate host port).run env s).Satisfies
      (fun r t es => ∃ fd, ∃ i < 2 ^ 20, r = indexToRef netTag i ∧ calls es = [(.socket, fd)] ∧
        Claims conns (.unconnected fd host port) i t)
      fun e t es => Spoiled conns e t es ∧ ∀ c ∈ calls es, c.1 = .socket := by
  simp only [socketCreate, run_bind, run_allocate, Outcome.andThen_done, Outcome.prepend_nil]
  split
  · simp only [run_bind, run_sysCall, Outcome.andThen_done, Outcome.satisfies_prepend]
    refine (socketStore_meets below env _ ?_).mono ?_ ?_
    · exact holds
    · rintro r t es ⟨⟨i, fits, ref, claims⟩, silent⟩
      refine ⟨_, i, fits, ref, ?_, claims⟩
      rw [calls_append, calls_eq_nil silent]
      rfl
    · rintro _ t es ⟨final, silent⟩
      unfold Spoiled
      rw [calls_append, calls_eq_nil silent]
      refine ⟨?_, by simp⟩
      obtain holds | ⟨i, claims⟩ := final
      · exact ⟨conns, .unsaved, holds⟩
      · exact ⟨_, .idle claims.free (List.forall_mem_nil _), claims.holds⟩
  · exact ⟨⟨conns, .inert (List.forall_mem_nil _), holds⟩, by simp⟩

theorem socketCreate_satisfies (holds : s.netConn.Holds conns) (below : conns.Below)
    (host : Word) (port : BitVec 16) :
    ((socketCreate host port).run env s).Satisfies
      (fun r t es => ∃ fd, ∃ i < 2 ^ 20, r = indexToRef netTag i ∧ calls es = [(.socket, fd)] ∧
        Claims conns (.unconnected fd host port) i t)
      (Spoiled conns) :=
  (socketCreate_creates holds below host port).mono (fun _ _ _ h => h) fun _ _ _ h => h.1

theorem netBind_satisfies (holds : s.netConn.Holds conns) (below : conns.Below) (port : Word) :
    ((NetOp.bind port).exec.run env s).Satisfies (Settled conns) (Spoiled conns) := by
  refine .andThen (Q := fun _ => Settled conns ()) (.andThen
    (socketCreate_satisfies holds below _ _) ?_) fun _ _ _ h => by simpa using h
  rintro _ t es ⟨fd, i, fits, rfl, created, claims⟩
  have entry : Function.update conns i (some (.unconnected fd inaddrAny (port.setWidth 16))) i =
    some (.unconnected fd inaddrAny (port.setWidth 16)) := Function.update_self ..
  have claimed := (claims.holds.value entry).1
  simp only [run_bind, refToIndex_indexToRef netTag_isTag fits,
    marrGetElement_found claims.holds entry, run_sysCall, Outcome.andThen_done]
  split
  · rename_i failed
    refine ⟨_, ?_, claims.holds, below.update fun _ => fits⟩
    simpa [created, failed] using Effect.idle claims.free (by simp [Inert])
  simp only [run_bind, run_sysCall, Outcome.andThen_done]
  split
  · rename_i failed
    refine ⟨_, ?_, claims.holds, below.update fun _ => fits⟩
    simpa [created, failed] using Effect.idle claims.free (by simp [Inert])
  simp only [run_bind, run_sysCall, updateSock, run_modify, Outcome.andThen_done]
  -- The entry is written also when the result of `accept` is an error.
  have accepted := claims.holds.set claimed
    { Sock.unconnected fd inaddrAny (port.setWidth 16) with fds := env.sys (t.clock + 1 + 1) }
  rw [Function.update_idem] at accepted
  split
  · rename_i failed
    refine ⟨_, ?_, accepted, below.update fun _ => fits⟩
    rw [failed, calls_append, created]
    exact .idle claims.free (by simp [Inert])
  · rename_i success
    have served := accepted.set (accepted.value (Function.update_self ..)).1
      { Sock.unconnected fd inaddrAny (port.setWidth 16) with
        fds := env.sys (t.clock + 1 + 1), server := true }
    rw [Function.update_idem] at served
    refine ⟨_, ?_, served, below.update fun _ => fits⟩
    rw [calls_append, created]
    exact .server claims.free fits success

theorem netConnect_satisfies (holds : s.netConn.Holds conns) (below : conns.Below)
    (host port : Word) :
    ((NetOp.connect host port).exec.run env s).Satisfies (Settled conns) (Spoiled conns) := by
  refine .andThen (Q := fun _ => Settled conns ()) (.andThen
    (socketCreate_satisfies holds below _ _) ?_) fun _ _ _ h => by simpa using h
  rintro _ t es ⟨fd, i, fits, rfl, created, claims⟩
  have entry : Function.update conns i (some (.unconnected fd host (port.setWidth 16))) i =
    some (.unconnected fd host (port.setWidth 16)) := Function.update_self ..
  simp only [run_bind, refToIndex_indexToRef netTag_isTag fits,
    marrGetElement_found claims.holds entry, run_sysCall, Outcome.andThen_done]
  split
  · rename_i failed
    refine ⟨_, ?_, claims.holds, below.update fun _ => fits⟩
    simpa [created, failed] using Effect.idle claims.free (by simp [Inert])
  · rename_i success
    have connected := claims.holds.set (claims.holds.value entry).1
      { Sock.unconnected fd host (port.setWidth 16) with client := true }
    rw [Function.update_idem] at connected
    refine ⟨_, ?_, connected, below.update fun _ => fits⟩
    rw [calls_append, created]
    exact .client claims.free fits success

/-- The event is no call of a kind that an account of descriptors depends on. -/
def Event.inert (e : Event) : Prop := ∀ c, e.call? = some c → Inert c

theorem Event.offline.inert {e : Event} (h : e.offline) : e.inert := by
  cases e with
  | sys call n => exact h.elim
  | _ => exact fun _ call => absurd call (Option.some_ne_none _).symm

theorem Offline.inert {α : Type} {m : VM α} (h : Offline m) :
    Meets (fun t => t.netConn.Holds conns) Event.inert m (fun _ t => t.netConn.Holds conns)
      fun _ t => t.netConn.Holds conns :=
  h.holds.mono (fun _ h => h) (fun _ silent => silent.inert) (fun _ _ h => h) fun _ _ h => h

theorem sysCall_inert {call : SysCall} (h : ∀ n, Inert (call, n)) :
    Meets (fun t => t.netConn.Holds conns) Event.inert (sysCall call)
      (fun _ t => t.netConn.Holds conns) fun _ t => t.netConn.Holds conns := by
  intro env s holds
  refine ⟨holds, ?_⟩
  simp only [List.nil_append, List.append_nil, List.forall_mem_singleton]
  rintro _ ⟨⟩
  exact h _

/-- An operation with inert calls only leaves the connections as they are. -/
theorem settled_of_inert {m : VM Unit}
    (h : Meets (fun t => t.netConn.Holds conns) Event.inert m (fun _ t => t.netConn.Holds conns)
      fun _ t => t.netConn.Holds conns) (holds : s.netConn.Holds conns) (below : conns.Below) :
    (m.run env s).Satisfies (Settled conns) (Spoiled conns) := by
  have inert {es : List Event} (events : ∀ e ∈ es, e.inert) : ∀ c ∈ calls es, Inert c := by
    intro c member
    obtain ⟨e, member, call⟩ := List.mem_filterMap.mp member
    exact events e member c call
  refine (h env s holds).mono ?_ ?_
  · exact fun _ t es final => ⟨conns, .inert (inert final.2), final.1, below⟩
  · exact fun _ t es final => ⟨conns, .inert (inert final.2), final.1⟩

theorem netCheckRef_offline (netRef : Word) : Offline (netCheckRef netRef) :=
  .ite (.stop _) (.pure _)

theorem netRecv_satisfies (holds : s.netConn.Holds conns) (below : conns.Below) (netRef : Word) :
    ((NetOp.recv netRef).exec.run env s).Satisfies (Settled conns) (Spoiled conns) := by
  refine settled_of_inert (.bind (.bind (netCheckRef_offline _).inert fun _ =>
    .bind (marrGetElement_offline _ _).inert fun sock => ?_)
      fun _ => .pure fun _ h => h) holds below
  cases sock.dataFd? with
  | none => exact .stop fun _ h => h
  | some fd =>
      exact .bind .ask fun _ => .bind .get fun _ => .bind (sysCall_inert fun _ => trivial) fun _ =>
        .ite (fun _ => .stop fun _ h => h) fun _ => .pure fun _ h => h

theorem netSend_satisfies (holds : s.netConn.Holds conns) (below : conns.Below)
    (netRef data : Word) :
    ((NetOp.send netRef data).exec.run env s).Satisfies (Settled conns) (Spoiled conns) := by
  refine settled_of_inert (.bind (netCheckRef_offline _).inert fun _ =>
    .bind (marrGetElement_offline _ _).inert fun sock => ?_) holds below
  cases sock.dataFd? with
  | none => exact .stop fun _ h => h
  | some fd =>
      exact .bind (sysCall_inert fun _ => trivial) fun _ =>
        .ite (fun _ => .stop fun _ h => h) fun _ => .pure fun _ h => h

/-- One of the two sections of `netClose`, in front of the rest. -/
private theorem closeIf_run {c : Bool} {Q : State → List SysCall → Prop} {sock' : Sock}
    {rest : VM Unit} (holds : s.netConn.Holds conns) (entry : conns i = some sock)
    (same : c = false → sock' = sock)
    (next : ∀ t, t.netConn.Holds (Function.update conns i (some sock')) →
      t.netConn.size = s.netConn.size →
        ∃ u es, rest.run env t = .done () u es ∧ Q u ((calls es).map Prod.fst)) :
    ∃ u es tail, (if c = true then do closeDescriptor sock.fd; updateSock i sock'; rest
        else rest : VM Unit).run env s = .done () u es ∧ Q u tail ∧
      (calls es).map Prod.fst =
        (if c then [.shutdown sock.fd 2, .close sock.fd] else []) ++ tail := by
  cases c with
  | false =>
      have unchanged : Function.update conns i (some sock') = conns := by
        rw [same rfl, ← entry, Function.update_eq_self]
      obtain ⟨u, es, run, final⟩ := next s (unchanged.symm ▸ holds) rfl
      exact ⟨u, es, _, run, final, rfl⟩
  | true =>
      obtain ⟨u, es, run, final⟩ := next { s with
        clock := s.clock + 1 + 1
        netConn := { s.netConn with values := s.netConn.values.set i sock' } }
        (holds.set (holds.value entry).1 sock') rfl
      refine ⟨u, .sys (.shutdown sock.fd 2) (env.sys s.clock) ::
        .sys (.close sock.fd) (env.sys (s.clock + 1)) :: es, _, ?_, final, rfl⟩
      simp [closeDescriptor, updateSock, run]

theorem marrRemoveElement_found (holds : s.netConn.Holds conns) (entry : conns i = some sock) :
    (marrRemoveElement netConn i).run env s =
      .done () { s with netConn := s.netConn.clear i } [] := by
  have inside := (MArr.mem_claimed.mp (holds.value entry).1).1
  simp [marrRemoveElement, netConn, Nat.not_le_of_lt inside]

def Removed (s : State) (conns : Conns) (i : Nat) (t : State) : Prop :=
  t.netConn.Holds (Function.update conns i none) ∧ t.netConn.size = s.netConn.size

private theorem Removed.of_update {t u : State} {sock' : Sock}
    (h : Removed t (Function.update conns i (some sock')) i u)
    (size : t.netConn.size = s.netConn.size) : Removed s conns i u := by
  rw [Removed, Function.update_idem] at h
  exact ⟨h.1, h.2.trans size⟩

/-- The end of `netClose`: the socket is freed and its index given back. -/
private def forgetSock (netI : Nat) : VM Unit := do
  let _ ← marrGetElement netConn netI
  marrRemoveElement netConn netI

/-- `netClose` after its section for clients. -/
private def closeServer (netI : Nat) : VM Unit := do
  let sock ← marrGetElement netConn netI
  if sock.server = true then do
    closeDescriptor sock.fd
    updateSock netI { sock with server := false }
    forgetSock netI
  else
    forgetSock netI

private theorem netClose_eq (r : Word) :
    netClose r = (do
      netCheckRef r
      let sock ← marrGetElement netConn (refToIndex r)
      if sock.client = true then do
        closeDescriptor sock.fd
        updateSock (refToIndex r) { sock with client := false }
        closeServer (refToIndex r)
      else
        closeServer (refToIndex r)) := rfl

private theorem forgetSock_run (env : Env) (holds : s.netConn.Holds conns)
    (entry : conns i = some sock) :
    ∃ u es, (forgetSock i).run env s = .done () u es ∧
      Removed s conns i u ∧ (calls es).map Prod.fst = [] := by
  refine ⟨{ s with netConn := s.netConn.clear i }, [], ?_, ⟨holds.clear, rfl⟩, rfl⟩
  simp [forgetSock, marrGetElement_found holds entry, marrRemoveElement_found holds entry]

private theorem closeServer_run (env : Env) (holds : s.netConn.Holds conns)
    (entry : conns i = some sock) :
    ∃ u es, (closeServer i).run env s = .done () u es ∧
      Removed s conns i u ∧ (calls es).map Prod.fst =
        if sock.server then [.shutdown sock.fd 2, .close sock.fd] else [] := by
  have section_run : ∃ u es tail, (if sock.server = true then do
        closeDescriptor sock.fd; updateSock i { sock with server := false }; forgetSock i
        else forgetSock i : VM Unit).run env s = .done () u es ∧
      (Removed s conns i u ∧ tail = []) ∧
      (calls es).map Prod.fst =
        (if sock.server then [.shutdown sock.fd 2, .close sock.fd] else []) ++ tail := by
    refine closeIf_run (Q := fun u tail => Removed s conns i u ∧ tail = []) holds entry ?_ ?_
    · intro idle
      rw [← idle]
    · intro t after size
      obtain ⟨u, es, run, removed, none⟩ := forgetSock_run env after (Function.update_self ..)
      exact ⟨u, es, run, removed.of_update size, none⟩
  obtain ⟨u, es, tail, run, ⟨final, rfl⟩, closed⟩ := section_run
  refine ⟨u, es, ?_, final, by rw [closed, List.append_nil]⟩
  rw [closeServer, run_bind, marrGetElement_found holds entry, Outcome.andThen_done,
    Outcome.prepend_nil, run]

/-- A connection that is removed: its descriptor `fd` is closed once for each of its roles,
and `fds` never. -/
theorem netClose_run (env : Env) {r : Word} (holds : s.netConn.Holds conns)
    (valid : isNetRef r = true)
    (entry : conns (refToIndex r) = some sock) :
    ∃ t es, (netClose r).run env s = .done () t es ∧
      Removed s conns (refToIndex r) t ∧ (calls es).map Prod.fst = closing sock := by
  have section_run : ∃ u es tail, (if sock.client = true then do
        closeDescriptor sock.fd; updateSock (refToIndex r) { sock with client := false }
        closeServer (refToIndex r)
        else closeServer (refToIndex r) : VM Unit).run env s = .done () u es ∧
      (Removed s conns (refToIndex r) u ∧
        tail = if sock.server then [.shutdown sock.fd 2, .close sock.fd] else []) ∧
      (calls es).map Prod.fst =
        (if sock.client then [.shutdown sock.fd 2, .close sock.fd] else []) ++ tail := by
    refine closeIf_run (Q := fun u tail => Removed s conns (refToIndex r) u ∧
      tail = if sock.server then [.shutdown sock.fd 2, .close sock.fd] else []) holds entry ?_ ?_
    · intro idle
      rw [← idle]
    · intro t after size
      obtain ⟨u, es, run, removed, closed⟩ := closeServer_run env after (Function.update_self ..)
      exact ⟨u, es, run, removed.of_update size, closed⟩
  obtain ⟨u, es, tail, run, ⟨final, rfl⟩, closed⟩ := section_run
  refine ⟨u, es, ?_, final, closed⟩
  have checked : (netCheckRef r).run env s = .done () s [] := by
    rw [netCheckRef, if_neg (by rw [valid]; decide)]
    rfl
  rw [netClose_eq, run_bind, checked, Outcome.andThen_done, Outcome.prepend_nil, run_bind,
    marrGetElement_found holds entry, Outcome.andThen_done, Outcome.prepend_nil, run]

/-- Without a connection there is nothing to close. -/
theorem netClose_stopped (env : Env) {r : Word} (holds : s.netConn.Holds conns)
    (missing : isNetRef r = true → conns (refToIndex r) = none) :
    ∃ e, (netClose r).run env s = .stopped e s [] := by
  cases valid : isNetRef r with
  | false => exact ⟨.error .netRef, by simp [netClose, netCheckRef, valid]⟩
  | true =>
      have unclaimed : refToIndex r ∉ s.netConn.claimed := fun claimed =>
        holds.claimed_iff.mp claimed (missing valid)
      obtain ⟨e, run⟩ := marrGetElement_unclaimed netConn env unclaimed
      exact ⟨e, by simp [netClose, netCheckRef, valid, run]⟩

theorem netClose_satisfies (holds : s.netConn.Holds conns) (below : conns.Below) (r : Word) :
    ((NetOp.close r).exec.run env s).Satisfies (Settled conns) (Spoiled conns) := by
  have refused (missing : isNetRef r = true → conns (refToIndex r) = none) :
      ((netClose r).run env s).Satisfies (Settled conns) (Spoiled conns) := by
    obtain ⟨e, run⟩ := netClose_stopped env holds missing
    rw [run]
    exact ⟨conns, .inert (List.forall_mem_nil _), holds⟩
  cases valid : isNetRef r with
  | false => exact refused fun wrong => absurd (valid.symm.trans wrong) Bool.false_ne_true
  | true =>
      cases entry : conns (refToIndex r) with
      | none => exact refused fun _ => entry
      | some sock =>
          obtain ⟨t, es, run, removed, closed⟩ := netClose_run env holds valid entry
          change ((netClose r).run env s).Satisfies _ _
          rw [run]
          exact ⟨_, .closed entry closed, removed.1, below.update fun used => absurd rfl used⟩

/-- The five effects are all there is, whatever the system calls answer. -/
theorem NetOp.effect (env : Env) (holds : s.netConn.Holds conns) (below : conns.Below)
    (op : NetOp) :
    (op.exec.run env s).Satisfies (Settled conns) (Spoiled conns) := by
  cases op with
  | bind port => exact netBind_satisfies holds below port
  | connect host port => exact netConnect_satisfies holds below host port
  | recv netRef => exact netRecv_satisfies holds below netRef
  | send netRef data => exact netSend_satisfies holds below netRef data
  | close netRef => exact netClose_satisfies holds below netRef

end Operations

end Ijvm
