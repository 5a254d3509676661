import Ijvm.Network.Steps
import Ijvm.Sessions.Starting

/-!
# No descriptor is used after it is closed

The interpreter finds its descriptors in the table of connections, and a socket leaves the table
when its descriptor is closed. So every system call of a run that names a descriptor names one
that the run has obtained and not closed, or the error value of a call that failed, up to the
last call of `netDestroy`, however the run ends. The operating system only has to return
descriptors that are not open.
-/

namespace Ijvm

open Transcript Program

def SysCall.fd? : SysCall → Option Int
  | .socket => none
  | .bind fd _ _ | .listen fd _ | .accept fd | .connect fd _ _ => some fd
  | .recv fd _ | .send fd _ | .shutdown fd _ | .close fd => some fd

/-- The descriptor is open, or stands for a failed call. -/
def Known (opened : Finset Int) (fd : Int) : Prop := fd ∈ opened ∨ fd = -1

/-- The call is about this descriptor and does not close it. -/
def About (fd : Int) (c : Answered) : Prop := (∀ d, c.1 ≠ .close d) ∧ c.1.fd? = some fd

/-- Each call is about a descriptor that is open at that moment. -/
def SafeFrom : Finset Int → List Answered → Prop
  | _, [] => True
  | opened, c :: cs => (∀ fd, c.1.fd? = some fd → Known opened fd) ∧ SafeFrom (track opened c) cs

section Lists

variable {opened : Finset Int} {cs ds : List Answered} {fd : Int}

theorem safeFrom_append :
    SafeFrom opened (cs ++ ds) ↔ SafeFrom opened cs ∧ SafeFrom (openAfter opened cs) ds := by
  induction cs generalizing opened with
  | nil => simp [SafeFrom]
  | cons c cs ih => simp [SafeFrom, ih, and_assoc]

theorem Known.track {c : Answered} (known : Known opened fd) (kept : ∀ d, c.1 ≠ .close d) :
    Known (track opened c) fd := by
  obtain ⟨call, n⟩ := c
  refine known.imp_left fun member => ?_
  cases call with
  | close d => exact absurd rfl (kept d)
  | socket | accept d =>
      show fd ∈ if n = -1 then opened else insert n opened
      split
      · exact member
      · exact Finset.mem_insert_of_mem member
  | _ => exact member

/-- Calls on known descriptors that close none. -/
theorem safeFrom_of_known (h : ∀ c ∈ cs, (∀ d, c.1 ≠ .close d) ∧
    ∀ fd, c.1.fd? = some fd → Known opened fd) : SafeFrom opened cs := by
  induction cs generalizing opened with
  | nil => trivial
  | cons c cs ih =>
      obtain ⟨first, rest⟩ := List.forall_mem_cons.mp h
      refine ⟨first.2, ih fun d member => ?_⟩
      obtain ⟨kept, known⟩ := rest d member
      exact ⟨kept, fun fd names => (known fd names).track first.1⟩

/-- The calls of an operation that makes a connection: after `socket`, they are about its
descriptor only. -/
theorem safeFrom_socket (h : ∀ c ∈ cs, About fd c) :
    SafeFrom opened ((.socket, fd) :: cs) := by
  refine ⟨nofun, safeFrom_of_known fun c member => ?_⟩
  obtain ⟨kept, names⟩ := h c member
  refine ⟨kept, fun fd' names' => ?_⟩
  obtain rfl := Option.some.inj (names.symm.trans names')
  by_cases failed : fd = -1
  · exact .inr failed
  · refine .inl ?_
    rw [track, if_neg failed]
    exact Finset.mem_insert_self ..

/-- A socket with one role at most is closed once. -/
theorem safeFrom_closing {sock : Sock} (oneWay : ¬ (sock.client = true ∧ sock.server = true))
    (known : Known opened sock.fd) (closed : cs.map Prod.fst = closing sock) :
    SafeFrom opened cs := by
  have pair {ds : List Answered} (same : ds.map Prod.fst = [.shutdown sock.fd 2, .close sock.fd]) :
      SafeFrom opened ds := by
    obtain ⟨⟨_, n⟩, ds, rfl, rfl, last⟩ := List.map_eq_cons_iff.mp same
    obtain ⟨⟨_, k⟩, ds, rfl, rfl, none⟩ := List.map_eq_cons_iff.mp last
    obtain rfl := List.map_eq_nil_iff.mp none
    refine ⟨fun fd same => ?_, fun fd same => ?_, trivial⟩
    · exact Option.some.inj same ▸ known
    · exact Option.some.inj same ▸ known.track (c := (.shutdown sock.fd 2, n)) (by simp)
  unfold closing at closed
  cases client : sock.client with
  | true =>
      cases server : sock.server with
      | true => exact absurd ⟨client, server⟩ oneWay
      | false => exact pair (by simpa [client, server] using closed)
  | false =>
      cases server : sock.server with
      | true => exact pair (by simpa [client, server] using closed)
      | false =>
          obtain rfl : cs = [] := by simpa [client, server] using closed
          trivial

end Lists

section Table

variable {conns conns' : Conns} {opened lost : Finset Int} {cs : List Answered}

/-- Every socket is a client or a server at most. -/
def Conns.OneWay (conns : Conns) : Prop :=
  ∀ i sock, conns i = some sock → ¬ (sock.client = true ∧ sock.server = true)

/-- The table names known descriptors only. -/
def Conns.Names (conns : Conns) (opened : Finset Int) : Prop :=
  ∀ i sock, conns i = some sock → Known opened sock.fd ∧ Known opened sock.fds

theorem Accounts.names (h : Accounts conns opened lost) : conns.Names opened := by
  intro i sock entry
  constructor
  · by_cases connected : sock.connected
    · obtain ⟨_, failed | ⟨member, _⟩⟩ := h.holder i sock entry connected
      · exact .inr failed
      · exact .inl member
    · exact (h.idle i sock entry connected).symm.imp_left fun lost => h.lost_open lost
  · exact (h.second i sock entry).symm.imp_left fun lost => h.lost_open lost

theorem Conns.OneWay.update {i : Nat} {entry : Option Sock} (h : conns.OneWay)
    (new : ∀ sock, entry = some sock → ¬ (sock.client = true ∧ sock.server = true)) :
    Conns.OneWay (Function.update conns i entry) := by
  intro j sock found
  by_cases same : j = i
  · subst same
    exact new sock (by rwa [Function.update_self] at found)
  · exact h j sock (by rwa [Function.update_of_ne same] at found)

theorem Conns.OneWay.step (h : conns.OneWay) (effect : Effect conns cs conns') :
    conns'.OneWay := by
  cases effect with
  | inert | unsaved => exact h
  | idle | client | server =>
      refine h.update fun sock same => ?_
      obtain rfl := Option.some.inj same
      simp [Sock.unconnected]
  | closed => exact h.update fun sock same => by simp at same

end Table

section Operations

variable {env : Env} {s : State} {conns : Conns} {opened : Finset Int}

/-- All calls of the run are about open descriptors, however it ends. -/
abbrev UsesKnown {α : Type} (opened : Finset Int) (o : Outcome State Event Stop α) : Prop :=
  SafeFrom opened (calls o.events)

/-- The operations with a reference call nothing without an entry of the table. -/
theorem lookup_cases (env : Env) (holds : s.netConn.Holds conns) (r : Word) :
    (∃ e, ∀ {α : Type} (rest : Sock → VM α),
        (do netCheckRef r; let sock ← marrGetElement netConn (refToIndex r); rest sock).run env s =
          .stopped e s []) ∨
      ∃ sock, conns (refToIndex r) = some sock ∧ ∀ {α : Type} (rest : Sock → VM α),
        (do netCheckRef r; let sock ← marrGetElement netConn (refToIndex r); rest sock).run env s =
          (rest sock).run env s := by
  cases valid : isNetRef r with
  | false => exact .inl ⟨.error .netRef, fun rest => by simp [netCheckRef, valid]⟩
  | true =>
      cases entry : conns (refToIndex r) with
      | none =>
          have unclaimed : refToIndex r ∉ s.netConn.claimed := fun claimed =>
            holds.claimed_iff.mp claimed entry
          obtain ⟨e, run⟩ := marrGetElement_unclaimed netConn env unclaimed
          exact .inl ⟨e, fun rest => by simp [netCheckRef, valid, run]⟩
      | some sock =>
          refine .inr ⟨sock, rfl, fun rest => ?_⟩
          simp [netCheckRef, valid, marrGetElement_found holds entry]

/-- A connection carries its data on a descriptor of its socket. -/
theorem Conns.Names.dataFd (names : conns.Names opened) {i : Nat} {sock : Sock} {fd : Int}
    (entry : conns i = some sock) (data : sock.dataFd? = some fd) : Known opened fd := by
  obtain ⟨first, second⟩ := names i sock entry
  unfold Sock.dataFd? at data
  split at data
  · exact Option.some.inj data ▸ first
  · split at data
    · exact Option.some.inj data ▸ second
    · contradiction

theorem netRecv_safe (holds : s.netConn.Holds conns) (names : conns.Names opened) (r : Word) :
    UsesKnown opened ((netRecv r).run env s) := by
  obtain ⟨e, stops⟩ | ⟨sock, entry, goes⟩ := lookup_cases env holds r
  · rw [netRecv, stops]
    trivial
  · rw [netRecv, goes]
    cases data : sock.dataFd? with
    | none => trivial
    | some fd =>
        have known := names.dataFd entry data
        simp only [run_bind, run_ask, run_get, run_sysCall, Outcome.andThen_done,
          Outcome.prepend_nil]
        split
        · exact ⟨fun fd' same => Option.some.inj same ▸ known, trivial⟩
        · exact ⟨fun fd' same => Option.some.inj same ▸ known, trivial⟩

theorem netSend_safe (holds : s.netConn.Holds conns) (names : conns.Names opened)
    (r data : Word) : UsesKnown opened ((netSend r data).run env s) := by
  obtain ⟨e, stops⟩ | ⟨sock, entry, goes⟩ := lookup_cases env holds r
  · rw [netSend, stops]
    trivial
  · rw [netSend, goes]
    cases carried : sock.dataFd? with
    | none => trivial
    | some fd =>
        have known := names.dataFd entry carried
        simp only [run_bind, run_sysCall, Outcome.andThen_done]
        split
        · exact ⟨fun fd' same => Option.some.inj same ▸ known, trivial⟩
        · exact ⟨fun fd' same => Option.some.inj same ▸ known, trivial⟩

theorem netClose_safe (holds : s.netConn.Holds conns) (names : conns.Names opened)
    (oneWay : conns.OneWay) (r : Word) : UsesKnown opened ((netClose r).run env s) := by
  cases valid : isNetRef r with
  | false =>
      obtain ⟨e, run⟩ := netClose_stopped env holds (r := r) fun wrong =>
        absurd (valid.symm.trans wrong) Bool.false_ne_true
      rw [run]
      trivial
  | true =>
      cases entry : conns (refToIndex r) with
      | none =>
          obtain ⟨e, run⟩ := netClose_stopped env holds (r := r) fun _ => entry
          rw [run]
          trivial
      | some sock =>
          obtain ⟨t, es, run, _, closed⟩ := netClose_run env holds valid entry
          rw [run]
          exact safeFrom_closing (oneWay _ _ entry) (names _ _ entry).1 closed

/-- The calls of an attempt to make a connection. -/
def Opening (cs : List Answered) : Prop :=
  (∀ c ∈ cs, c.1 = .socket) ∨ ∃ fd ds, cs = (.socket, fd) :: ds ∧ ∀ c ∈ ds, About fd c

theorem Opening.safe {cs : List Answered} (opening : Opening cs) : SafeFrom opened cs := by
  obtain sockets | ⟨fd, ds, rfl, names⟩ := opening
  · refine safeFrom_of_known fun c member => ?_
    rw [sockets c member]
    exact ⟨nofun, nofun⟩
  · exact safeFrom_socket names

/-- What follows `socketCreate` in such an attempt. -/
theorem opening_of_created {α : Type} {host : Word} {port : BitVec 16} {rest : Word → VM α}
    (holds : s.netConn.Holds conns) (below : conns.Below)
    (names : ∀ fd, ∀ i < 2 ^ 20, ∀ t : State,
      t.netConn.Holds (Function.update conns i (some (.unconnected fd host port))) →
      ∀ c ∈ calls ((rest (indexToRef netTag i)).run env t).events, About fd c) :
    UsesKnown opened ((socketCreate host port >>= rest).run env s) := by
  rw [run_bind]
  have created : ((socketCreate host port).run env s).Satisfies _ _ :=
    socketCreate_creates holds below host port
  cases run : (socketCreate host port).run env s with
  | stopped e t es =>
      rw [run] at created
      exact Opening.safe (.inl created.2)
  | done r t es =>
      rw [run] at created
      obtain ⟨fd, i, fits, rfl, socket, claims⟩ := created
      rw [Outcome.andThen_done, UsesKnown, Outcome.events_prepend, calls_append, socket]
      exact Opening.safe (.inr ⟨fd, _, rfl, names fd i fits t claims.holds⟩)

theorem netBind_safe (holds : s.netConn.Holds conns) (below : conns.Below) (port : Word) :
    UsesKnown opened ((netBind port).run env s) := by
  refine opening_of_created holds below fun fd i fits t stored => ?_
  have about (call : SysCall) (n : Int) (kept : ∀ d, call ≠ .close d) (names : call.fd? = some fd) :
      About fd (call, n) := ⟨kept, names⟩
  rw [refToIndex_indexToRef netTag_isTag fits, run_bind,
    marrGetElement_found stored (Function.update_self ..)]
  simp only [run_bind, run_sysCall, Outcome.andThen_done, Outcome.prepend_nil,
    Outcome.events_prepend, calls_sys, List.singleton_append, List.forall_mem_cons]
  refine ⟨about _ _ (by simp) rfl, ?_⟩
  split
  · exact List.forall_mem_nil _
  simp only [run_bind, run_sysCall, Outcome.andThen_done, Outcome.events_prepend, calls_sys,
    List.singleton_append, List.forall_mem_cons]
  refine ⟨about _ _ (by simp) rfl, ?_⟩
  split
  · exact List.forall_mem_nil _
  simp only [run_bind, run_sysCall, updateSock, run_modify, Outcome.andThen_done,
    Outcome.events_prepend, calls_append, calls_sys, calls_nil, List.singleton_append,
    List.forall_mem_cons]
  refine ⟨about _ _ (by simp) rfl, ?_⟩
  split
  · exact List.forall_mem_nil _
  · exact List.forall_mem_nil _

theorem netConnect_safe (holds : s.netConn.Holds conns) (below : conns.Below)
    (host port : Word) : UsesKnown opened ((netConnect host port).run env s) := by
  refine opening_of_created holds below fun fd i fits t stored => ?_
  rw [refToIndex_indexToRef netTag_isTag fits, run_bind,
    marrGetElement_found stored (Function.update_self ..)]
  simp only [run_bind, run_sysCall, Outcome.andThen_done, Outcome.prepend_nil,
    Outcome.events_prepend, calls_sys, List.singleton_append, List.forall_mem_cons]
  refine ⟨⟨nofun, rfl⟩, ?_⟩
  split
  · exact List.forall_mem_nil _
  · exact List.forall_mem_nil _

/-- Each operation is about open descriptors, from a table that names such descriptors. -/
theorem NetOp.safe (env : Env) (holds : s.netConn.Holds conns) (below : conns.Below)
    (names : conns.Names opened) (oneWay : conns.OneWay) (op : NetOp) :
    UsesKnown opened (op.exec.run env s) := by
  have silent {α : Type} {m : VM α} (safe : UsesKnown opened (m.run env s)) :
      UsesKnown opened ((do let _ ← m : VM Unit).run env s) := by
    rw [run_bind]
    cases run : m.run env s with
    | stopped e t es =>
        rw [run] at safe
        exact safe
    | done a t es =>
        rw [run] at safe
        simpa [UsesKnown] using safe
  cases op with
  | bind port => exact silent (netBind_safe holds below port)
  | connect host port => exact silent (netConnect_safe holds below host port)
  | recv r => exact silent (netRecv_safe holds names r)
  | send r data => exact netSend_safe holds names r data
  | close r => exact netClose_safe holds names oneWay r

end Operations

section Histories

variable {env : Env} {s₀ s t : State} {past : List NetCall} {conns conns' : Conns}
  {opened lost : Finset Int}

/-- The account of a history whose calls were all about open descriptors. -/
structure Careful (s : State) (past : List NetCall) (conns : Conns) (lost : Finset Int) : Prop
    extends Ledger s past conns lost where
  oneWay : conns.OneWay
  safe : SafeFrom ∅ (history past)

theorem Careful.names (careful : Careful s past conns lost) :
    conns.Names (openAfter ∅ (history past)) :=
  careful.accounts.names

/-- One more operation. -/
theorem Careful.call (careful : Careful s past conns lost) (below : conns.Below) {op : NetOp}
    {es : List Event} (effect : Effect conns (calls es) conns') (after : t.netConn.Holds conns')
    (same : (op.exec.run env s).events = es)
    (fresh : FreshFrom ∅ (history (past ++ [⟨op, s, t, es⟩]))) :
    ∃ lost', Careful t (past ++ [⟨op, s, t, es⟩]) conns' lost' := by
  obtain ⟨lost', ledger⟩ := careful.toLedger.call effect after fresh
  refine ⟨lost', ledger, careful.oneWay.step effect, ?_⟩
  have safe := NetOp.safe env careful.holds below careful.names careful.oneWay op
  rw [UsesKnown, same] at safe
  rw [history_concat, safeFrom_append]
  exact ⟨careful.safe, safe⟩

theorem NetRun.careful (empty : s₀.netConn = .none) (run : NetRun env s₀ s past)
    (fresh : FreshFrom ∅ (history past)) :
    ∃ conns lost, conns.Below ∧ Careful s past conns lost := by
  induction run with
  | start =>
      exact ⟨_, _, fun _ used => absurd rfl used, .start empty, fun _ _ entry => absurd entry nofun,
        trivial⟩
  | other run same ih =>
      obtain ⟨conns, lost, below, careful⟩ := ih fresh
      exact ⟨conns, lost, below, { careful with holds := same ▸ careful.holds }⟩
  | @call s _ _ op _ run returns ih =>
      have earlier := fresh
      rw [history_concat, freshFrom_append] at earlier
      obtain ⟨conns, lost, below, careful⟩ := ih earlier.1
      have settled := NetOp.effect env careful.holds below op
      rw [returns] at settled
      obtain ⟨conns', effect, after, below'⟩ := settled
      obtain ⟨lost', careful'⟩ := careful.call below effect after (by rw [returns]; rfl) fresh
      exact ⟨conns', lost', below', careful'⟩

theorem NetEnds.careful (empty : s₀.netConn = .none) (ends : NetEnds env s₀ s past)
    (fresh : FreshFrom ∅ (history past)) : ∃ conns lost, Careful s past conns lost := by
  cases ends with
  | idle run =>
      obtain ⟨conns, lost, _, careful⟩ := run.careful empty fresh
      exact ⟨conns, lost, careful⟩
  | @stopped s _ past op _ _ run stop =>
      have earlier := fresh
      rw [history_concat, freshFrom_append] at earlier
      obtain ⟨conns, lost, below, careful⟩ := run.careful empty earlier.1
      have spoiled := NetOp.effect env careful.holds below op
      rw [stop] at spoiled
      obtain ⟨conns', effect, after⟩ := spoiled
      exact ⟨conns', careful.call below effect after (by rw [stop]; rfl) fresh⟩

/-- The loop of `netDestroy` closes each descriptor once. -/
theorem destroyLoop_safe (env : Env) (count : Nat) {first : Nat} (holds : s.netConn.Holds conns)
    (accounts : Accounts conns opened lost) (oneWay : conns.OneWay)
    (size : first + count = s.netConn.size) (below : ∀ i < first, conns i = none) :
    UsesKnown opened ((forRange first count destroyEntry).run env s) := by
  induction count generalizing first s conns opened with
  | zero => trivial
  | succ count ih =>
      have unfolded : (forRange first (count + 1) destroyEntry).run env s =
          ((destroyEntry first).run env s).andThen fun _ t =>
            (forRange (first + 1) count destroyEntry).run env t := rfl
      have next {conns' : Conns} (gone : conns' first = none)
          (others : ∀ i < first, conns' i = none) : ∀ i < first + 1, conns' i = none := by
        intro i le
        obtain lt | rfl := Nat.lt_or_eq_of_le (Nat.le_of_lt_succ le)
        · exact others i lt
        · exact gone
      rw [unfolded]
      cases entry : conns first with
      | none =>
          rw [destroyEntry_free env holds (by omega) entry, Outcome.andThen_done,
            Outcome.prepend_nil]
          exact ih holds accounts oneWay (by omega) (next entry below)
      | some sock =>
          by_cases fits : first < 2 ^ 20
          · obtain ⟨t, es, run, ⟨removed, same⟩, closed⟩ := destroyEntry_closes env holds entry fits
            rw [run, Outcome.andThen_done, UsesKnown, Outcome.events_prepend, calls_append,
              safeFrom_append, openAfter_closing closed]
            refine ⟨safeFrom_closing (oneWay _ _ entry) (accounts.names _ _ entry).1 closed, ?_⟩
            refine ih removed (accounts.remove entry) (oneWay.update nofun) (by omega)
              (next (Function.update_self ..) fun i lt => ?_)
            rw [Function.update_of_ne (Nat.ne_of_lt lt)]
            exact below i lt
          · obtain ⟨e, run⟩ := destroyEntry_stops env holds entry (Nat.le_of_not_lt fits) below
            rw [run]
            trivial

theorem netDestroy_safe (holds : s.netConn.Holds conns) (accounts : Accounts conns opened lost)
    (oneWay : conns.OneWay) : UsesKnown opened (netDestroy.run env s) := by
  have loop := destroyLoop_safe env s.netConn.size holds accounts oneWay (Nat.zero_add _)
    fun i below => absurd below (Nat.not_lt_zero i)
  have unfolded : netDestroy.run env s =
      ((forRange 0 s.netConn.size destroyEntry).run env s).andThen fun _ t =>
        (marrDestroy netConn).run env t := by
    rw [netDestroy, run_bind, run_get, Outcome.andThen_done, Outcome.prepend_nil]
    rfl
  rw [unfolded]
  cases run : (forRange 0 s.netConn.size destroyEntry).run env s with
  | stopped e t es =>
      rw [run] at loop
      exact loop
  | done u t es =>
      rw [run] at loop
      simpa [marrDestroy, UsesKnown] using loop

end Histories

section Runs

variable {env : Env} {file : List Byte} {s₀ : State}

/-- What a program does to the connections ends some history. -/
theorem Traced.ends {α : Type} {m : VM α} (traced : Traced α m) (env : Env) (s : State) :
    ∃ past, NetEnds env s (m.run env s).state past ∧ history past = calls (m.run env s).events := by
  have whole := traced env s s [] .start
  cases ending : m.run env s with
  | done u t es =>
      rw [ending] at whole
      obtain ⟨past, run, same⟩ := whole
      exact ⟨past, .idle run, same⟩
  | stopped e t es =>
      rw [ending] at whole
      exact whole

/-- Connect to a peer and close the connection: BIPUSH 1; BIPUSH 9; NETCONNECT; NETCLOSE; HALT. -/
def connectThenClose : List Byte := assemble []
  [Op.bipush.code, 1, Op.bipush.code, 9, Op.netconnect.code, Op.netclose.code, Op.halt.code]

/-- Surroundings in which every system call returns 3. -/
def Env.answering : Env := { Env.quiet with sys := fun _ => 3 }

end Runs

end Ijvm
