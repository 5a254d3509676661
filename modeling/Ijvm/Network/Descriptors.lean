import Ijvm.Machine.Launch
import Ijvm.Network.Connections

/-!
# Descriptors and the connections they belong to

The open descriptors are followed through the system calls: `socket` and `accept` return new
ones, `close` takes one away. An account splits them into those that a connected socket
holds in `fd`, which `netClose` will close, and those that are lost, which nothing closes:
the descriptor of a socket that was not connected, and every descriptor from `accept`.

`descriptors_iff` says which histories lose none.
-/

namespace Ijvm

open Transcript Program

/-- The open descriptors after a call. -/
def track (opened : Finset Int) : Answered → Finset Int
  | (.socket, n) => if n = -1 then opened else insert n opened
  | (.accept _, n) => if n = -1 then opened else insert n opened
  | (.close fd, _) => opened.erase fd
  | _ => opened

def openAfter (opened : Finset Int) (cs : List Answered) : Finset Int := cs.foldl track opened

/-- The descriptor that a call returns is not open yet. -/
def Fresh (opened : Finset Int) : Answered → Prop
  | (.socket, n) => n ∉ opened
  | (.accept _, n) => n ∉ opened
  | _ => True

/-- Every descriptor is new when it is returned. -/
def FreshFrom : Finset Int → List Answered → Prop
  | _, [] => True
  | opened, c :: cs => Fresh opened c ∧ FreshFrom (track opened c) cs

@[simp] theorem openAfter_nil (opened : Finset Int) : openAfter opened [] = opened := rfl

@[simp] theorem openAfter_cons (opened : Finset Int) (c : Answered) (cs : List Answered) :
    openAfter opened (c :: cs) = openAfter (track opened c) cs := rfl

theorem openAfter_append (opened : Finset Int) (cs ds : List Answered) :
    openAfter opened (cs ++ ds) = openAfter (openAfter opened cs) ds :=
  List.foldl_append

theorem freshFrom_append {opened : Finset Int} {cs ds : List Answered} :
    FreshFrom opened (cs ++ ds) ↔ FreshFrom opened cs ∧ FreshFrom (openAfter opened cs) ds := by
  induction cs generalizing opened with
  | nil => simp [FreshFrom]
  | cons c cs ih => simp [FreshFrom, ih, and_assoc]

theorem track_inert {opened : Finset Int} {c : Answered} (h : Inert c) :
    track opened c = opened := by
  obtain ⟨call, n⟩ := c
  cases call with
  | socket => exact h.elim
  | close fd => exact h.elim
  | accept fd => exact if_pos h
  | _ => rfl

theorem openAfter_inert {opened : Finset Int} {cs : List Answered} (h : ∀ c ∈ cs, Inert c) :
    openAfter opened cs = opened := by
  induction cs with
  | nil => rfl
  | cons c cs ih =>
      obtain ⟨first, rest⟩ := List.forall_mem_cons.mp h
      rw [openAfter_cons, track_inert first, ih rest]

theorem openAfter_closeIf {opened : Finset Int} {cs : List Answered} {fd : Int} {c : Bool}
    (h : cs.map Prod.fst = if c then [.shutdown fd 2, .close fd] else []) :
    openAfter opened cs = if c then opened.erase fd else opened := by
  cases c with
  | false =>
      rw [List.map_eq_nil_iff.mp h]
      rfl
  | true =>
      obtain ⟨⟨_, n⟩, ds, rfl, rfl, last⟩ := List.map_eq_cons_iff.mp h
      obtain ⟨⟨_, k⟩, ds, rfl, rfl, none⟩ := List.map_eq_cons_iff.mp last
      rw [List.map_eq_nil_iff.mp none]
      rfl

/-- Closing a socket takes its descriptor away if it has a role, and nothing else. -/
theorem openAfter_closing {opened : Finset Int} {cs : List Answered} {sock : Sock}
    (h : cs.map Prod.fst = closing sock) :
    openAfter opened cs = if sock.connected then opened.erase sock.fd else opened := by
  obtain ⟨cs, ds, rfl, client, server⟩ := List.map_eq_append_iff.mp h
  rw [openAfter_append, openAfter_closeIf client, openAfter_closeIf server, Sock.connected]
  cases sock.client <;> cases sock.server <;> simp

/-- The operation loses no descriptor: `accept` returns none, and a `socket` that returns
one gets connected. -/
structure Releasable (cs : List Answered) : Prop where
  accepted : ∀ fd n, (.accept fd, n) ∈ cs → n = -1
  connected : ∀ fd, (.socket, fd) ∈ cs →
    fd = -1 ∨ ∃ host port n, (.connect fd host port, n) ∈ cs ∧ n ≠ -1

/-- An account of the open descriptors. -/
structure Accounts (conns : Conns) (opened lost : Finset Int) : Prop where
  lost_open : lost ⊆ opened
  valid : -1 ∉ opened
  /-- A descriptor that is not lost is held by a connection. -/
  held : ∀ d ∈ opened, d ∈ lost ∨ ∃ i sock, conns i = some sock ∧ sock.connected ∧ sock.fd = d
  /-- What a connected socket holds is open, unless the call failed. -/
  holder : ∀ i sock, conns i = some sock → sock.connected →
    i < 2 ^ 20 ∧ (sock.fd = -1 ∨ sock.fd ∈ opened ∧ sock.fd ∉ lost)
  idle : ∀ i sock, conns i = some sock → ¬ sock.connected → sock.fd = -1 ∨ sock.fd ∈ lost
  second : ∀ i sock, conns i = some sock → sock.fds = -1 ∨ sock.fds ∈ lost
  /-- Connected sockets do not share a descriptor. -/
  distinct : ∀ i j sock sock', conns i = some sock → conns j = some sock' → sock.connected →
    sock'.connected → sock.fd = sock'.fd → sock.fd = -1 ∨ i = j

namespace Accounts

variable {conns conns' : Conns} {opened lost : Finset Int} {i : Nat} {sock : Sock}

theorem empty : Accounts (fun _ => none) ∅ ∅ := by
  refine ⟨subset_rfl, ?_, ?_, ?_, ?_, ?_, ?_⟩ <;> simp

/-- A descriptor that no connection will hold. -/
theorem lose (h : Accounts conns opened lost) {d : Int} (fresh : d ∉ opened) (valid : d ≠ -1) :
    Accounts conns (insert d opened) (insert d lost) := by
  have other {e : Int} (member : e ∈ opened) : e ≠ d := fun same => fresh (same ▸ member)
  refine ⟨Finset.insert_subset_insert d h.lost_open, ?_, ?_, ?_, ?_, ?_, h.distinct⟩
  · rw [Finset.mem_insert, not_or]
    exact ⟨Ne.symm valid, h.valid⟩
  · intro e member
    obtain rfl | member := Finset.mem_insert.mp member
    · exact Or.inl (Finset.mem_insert_self ..)
    · exact (h.held e member).imp_left Finset.mem_insert_of_mem
  · intro i sock entry connected
    obtain ⟨fits, closed | ⟨member, kept⟩⟩ := h.holder i sock entry connected
    · exact ⟨fits, Or.inl closed⟩
    · refine ⟨fits, Or.inr ⟨Finset.mem_insert_of_mem member, ?_⟩⟩
      rw [Finset.mem_insert, not_or]
      exact ⟨other member, kept⟩
  · intro i sock entry idle
    exact (h.idle i sock entry idle).imp_right Finset.mem_insert_of_mem
  · intro i sock entry
    exact (h.second i sock entry).imp_right Finset.mem_insert_of_mem

theorem update_eq_some {entry : Option Sock} {j : Nat} {found : Sock} :
    Function.update conns i entry j = some found ↔
      (j = i ∧ entry = some found) ∨ (j ≠ i ∧ conns j = some found) := by
  by_cases same : j = i
  · subst same
    simp
  · simp [same]

/-- A new entry for a socket that holds no descriptor of its own. -/
theorem unconnected (h : Accounts conns opened lost) (free : conns i = none)
    (idle : ¬ sock.connected) (first : sock.fd = -1 ∨ sock.fd ∈ lost)
    (second : sock.fds = -1 ∨ sock.fds ∈ lost) :
    Accounts (Function.update conns i (some sock)) opened lost := by
  have := h.held
  refine ⟨h.lost_open, h.valid, ?_, ?_, ?_, ?_, ?_⟩ <;> simp only [update_eq_some]
  · intro d member
    obtain lost | ⟨j, found, entry, connected, same⟩ := h.held d member
    · exact Or.inl lost
    · refine Or.inr ⟨j, found, Or.inr ⟨?_, entry⟩, connected, same⟩
      rintro rfl
      simp [free] at entry
  · rintro j found (⟨rfl, new⟩ | ⟨_, entry⟩) connected
    · exact absurd (Option.some.inj new ▸ connected) idle
    · exact h.holder j found entry connected
  · rintro j found (⟨rfl, new⟩ | ⟨_, entry⟩) connected
    · exact Option.some.inj new ▸ first
    · exact h.idle j found entry connected
  · rintro j found (⟨rfl, new⟩ | ⟨_, entry⟩)
    · exact Option.some.inj new ▸ second
    · exact h.second j found entry
  · rintro j k found found' (⟨rfl, new⟩ | ⟨_, entry⟩) (⟨rfl, new'⟩ | ⟨_, entry'⟩) connected
      connected'
    · exact fun _ => Or.inr rfl
    · exact absurd (Option.some.inj new ▸ connected) idle
    · exact absurd (Option.some.inj new' ▸ connected') idle
    · exact h.distinct j k found found' entry entry' connected connected'

/-- A new connection holds its descriptor. -/
theorem connect (h : Accounts conns opened lost) (free : conns i = none) (fits : i < 2 ^ 20)
    (connected : sock.connected) (fresh : sock.fd ∉ opened)
    (second : sock.fds = -1 ∨ sock.fds ∈ lost) :
    Accounts (Function.update conns i (some sock)) (track opened (.socket, sock.fd)) lost := by
  have member {d : Int} :
      d ∈ track opened (.socket, sock.fd) ↔ d ∈ opened ∨ sock.fd ≠ -1 ∧ d = sock.fd := by
    rw [track]
    split <;> simp [*, or_comm]
  have kept : sock.fd ∉ lost := fun lost => fresh (h.lost_open lost)
  -- The descriptors of the other connections are open already.
  have apart {j : Nat} {found : Sock} (entry : conns j = some found) (other : found.connected)
      (same : found.fd = sock.fd) : sock.fd = -1 := by
    obtain closed | ⟨opened, _⟩ := (h.holder j found entry other).2
    · exact same ▸ closed
    · exact absurd (same ▸ opened) fresh
  refine ⟨fun d lost => member.mpr (Or.inl (h.lost_open lost)), ?_, ?_, ?_, ?_, ?_, ?_⟩ <;>
    simp only [update_eq_some, member]
  · rintro (opened | ⟨valid, same⟩)
    · exact h.valid opened
    · exact valid same.symm
  · rintro d (opened | ⟨_, rfl⟩)
    · obtain lost | ⟨j, found, entry, other, same⟩ := h.held d opened
      · exact Or.inl lost
      · refine Or.inr ⟨j, found, Or.inr ⟨?_, entry⟩, other, same⟩
        rintro rfl
        simp [free] at entry
    · exact Or.inr ⟨i, sock, Or.inl ⟨rfl, rfl⟩, connected, rfl⟩
  · rintro j found (⟨rfl, new⟩ | ⟨_, entry⟩) other
    · obtain rfl := Option.some.inj new
      by_cases failed : sock.fd = -1
      · exact ⟨fits, Or.inl failed⟩
      · exact ⟨fits, Or.inr ⟨Or.inr ⟨failed, rfl⟩, kept⟩⟩
    · obtain ⟨fits, holds⟩ := h.holder j found entry other
      exact ⟨fits, holds.imp_right fun ⟨opened, kept⟩ => ⟨Or.inl opened, kept⟩⟩
  · rintro j found (⟨rfl, new⟩ | ⟨_, entry⟩) idle
    · exact absurd (Option.some.inj new ▸ connected) idle
    · exact h.idle j found entry idle
  · rintro j found (⟨rfl, new⟩ | ⟨_, entry⟩)
    · exact Option.some.inj new ▸ second
    · exact h.second j found entry
  · rintro j k found found' (⟨rfl, new⟩ | ⟨_, entry⟩) (⟨rfl, new'⟩ | ⟨_, entry'⟩) other other' same
    · exact Or.inr rfl
    · obtain rfl := Option.some.inj new
      exact Or.inl (apart entry' other' same.symm)
    · obtain rfl := Option.some.inj new'
      exact Or.inl (same.trans (apart entry other same))
    · exact h.distinct j k found found' entry entry' other other' same

/-- A connection that is removed closes its descriptor if it was connected. -/
theorem remove (h : Accounts conns opened lost) (entry : conns i = some sock) :
    Accounts (Function.update conns i none)
      (if sock.connected then opened.erase sock.fd else opened) lost := by
  have member {d : Int} : d ∈ (if sock.connected then opened.erase sock.fd else opened) ↔
      d ∈ opened ∧ (sock.connected → d ≠ sock.fd) := by
    split <;> simp [*, and_comm]
  have stays {d : Int} (lost : d ∈ lost) : sock.connected → d ≠ sock.fd := by
    rintro connected rfl
    obtain failed | ⟨_, kept⟩ := (h.holder i sock entry connected).2
    · exact h.valid (failed ▸ h.lost_open lost)
    · exact kept lost
  refine ⟨fun d lost => member.mpr ⟨h.lost_open lost, stays lost⟩,
    fun opened => h.valid (member.mp opened).1, ?_, ?_, ?_, ?_, ?_⟩ <;>
    simp only [update_eq_some, member, reduceCtorEq, and_false, false_or]
  · rintro d ⟨opened, other⟩
    obtain lost | ⟨j, found, entry', connected, same⟩ := h.held d opened
    · exact Or.inl lost
    · refine Or.inr ⟨j, found, ⟨?_, entry'⟩, connected, same⟩
      rintro rfl
      obtain rfl := Option.some.inj (entry.symm.trans entry')
      exact other connected same.symm
  · rintro j found ⟨other, entry'⟩ connected
    obtain ⟨fits, failed | ⟨opened, kept⟩⟩ := h.holder j found entry' connected
    · exact ⟨fits, Or.inl failed⟩
    · refine ⟨fits, Or.inr ⟨⟨opened, fun connected' same => ?_⟩, kept⟩⟩
      obtain failed | same := h.distinct j i found sock entry' entry connected connected' same
      · exact h.valid (failed ▸ opened)
      · exact other same
  · rintro j found ⟨_, entry'⟩
    exact h.idle j found entry'
  · rintro j found ⟨_, entry'⟩
    exact h.second j found entry'
  · rintro j k found found' ⟨_, entry'⟩ ⟨_, entry''⟩
    exact h.distinct j k found found' entry' entry''

/-- Where nothing is lost, nothing of a removed connection stays open. -/
theorem closed (h : Accounts conns opened ∅) (entry : conns i = some sock) :
    sock.fd ∉ (if sock.connected then opened.erase sock.fd else opened) ∧
      sock.fds ∉ (if sock.connected then opened.erase sock.fd else opened) := by
  have given {d : Int} (h' : d = -1 ∨ d ∈ (∅ : Finset Int)) : d ∉ opened := by
    obtain rfl | wrong := h'
    · exact h.valid
    · exact absurd wrong (Finset.notMem_empty d)
  have second := given (h.second i sock entry)
  split
  · exact ⟨Finset.notMem_erase _ _, fun opened => second (Finset.mem_of_mem_erase opened)⟩
  · rename_i idle
    exact ⟨given (h.idle i sock entry idle), second⟩

end Accounts

section Steps

variable {conns conns' : Conns} {opened lost : Finset Int} {cs : List Answered}

theorem Releasable.of_inert (h : ∀ c ∈ cs, Inert c) : Releasable cs :=
  ⟨fun _ _ member => h _ member, fun _ member => (h _ member).elim⟩

theorem Releasable.of_closing {sock : Sock} (h : cs.map Prod.fst = closing sock) :
    Releasable cs := by
  have call {c : SysCall} {n : Int} (member : (c, n) ∈ cs) :
      c = .shutdown sock.fd 2 ∨ c = .close sock.fd := by
    have member := List.mem_map_of_mem (f := Prod.fst) member
    rw [h, closing, List.mem_append] at member
    obtain member | member := member
    all_goals
      split at member
      · simpa using member
      · exact absurd member List.not_mem_nil
  refine ⟨fun fd n member => ?_, fun fd member => ?_⟩
  · obtain wrong | wrong := call member <;> contradiction
  · obtain wrong | wrong := call member <;> contradiction

/-- A socket that does not get connected loses its descriptor. -/
theorem Accounts.waste (h : Accounts conns opened lost) {fd : Int} (inert : ∀ c ∈ cs, Inert c)
    (fresh : fd ∉ opened) :
    ∃ lost', Accounts conns (openAfter opened ((.socket, fd) :: cs)) lost' ∧
      (fd = -1 ∨ fd ∈ lost') ∧
      (lost' = ∅ ↔ lost = ∅ ∧ Releasable ((.socket, fd) :: cs)) := by
  rw [openAfter_cons, openAfter_inert inert, track]
  by_cases failed : fd = -1
  · rw [if_pos failed]
    refine ⟨lost, h, Or.inl failed, (and_iff_left ?_).symm⟩
    refine ⟨fun fd' n member => ?_, fun fd' member => ?_⟩
    · exact inert _ (by simpa using member)
    · obtain same | member := List.mem_cons.mp member
      · injection same with _ same
        exact Or.inl (same.trans failed)
      · exact (inert _ member).elim
  · rw [if_neg failed]
    refine ⟨insert fd lost, h.lose fresh failed, Or.inr (Finset.mem_insert_self ..), ?_⟩
    refine iff_of_false (Finset.insert_ne_empty _ _) ?_
    rintro ⟨_, releasable⟩
    obtain wrong | ⟨host, port, n, member, success⟩ := releasable.connected fd (by simp)
    · exact failed wrong
    · have inert : Inert (.connect fd host port, n) := inert _ (by simpa using member)
      exact success inert

/-- A server holds the descriptor of its socket; the one from `accept` is lost. -/
theorem Accounts.serve (h : Accounts conns opened lost) {i : Nat} {sock : Sock} {fd fds n k : Int}
    {host : Word} {port : BitVec 16} (free : conns i = none) (fits : i < 2 ^ 20)
    (success : fds ≠ -1) (connected : sock.connected) (first : sock.fd = fd)
    (second : sock.fds = fds)
    (fresh : FreshFrom opened [(.socket, fd), (.bind fd host port, n),
      (.listen fd netMaxBacklog, k), (.accept fd, fds)]) :
    Accounts (Function.update conns i (some sock))
      (openAfter opened [(.socket, fd), (.bind fd host port, n), (.listen fd netMaxBacklog, k),
        (.accept fd, fds)]) (insert fds lost) := by
  obtain ⟨socket, _, _, accept, _⟩ := fresh
  -- The order of the two new descriptors does not matter to the account.
  have swap : openAfter opened [(.socket, fd), (.bind fd host port, n),
      (.listen fd netMaxBacklog, k), (.accept fd, fds)] =
      track (insert fds opened) (.socket, fd) := by
    simp only [openAfter_cons, openAfter_nil, track, if_neg success]
    split
    · rfl
    · exact Finset.insert_comm ..
  have new : fds ∉ opened := by
    intro wrong
    apply accept
    simp only [track]
    split
    · exact wrong
    · exact Finset.mem_insert_of_mem wrong
  have apart : fd ∉ insert fds opened := by
    rw [Finset.mem_insert, not_or]
    refine ⟨?_, socket⟩
    rintro rfl
    simp [Fresh, track, success] at accept
  rw [swap, ← first]
  exact (h.lose new success).connect free fits connected (first ▸ apart)
    (Or.inr (second ▸ Finset.mem_insert_self ..))

/-- One operation keeps the account. Nothing is lost exactly if nothing was lost before and
the operation loses nothing. -/
theorem Accounts.step (h : Accounts conns opened lost) (effect : Effect conns cs conns')
    (fresh : FreshFrom opened cs) :
    ∃ lost', Accounts conns' (openAfter opened cs) lost' ∧
      (lost' = ∅ ↔ lost = ∅ ∧ Releasable cs) := by
  cases effect with
  | inert inert =>
      rw [openAfter_inert inert]
      exact ⟨lost, h, (and_iff_left (.of_inert inert)).symm⟩
  | unsaved =>
      obtain ⟨lost', accounts, _, none⟩ := h.waste (List.forall_mem_nil _) fresh.1
      exact ⟨lost', accounts, none⟩
  | idle free inert =>
      obtain ⟨lost', accounts, given, none⟩ := h.waste inert fresh.1
      exact ⟨lost', accounts.unconnected free (by simp [Sock.connected, Sock.unconnected]) given
        (Or.inl rfl), none⟩
  | @client fd n i host port free fits success =>
      refine ⟨lost, h.connect free fits rfl fresh.1 (Or.inl rfl), (and_iff_left ?_).symm⟩
      refine ⟨by simp, fun fd' member => Or.inr ⟨host, port, n, ?_, success⟩⟩
      have same : fd' = fd := by simpa using member
      simp [same]
  | @server fd n k fds i host port free fits success =>
      refine ⟨insert fds lost, h.serve free fits success rfl rfl rfl fresh,
        iff_of_false (Finset.insert_ne_empty _ _) ?_⟩
      rintro ⟨_, releasable⟩
      exact success (releasable.accepted fd fds (by simp))
  | closed claimed closed =>
      rw [openAfter_closing closed]
      exact ⟨lost, h.remove claimed, (and_iff_left (.of_closing closed)).symm⟩

end Steps

/-- An operation that took place, with what it wrote. -/
structure NetCall where
  op : NetOp
  before : State
  after : State
  events : List Event

def history (past : List NetCall) : List Answered := past.flatMap fun call => calls call.events

/-- The call has removed the connection with this socket. -/
def NetCall.Removes (call : NetCall) (sock : Sock) : Prop :=
  ∃ i ∈ call.before.netConn.claimed, i ∉ call.after.netConn.claimed ∧
    call.before.netConn.value i = sock

/-- Operations one after the other, each of which returns. What happens between them does
not touch the connections. -/
inductive NetRun (env : Env) (s₀ : State) : State → List NetCall → Prop where
  | start : NetRun env s₀ s₀ []
  | call {s t : State} {past : List NetCall} {op : NetOp} {es : List Event}
      (run : NetRun env s₀ s past) (returns : op.exec.run env s = .done () t es) :
      NetRun env s₀ t (past ++ [⟨op, s, t, es⟩])
  | other {s t : State} {past : List NetCall} (run : NetRun env s₀ s past)
      (same : t.netConn = s.netConn) : NetRun env s₀ t past

/-- The state in which `netDestroy` starts: no operation is under way, or the last one has
stopped the machine. -/
inductive NetEnds (env : Env) (s₀ : State) : State → List NetCall → Prop where
  | idle {s : State} {past : List NetCall} (run : NetRun env s₀ s past) : NetEnds env s₀ s past
  | stopped {s t : State} {past : List NetCall} {op : NetOp} {e : Stop} {es : List Event}
      (run : NetRun env s₀ s past) (stop : op.exec.run env s = .stopped e t es) :
      NetEnds env s₀ t (past ++ [⟨op, s, t, es⟩])

/-- The descriptors of each connection that was removed were closed by then. -/
def ClosedWhenRemoved (past : List NetCall) : Prop :=
  ∀ before call sock, before ++ [call] <+: past → call.Removes sock →
    sock.fd ∉ openAfter ∅ (history (before ++ [call])) ∧
    sock.fds ∉ openAfter ∅ (history (before ++ [call]))

/-- No descriptor outlives its connection, nor `netDestroy` at the end. -/
structure NoneOutlives (env : Env) (s : State) (past : List NetCall) : Prop where
  removed : ClosedWhenRemoved past
  destroyed : openAfter ∅ (history past ++ calls (netDestroy.run env s).events) = ∅

/-- The account of a history. -/
structure Ledger (s : State) (past : List NetCall) (conns : Conns) (lost : Finset Int) : Prop where
  holds : s.netConn.Holds conns
  accounts : Accounts conns (openAfter ∅ (history past)) lost
  none_iff : lost = ∅ ↔ ∀ call ∈ past, Releasable (calls call.events)
  released : lost = ∅ → ClosedWhenRemoved past

section Histories

variable {env : Env} {s₀ s t : State} {past : List NetCall} {conns conns' : Conns}
  {lost : Finset Int}

@[simp] theorem history_concat (past : List NetCall) (call : NetCall) :
    history (past ++ [call]) = history past ++ calls call.events := by
  simp [history]

theorem update_some_ne_none {i : Nat} {sock : Sock} (entry : conns i = some sock) (j : Nat)
    (new : Sock) : Function.update conns j (some new) i ≠ none := by
  by_cases same : i = j
  · subst same
    rw [Function.update_self]
    exact Option.some_ne_none new
  · rw [Function.update_of_ne same, entry]
    exact Option.some_ne_none sock

/-- An entry goes away only when its socket is closed. -/
theorem Effect.removed {cs : List Answered} {i : Nat} {sock : Sock}
    (effect : Effect conns cs conns') (entry : conns i = some sock) (gone : conns' i = none) :
    cs.map Prod.fst = closing sock := by
  cases effect with
  | inert => exact absurd (entry.symm.trans gone) (Option.some_ne_none sock)
  | unsaved => exact absurd (entry.symm.trans gone) (Option.some_ne_none sock)
  | idle | client | server => exact absurd gone (update_some_ne_none entry _ _)
  | @closed _ j found claimed closed =>
      by_cases same : i = j
      · subst same
        rwa [Option.some.inj (entry.symm.trans claimed)]
      · rw [Function.update_of_ne same, entry] at gone
        contradiction

/-- One more operation, from the account before it. -/
theorem Ledger.call (ledger : Ledger s past conns lost) {op : NetOp} {es : List Event}
    (effect : Effect conns (calls es) conns') (after : t.netConn.Holds conns')
    (fresh : FreshFrom ∅ (history (past ++ [⟨op, s, t, es⟩]))) :
    ∃ lost', Ledger t (past ++ [⟨op, s, t, es⟩]) conns' lost' := by
  rw [history_concat, freshFrom_append] at fresh
  obtain ⟨lost', accounts, none⟩ := ledger.accounts.step effect fresh.2
  refine ⟨lost', after, ?_, ?_, ?_⟩
  · rw [history_concat, openAfter_append]
    exact accounts
  · rw [none, ledger.none_iff, List.forall_mem_append, List.forall_mem_singleton]
  · intro empty before call sock upto removes
    obtain same | earlier := List.prefix_concat_iff.mp upto
    · obtain ⟨rfl, last⟩ := List.append_inj' same rfl
      obtain ⟨i, claimed, gone, rfl⟩ := removes
      obtain rfl := List.singleton_inj.mp last
      have entry := ledger.holds.entry i
      have missing := after.entry i
      rw [if_pos claimed] at entry
      rw [if_neg gone] at missing
      rw [history_concat, openAfter_append, openAfter_closing (effect.removed entry missing)]
      exact ((none.mp empty).1 ▸ ledger.accounts).closed entry
    · exact ledger.released (none.mp empty).1 before call sock earlier removes

theorem Ledger.start (empty : s₀.netConn = { size := 0, map := [], values := [] }) :
    Ledger s₀ [] (fun _ => none) ∅ := by
  refine ⟨empty ▸ .empty, .empty, by simp, fun _ before call sock upto => ?_⟩
  simpa using List.prefix_nil.mp upto

/-- The operations of a run keep the account, whatever the system calls answer. -/
theorem NetRun.ledger (empty : s₀.netConn = { size := 0, map := [], values := [] })
    (run : NetRun env s₀ s past) (fresh : FreshFrom ∅ (history past)) :
    ∃ conns lost, conns.Below ∧ Ledger s past conns lost := by
  induction run with
  | start => exact ⟨_, _, fun _ used => absurd rfl used, .start empty⟩
  | other run same ih =>
      obtain ⟨conns, lost, below, ledger⟩ := ih fresh
      exact ⟨conns, lost, below, { ledger with holds := same ▸ ledger.holds }⟩
  | @call s _ _ op _ run returns ih =>
      have earlier := fresh
      rw [history_concat, freshFrom_append] at earlier
      obtain ⟨conns, lost, below, ledger⟩ := ih earlier.1
      have settled := NetOp.effect env ledger.holds below op
      rw [returns] at settled
      obtain ⟨conns', effect, after, below'⟩ := settled
      obtain ⟨lost', ledger'⟩ := ledger.call effect after fresh
      exact ⟨conns', lost', below', ledger'⟩

/-- So does an operation that stops the machine. -/
theorem NetEnds.ledger (empty : s₀.netConn = { size := 0, map := [], values := [] })
    (ends : NetEnds env s₀ s past) (fresh : FreshFrom ∅ (history past)) :
    ∃ conns lost, Ledger s past conns lost := by
  cases ends with
  | idle run =>
      obtain ⟨conns, lost, _, ledger⟩ := run.ledger empty fresh
      exact ⟨conns, lost, ledger⟩
  | @stopped s _ past op _ _ run stop =>
      have earlier := fresh
      rw [history_concat, freshFrom_append] at earlier
      obtain ⟨conns, lost, below, ledger⟩ := run.ledger empty earlier.1
      have spoiled := NetOp.effect env ledger.holds below op
      rw [stop] at spoiled
      obtain ⟨conns', effect, after⟩ := spoiled
      exact ⟨conns', ledger.call effect after fresh⟩

end Histories

section Destroying

variable {env : Env} {s : State} {conns : Conns} {opened lost : Finset Int}

/-- Where no connected socket is left, the open descriptors are those that are lost. -/
theorem Accounts.opened_eq (h : Accounts conns opened lost)
    (none : ∀ i sock, conns i = some sock → ¬ sock.connected) : opened = lost := by
  refine Finset.Subset.antisymm (fun d member => ?_) h.lost_open
  obtain lost | ⟨i, sock, entry, connected, _⟩ := h.held d member
  · exact lost
  · exact absurd connected (none i sock entry)

/-- The body of the loop in `netDestroy`. -/
def destroyEntry (netI : Nat) : VM Unit := do
  if ← marrCheckMarked netConn netI then
    netClose (indexToRef netTag netI)

section Entry

variable {i : Nat}

theorem destroyEntry_run (env : Env) (inside : i < s.netConn.size) :
    (destroyEntry i).run env s =
      (if s.netConn.flag i = true then netClose (indexToRef netTag i) else pure ()).run env s := by
  simp [destroyEntry, marrCheckMarked, Ijvm.netConn, Nat.not_le_of_lt inside]

theorem destroyEntry_free (env : Env) (holds : s.netConn.Holds conns)
    (inside : i < s.netConn.size) (entry : conns i = none) :
    (destroyEntry i).run env s = .done () s [] := by
  have unset : ¬ s.netConn.flag i = true := fun set =>
    holds.claimed_iff.mp (MArr.mem_claimed.mpr ⟨inside, set⟩) entry
  rw [destroyEntry_run env inside, if_neg unset, run_pure]

theorem destroyEntry_closes (env : Env) (holds : s.netConn.Holds conns) {sock : Sock}
    (entry : conns i = some sock) (fits : i < 2 ^ 20) :
    ∃ t es, (destroyEntry i).run env s = .done () t es ∧ Removed s conns i t ∧
      (calls es).map Prod.fst = closing sock := by
  obtain ⟨inside, set⟩ := MArr.mem_claimed.mp (holds.value entry).1
  have index := refToIndex_indexToRef netTag_isTag fits
  have closes := netClose_run env holds (hasTag_indexToRef netTag_isTag fits) (index.symm ▸ entry)
  rw [index] at closes
  rw [destroyEntry_run env inside, if_pos set]
  exact closes

/-- No reference leads to an index from `2 ^ 20` on. -/
theorem destroyEntry_stops (env : Env) (holds : s.netConn.Holds conns) {sock : Sock}
    (entry : conns i = some sock) (large : 2 ^ 20 ≤ i) (below : ∀ j < i, conns j = none) :
    ∃ e, (destroyEntry i).run env s = .stopped e s [] := by
  obtain ⟨inside, set⟩ := MArr.mem_claimed.mp (holds.value entry).1
  rw [destroyEntry_run env inside, if_pos set]
  exact netClose_stopped env holds fun _ => below _ (Nat.lt_of_lt_of_le (refToIndex_lt _) large)

end Entry

/-- The loop closes what the connections hold, also where it stops at an index that fits
into no reference. -/
theorem destroyLoop_closes (env : Env) (count : Nat) {first : Nat} (holds : s.netConn.Holds conns)
    (accounts : Accounts conns opened lost) (size : first + count = s.netConn.size)
    (below : ∀ i < first, conns i = none) :
    openAfter opened (calls ((forRange first count destroyEntry).run env s).events) = lost := by
  induction count generalizing first s conns opened with
  | zero =>
      refine accounts.opened_eq fun i sock entry => ?_
      have inside := (MArr.mem_claimed.mp (holds.value entry).1).1
      rw [below i (by omega)] at entry
      contradiction
  | succ count ih =>
      have unfolded : (forRange first (count + 1) destroyEntry).run env s =
          ((destroyEntry first).run env s).andThen fun _ t =>
            (forRange (first + 1) count destroyEntry).run env t := rfl
      have next {conns' : Conns} (gone : conns' first = none)
          (others : ∀ i < first, conns' i = none) : ∀ i < first + 1, conns' i = none := by
        intro i le
        obtain lt | rfl := Nat.lt_or_eq_of_le (Nat.le_of_lt_succ le)
        · exact others i lt
        · exact gone
      rw [unfolded]
      cases entry : conns first with
      | none =>
          rw [destroyEntry_free env holds (by omega) entry, Outcome.andThen_done,
            Outcome.prepend_nil]
          exact ih holds accounts (by omega) (next entry below)
      | some sock =>
          by_cases fits : first < 2 ^ 20
          · obtain ⟨t, es, run, ⟨removed, same⟩, closed⟩ := destroyEntry_closes env holds entry fits
            rw [run, Outcome.andThen_done, Outcome.events_prepend, calls_append, openAfter_append,
              openAfter_closing closed]
            refine ih removed (accounts.remove entry) (by omega) (next (Function.update_self ..) ?_)
            intro i lt
            rw [Function.update_of_ne (Nat.ne_of_lt lt)]
            exact below i lt
          · obtain ⟨e, run⟩ := destroyEntry_stops env holds entry (Nat.le_of_not_lt fits) below
            rw [run, Outcome.andThen_stopped]
            -- No connected socket is at an index that does not fit, and none is before it.
            refine accounts.opened_eq fun i sock entry connected => ?_
            have lt := (accounts.holder i sock entry connected).1
            rw [below i (by omega)] at entry
            contradiction

/-- After `netDestroy` the open descriptors are those that are lost. -/
theorem netDestroy_closes (holds : s.netConn.Holds conns) (accounts : Accounts conns opened lost) :
    openAfter opened (calls (netDestroy.run env s).events) = lost := by
  have loop := destroyLoop_closes env s.netConn.size holds accounts (Nat.zero_add _)
    fun i below => absurd below (Nat.not_lt_zero i)
  have unfolded : netDestroy.run env s =
      ((forRange 0 s.netConn.size destroyEntry).run env s).andThen fun _ t =>
        (marrDestroy netConn).run env t := by
    rw [netDestroy, run_bind, run_get, Outcome.andThen_done, Outcome.prepend_nil]
    rfl
  rw [unfolded]
  cases run : (forRange 0 s.netConn.size destroyEntry).run env s with
  | stopped e t es =>
      rw [run] at loop
      exact loop
  | done u t es =>
      rw [run] at loop
      simpa [marrDestroy] using loop

theorem Ledger.noneOutlives_iff {past : List NetCall} (ledger : Ledger s past conns lost)
    (env : Env) : NoneOutlives env s past ↔ ∀ call ∈ past, Releasable (calls call.events) := by
  have final : openAfter ∅ (history past ++ calls (netDestroy.run env s).events) = lost := by
    rw [openAfter_append]
    exact netDestroy_closes ledger.holds ledger.accounts
  rw [← ledger.none_iff]
  constructor
  · intro none
    exact final.symm.trans none.destroyed
  · intro none
    exact ⟨ledger.released none, final.trans none⟩

end Destroying

/-- Exactly the histories in which every operation is releasable leave no descriptor open
that its connection, or the machine, has outlived. -/
theorem descriptors_iff {env : Env} {s₀ s : State} {past : List NetCall}
    (empty : s₀.netConn = { size := 0, map := [], values := [] }) (ends : NetEnds env s₀ s past)
    (fresh : FreshFrom ∅ (history past)) :
    NoneOutlives env s past ↔ ∀ call ∈ past, Releasable (calls call.events) := by
  obtain ⟨conns, lost, ledger⟩ := ends.ledger empty fresh
  exact ledger.noneOutlives_iff env

/-- The state and the history after some operations that return. -/
def netCalls? (env : Env) : List NetOp → State → List NetCall → Option (State × List NetCall)
  | [], s, past => some (s, past)
  | op :: ops, s, past =>
      match op.exec.run env s with
      | .done _ t es => netCalls? env ops t (past ++ [⟨op, s, t, es⟩])
      | .stopped .. => none

theorem NetRun.calls? {env : Env} {s₀ s t : State} {past later : List NetCall} {ops : List NetOp}
    (run : NetRun env s₀ s past) (h : netCalls? env ops s past = some (t, later)) :
    NetRun env s₀ t later := by
  induction ops generalizing s past with
  | nil =>
      obtain ⟨rfl, rfl⟩ := Prod.mk.inj (Option.some.inj h)
      exact run
  | cons op ops ih =>
      rw [netCalls?] at h
      split at h
      · rename_i returns
        exact ih (run.call returns) h
      · contradiction

/-- The socket gets descriptor 3, and every later call succeeds. -/
def clientEnv : Env := { Env.quiet with sys := fun n => if n = 1 then 3 else 0 }

/-- The socket gets descriptor 3, and `accept` returns descriptor 4. -/
def serverEnv : Env :=
  { Env.quiet with sys := fun n => if n = 1 then 3 else if n = 6 then 4 else 0 }

def firstRef : Word := indexToRef netTag 0

/-- A connection to a peer and its end. -/
theorem descriptors_iff_client : ∃ s past, past.map NetCall.op = [.connect 1 9, .close firstRef] ∧
    (NoneOutlives clientEnv s past ↔ ∀ call ∈ past, Releasable (calls call.events)) := by
  have check : (netCalls? clientEnv [.connect 1 9, .close firstRef] State.fresh []).any
      (fun p => decide (p.2.map NetCall.op = [.connect 1 9, .close firstRef] ∧
        history p.2 = [(.socket, 3), (.connect 3 1 9, 0), (.shutdown 3 2, 0), (.close 3, 0)])) =
      true := by decide +kernel
  obtain ⟨⟨s, past⟩, run, contents⟩ := (Option.any_eq_true _ _).mp check
  obtain ⟨ops, calls⟩ := of_decide_eq_true contents
  refine ⟨s, past, ops, descriptors_iff rfl (.idle (NetRun.start.calls? run)) ?_⟩
  rw [calls]
  simp [FreshFrom, Fresh]

/-- After NETBIND and NETCLOSE the accepted descriptor 4 is open, and `netDestroy` does not
close it. -/
theorem acceptedDescriptor_outlives : ∃ s past,
    past.map NetCall.op = [.bind 9, .close firstRef] ∧ NetEnds serverEnv State.fresh s past ∧
      FreshFrom ∅ (history past) ∧ ¬ ClosedWhenRemoved past ∧
      openAfter ∅ (history past ++ calls (netDestroy.run serverEnv s).events) = {4} := by
  have check : (netCalls? serverEnv [.bind 9, .close firstRef] State.fresh []).any
      (fun p => decide (p.2.map NetCall.op = [.bind 9, .close firstRef] ∧
        history p.2 = [(.socket, 3), (.bind 3 0 9, 0), (.listen 3 1, 0), (.accept 3, 4),
          (.shutdown 3 2, 0), (.close 3, 0)] ∧
        p.2.getLast?.any (fun call => decide (0 ∈ call.before.netConn.claimed ∧
          0 ∉ call.after.netConn.claimed ∧ (call.before.netConn.value 0).fds = 4)) ∧
        openAfter ∅ (history p.2 ++ calls (netDestroy.run serverEnv p.1).events) = {4})) =
      true := by
    decide +kernel
  obtain ⟨⟨s, past⟩, run, contents⟩ := (Option.any_eq_true _ _).mp check
  obtain ⟨ops, answers, last, destroyed⟩ := of_decide_eq_true contents
  obtain ⟨call, isLast, removal⟩ := (Option.any_eq_true _ _).mp last
  obtain ⟨claimed, gone, second⟩ := of_decide_eq_true removal
  refine ⟨s, past, ops, .idle (NetRun.start.calls? run), ?_, fun closed => ?_, destroyed⟩
  · rw [answers]
    simp [FreshFrom, Fresh, track]
  · have whole := List.dropLast_append_getLast? call isLast
    have stays := (closed past.dropLast call _ (by rw [whole]) ⟨0, claimed, gone, rfl⟩).2
    rw [whole, answers, second] at stays
    exact stays (by decide)

end Ijvm
