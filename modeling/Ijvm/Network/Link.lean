import Ijvm.Machine.Launch
import Ijvm.Machine.Oblivious
import Ijvm.Network.Fifo
import Ijvm.Stack.Access

/-!
# Two machines on one connection

A `Link` is two machines and what one connection carries between them, a queue of bytes in
each direction. The network sees system calls only: the data of a `send` joins the queue
to the other side, and a `recv` takes the first byte of the queue to its own side.

NETOUT sends the four bytes of a word and NETIN receives one byte, so the characters
received are those sent exactly under the condition of `charactersArrive_iff`.
-/

namespace Ijvm

open Transcript Program

section Instructions

variable {env : Env} {s t : State} {es : List Event}

theorem netCheckRef_done {r : Word} {u : Unit}
    (run : (netCheckRef r).run env s = .done u t es) : t = s ∧ es = [] := by
  unfold netCheckRef at run
  split at run
  · contradiction
  · injection run with _ state events
    exact ⟨state.symm, events.symm⟩

theorem marrGetElement_done {α : Type} [Inhabited α] {marr : MArrPtr α} {i : Nat} {a : α}
    (run : (marrGetElement marr i).run env s = .done a t es) : t = s ∧ es = [] := by
  simp only [marrGetElement, run_bind, run_get, Outcome.andThen_done, Outcome.prepend_nil] at run
  split at run
  · contradiction
  · split at run
    · contradiction
    · injection run with _ state events
      exact ⟨state.symm, events.symm⟩

/-- A receive that returns has taken one byte from the connection. -/
theorem netRecv_done {r : Word} {b : Byte} (run : (netRecv r).run env s = .done b t es) :
    b = env.received s.clock ∧ ∃ fd, es = [.sys (.recv fd 1) 1] := by
  obtain ⟨_, s₁, es₁, es₂, check, checked, rfl⟩ := run_bind_done.mp run
  obtain ⟨rfl, rfl⟩ := netCheckRef_done check
  obtain ⟨sock, s₂, es₃, es₄, lookup, found, rfl⟩ := run_bind_done.mp checked
  obtain ⟨rfl, rfl⟩ := marrGetElement_done lookup
  cases connected : sock.dataFd? with
  | none =>
      rw [connected] at found
      contradiction
  | some fd =>
      simp only [connected, run_bind, run_ask, run_get, run_sysCall, Outcome.andThen_done,
        Outcome.prepend_nil] at found
      split at found
      · contradiction
      · rename_i whole
        rw [ne_eq, not_not] at whole
        rw [whole] at found
        injection found with value _ events
        exact ⟨value.symm, fd, events.symm⟩

/-- A send that returns has put the four bytes of the word on the connection. -/
theorem netSend_done {r data : Word} {u : Unit}
    (run : (netSend r data).run env s = .done u t es) :
    ∃ fd, es = [.sys (.send fd (wordBytes data)) 4] := by
  obtain ⟨_, s₁, es₁, es₂, check, checked, rfl⟩ := run_bind_done.mp run
  obtain ⟨rfl, rfl⟩ := netCheckRef_done check
  obtain ⟨sock, s₂, es₃, es₄, lookup, found, rfl⟩ := run_bind_done.mp checked
  obtain ⟨rfl, rfl⟩ := marrGetElement_done lookup
  cases connected : sock.dataFd? with
  | none =>
      rw [connected] at found
      contradiction
  | some fd =>
      simp only [connected, run_bind, run_sysCall, Outcome.andThen_done] at found
      split at found
      · contradiction
      · rename_i whole
        rw [ne_eq, not_not] at whole
        rw [whole] at found
        injection found with _ _ events
        exact ⟨fd, events.symm⟩

theorem popped_of_done {access : StackAccess} {w : Word}
    (run : (stackPop access).run env s = .done w t es) :
    w = s.gCpu.stack s.gCpu.sp ∧ t = { s with gCpu := { s.gCpu with sp := s.gCpu.sp - 1 } } ∧
      ∀ e ∈ es, e.local := by
  rw [stackPop_run] at run
  split at run
  · contradiction
  · injection run with value state events
    subst value state events
    refine ⟨rfl, rfl, ?_⟩
    rintro e member
    rw [List.mem_singleton.mp member]
    trivial

/-- Whatever grows, the word is on top after a push. -/
theorem stackPush_top (e : Word) :
    Ensures (fun _ => True) (fun _ => True) (fun _ : Event => True) (stackPush e)
      fun _ t => t.gCpu.stack t.gCpu.sp = e := by
  have write : Ensures (fun _ => True) (fun _ => True) (fun _ : Event => True) (writeTop e)
      fun _ t => t.gCpu.stack t.gCpu.sp = e := by
    intro env s _ _
    rw [writeTop_run]
    exact ⟨Outcome.returns_done.mpr (setCell_same _ _ _), fun _ _ => trivial⟩
  have octuple (fuel : Nat) : Ensures (fun _ => True) (fun _ => True) (fun _ : Event => True)
      (octupleStackSizeFuel fuel) fun grown _ => grown = true := by
    induction fuel with
    | zero => exact .stop _
    | succ fuel ih =>
        refine .bind Keeps.get fun _ => .ite (fun _ => .stop _) fun _ => ?_
        refine .bind (Q := fun _ _ => True) (fun _ _ _ _ => ⟨fun _ _ _ _ => trivial, ?_⟩) fun _ =>
          .ite (fun _ => .bind (Q := fun _ _ => True) (.modify fun _ _ => trivial) fun _ =>
            .pure fun _ _ => rfl) fun _ => ?_
        · exact fun _ _ => trivial
        · exact .bind (Q := fun _ _ => True) (fun _ _ _ _ => ⟨fun _ _ _ _ => trivial,
            fun _ _ => trivial⟩) fun _ => .ite (fun _ => ih) fun _ => .stop _
  have grow (fuel : Nat) : Ensures (fun _ => True) (fun _ => True) (fun _ : Event => True)
      (growStackFuel fuel) fun grown _ => grown = true := by
    induction fuel with
    | zero => exact .stop _
    | succ fuel ih =>
        refine .bind Keeps.get fun _ => .ite (fun _ => ?_) fun _ => .pure fun _ _ => rfl
        refine .bind (Q := fun grown _ => grown = true) (.bind Keeps.get fun _ => octuple _)
          fun grown => ?_
        cases grown with
        | false => exact fun _ _ wrong => (Bool.false_ne_true wrong).elim
        | true => exact ih.mono (fun _ _ => trivial) fun _ _ h => h
  refine .bind (Q := fun _ _ => True) (.modify fun _ _ => trivial) fun _ =>
    .bind Keeps.get fun _ => .ite (fun _ => ?_) fun _ => ?_
  · exact .bind write fun _ => .pure fun _ h => h
  · refine .bind (Q := fun grown _ => grown = true) (.bind Keeps.get fun _ => grow _)
      fun grown => ?_
    cases grown with
    | false => exact fun _ _ wrong => (Bool.false_ne_true wrong).elim
    | true =>
        exact .bind (write.mono (fun _ _ => trivial) fun _ _ h => h) fun _ => .pure fun _ h => h

/-- NETIN leaves the byte that its only transfer has received on top of the stack. -/
theorem netin_step {b : Bool} {a : Int} (executes : s.Executes a .netin)
    (run : step.run env s = .done b t es) :
    t.gCpu.stack t.gCpu.sp = (env.received s.clock).signExtend 32 ∧
      ∃ fd, .sys (.recv fd 1) 1 ∈ es ∧ ∀ e ∈ es, e.local ∨ e = .sys (.recv fd 1) 1 := by
  obtain ⟨t', fetches, es', exec, rfl, cpu, codes⟩ := instruction_of_step executes run
  obtain ⟨r, s₁, es₁, es₂, popped, rest, rfl⟩ := run_bind_done.mp exec
  obtain ⟨_, rfl, local₁⟩ := popped_of_done popped
  obtain ⟨data, s₂, es₃, es₄, received, rest', rfl⟩ := run_bind_done.mp rest
  obtain ⟨value, fd, rfl⟩ := netRecv_done received
  obtain ⟨ok, s₃, es₅, es₆, pushed, last, rfl⟩ := run_bind_done.mp rest'
  injection last with _ state events
  subst state events
  have top := (stackPush_top _ env s₂ trivial fun _ _ => trivial).1 _ _ _ pushed
  have local₂ := (stackPush_oblivious (data.signExtend 32)).events env s₂
  rw [pushed] at local₂
  refine ⟨by rw [cpu, top, value]; rfl, fd, by simp, ?_⟩
  intro e member
  simp only [List.mem_append, List.mem_singleton, List.append_nil] at member
  obtain early | popped | only | late := member
  · exact Or.inl (codes e early)
  · exact Or.inl (local₁ e popped)
  · exact Or.inr only
  · exact Or.inl (local₂ e late)

/-- NETOUT sends the word under the reference. -/
theorem netout_step {b : Bool} {a : Int} (executes : s.Executes a .netout)
    (run : step.run env s = .done b t es) :
    ∃ fd, .sys (.send fd (wordBytes (s.gCpu.stack (s.gCpu.sp - 1)))) 4 ∈ es ∧
      ∀ e ∈ es, e.local ∨ e = .sys (.send fd (wordBytes (s.gCpu.stack (s.gCpu.sp - 1)))) 4 := by
  obtain ⟨t', fetches, es', exec, rfl, _, codes⟩ := instruction_of_step executes run
  obtain ⟨r, s₁, es₁, es₂, popped, rest, rfl⟩ := run_bind_done.mp exec
  obtain ⟨_, rfl, local₁⟩ := popped_of_done popped
  obtain ⟨data, s₂, es₃, es₄, popped', sent, rfl⟩ := run_bind_done.mp rest
  obtain ⟨rfl, _, local₂⟩ := popped_of_done popped'
  obtain ⟨fd, rfl⟩ := netSend_done sent
  refine ⟨fd, by simp [State.atOp], ?_⟩
  intro e member
  simp only [List.mem_append, List.mem_singleton] at member
  obtain early | popped | popped | only := member
  · exact Or.inl (codes e early)
  · exact Or.inl (local₁ e popped)
  · exact Or.inl (local₂ e popped)
  · exact Or.inr only

end Instructions

inductive Side where
  | left | right
  deriving DecidableEq, Repr

def Side.other : Side → Side
  | left => right
  | right => left

/-- Two machines, the descriptor that each of them has for the connection, and the queue
to each of them, with the words sent and the characters received. -/
structure Link where
  vm : Side → State
  fd : Side → Int
  queue : Side → Fifo Word Byte

namespace Link

def move (l : Link) (a : Side) (t : State) : Link :=
  { l with vm := fun b => if b = a then t else l.vm b }

def withQueue (l : Link) (a : Side) (f : Fifo Word Byte) : Link :=
  { l with queue := fun b => if b = a then f else l.queue b }

@[simp] theorem queue_move (l : Link) (a : Side) (t : State) : (l.move a t).queue = l.queue := rfl

theorem queue_withQueue (l : Link) (a b : Side) (f : Fifo Word Byte) :
    (l.withQueue a f).queue b = if b = a then f else l.queue b := rfl

end Link

/-- The event is no transfer on this descriptor. -/
def Event.apartFrom (fd : Int) : Event → Prop
  | .sys (.send fd' _) _ => fd' ≠ fd
  | .sys (.recv fd' _) _ => fd' ≠ fd
  | _ => True

theorem Event.local.apartFrom {e : Event} (h : e.local) (fd : Int) : e.apartFrom fd := by
  unfold Event.local at h
  unfold Event.apartFrom
  split
  · exact h.elim
  · exact h.elim
  · trivial

/-- One instruction on one side. -/
inductive Link.Step (l : Link) : Link → Prop where
  /-- NETOUT on the connection: the word popped under the reference counts as sent, and
  the data of the system call goes on its way. -/
  | netout {side : Side} {env : Env} {a : Int} {b : Bool} {t : State} {es : List Event}
      {data : List Byte} (executes : (l.vm side).Executes a .netout)
      (run : step.run env (l.vm side) = .done b t es)
      (sent : .sys (.send (l.fd side) data) 4 ∈ es) :
      l.Step ((l.move side t).withQueue side.other ((l.queue side.other).write
        ((l.vm side).gCpu.stack ((l.vm side).gCpu.sp - 1)) data))
  /-- NETIN on the connection: the system call gives the first byte on its way, and the low
  byte of the word pushed counts as received. -/
  | netin {side : Side} {env : Env} {a : Int} {b : Bool} {t : State} {es : List Event}
      {rest : List Byte} (executes : (l.vm side).Executes a .netin)
      (run : step.run env (l.vm side) = .done b t es)
      (received : .sys (.recv (l.fd side) 1) 1 ∈ es)
      (first : (l.queue side).inFlight = env.received (l.vm side).clock :: rest) :
      l.Step ((l.move side t).withQueue side ((l.queue side).take
        ((t.gCpu.stack t.gCpu.sp).setWidth 8) rest))
  /-- An instruction that does not use the connection. -/
  | other {side : Side} {env : Env} {b : Bool} {t : State} {es : List Event}
      (run : step.run env (l.vm side) = .done b t es)
      (apart : ∀ e ∈ es, e.apartFrom (l.fd side)) : l.Step (l.move side t)

/-- Every instruction that returns is a step of the link, unless it receives what the
network has not delivered. -/
theorem Link.exists_step (l : Link) (side : Side) {env : Env} {b : Bool} {t : State}
    {es : List Event} (run : step.run env (l.vm side) = .done b t es)
    (delivered : .sys (.recv (l.fd side) 1) 1 ∈ es →
      ∃ rest, (l.queue side).inFlight = env.received (l.vm side).clock :: rest) :
    ∃ l', l.Step l' ∧ l'.vm side = t := by
  have here (f : Fifo Word Byte) (a : Side) : ((l.move side t).withQueue a f).vm side = t :=
    if_pos rfl
  by_cases netout : ∃ a, (l.vm side).Executes a .netout
  · obtain ⟨a, executes⟩ := netout
    obtain ⟨fd, sent, others⟩ := netout_step executes run
    by_cases connection : fd = l.fd side
    · subst connection
      exact ⟨_, .netout executes run sent, here _ _⟩
    · refine ⟨_, .other run ?_, if_pos rfl⟩
      intro e member
      obtain silent | rfl := others e member
      · exact silent.apartFrom _
      · exact connection
  by_cases netin : ∃ a, (l.vm side).Executes a .netin
  · obtain ⟨a, executes⟩ := netin
    obtain ⟨_, fd, received, others⟩ := netin_step executes run
    by_cases connection : fd = l.fd side
    · subst connection
      obtain ⟨rest, first⟩ := delivered received
      exact ⟨_, .netin executes run received first, here _ _⟩
    · refine ⟨_, .other run ?_, if_pos rfl⟩
      intro e member
      obtain silent | rfl := others e member
      · exact silent.apartFrom _
      · exact connection
  · refine ⟨_, .other run fun e member => ?_, if_pos rfl⟩
    exact (step_local run (fun a => ⟨fun h => netin ⟨a, h⟩, fun h => netout ⟨a, h⟩⟩) e
      member).apartFrom _

section Turns

variable {env : Env} {s t : State} {b : Bool} {es : List Event}

/-- Only NETOUT sends. -/
theorem executes_netout {fd n : Int} {data : List Byte} (run : step.run env s = .done b t es)
    (sent : .sys (.send fd data) n ∈ es) : ∃ a, s.Executes a .netout := by
  by_contra missing
  by_cases netin : ∃ a, s.Executes a .netin
  · obtain ⟨a, executes⟩ := netin
    obtain ⟨_, fd', _, others⟩ := netin_step executes run
    obtain silent | same := others _ sent
    · exact silent
    · injection same with call
      injection call
  · exact step_local run (fun a => ⟨fun h => netin ⟨a, h⟩, fun h => missing ⟨a, h⟩⟩) _ sent

/-- Only NETIN receives. -/
theorem executes_netin {fd n : Int} {length : Nat} (run : step.run env s = .done b t es)
    (received : .sys (.recv fd length) n ∈ es) : ∃ a, s.Executes a .netin := by
  by_contra missing
  by_cases netout : ∃ a, s.Executes a .netout
  · obtain ⟨a, executes⟩ := netout
    obtain ⟨fd', _, others⟩ := netout_step executes run
    obtain silent | same := others _ received
    · exact silent
    · injection same with call
      injection call
  · exact step_local run (fun a => ⟨fun h => missing ⟨a, h⟩, fun h => netout ⟨a, h⟩⟩) _ received

/-- The data that the event has put on a descriptor. -/
def Event.sentOn? (fd : Int) : Event → Option (List Byte)
  | .sys (.send fd' data) n => if fd' = fd ∧ n = 4 then some data else none
  | _ => none

/-- The event has taken a byte from a descriptor. -/
def Event.receivesOn (fd : Int) : Event → Bool
  | .sys (.recv fd' length) n => decide (fd' = fd ∧ length = 1 ∧ n = 1)
  | _ => false

/-- Let one side execute an instruction, if its surroundings agree with the network. -/
def Link.turn? (env : Side → Env) (l : Link) (side : Side) : Option Link :=
  match step.run (env side) (l.vm side) with
  | .stopped .. => none
  | .done _ t es =>
      match es.findSome? (Event.sentOn? (l.fd side)) with
      | some data =>
          some ((l.move side t).withQueue side.other ((l.queue side.other).write
            ((l.vm side).gCpu.stack ((l.vm side).gCpu.sp - 1)) data))
      | none =>
          if es.any (Event.receivesOn (l.fd side)) then
            if (l.queue side).inFlight.head? = some ((env side).received (l.vm side).clock) then
              some ((l.move side t).withQueue side ((l.queue side).take
                ((t.gCpu.stack t.gCpu.sp).setWidth 8) (l.queue side).inFlight.tail))
            else
              none
          else
            some (l.move side t)

theorem Event.of_sentOn? {fd : Int} {e : Event} {data : List Byte}
    (sent : e.sentOn? fd = some data) : e = .sys (.send fd data) 4 := by
  unfold Event.sentOn? at sent
  split at sent
  · split at sent
    · rename_i here
      obtain ⟨rfl, rfl⟩ := here
      injection sent with same
      rw [same]
    · contradiction
  · contradiction

theorem Event.of_receivesOn {fd : Int} {e : Event} (received : e.receivesOn fd = true) :
    e = .sys (.recv fd 1) 1 := by
  unfold Event.receivesOn at received
  split at received
  · obtain ⟨rfl, rfl, rfl⟩ := of_decide_eq_true received
    rfl
  · contradiction

/-- A turn whose events were not found to use the connection leaves it alone. -/
theorem apartFrom_of_step {fd : Int} (run : step.run env s = .done b t es)
    (unsent : es.findSome? (Event.sentOn? fd) = none)
    (unreceived : ¬ es.any (Event.receivesOn fd) = true) : ∀ e ∈ es, e.apartFrom fd := by
  intro e member
  cases e with
  | sys call n =>
      cases call with
      | send fd' data =>
          obtain ⟨a, executes⟩ := executes_netout run member
          obtain ⟨_, _, others⟩ := netout_step executes run
          obtain silent | same := others _ member
          · exact silent.elim
          · rintro rfl
            have none := List.findSome?_eq_none_iff.mp unsent _ member
            rw [same] at none
            injection same with call
            injection call with here
            simp [Event.sentOn?, here] at none
      | recv fd' length =>
          obtain ⟨a, executes⟩ := executes_netin run member
          obtain ⟨_, _, _, others⟩ := netin_step executes run
          obtain silent | same := others _ member
          · exact silent.elim
          · rintro rfl
            refine unreceived (List.any_eq_true.mpr ⟨_, member, ?_⟩)
            rw [same]
            injection same with call
            injection call with here
            simp [Event.receivesOn, here]
      | _ => trivial
  | _ => trivial

theorem Link.step_of_turn? {l l' : Link} {env : Side → Env} {side : Side}
    (turn : l.turn? env side = some l') : l.Step l' := by
  unfold Link.turn? at turn
  split at turn
  · contradiction
  rename_i b t es run
  split at turn
  · -- A send: the instruction is NETOUT.
    rename_i data found
    injection turn with same
    subst same
    obtain ⟨e, member, sent⟩ := List.exists_of_findSome?_eq_some found
    obtain rfl := Event.of_sentOn? sent
    obtain ⟨a, executes⟩ := executes_netout run member
    exact .netout executes run member
  rename_i unsent
  split at turn
  · -- A receive: the instruction is NETIN.
    rename_i found
    split at turn
    · rename_i head
      injection turn with same
      subst same
      obtain ⟨e, member, received⟩ := List.any_eq_true.mp found
      obtain rfl := Event.of_receivesOn received
      obtain ⟨a, executes⟩ := executes_netin run member
      exact .netin executes run member (List.eq_cons_of_mem_head? head)
    · contradiction
  · rename_i unreceived
    injection turn with same
    subst same
    exact .other run (apartFrom_of_step run unsent unreceived)

end Turns

/-- Two machines that have just been connected, and every interleaving of their
instructions from then on. -/
inductive Link.Reachable : Link → Prop where
  | joined (vm : Side → State) (fd : Side → Int) :
      Reachable { vm, fd, queue := fun _ => .empty }
  | step {l l' : Link} (before : l.Reachable) (step : l.Step l') : Reachable l'

/-- An instruction that returns leads from a reachable link to a reachable one, unless it receives
what the network has not delivered. -/
theorem Link.Reachable.next {l : Link} (reachable : l.Reachable) (side : Side) {env : Env}
    {b : Bool} {t : State} {es : List Event} (run : Ijvm.step.run env (l.vm side) = .done b t es)
    (delivered : .sys (.recv (l.fd side) 1) 1 ∈ es →
      ∃ rest, (l.queue side).inFlight = env.received (l.vm side).clock :: rest) :
    ∃ l' : Link, l'.Reachable ∧ l'.vm side = t := by
  obtain ⟨l', moves, here⟩ := l.exists_step side run delivered
  exact ⟨l', .step reachable moves, here⟩

theorem setWidth_signExtend (b : Byte) : (b.signExtend 32).setWidth 8 = b := by
  apply BitVec.eq_of_getLsbD_eq
  intro i hi
  simp [BitVec.getLsbD_signExtend, hi]
  omega

theorem length_wordBytes (w : Word) : (wordBytes w).length = 4 := rfl

/-- A step loses no byte and invents none. -/
theorem Link.Step.conserved {l l' : Link} (step : l.Step l')
    (h : ∀ a, (l.queue a).Conserved wordBytes) (a : Side) :
    (l'.queue a).Conserved wordBytes := by
  cases step with
  | @netout side env _ _ t es data executes run sent =>
      rw [Link.queue_withQueue]
      split
      · -- The data of the only transfer are the bytes of the word.
        obtain ⟨fd, _, others⟩ := netout_step executes run
        obtain silent | same := others _ sent
        · exact silent.elim
        · injection same with call
          injection call with _ data
          rw [data]
          exact (h _).write _
      · exact h a
  | @netin side env _ _ t es rest executes run received first =>
      rw [Link.queue_withQueue]
      split
      · obtain ⟨top, _⟩ := netin_step executes run
        rw [top, setWidth_signExtend]
        exact (h _).take first
      · exact h a
  | other run apart => exact h a

/-- Over any run, the bytes received and those on their way are those of the words sent. -/
theorem Link.Reachable.conserved {l : Link} (reachable : l.Reachable) (a : Side) :
    (l.queue a).Conserved wordBytes := by
  induction reachable generalizing a with
  | joined vm fd => exact Fifo.conserved_empty
  | step before step ih => exact step.conserved ih a

/-- The `k`-th character received on a side is the low byte of the `k`-th word sent to it,
and when nothing is on its way, there are as many of them. -/
structure Link.CharactersArrive (l : Link) (side : Side) : Prop where
  each : ∀ (k : Nat) (c : Byte), (l.queue side).read[k]? = some c →
    ∃ w, (l.queue side).written[k]? = some w ∧ c = w.setWidth 8
  complete : (l.queue side).inFlight = [] →
    (l.queue side).read.length = (l.queue side).written.length

/-- There are no more characters than words, and the bytes of the first words happen to be
the low bytes of all of them. -/
def BytesAgree (words : List Word) (count : Nat) : Prop :=
  count ≤ words.length ∧ ∀ k < count,
    (wordBytes (words.getD (k / 4) 0)).getD (k % 4) 0 = (words.getD k 0).setWidth 8

/-- The characters arrive exactly as long as the bytes of the words sent agree with their
low bytes. -/
theorem charactersArrive_iff {l : Link} (reachable : l.Reachable) (side : Side) :
    l.CharactersArrive side ↔
      BytesAgree (l.queue side).written (l.queue side).read.length := by
  have conserved := reachable.conserved side
  have length := conserved.length_eq length_wordBytes
  have byte {k : Nat} (received : k < (l.queue side).read.length) :
      (l.queue side).read[k]? = some
        ((wordBytes ((l.queue side).written.getD (k / 4) 0)).getD (k % 4) 0) := by
    have within : k / 4 < (l.queue side).written.length := by omega
    have offset : k % 4 < 4 := Nat.mod_lt _ (by decide)
    rw [conserved.getElem?_read length_wordBytes received, List.getElem?_eq_getElem within,
      Option.bind_some, List.getElem?_eq_getElem (by rw [length_wordBytes]; exact offset)]
    simp [List.getD, List.getElem?_eq_getElem within,
      List.getElem?_eq_getElem (show k % 4 < (wordBytes _).length from offset)]
  constructor
  · rintro ⟨each, _⟩
    have few (k : Nat) (received : k < (l.queue side).read.length) :
        k < (l.queue side).written.length := by
      obtain ⟨w, sent, _⟩ := each k _ (byte received)
      exact (List.getElem?_eq_some_iff.mp sent).1
    refine ⟨?_, fun k received => ?_⟩
    · by_contra more
      exact Nat.lt_irrefl _ (few (l.queue side).written.length (by omega))
    · obtain ⟨w, sent, same⟩ := each k _ (byte received)
      rw [same, List.getD, sent]
      rfl
  · rintro ⟨few, agree⟩
    refine ⟨fun k c received => ?_, fun none => ?_⟩
    · have below := (List.getElem?_eq_some_iff.mp received).1
      have sent : k < (l.queue side).written.length := by omega
      rw [byte below] at received
      injection received with same
      refine ⟨(l.queue side).written.getD k 0, ?_, by rw [← same, agree k below]⟩
      simp [List.getD, List.getElem?_eq_getElem sent]
    · rw [none] at length
      simp only [List.length_nil] at length
      omega

/-- A program that connects and sends the characters `A` and `B`. -/
def sender : List Byte := assemble []
  [Op.bipush.code, 1, Op.bipush.code, 9, Op.netconnect.code, Op.istore.code, 0,
    Op.bipush.code, 66, Op.iload.code, 0, Op.bipush.code, 65, Op.iload.code, 0,
    Op.netout.code, Op.netout.code]

/-- A program that waits for a connection and receives two characters. -/
def receiver : List Byte := assemble []
  [Op.bipush.code, 9, Op.netbind.code, Op.istore.code, 0, Op.iload.code, 0, Op.iload.code, 0,
    Op.netin.code, Op.pop.code, Op.netin.code]

/-- The surroundings of the two programs: the sender has descriptor 3 for the connection,
the receiver 5. -/
def connectedEnv : Side → Env
  | .left => { Env.quiet with sys := fun n => if n = 4 then 3 else if n < 8 then 0 else 4 }
  | .right => { Env.quiet with
      sys := fun n => if n = 4 then 3 else if n < 9 then 0 else if n = 9 then 5 else 1
      received := fun n => if n = 10 then 65 else 0 }

/-- The two machines in front of their transfers. -/
def connected : Link where
  vm
    | .left => (after (connectedEnv .left) sender 8).getD State.fresh
    | .right => (after (connectedEnv .right) receiver 5).getD State.fresh
  fd
    | .left => 3
    | .right => 5
  queue := fun _ => .empty

/-- The instructions of the two sides in some order. -/
def Link.turns? (env : Side → Env) (l : Link) : List Side → Option Link
  | [] => some l
  | side :: sides => (l.turn? env side).bind fun l' => l'.turns? env sides

theorem Link.Reachable.turns? {env : Side → Env} {l l' : Link} {sides : List Side}
    (reachable : l.Reachable) (turns : l.turns? env sides = some l') : l'.Reachable := by
  induction sides generalizing l with
  | nil =>
      injection turns with same
      exact same ▸ reachable
  | cons side sides ih =>
      obtain ⟨m, turn, rest⟩ := Option.bind_eq_some_iff.mp turns
      exact ih (reachable.step (Link.step_of_turn? turn)) rest

/-- Two words sent and two characters received. -/
theorem exists_transferred : ∃ l : Link, l.Reachable ∧
    (l.queue .right).written = [65, 66] ∧ (l.queue .right).read = [65, 0] := by
  have check : (connected.turns? connectedEnv [.left, .left, .right, .right, .right]).any
      (fun l => decide ((l.queue .right).written = [65, 66] ∧
        (l.queue .right).read = [65, 0])) = true := by decide +kernel
  obtain ⟨l, turns, contents⟩ := (Option.any_eq_true _ _).mp check
  exact ⟨l, (Link.Reachable.joined _ _).turns? turns, of_decide_eq_true contents⟩

/-- The second character received is a byte of the first word. -/
theorem sender_not_charactersArrive :
    ¬ ∀ l : Link, l.Reachable → ∀ side, l.CharactersArrive side := by
  intro arrive
  obtain ⟨l, reachable, written, read⟩ := exists_transferred
  obtain ⟨w, sent, same⟩ := (arrive l reachable .right).each 1 0 (by rw [read]; rfl)
  rw [written] at sent
  injection sent with word
  subst word
  revert same
  decide

/-- The sender and the receiver of two characters. -/
theorem charactersArrive_iff_sender : ∃ l : Link, l.Reachable ∧
    (l.CharactersArrive .right ↔
      BytesAgree (l.queue .right).written (l.queue .right).read.length) := by
  obtain ⟨l, reachable, _⟩ := exists_transferred
  exact ⟨l, reachable, charactersArrive_iff reachable .right⟩

end Ijvm
