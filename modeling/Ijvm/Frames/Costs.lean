import Ijvm.Frames.Display
import Ijvm.Frames.Typing
import Ijvm.Transcript.Partial

/-!
# Typed programs without loops come to an end

A cost gives each address a number of turns. `Paid` checks each address that the typing
reaches on its own: what the address costs covers its turn and the cost of each address at
which its method can go on, and a call also covers the method that it calls. A program with
such a cost has neither loops nor recursion.

The potential of a configuration is the cost of its address and of the addresses at which its
callers go on. Each turn that does not end the program pays one from it, so the cost of the
first address bounds every run, on every input.
-/

namespace Ijvm.Frames

open Transcript Program Transitions

/-- For each address, a number of turns. -/
abbrev Cost := Int → Nat

namespace Image

variable (im : Image)

/-- The addresses at which an instruction, with its arguments at `a`, goes on in its method. A
call goes on there when the method returns. -/
def next (wide : Bool) (a : Int) : Op → List Int
  | .halt | .err | .ireturn | .wide => []
  | .bipush => [a + 1]
  | .ldcW | .invokevirtual => [a + 2]
  | .iload | .istore => [a + indexSize wide]
  | .iinc => [a + indexSize wide + 1]
  | .ifeq | .iflt | .icmpeq => [a + 2, a + 2 + im.offset a]
  | .goto => [a + 2 + im.offset a]
  | _ => [a]

/-- The cost of the method that an instruction calls. -/
def called (cost : Cost) (a : Int) : Op → Nat
  | .invokevirtual => cost (im.method a + 4)
  | _ => 0

end Image

section Conditions

variable (im : Image) (ty : Typing) (cost : Cost)

/-- The cost of an address covers its turn and what comes after it. -/
def Pays (pc : Int) : Prop :=
  1 ≤ cost pc ∧ ∀ a ∈ im.opAddr? pc, ∀ op ∈ Op.ofByte? (im.code a),
    ∀ q ∈ im.next (decide (a ≠ pc)) (a + 1) op, cost q + im.called cost (a + 1) op + 1 ≤ cost pc

def Paid : Prop := ∀ k < im.codeSize.toNat, ty k ≠ none → Pays im cost k

instance (pc : Int) : Decidable (Pays im cost pc) := by
  unfold Pays
  infer_instance

instance : Decidable (Paid im ty cost) := by
  unfold Paid
  infer_instance

end Conditions

/-- What is left to pay for a configuration. -/
def potential (cost : Cost) (c : Config) : Nat :=
  cost c.pc + (c.callers.map fun r => cost r.pc).sum

section Parts

variable {x : Setting} {a : Int}

/-- The part of an instruction goes from one address to another. -/
abbrev Moves {α : Type} (x : Setting) (a : Int) (m : FM α) (b : Int) : Prop :=
  Leads x (fun c => c.pc = a) m fun _ c => c.pc = b

theorem push_moves (w : Word) : Moves x a (push w) a := .modify fun _ here => here

theorem pop_moves : Moves x a pop a := by
  rintro ⟨_, ⟨_, operands⟩, _, _, _, _, _⟩ rfl
  cases operands with
  | nil => exact Outcome.returns_stopped
  | cons w rest => exact Outcome.returns_done.mpr rfl

theorem load_moves (i : Int) : Moves x a (load i) a :=
  .get_bind fun _ here => .ite (fun _ => .stop _) fun _ => .pure fun _ same => same ▸ here

theorem store_moves (w : Word) (i : Int) : Moves x a (store w i) a :=
  .get_bind fun _ here => .ite (fun _ => .stop _) fun _ => .modify fun _ same => same ▸ here

theorem constant_moves (i : Int) : Moves x a (constant i) a :=
  .ask_bind (.ite (fun _ => .stop _) fun _ => .pure fun _ here => here)

theorem argByte_moves : Moves x a argByte (a + 1) := by
  rintro c rfl
  rw [argByte_run]
  split
  · exact Outcome.returns_stopped
  · exact Outcome.returns_done.mpr rfl

theorem argShort_moves : Leads x (fun c => c.pc = a) argShort fun k c =>
    k = x.image.short a ∧ c.pc = a + 2 := by
  rintro c rfl
  rw [argShort_run]
  split
  · exact Outcome.returns_stopped
  · exact Outcome.returns_done.mpr ⟨rfl, rfl⟩

theorem jump_moves (offset : Int) : Moves x a (jump offset) (a + offset) := by
  rintro c rfl
  rw [jump_run]
  split
  · exact Outcome.returns_stopped
  · exact Outcome.returns_done.mpr rfl

theorem jumpOffset_moves : Leads x (fun c => c.pc = a) jumpOffset fun k c =>
    k = x.image.offset a ∧ c.pc = a + 2 :=
  .bind argShort_moves fun _ => .pure fun _ here => ⟨by rw [here.1]; rfl, here.2⟩

theorem varIndex_moves : Moves x a varIndex (a + Image.indexSize x.wide) := by
  refine .ask_bind ?_
  cases x.wide with
  | true => exact .bind argShort_moves fun _ => .pure fun _ here => here.2
  | false => exact .bind argByte_moves fun _ => .pure fun _ here => here

theorem discard_moves (n : Nat) : Moves x a (discard n) a := by
  induction n with
  | zero => exact .pure fun _ here => here
  | succ n ih => exact .bind pop_moves fun _ => ih

theorem request_moves (n : Nat) : Moves x a (request n) a := by
  induction n with
  | zero => exact .ask_bind (push_moves _)
  | succ n ih => exact .bind pop_moves fun _ => ih

theorem binary_moves (f : Word → Word → Word) : Moves x a (binary f) a :=
  .bind pop_moves fun _ => .bind pop_moves fun _ => push_moves _

theorem input_moves : Moves x a input a := by
  have byte : Moves x a nextByte a := by
    rintro ⟨_, _, _, input, _, _, _⟩ rfl
    cases input with
    | nil => exact Outcome.returns_done.mpr rfl
    | cons b rest => exact Outcome.returns_done.mpr rfl
  refine .bind byte fun b => ?_
  cases b with
  | none => exact push_moves _
  | some b => exact push_moves _

/-- A jump by the offset that was read, or the next instruction. -/
theorem jumpIf_moves {offset : Int} (read : offset = x.image.offset a) (p : Prop) [Decidable p] :
    Leads x (fun c => c.pc = a + 2) (if p then jump offset else pure ()) fun _ c =>
      c.pc ∈ [a + 2, a + 2 + x.image.offset a] := by
  subst read
  refine .ite (fun _ => ?_) fun _ => .pure fun _ here => List.mem_cons.mpr (Or.inl here)
  exact (jump_moves _).mono (fun _ here => here) fun _ _ there => by simp [there]

end Parts

section Instructions

variable {im : Image} {ty : Typing} {cost : Cost} {c : Config} {a : Int}

/-- Other instructions than calls and returns go on in their method, or end the program. -/
theorem exec_moves {x : Setting} {op : Op} (stays : op ≠ .invokevirtual) (remains : op ≠ .ireturn) :
    Leads x (fun c => c.pc = a) (exec op) fun _ c =>
      c.pc ∈ x.image.next x.wide a op ∨ c.errorFlag = true ∨ c.haltFlag = true := by
  have goes {b : Int} (next : x.image.next x.wide a op = [b]) (moves : Moves x a (exec op) b) :
      Leads x (fun c => c.pc = a) (exec op) fun _ c =>
        c.pc ∈ x.image.next x.wide a op ∨ c.errorFlag = true ∨ c.haltFlag = true :=
    moves.mono (fun _ here => here) fun _ _ there => Or.inl (by simp [next, there])
  have read {offset : Int} {rest : Word → FM Unit} {Q : Config → Prop} (next : ∀ w,
      Leads x (fun c => offset = x.image.offset a ∧ c.pc = a + 2) (rest w) fun _ => Q) :
      Leads x (fun c => offset = x.image.offset a ∧ c.pc = a + 2) (pop >>= rest) fun _ => Q :=
    .bind (fun c here => (pop_moves c here.2).mono fun _ _ there => ⟨here.1, there⟩) next
  have branch {test : Word → Prop} [DecidablePred test] :
      Leads x (fun c => c.pc = a) (do
        let offset ← jumpOffset
        if test (← pop) then jump offset) fun _ c =>
          c.pc ∈ [a + 2, a + 2 + x.image.offset a] :=
    .bind jumpOffset_moves fun _ => read fun w c here => jumpIf_moves here.1 (test w) c here.2
  cases op
  case invokevirtual => exact absurd rfl stays
  case ireturn => exact absurd rfl remains
  case halt => exact .modify fun _ _ => Or.inr (Or.inr rfl)
  case err => exact .modify fun _ _ => Or.inr (Or.inl rfl)
  case wide => exact .stop _
  case nop | gc => exact goes rfl (.pure fun _ here => here)
  case bipush => exact goes rfl (.bind argByte_moves fun _ => push_moves _)
  case ldcW =>
    exact goes rfl (.bind argShort_moves fun _ => fun c here =>
      (Leads.bind (constant_moves _) fun _ => push_moves _) c here.2)
  case iload =>
    exact goes rfl (.bind varIndex_moves fun _ => .bind (load_moves _) fun _ => push_moves _)
  case istore =>
    exact goes rfl (.bind pop_moves fun _ => .bind varIndex_moves fun _ => store_moves _ _)
  case dup =>
    exact goes rfl (.bind pop_moves fun _ => .bind (push_moves _) fun _ => push_moves _)
  case swap =>
    exact goes rfl (.bind pop_moves fun _ => .bind pop_moves fun _ =>
      .bind (push_moves _) fun _ => push_moves _)
  case iadd | isub | iand | ior => exact goes rfl (binary_moves _)
  case iinc =>
    have rest (b i : Int) : Moves x b (do
        let c ← argByte
        store ((← load i) + c.signExtend 32) i) (b + 1) :=
      .bind argByte_moves fun _ => .bind (load_moves _) fun _ => store_moves _ _
    refine goes rfl (.ask_bind ?_)
    cases x.wide with
    | true =>
        exact .bind (.bind argShort_moves fun _ => .pure fun _ here => here.2) (rest (a + 2))
    | false => exact .bind (.bind argByte_moves fun _ => .pure fun _ here => here) (rest (a + 1))
  case ifeq => exact branch.mono (fun _ here => here) fun _ _ there => Or.inl there
  case iflt => exact branch.mono (fun _ here => here) fun _ _ there => Or.inl there
  case icmpeq =>
    refine (Leads.bind jumpOffset_moves fun _ => read fun v => read fun w c here =>
      jumpIf_moves here.1 (v = w) c here.2).mono (fun _ here => here) fun _ _ there => Or.inl there
  case goto =>
    exact goes rfl (.bind jumpOffset_moves fun offset => fun c here =>
      here.1 ▸ jump_moves offset c here.2)
  case «in» => exact goes rfl input_moves
  case out =>
    exact goes rfl (.bind pop_moves fun _ => .modify fun _ here => here)
  case pop | iastore | netout | netclose => exact goes rfl (discard_moves _)
  case newarray | iaload | netbind | netconnect | netin => exact goes rfl (request_moves _)

/-- An instruction that does not end the program pays for its turn. -/
theorem perform_pays (pays : Pays im cost c.pc) (w : Word) :
    (perform im w c).Returns fun _ c' =>
      ended im c' = true ∨ potential cost c' + 1 ≤ potential cost c := by
  obtain ⟨positive, covers⟩ := pays
  cases found : im.opAddr? c.pc with
  | none =>
      rw [perform, found]
      exact Outcome.returns_stopped
  | some a =>
      cases decoded : Op.ofByte? (im.code a) with
      | none =>
          rw [perform, found]
          dsimp only
          rw [decoded]
          exact Outcome.returns_done.mpr (Or.inl (by simp [ended]))
      | some op =>
          have covers := covers a found op decoded
          rw [perform_op w found decoded]
          have last {o : Outcome Config Empty Fault Unit}
              (here : o.Returns fun _ c' =>
                ended im c' = true ∨ potential cost c' + 1 ≤ potential cost c) :
              (o.andThen fun _ c' => (.done true c' [] : End)).Returns fun _ c' =>
                ended im c' = true ∨ potential cost c' + 1 ≤ potential cost c :=
            here.andThen fun _ _ final => Outcome.returns_done.mpr final
          by_cases calls : op = .invokevirtual
          · subst calls
            refine last (invoke_calls.returns fun _ c' _ final => Or.inr ?_)
            subst final
            have paid := covers (a + 1 + 2) (List.mem_singleton.mpr rfl)
            simp only [Image.called] at paid
            simp only [potential, entry, waiting, Config.under, List.nil_append, List.map_cons,
              List.sum_cons]
            omega
          by_cases returns : op = .ireturn
          · subst returns
            refine last (leave_returns.mono fun _ c' final => Or.inr ?_)
            obtain ⟨r, callers, there⟩ := final
            have callers : c.callers = r :: c'.callers := callers
            rw [potential, potential, callers, List.map_cons, List.sum_cons, there]
            omega
          · have keeps := @exec_keepsCallers c.callers _ calls returns
            refine last fun b c' es run => ?_
            have callers : c'.callers = c.callers :=
              (keeps _ { c with pc := a + 1 } rfl fun _ _ => trivial).1 b c' es run
            obtain there | past := exec_moves calls returns _ rfl b c' es run
            · refine Or.inr ?_
              have paid := covers c'.pc there
              rw [potential, potential, callers]
              omega
            · exact Or.inl (by rcases past with set | set <;> simp [ended, set])

end Instructions

section Runs

variable {env : Env} {file : List Byte} {im : Image} {ty : Typing} {cost : Cost} {n numVars : Nat}
  {s₀ s t : State} {c : Config}

theorem Typed.pays (typed : Typed im ty c) (paid : Paid im ty cost) (running : ended im c = false) :
    Pays im cost c.pc := by
  have shape := typed.shape.resolve_left (by rw [running]; exact Bool.false_ne_true)
  simp only [ended, Bool.or_eq_false_iff, decide_eq_false_iff_not] at running
  have pays := paid c.pc.toNat (by omega)
  rw [Int.toNat_of_nonneg (by omega), shape] at pays
  exact pays (Option.some_ne_none _)

/-- No run is longer than the potential it starts with. -/
theorem advance_bounded (well : WellTyped im ty numVars) (paid : Paid im ty cost)
    (h : Represents im false s c) (typed : Typed im ty c)
    (taken : advance (turn env) n s = some t) : n ≤ potential cost c := by
  induction n generalizing s c with
  | zero => exact Nat.zero_le _
  | succ n ih =>
      obtain ⟨u, first, rest⟩ := advance_succ_eq_some.mp taken
      have running : ended im c = false := by rw [ended_eq h, (turn_eq_some first).1]
      have pays := typed.pays paid running
      have both := (turn_follows h first).and (perform_typed well typed running _)
      cases performed : perform im (u.gCpu.stack u.gCpu.sp) c with
      | stopped f c' es =>
          rw [performed] at both
          exact both.2.elim
      | done b c' es =>
          rw [performed] at both
          obtain past | less := perform_pays pays _ b c' es performed
          · -- The program is over, so that this was the last turn.
            cases n with
            | zero => exact Nat.le_add_right_of_le pays.1
            | succ n =>
                obtain ⟨v, second, _⟩ := advance_succ_eq_some.mp rest
                rw [ended_eq both.1, (turn_eq_some second).1] at past
                contradiction
          · have later := ih both.1 both.2 rest
            omega

/-- The turns from each address of `successor`: four in the method, eight in all. -/
def successorCost : Cost := fun pc =>
  (([(0, 8), (1, 7), (4, 2), (5, 1), (10, 4), (12, 3), (14, 2), (15, 1)] :
    List (Int × Nat)).lookup pc).getD 0

end Runs

end Ijvm.Frames
