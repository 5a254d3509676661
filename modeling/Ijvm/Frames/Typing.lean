import Ijvm.Code.Branches
import Ijvm.Frames.Context
import Ijvm.Frames.Keeping
import Ijvm.Transcript.Completion

/-!
# Typed programs report no error of their own

A typing says for addresses of the code how many local variables and operands the method has
there. `WellTyped` checks each address on its own: the instruction finds its operands, its
variable, its constant and its argument bytes, and the addresses at which execution can go on
have the shapes that it leaves. A call goes on in the method and, once that returns, behind
itself, with one operand in place of the arguments.

Each instruction keeps the machine with frames typed, so a typed program never leaves the
discipline of frames, and the interpreter ends it early for want of stack memory, or in an
instruction on arrays or connections, and for no other reason.
-/

namespace Ijvm.Frames

open Transcript Program

/-- What is known at an address of the method that runs there. -/
structure Shape where
  main : Bool
  vars : Nat
  depth : Nat
  deriving DecidableEq

namespace Shape

/-- The shape after this number of operands has been taken and that number pushed. -/
def exchange (p : Shape) (takes gives : Nat) : Shape := { p with depth := p.depth - takes + gives }

end Shape

/-- The shapes at the addresses that execution can reach. -/
abbrev Typing := Int → Option Shape

namespace Image

variable (im : Image)

def indexSize (wide : Bool) : Int := if wide then 2 else 1

def index (wide : Bool) (a : Int) : Int :=
  if wide then (im.short a).toNat else (im.code a).toNat

theorem index_nonneg {wide : Bool} {a : Int} : 0 ≤ im.index wide a := by
  rw [index]
  split
  · exact Int.natCast_nonneg _
  · exact Int.natCast_nonneg _

/-- The variable index of IINC, which is signed behind a prefix. -/
def iincIndex (wide : Bool) (a : Int) : Int :=
  if wide then (im.short a).toInt else (im.code a).toNat

/-- The offset of a jump, from the address behind its two argument bytes. -/
def offset (a : Int) : Int := (im.short a - 3).toInt

end Image

/-- The numbers of operands that an instruction without argument bytes takes and gives. -/
def effect : Op → Option (Nat × Nat)
  | .nop | .gc => some (0, 0)
  | .pop | .out | .netclose => some (1, 0)
  | .dup => some (1, 2)
  | .swap => some (2, 2)
  | .iadd | .isub | .iand | .ior | .iaload | .netconnect => some (2, 1)
  | .in => some (0, 1)
  | .newarray | .netbind | .netin => some (1, 1)
  | .iastore => some (3, 0)
  | .netout => some (2, 0)
  | _ => none

section Conditions

variable (im : Image) (ty : Typing)

/-- Execution can go on at this address with this shape: at the end of the code it is over. -/
def Allows (pc : Int) (p : Shape) : Prop := im.codeSize ≤ pc ∨ ty pc = some p

/-- A jump over the offset at `a` arrives with this shape. -/
def Lands (a : Int) (p : Shape) : Prop :=
  0 ≤ a + 2 + im.offset a ∧ im.offset a < im.codeSize ∧ Allows im ty (a + 2 + im.offset a) p

def Branches (a : Int) (n : Nat) (p : Shape) : Prop :=
  a + 2 ≤ im.codeSize ∧ n ≤ p.depth ∧ Allows im ty (a + 2) (p.exchange n 0) ∧
    Lands im ty a (p.exchange n 0)

/-- A call: the method exists and finds its arguments, and its result is awaited. -/
def Calls (a : Int) (p : Shape) : Prop :=
  a + 2 < im.codeSize ∧ 0 ≤ (im.short a).toInt ∧ (im.short a).toInt < im.constCount ∧
    0 ≤ im.method a ∧ im.method a + 4 ≤ im.codeSize ∧
    im.numArgs a ≤ p.depth ∧
    ty (a + 2) = some (p.exchange (im.numArgs a) 1) ∧
    Allows im ty (im.method a + 4) {
      main := false
      vars := im.numArgs a + im.numLocals a
      depth := 0 }

/-- The instruction, with its arguments at `a`, can be executed in the shape `p`. -/
def Types (wide : Bool) (a : Int) (p : Shape) : Op → Prop
  | .halt | .err => True
  | .bipush => a + 1 ≤ im.codeSize ∧ Allows im ty (a + 1) (p.exchange 0 1)
  | .ldcW => a + 2 ≤ im.codeSize ∧ ((im.short a).toNat : Int) < im.constCount ∧
      Allows im ty (a + 2) (p.exchange 0 1)
  | .iload => a + Image.indexSize wide ≤ im.codeSize ∧ im.index wide a < p.vars ∧
      Allows im ty (a + Image.indexSize wide) (p.exchange 0 1)
  | .istore => a + Image.indexSize wide ≤ im.codeSize ∧ im.index wide a < p.vars ∧ 1 ≤ p.depth ∧
      Allows im ty (a + Image.indexSize wide) (p.exchange 1 0)
  | .iinc => a + Image.indexSize wide + 1 ≤ im.codeSize ∧ 0 ≤ im.iincIndex wide a ∧
      im.iincIndex wide a < p.vars ∧ Allows im ty (a + Image.indexSize wide + 1) p
  | .ifeq | .iflt => Branches im ty a 1 p
  | .icmpeq => Branches im ty a 2 p
  | .goto => a + 2 ≤ im.codeSize ∧ Lands im ty a p
  | .ireturn => p.main = false ∧ 1 ≤ p.depth
  | .invokevirtual => Calls im ty a p
  | op => match effect op with
      | none => False
      | some (takes, gives) => takes ≤ p.depth ∧ Allows im ty a (p.exchange takes gives)

/-- There is an instruction behind the prefixes at `pc`, and it can be executed. -/
def TypesAt (pc : Int) (p : Shape) : Prop :=
  match im.opAddr? pc with
  | none => False
  | some a => match Op.ofByte? (im.code a) with
      | none => False
      | some op => Types im ty (decide (a ≠ pc)) (a + 1) p op

/-- The typing fits the image, for a main method with this number of variables. -/
structure WellTyped (numVars : Nat) : Prop where
  start : Allows im ty 0 { main := true, vars := numVars, depth := 0 }
  types : ∀ k < im.codeSize.toNat, ∀ p ∈ ty k, TypesAt im ty k p

instance (pc : Int) (p : Shape) : Decidable (Allows im ty pc p) := by
  unfold Allows
  infer_instance

instance (a : Int) (p : Shape) : Decidable (Lands im ty a p) := by
  unfold Lands
  infer_instance

instance (a : Int) (n : Nat) (p : Shape) : Decidable (Branches im ty a n p) := by
  unfold Branches
  infer_instance

instance (a : Int) (p : Shape) : Decidable (Calls im ty a p) := by
  unfold Calls
  infer_instance

instance (wide : Bool) (a : Int) (p : Shape) (op : Op) : Decidable (Types im ty wide a p op) := by
  unfold Types
  cases op <;> dsimp only [effect] <;> infer_instance

instance (pc : Int) (p : Shape) : Decidable (TypesAt im ty pc p) := by
  unfold TypesAt
  cases im.opAddr? pc with
  | none => exact isFalse id
  | some a =>
      dsimp only
      cases Op.ofByte? (im.code a) with
      | none => exact isFalse id
      | some op => infer_instance

instance (numVars : Nat) : Decidable (WellTyped im ty numVars) :=
  decidable_of_iff (Allows im ty 0 { main := true, vars := numVars, depth := 0 } ∧
      ∀ k < im.codeSize.toNat, ∀ p ∈ ty k, TypesAt im ty k p)
    ⟨fun h => ⟨h.1, h.2⟩, fun h => ⟨h.start, h.types⟩⟩

end Conditions
section Parts

variable {x : Setting} {callers : List Suspension} {pc : Int} {vars depth : Nat} {α : Type}

/-- Where execution is, and what the frame looks like there. -/
structure At (callers : List Suspension) (pc : Int) (vars depth : Nat) (c : Config) : Prop where
  pc : c.pc = pc
  callers : c.callers = callers
  vars : c.frame.vars.length = vars
  depth : c.frame.operands.length = depth

theorem push_at (w : Word) :
    Succeeds x (At callers pc vars depth) (push w) fun _ => At callers pc vars (depth + 1) :=
  fun _ h => ⟨h.pc, h.callers, h.vars, congrArg (· + 1) h.depth⟩

theorem pop_at (some : 1 ≤ depth) :
    Succeeds x (At callers pc vars depth) pop fun _ => At callers pc vars (depth - 1) := by
  rintro ⟨_, ⟨_, operands⟩, _, _, _, _, _⟩ ⟨pc, callers, vars, depth⟩
  cases operands with
  | nil =>
      dsimp only [List.length_nil] at depth
      omega
  | cons w rest =>
      refine ⟨pc, callers, vars, ?_⟩
      dsimp only [List.length_cons] at depth ⊢
      omega

theorem load_at {i : Int} (nonneg : 0 ≤ i) (small : i < vars) :
    Succeeds x (At callers pc vars depth) (load i) fun _ => At callers pc vars depth := by
  intro c h
  have := h.vars
  rw [load_run, if_neg (by omega)]
  exact h

theorem store_at (w : Word) {i : Int} (nonneg : 0 ≤ i) (small : i < vars) :
    Succeeds x (At callers pc vars depth) (store w i) fun _ => At callers pc vars depth := by
  intro c h
  have := h.vars
  rw [store_run, if_neg (by omega)]
  refine ⟨h.pc, h.callers, ?_, h.depth⟩
  rw [List.length_set]
  exact h.vars

theorem argByte_at (inside : pc + 1 ≤ x.image.codeSize) :
    Succeeds x (At callers pc vars depth) argByte fun b c =>
      b = x.image.code pc ∧ At callers (pc + 1) vars depth c := by
  rintro c ⟨rfl, callers, vars, depth⟩
  rw [argByte_run, if_neg (by omega)]
  exact ⟨rfl, rfl, callers, vars, depth⟩

theorem argShort_at (inside : pc + 2 ≤ x.image.codeSize) :
    Succeeds x (At callers pc vars depth) argShort fun k c =>
      k = x.image.short pc ∧ At callers (pc + 2) vars depth c := by
  rintro c ⟨rfl, callers, vars, depth⟩
  rw [argShort_run, if_neg (by omega)]
  exact ⟨rfl, rfl, callers, vars, depth⟩

theorem varIndex_at (inside : pc + Image.indexSize x.wide ≤ x.image.codeSize) :
    Succeeds x (At callers pc vars depth) varIndex fun i c =>
      i = x.image.index x.wide pc ∧ At callers (pc + Image.indexSize x.wide) vars depth c := by
  refine .ask_bind ?_
  cases wide : x.wide with
  | true =>
      rw [wide] at inside
      exact .bind_value (argShort_at inside) (.pure fun _ h => ⟨rfl, h⟩)
  | false =>
      rw [wide] at inside
      exact .bind_value (argByte_at inside) (.pure fun _ h => ⟨rfl, h⟩)

theorem constant_at {i : Int} (nonneg : 0 ≤ i) (small : i < x.image.constCount) :
    Succeeds x (At callers pc vars depth) (constant i) fun w c =>
      w = x.image.consts.getD i.toNat 0 ∧ At callers pc vars depth c := by
  intro c h
  rw [constant_run, if_neg (by omega)]
  exact ⟨rfl, h⟩

theorem jump_at {offset : Int} (low : 0 ≤ pc + offset) (high : offset < x.image.codeSize) :
    Succeeds x (At callers pc vars depth) (jump offset) fun _ =>
      At callers (pc + offset) vars depth := by
  rintro c ⟨rfl, callers, vars, depth⟩
  rw [jump_run, if_neg (by omega)]
  exact ⟨rfl, callers, vars, depth⟩

theorem jumpOffset_at (inside : pc + 2 ≤ x.image.codeSize) :
    Succeeds x (At callers pc vars depth) jumpOffset fun k c =>
      k = x.image.offset pc ∧ At callers (pc + 2) vars depth c :=
  .bind_value (argShort_at inside) (.pure fun _ h => ⟨rfl, h⟩)

theorem discard_at {n : Nat} (enough : n ≤ depth) :
    Succeeds x (At callers pc vars depth) (discard n) fun _ =>
      At callers pc vars (depth - n) := by
  induction n generalizing depth with
  | zero => exact .pure fun _ h => h
  | succ n ih =>
      refine .bind (pop_at (by omega)) fun _ => ?_
      rw [show depth - (n + 1) = depth - 1 - n by omega]
      exact ih (by omega)

theorem request_at {n : Nat} (enough : n ≤ depth) :
    Succeeds x (At callers pc vars depth) (request n) fun _ =>
      At callers pc vars (depth - n + 1) := by
  induction n generalizing depth with
  | zero => exact .ask_bind (push_at _)
  | succ n ih =>
      refine .bind (pop_at (by omega)) fun _ => ?_
      rw [show depth - (n + 1) = depth - 1 - n by omega]
      exact ih (by omega)

theorem binary_at (f : Word → Word → Word) (enough : 2 ≤ depth) :
    Succeeds x (At callers pc vars depth) (binary f) fun _ =>
      At callers pc vars (depth - 2 + 1) :=
  .bind (pop_at (by omega)) fun _ => .bind (pop_at (by omega)) fun _ => push_at _

end Parts

section Instructions

variable {x : Setting} {im : Image} {ty : Typing} {callers : List Suspension} {pc : Int}
  {vars depth : Nat} {p q : Shape} {op : Op} {P : Config → Prop} {m : FM Unit}

/-- The suspended methods are awaited: one more operand than they have is the shape at the
address at which they go on. -/
def Awaited (im : Image) (ty : Typing) : List Suspension → Prop
  | [] => True
  | r :: rest =>
      0 ≤ r.pc ∧ r.pc < im.codeSize ∧
        ty r.pc = some {
          main := rest.isEmpty
          vars := r.frame.vars.length
          depth := r.frame.operands.length + 1 } ∧
        Awaited im ty rest

/-- The machine is over, or in the shape of its address; its callers are awaited. -/
structure Typed (im : Image) (ty : Typing) (c : Config) : Prop where
  shape : ended im c = true ∨ ty c.pc = some {
    main := c.callers.isEmpty
    vars := c.frame.vars.length
    depth := c.frame.operands.length }
  callers : Awaited im ty c.callers

theorem At.typed {c : Config} (h : At callers pc q.vars q.depth c) (allows : Allows im ty pc q)
    (main : q.main = callers.isEmpty) (awaited : Awaited im ty callers) : Typed im ty c := by
  obtain ⟨rfl, rfl, vars, depth⟩ := h
  refine ⟨allows.imp (fun past => ?_) fun shape => ?_, awaited⟩
  · simp [ended, past]
  · rw [shape, vars, depth, ← main]

/-- A part of an instruction that arrives where execution can go on. -/
theorem arrives (part : Succeeds x P m fun _ => At callers pc q.vars q.depth)
    (allows : Allows im ty pc q) (main : q.main = callers.isEmpty)
    (awaited : Awaited im ty callers) : Succeeds x P m fun _ => Typed im ty :=
  part.mono (fun _ start => start) fun _ _ h => h.typed allows main awaited

/-- An instruction without argument bytes. -/
theorem effect_at {takes gives : Nat} (known : effect op = some (takes, gives))
    (enough : takes ≤ depth) :
    Succeeds x (At callers pc vars depth) (exec op) fun _ =>
      At callers pc vars (depth - takes + gives) := by
  cases op <;> cases known
  case nop | gc => exact .pure fun _ h => h
  case pop | iastore | netout | netclose => exact discard_at enough
  case iadd | isub | iand | ior => exact binary_at _ enough
  case newarray | iaload | netbind | netconnect | netin => exact request_at enough
  case dup => exact .bind (pop_at enough) fun _ => .bind (push_at _) fun _ => push_at _
  case swap =>
    exact .bind (pop_at (by omega)) fun _ => .bind (pop_at (by omega)) fun _ =>
      .bind (push_at _) fun _ => push_at _
  case «in» =>
    rintro ⟨_, _, _, input, _, _, _⟩ h
    cases input with
    | nil => exact push_at (x := x) 0 _ ⟨h.pc, h.callers, h.vars, h.depth⟩
    | cons b rest => exact push_at (x := x) (b.setWidth 32) _ ⟨h.pc, h.callers, h.vars, h.depth⟩
  case out =>
    exact .bind (pop_at enough) fun _ => .modify fun _ h => ⟨h.pc, h.callers, h.vars, h.depth⟩

theorem jump_typed {a : Int} (lands : Lands x.image ty a q) (main : q.main = callers.isEmpty)
    (awaited : Awaited x.image ty callers) :
    Succeeds x (At callers (a + 2) q.vars q.depth) (jump (x.image.offset a)) fun _ =>
      Typed x.image ty :=
  arrives (jump_at lands.1 lands.2.1) lands.2.2 main awaited

theorem goto_typed {a : Int} (inside : a + 2 ≤ x.image.codeSize) (lands : Lands x.image ty a q)
    (main : q.main = callers.isEmpty) (awaited : Awaited x.image ty callers) :
    Succeeds x (At callers a q.vars q.depth) (exec .goto) fun _ => Typed x.image ty :=
  .bind_value (jumpOffset_at inside) (jump_typed lands main awaited)

/-- A branch on one operand. -/
theorem branch_typed {a : Int} (branches : Branches x.image ty a 1 p)
    (main : p.main = callers.isEmpty) (awaited : Awaited x.image ty callers) (test : Word → Prop)
    [DecidablePred test] :
    Succeeds x (At callers a p.vars p.depth) (do
      let offset ← jumpOffset
      if test (← pop) then jump offset) fun _ => Typed x.image ty := by
  obtain ⟨inside, enough, next, lands⟩ := branches
  exact .bind_value (jumpOffset_at inside) (.bind (pop_at enough) fun w =>
    .ite (fun _ => jump_typed lands main awaited) fun _ =>
      arrives (.pure fun _ h => h) next main awaited)

theorem icmpeq_typed {a : Int} (branches : Branches x.image ty a 2 p)
    (main : p.main = callers.isEmpty) (awaited : Awaited x.image ty callers) :
    Succeeds x (At callers a p.vars p.depth) (exec .icmpeq) fun _ => Typed x.image ty := by
  obtain ⟨inside, enough, next, lands⟩ := branches
  exact .bind_value (jumpOffset_at inside) (.bind (pop_at (by omega)) fun v =>
    .bind (pop_at (by omega)) fun w => .ite (fun _ => jump_typed lands main awaited) fun _ =>
      arrives (.pure fun _ h => h) next main awaited)

theorem iinc_at {a : Int} (inside : a + Image.indexSize x.wide + 1 ≤ x.image.codeSize)
    (nonneg : 0 ≤ x.image.iincIndex x.wide a) (small : x.image.iincIndex x.wide a < vars) :
    Succeeds x (At callers a vars depth) (exec .iinc) fun _ =>
      At callers (a + Image.indexSize x.wide + 1) vars depth := by
  refine .ask_bind ?_
  have rest {i : Int} {pc : Int} (inside : pc + 1 ≤ x.image.codeSize) (nonneg : 0 ≤ i)
      (small : i < vars) : Succeeds x (At callers pc vars depth) (do
        let c ← argByte
        store ((← load i) + c.signExtend 32) i) fun _ => At callers (pc + 1) vars depth :=
    .bind_value (argByte_at inside) (.bind (load_at nonneg small) fun _ =>
      store_at _ nonneg small)
  cases wide : x.wide with
  | true =>
      rw [wide] at inside nonneg small
      exact .bind_value (v := (x.image.short a).toInt)
        (.bind_value (argShort_at (by rw [Image.indexSize] at inside; simp at inside; omega))
          (.pure fun _ h => ⟨rfl, h⟩)) (rest inside nonneg small)
  | false =>
      rw [wide] at inside nonneg small
      exact .bind_value (v := ((x.image.code a).toNat : Int))
        (.bind_value (argByte_at (by rw [Image.indexSize] at inside; simp at inside; omega))
          (.pure fun _ h => ⟨rfl, h⟩)) (rest inside nonneg small)

/-- A return goes on behind the call, where its word is awaited. -/
theorem leave_typed {a : Int} (called : p.main = false) (enough : 1 ≤ p.depth)
    (main : p.main = callers.isEmpty) (awaited : Awaited x.image ty callers) :
    Succeeds x (At callers a p.vars p.depth) leave fun _ => Typed x.image ty := by
  cases callers with
  | nil =>
      rw [called] at main
      contradiction
  | cons r rest =>
      obtain ⟨low, high, shape, awaited⟩ := awaited
      refine .bind (pop_at enough) fun w => .get_bind fun c h => ?_
      rw [h.callers]
      refine .ask_bind ?_
      rw [if_neg (by omega)]
      exact .modify fun _ _ => ⟨Or.inr shape, awaited⟩

theorem findMethod_at {a : Int} (calls : Calls x.image ty a p) :
    Succeeds x (At callers a vars depth) findMethod fun v c =>
      v = (a + 2, x.image.numArgs a,
        x.image.numLocals a) ∧
      At callers (x.image.method a + 4) vars depth c := by
  obtain ⟨inside, nonneg, small, low, high, -⟩ := calls
  refine .ask_bind (.bind_value (argShort_at (by omega)) (.bind_value (constant_at nonneg small)
    (.get_bind fun c h => ?_)))
  have method : (x.image.consts.getD (x.image.short a).toInt.toNat 0).toInt =
      x.image.method a := rfl
  rw [method, if_neg (by omega), h.pc]
  have moved : Succeeds x (fun t => t = c)
      (modify fun c => { c with pc := x.image.method a } : FM Unit)
      fun _ => At callers (x.image.method a) vars depth := by
    rintro t rfl
    exact ⟨rfl, h.callers, h.vars, h.depth⟩
  refine .bind moved fun _ => .bind_value (argShort_at (by omega))
    (.bind_value (argShort_at (by omega)) (.pure fun t h => ⟨rfl, ?_⟩))
  rw [show x.image.method a + 4 = x.image.method a + 2 + 2 by omega]
  exact h

/-- A call awaits the result behind itself. -/
theorem invoke_typed {a : Int} (calls : Calls x.image ty a p) (main : p.main = callers.isEmpty)
    (awaited : Awaited x.image ty callers) (nonneg : 0 ≤ a) :
    Succeeds x (At callers a p.vars p.depth) invoke fun _ => Typed x.image ty := by
  refine .bind_value (findMethod_at calls) ?_
  obtain ⟨inside, -, -, -, -, enough, back, next⟩ := calls
  refine .get_bind fun c h => .ite (fun few => ?_) fun _ => .modify fun t same => ?_
  · have := h.depth
    omega
  · subst same
    refine ⟨next.imp (fun past => ?_) fun shape => ?_, ?_⟩
    · have past' : x.image.codeSize ≤ t.pc := by rw [h.pc]; exact past
      simp [ended, past']
    · rw [h.pc, shape, List.length_append, List.length_reverse, List.length_take,
        List.length_replicate, h.depth, Nat.min_eq_left enough]
      rfl
    · refine ⟨by dsimp only; omega, by dsimp only; omega, ?_, ?_⟩
      · dsimp only
        rw [back, Shape.exchange, main, h.callers, h.vars, List.length_drop, h.depth]
      · rw [h.callers]
        exact awaited

/-- An instruction that can be executed in a shape goes on in the shapes of the typing. -/
theorem exec_typed {a : Int} (types : Types x.image ty x.wide a p op)
    (main : p.main = callers.isEmpty) (awaited : Awaited x.image ty callers) (nonneg : 0 ≤ a) :
    Succeeds x (At callers a p.vars p.depth) (exec op) fun _ => Typed x.image ty := by
  have plain {takes gives : Nat} (known : effect op = some (takes, gives))
      (fits : takes ≤ p.depth ∧ Allows x.image ty a (p.exchange takes gives)) :
      Succeeds x (At callers a p.vars p.depth) (exec op) fun _ => Typed x.image ty :=
    arrives (q := p.exchange takes gives) (effect_at known fits.1) fits.2 main awaited
  cases op
  case halt | err =>
    refine .modify fun c h => ⟨Or.inl ?_, ?_⟩
    · simp [ended]
    · rw [h.callers]
      exact awaited
  case bipush =>
    exact arrives (q := p.exchange 0 1) (.bind_value (argByte_at types.1) (push_at _)) types.2 main
      awaited
  case ldcW =>
    obtain ⟨inside, small, next⟩ := types
    exact arrives (q := p.exchange 0 1) (.bind_value (argShort_at inside) (.bind_value
      (constant_at (Int.natCast_nonneg _) small) (push_at _))) next main awaited
  case iload =>
    obtain ⟨inside, small, next⟩ := types
    exact arrives (q := p.exchange 0 1) (.bind_value (varIndex_at inside)
      (.bind (load_at x.image.index_nonneg small) fun _ => push_at _)) next main awaited
  case istore =>
    obtain ⟨inside, small, enough, next⟩ := types
    exact arrives (q := p.exchange 1 0) (.bind (pop_at enough) fun _ =>
      .bind_value (varIndex_at inside) (store_at _ x.image.index_nonneg small)) next main awaited
  case iinc =>
    obtain ⟨inside, low, small, next⟩ := types
    exact arrives (iinc_at inside low small) next main awaited
  case ifeq => exact branch_typed types main awaited fun w => w = 0
  case iflt => exact branch_typed types main awaited fun w => w.toInt < 0
  case icmpeq => exact icmpeq_typed types main awaited
  case goto => exact goto_typed types.1 types.2 main awaited
  case ireturn => exact leave_typed types.1 types.2 main awaited
  case invokevirtual => exact invoke_typed types main awaited nonneg
  case wide => exact types.elim
  all_goals exact plain rfl types

/-- A typed machine that is not over can execute its next instruction. -/
theorem Typed.typesAt {numVars : Nat} {c : Config} (typed : Typed im ty c)
    (well : WellTyped im ty numVars) (running : ended im c = false) :
    TypesAt im ty c.pc {
      main := c.callers.isEmpty
      vars := c.frame.vars.length
      depth := c.frame.operands.length } := by
  have shape := typed.shape.resolve_left (by rw [running]; exact Bool.false_ne_true)
  simp only [ended, Bool.or_eq_false_iff, decide_eq_false_iff_not] at running
  have types := well.types c.pc.toNat (by omega) _ (by
    rw [Int.toNat_of_nonneg (by omega)]
    exact shape)
  rwa [Int.toNat_of_nonneg (by omega)] at types

/-- One more instruction. -/
theorem perform_typed {numVars : Nat} {c : Config} (well : WellTyped im ty numVars)
    (typed : Typed im ty c) (running : ended im c = false) (w : Word) :
    (perform im w c).Satisfies (fun _ c' _ => Typed im ty c') fun _ _ _ => False := by
  have types := typed.typesAt well running
  rw [TypesAt] at types
  unfold perform
  cases found : im.opAddr? c.pc with
  | none =>
      rw [found] at types
      exact types
  | some a =>
      have bounds := opAddrFrom_bounds found
      rw [found] at types
      dsimp only at types ⊢
      cases decoded : Op.ofByte? (im.code a) with
      | none =>
          rw [decoded] at types
          exact types.elim
      | some op =>
          rw [decoded] at types
          have nonneg : 0 ≤ a + 1 := by omega
          exact Outcome.Satisfies.andThen (exec_typed types rfl typed.callers nonneg _
            ⟨rfl, rfl, rfl, rfl⟩) fun _ _ _ final => final

/-- A run of typed code never stops early. -/
theorem run_typed {numVars : Nat} {c : Config} (well : WellTyped im ty numVars)
    (typed : Typed im ty c) (ws : List Word) :
    (run im ws c).Satisfies (fun _ c' _ => Typed im ty c') fun _ _ _ => False := by
  induction ws generalizing c with
  | nil => exact typed
  | cons w ws ih =>
      rw [run]
      cases past : ended im c with
      | true => exact typed
      | false =>
          exact (perform_typed well typed past w).andThen fun _ _ _ next => ih next

theorem start_typed {numVars : Nat} (well : WellTyped im ty numVars) (input : List Byte) :
    Typed im ty (start numVars input) := by
  refine ⟨well.start.imp (fun past => ?_) fun shape => ?_, trivial⟩
  · simp [ended, start, past]
  · simpa [start] using shape

end Instructions

section Typed

variable {env : Env} {file : List Byte} {n : Nat} {s₀ s : State} {ty : Typing}

/-- A typed run keeps to the frames. -/
theorem typed_follows (started : after env file 0 = some s₀)
    (reached : after env file n = some s)
    (well : WellTyped (Image.of s₀.gCpu) ty s₀.gCpu.nv.toNat) :
    ∃ c es, run (Image.of s₀.gCpu) (answers env n s₀) (start s₀.gCpu.nv.toNat env.stdin) =
      .done () c es ∧ Represents (Image.of s₀.gCpu) false s c ∧ Typed (Image.of s₀.gCpu) ty c := by
  have both := (advance_follows (start_represents started) (advance_of_after started reached)).and
    (run_typed well (start_typed well env.stdin) _)
  cases ran : run (Image.of s₀.gCpu) (answers env n s₀) (start s₀.gCpu.nv.toNat env.stdin) with
  | stopped f c es =>
      rw [ran] at both
      exact both.2.elim
  | done _ c es =>
      rw [ran] at both
      exact ⟨c, es, rfl, both.1, both.2⟩

/-- A typed run does not end with an error of its own. -/
theorem typed_stops (started : after env file 0 = some s₀) (reached : after env file n = some s)
    (well : WellTyped (Image.of s₀.gCpu) ty s₀.gCpu.nv.toNat) {r : Stop} {t : State}
    {es : List Event} (running : finished s.gCpu = false)
    (stops : step.run env s = .stopped r t es) : r.external (Connects s) := by
  by_contra own
  have ends := (advance_stops (start_represents started) (advance_of_after started reached)
    running stops own 0).and (run_typed well (start_typed well env.stdin) _)
  cases ran : run (Image.of s₀.gCpu) (answers env n s₀ ++ [0])
      (start s₀.gCpu.nv.toNat env.stdin) with
  | stopped f c es =>
      rw [ran] at ends
      exact ends.2
  | done _ c es =>
      rw [ran] at ends
      exact ends.1

/-- The next step is an instruction, and the error flag is set only by ERR. -/
def Proper (env : Env) (s : State) : Prop :=
  ∃ a op, s.Executes a op ∧
    ∀ b t es, step.run env s = .done b t es → t.gCpu.errorFlag = true → op = .err

/-- A typed run comes to no byte that is no opcode. -/
theorem typed_proper {im : Image} {c : Config} (h : Represents im false s c)
    (typed : Typed im ty c) {numVars : Nat} (well : WellTyped im ty numVars)
    (running : finished s.gCpu = false) : Proper env s := by
  have types := typed.typesAt well ((ended_eq h).trans running)
  rw [TypesAt, opAddr?_eq h] at types
  cases found : s.gCpu.opAddr? with
  | none =>
      rw [found] at types
      exact types.elim
  | some a =>
      rw [found] at types
      dsimp only at types
      cases decoded : Op.ofByte? (im.code a) with
      | none =>
          rw [decoded] at types
          exact types.elim
      | some op =>
          have executes : s.Executes a op := ⟨found, (opcode_eq h found).symm ▸ decoded⟩
          refine ⟨a, op, executes, fun b t es run flag => ?_⟩
          by_contra other
          have taken : turn env s = some t := by rw [turn_of_running running, run]
          have follows := turn_follows h taken
          obtain ⟨opAddr, _⟩ := h.decodes executes
          rw [perform_op _ opAddr decoded] at follows
          have keeps := exec_keepsErrorFlag (b := c.errorFlag) other
            ⟨im, decide (a ≠ c.pc), t.gCpu.stack t.gCpu.sp⟩ { c with pc := a + 1 } rfl
            fun _ _ => trivial
          cases executed : (exec op).run ⟨im, decide (a ≠ c.pc), t.gCpu.stack t.gCpu.sp⟩
              { c with pc := a + 1 } with
          | stopped f c' fs =>
              rw [executed] at follows
              subst follows
              have safe := perform_typed well typed ((ended_eq h).trans running)
                (t.gCpu.stack t.gCpu.sp)
              rw [perform_op _ opAddr decoded, executed] at safe
              exact safe
          | done u c' fs =>
              rw [executed] at follows keeps
              have kept : c'.errorFlag = c.errorFlag := keeps.1 _ _ _ rfl
              have clear : s.gCpu.errorFlag = false := (flags_of_running running).1
              have represents : Represents im false t c' := follows
              rw [represents.flags.1, kept, ← h.flags.1, clear] at flag
              contradiction

/-- The main method of `successor` has up to one operand, its other method up to two. -/
def successorTyping : Typing := fun pc =>
  ([(0, ⟨true, 0, 0⟩), (1, ⟨true, 0, 1⟩), (4, ⟨true, 0, 1⟩), (5, ⟨true, 0, 0⟩), (10, ⟨false, 1, 0⟩),
    (12, ⟨false, 1, 1⟩), (14, ⟨false, 1, 2⟩), (15, ⟨false, 1, 1⟩)] : List (Int × Shape)).lookup pc

end Typed

end Ijvm.Frames
