import Ijvm.Frames.Machine
import Ijvm.Transcript.Contract

/-!
# What the instructions leave as it is

Only a call and a return move between frames, and only ERR and HALT set a flag. Both are facts
about the parts of a configuration that an instruction inside a frame does not change:
`exec_keeps` proves them together, for every assertion about these parts.
-/

namespace Ijvm.Frames

open Transcript Program

/-- An assertion about the callers and the flags of a configuration. -/
def Outer (I : Config → Prop) : Prop :=
  ∀ (c : Config) (pc : Int) (frame : Activation) (input output : List Byte), I c →
    I { c with pc, frame, input, output }

theorem outer_callers (ks : List Suspension) : Outer fun c => c.callers = ks :=
  fun _ _ _ _ _ same => same

theorem outer_errorFlag (b : Bool) : Outer fun c => c.errorFlag = b :=
  fun _ _ _ _ _ same => same

abbrev KeepsOuter {α : Type} (I : Config → Prop) (m : FM α) : Prop :=
  Keeps (fun _ => True) I (fun _ => True) m

section Parts

variable {I : Config → Prop}

theorem load_keeps (i : Int) : KeepsOuter I (load i) :=
  .bind .get fun _ => .ite (fun _ => .stop _) fun _ => .pure _

theorem constant_keeps (i : Int) : KeepsOuter I (constant i) :=
  .bind .ask fun _ => .ite (fun _ => .stop _) fun _ => .pure _

variable (outer : Outer I)
include outer

theorem push_keeps (w : Word) : KeepsOuter I (push w) := .modify fun _ => outer _ _ _ _ _

theorem pop_keeps : KeepsOuter I pop := by
  refine .bind .get fun c => ?_
  cases c.frame.operands with
  | nil => exact .stop _
  | cons w rest => exact .bind (Keeps.modify fun _ => outer _ _ _ _ _) fun _ => .pure _

theorem store_keeps (w : Word) (i : Int) : KeepsOuter I (store w i) :=
  .bind .get fun _ => .ite (fun _ => .stop _) fun _ => .modify fun _ => outer _ _ _ _ _

theorem argByte_keeps : KeepsOuter I argByte :=
  .bind .ask fun _ => .bind .get fun _ => .ite (fun _ => .stop _) fun _ =>
    .bind (.modify fun _ => outer _ _ _ _ _) fun _ => .pure _

theorem argShort_keeps : KeepsOuter I argShort :=
  .bind .ask fun _ => .bind .get fun _ => .ite (fun _ => .stop _) fun _ =>
    .bind (.modify fun _ => outer _ _ _ _ _) fun _ => .pure _

theorem varIndex_keeps : KeepsOuter I varIndex :=
  .bind .ask fun _ => .ite (fun _ => .bind (argShort_keeps outer) fun _ => .pure _)
    fun _ => .bind (argByte_keeps outer) fun _ => .pure _

theorem jump_keeps (offset : Int) : KeepsOuter I (jump offset) :=
  .bind .ask fun _ => .bind .get fun _ => .ite (fun _ => .stop _) fun _ =>
    .modify fun _ => outer _ _ _ _ _

theorem jumpOffset_keeps : KeepsOuter I jumpOffset :=
  .bind (argShort_keeps outer) fun _ => .pure _

theorem discard_keeps (n : Nat) : KeepsOuter I (discard n) := by
  induction n with
  | zero => exact .pure _
  | succ n ih => exact .bind (pop_keeps outer) fun _ => ih

theorem request_keeps (n : Nat) : KeepsOuter I (request n) := by
  induction n with
  | zero => exact .bind .ask fun _ => push_keeps outer _
  | succ n ih => exact .bind (pop_keeps outer) fun _ => ih

theorem binary_keeps (f : Word → Word → Word) : KeepsOuter I (binary f) :=
  .bind (pop_keeps outer) fun _ => .bind (pop_keeps outer) fun _ => push_keeps outer _

theorem input_keeps : KeepsOuter I input := by
  have next : KeepsOuter I nextByte := by
    refine .bind .get fun c => ?_
    cases c.input with
    | nil => exact .pure _
    | cons b rest => exact .bind (Keeps.modify fun _ => outer _ _ _ _ _) fun _ => .pure _
  refine .bind next fun b => ?_
  cases b with
  | none => exact push_keeps outer _
  | some b => exact push_keeps outer _

theorem iinc_keeps : KeepsOuter I (exec .iinc) := by
  have rest (i : Int) : KeepsOuter I (do
      let c ← argByte
      store ((← load i) + c.signExtend 32) i) :=
    .bind (argByte_keeps outer) fun _ => .bind (load_keeps _) fun _ => store_keeps outer _ _
  exact .bind .ask fun _ => .ite
    (fun _ => .bind (.bind (argShort_keeps outer) fun _ => .pure _) rest)
    fun _ => .bind (.bind (argByte_keeps outer) fun _ => .pure _) rest

theorem branch_keeps (test : Word → Prop) [DecidablePred test] : KeepsOuter I (do
    let offset ← jumpOffset
    if test (← pop) then jump offset) :=
  .bind (jumpOffset_keeps outer) fun _ => .bind (pop_keeps outer) fun _ =>
    .ite (fun _ => jump_keeps outer _) fun _ => .pure _

theorem findMethod_keeps : KeepsOuter I findMethod :=
  .bind .ask fun _ => .bind (argShort_keeps outer) fun _ => .bind (constant_keeps _) fun _ =>
    .bind .get fun _ => .ite (fun _ => .stop _) fun _ =>
      .bind (.modify fun _ => outer _ _ _ _ _) fun _ => .bind (argShort_keeps outer) fun _ =>
        .bind (argShort_keeps outer) fun _ => .pure _

/-- What an instruction inside a frame leaves as it is. -/
theorem exec_keeps {op : Op} (stays : op ≠ .invokevirtual) (remains : op ≠ .ireturn)
    (goes : op ≠ .err) (runs : op ≠ .halt) : KeepsOuter I (exec op) := by
  have pops := pop_keeps outer
  have pushes (w : Word) := push_keeps outer w
  cases op
  case invokevirtual => exact absurd rfl stays
  case ireturn => exact absurd rfl remains
  case err => exact absurd rfl goes
  case halt => exact absurd rfl runs
  case nop | gc => exact .pure _
  case bipush => exact .bind (argByte_keeps outer) fun _ => pushes _
  case ldcW =>
    exact .bind (argShort_keeps outer) fun _ => .bind (constant_keeps _) fun _ => pushes _
  case iload => exact .bind (varIndex_keeps outer) fun _ => .bind (load_keeps _) fun _ => pushes _
  case istore =>
    exact .bind pops fun _ => .bind (varIndex_keeps outer) fun _ => store_keeps outer _ _
  case dup => exact .bind pops fun _ => .bind (pushes _) fun _ => pushes _
  case swap =>
    exact .bind pops fun _ => .bind pops fun _ => .bind (pushes _) fun _ => pushes _
  case iadd | isub | iand | ior => exact binary_keeps outer _
  case iinc => exact iinc_keeps outer
  case ifeq => exact branch_keeps outer fun w => w = 0
  case iflt => exact branch_keeps outer fun w => w.toInt < 0
  case icmpeq =>
    exact .bind (jumpOffset_keeps outer) fun _ => .bind pops fun _ => .bind pops fun _ =>
      .ite (fun _ => jump_keeps outer _) fun _ => .pure _
  case goto => exact .bind (jumpOffset_keeps outer) fun _ => jump_keeps outer _
  case wide => exact .stop _
  case «in» => exact input_keeps outer
  case out => exact .bind pops fun _ => .modify fun _ => outer _ _ _ _ _
  case pop | iastore | netout | netclose => exact discard_keeps outer _
  case newarray | iaload | netbind | netconnect | netin => exact request_keeps outer _

end Parts

/-- Every other instruction leaves the callers as they are. -/
theorem exec_keepsCallers {ks : List Suspension} {op : Op} (stays : op ≠ .invokevirtual)
    (remains : op ≠ .ireturn) : KeepsOuter (fun c => c.callers = ks) (exec op) := by
  by_cases goes : op = .err
  · subst goes
    exact .modify fun _ same => same
  by_cases runs : op = .halt
  · subst runs
    exact .modify fun _ same => same
  exact exec_keeps (outer_callers ks) stays remains goes runs

/-- Only ERR sets the error flag. -/
theorem exec_keepsErrorFlag {b : Bool} {op : Op} (goes : op ≠ .err) :
    KeepsOuter (fun c => c.errorFlag = b) (exec op) := by
  have outer := outer_errorFlag b
  by_cases stays : op = .invokevirtual
  · subst stays
    refine .bind (findMethod_keeps outer) fun _ => .bind .get fun _ => .ite (fun _ => .stop _) ?_
    exact fun _ => .modify fun _ same => same
  by_cases remains : op = .ireturn
  · subst remains
    refine .bind (pop_keeps outer) fun _ => .bind .get fun c => ?_
    cases c.callers with
    | nil => exact .stop _
    | cons r rest =>
        exact .bind .ask fun _ => .ite (fun _ => .stop _) fun _ => .modify fun _ same => same
  by_cases runs : op = .halt
  · subst runs
    exact .modify fun _ same => same
  exact exec_keeps outer stays remains goes runs

end Ijvm.Frames
