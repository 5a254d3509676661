import Ijvm.Machine.Offline
import Ijvm.Stack.Access

/-!
# Instructions that only push and pop

Most instructions take operands with `stackPop`, push results with `stackPush`, and
otherwise touch the program counter, the flags, the files, the arrays or the
connections. A judgment about programs that has the rules of `PlainRules` holds of these
instructions, one that has the rules of `FrameRules` also of those that use the local
variables, and one that has the rules of `MachineRules` of every step of the machine.
`Primitives` collects what a preserved assertion needs for the first.
-/

namespace Ijvm

open Transcript Program

/-- The state with another program counter, other flags and other files. -/
def State.withControl (s : State) (pc : Int) (errorFlag haltFlag : Bool)
    (inFile outFile : List Byte) : State :=
  { s with
    gCpu := { s.gCpu with pc, errorFlag, haltFlag }
    inFile, outFile }

/-- Every instruction apart from those that read or write stack cells other than by
pushing and popping operands. -/
def Op.plain : Op → Bool
  | .iload | .istore | .iinc | .dup | .ireturn | .invokevirtual | .wide => false
  | _ => true

/-- Events of fetching an argument and of computing with operands. -/
def Event.computing : Event → Prop
  | .code .. => True
  | .signed _ => True
  | _ => False

/-- The function changes the program counter and the flags only. -/
def Cpu.Steers (f : Cpu → Cpu) : Prop :=
  ∀ c, ∃ pc e h, f c = { c with pc, errorFlag := e, haltFlag := h }

/-- The rules of a judgment `P` that decide the instructions which only push and pop. -/
structure PlainRules (P : (α : Type) → VM α → Prop) : Prop where
  bind : ∀ {α β : Type} {m : VM α} {f : α → VM β}, P α m → (∀ a, P β (f a)) → P β (m >>= f)
  aside : ∀ {α : Type} {m : VM α}, (∀ cpu wide, Aside cpu wide m) → Networking m → P α m
  computing : ∀ {es : List Event}, (∀ e ∈ es, e.computing) → P Unit (Program.emit es)
  steers : ∀ {f : Cpu → Cpu}, Cpu.Steers f → P Unit (modifyCpu f)
  pop : P Word (stackPop .pop)
  push : ∀ e, P Bool (stackPush e)

/-- The rules that also decide the instructions which use the local variables. -/
structure FrameRules (P : (α : Type) → VM α → Prop) : Prop extends PlainRules P where
  load : ∀ i, P Word (getLocalVariable i)
  store : ∀ v i, P Unit (updateLocalVariable v i)
  dup : P Unit execOpDup

/-- The rules that decide every instruction: calls and returns move all registers, but not
the size of the stack. -/
structure MachineRules (P : (α : Type) → VM α → Prop) : Prop extends FrameRules P where
  registers : ∀ {f : Cpu → Cpu}, (∀ c, (f c).stackSize = c.stackSize) → P Unit (modifyCpu f)
  linkage : P Word (stackPop .linkage)
  clear : ∀ start n, P Unit (clearCells start n)
  prefixed : ∀ wide, P Unit (setNextOpWide wide)

theorem getc_offline : Offline getc := by
  intro conns env s hs
  simp only [getc, run_bind, run_get, Outcome.andThen_done, Outcome.prepend_nil]
  cases s.inFile with
  | nil => exact ⟨hs, by simp⟩
  | cons b rest => exact ⟨hs, by simp⟩

theorem getc_aside {cpu : Cpu} {wide : Bool} : Aside cpu wide getc := by
  intro env s hs
  simp only [getc, run_bind, run_get, Outcome.andThen_done, Outcome.prepend_nil]
  cases s.inFile with
  | nil => exact ⟨hs, by simp⟩
  | cons b rest => exact ⟨hs, by simp⟩

namespace PlainRules

variable {P : (α : Type) → VM α → Prop}

theorem get (h : PlainRules P) : P State get := h.aside (fun _ _ => .get) (.offline .get)

theorem pure (h : PlainRules P) {α : Type} (a : α) : P α (pure a) :=
  h.aside (fun _ _ => .pure a) (.offline (.pure a))

theorem stop (h : PlainRules P) {α : Type} {e : Stop} (other : e ≠ .error .stackOutOfMemory) :
    P α (Program.stop e) :=
  h.aside (fun _ _ => .stop other) (.offline (.stop _))

theorem destroy (h : PlainRules P) {α : Type} {e : Err} (other : e ≠ .stackOutOfMemory) :
    P α (destroyIjvmNow e) :=
  h.stop fun same => other (Stop.error.inj same)

theorem signed (h : PlainRules P) (v : Int) : P Unit (signed v) :=
  h.computing (by simp [Event.computing])

theorem ite {α : Type} {c : Prop} [Decidable c] {yes no : VM α} (ifTrue : P α yes)
    (ifFalse : P α no) : P α (if c then yes else no) := by
  split
  · exact ifTrue
  · exact ifFalse

theorem map (h : PlainRules P) {α β : Type} (f : α → β) {m : VM α} (first : P α m) :
    P β (f <$> m) :=
  h.bind first fun _ => h.pure _

theorem argOutside (h : PlainRules P) {α : Type} (k : Nat) {e : Err}
    (other : e ≠ .stackOutOfMemory) : P α (argOutside k e) := by
  refine h.bind h.get fun s => ite (h.destroy other) (h.bind (h.computing ?_) fun _ => h.stop nofun)
  intro ev member
  obtain ⟨i, _, rfl⟩ := List.mem_map.mp member
  trivial

theorem argByte (h : PlainRules P) : P Byte getArgByte :=
  h.bind h.get fun _ => h.bind (h.signed _) fun _ => ite (h.argOutside 1 nofun)
    (h.bind (h.computing (by simp [Event.computing])) fun _ =>
      h.bind (h.steers fun _ => ⟨_, _, _, rfl⟩) fun _ => h.pure _)

theorem argShort (h : PlainRules P) : P (BitVec 16) getArgShort :=
  h.bind h.get fun _ => h.bind (h.signed _) fun _ => ite (h.argOutside 2 nofun)
    (h.bind (h.computing (by simp [Event.computing])) fun _ =>
      h.bind (h.steers fun _ => ⟨_, _, _, rfl⟩) fun _ => h.pure _)

theorem varIndex (h : PlainRules P) : P Int getVarIndex :=
  h.bind h.get fun _ => ite (h.bind h.argShort fun _ => h.pure _)
    (h.bind h.argByte fun _ => h.pure _)

theorem constant (h : PlainRules P) (i : Int) : P Word (getConstant i) :=
  h.bind h.get fun _ => ite (h.destroy nofun) (h.pure _)

theorem jump (h : PlainRules P) (offset : Int) : P Unit (Ijvm.jump offset) :=
  h.bind h.get fun _ => h.bind (h.signed _) fun _ => ite (h.destroy nofun)
    (h.steers fun _ => ⟨_, _, _, rfl⟩)

theorem jumpOffset (h : PlainRules P) : P Int getJumpOffset := h.bind h.argShort fun _ => h.pure _

theorem pushLast (h : PlainRules P) (e : Word) : P Unit (do let _ ← stackPush e) :=
  h.bind (h.push e) fun _ => h.pure _

theorem binary (h : PlainRules P) (computes : Word → Word → List Int) (f : Word → Word → Word) :
    P Unit (execBinary computes f) :=
  h.bind h.pop fun _ => h.bind h.pop fun _ =>
    h.bind (h.computing (by simp [Event.computing])) fun _ => h.pushLast _

theorem branch (h : PlainRules P) {c : Prop} [Decidable c] (offset : Int) :
    P Unit (if c then Ijvm.jump offset else Pure.pure ()) :=
  ite (h.jump offset) (h.pure _)

theorem input (h : PlainRules P) : P Unit execOpIn := by
  refine h.bind (h.aside (fun _ _ => getc_aside) (.offline getc_offline)) fun c => ?_
  cases c with
  | none => exact h.pushLast _
  | some b => exact h.pushLast _

theorem enterMethod (h : PlainRules P) : P (Int × Nat × Nat) enterMethod :=
  h.bind h.argShort fun _ => h.bind (h.constant _) fun _ => h.bind h.get fun _ =>
    ite (h.destroy nofun) (h.bind (h.steers fun _ => ⟨_, _, _, rfl⟩) fun _ =>
      h.bind h.argShort fun _ => h.bind h.argShort fun _ => h.pure _)

/-- The judgment holds of every plain instruction. -/
theorem plain (h : PlainRules P) (nested : VM Bool) {op : Op} (plain : op.plain = true) :
    P Unit (execOp nested op) := by
  have pop {β : Type} {f : Word → VM β} (next : ∀ w, P β (f w)) :
      P β (stackPop .pop >>= f) := h.bind h.pop next
  have aside {α β : Type} {m : VM α} {f : α → VM β} (leaves : ∀ cpu wide, Aside cpu wide m)
      (connections : Networking m) (next : ∀ a, P β (f a)) : P β (m >>= f) :=
    h.bind (h.aside leaves connections) next
  cases op with
  | iload | istore | iinc | dup | ireturn | invokevirtual | wide => contradiction
  | nop => exact h.pure _
  | bipush => exact h.bind h.argByte fun _ => h.pushLast _
  | ldcW => exact h.bind h.argShort fun _ => h.bind (h.constant _) fun _ => h.pushLast _
  | pop => exact pop fun _ => h.pure _
  | swap => exact pop fun b => pop fun a => h.bind (h.push b) fun _ => h.pushLast a
  | iadd | isub | iand | ior => exact h.binary _ _
  | ifeq | iflt => exact h.bind h.jumpOffset fun _ => pop fun _ => h.branch _
  | icmpeq => exact h.bind h.jumpOffset fun _ => pop fun _ => pop fun _ => h.branch _
  | goto => exact h.bind h.jumpOffset fun offset => h.jump offset
  | «in» => exact h.input
  | out =>
      exact pop fun _ => h.aside (fun _ _ => .modify (fun _ => rfl) fun _ => rfl)
        (.offline (.modify fun _ => rfl))
  | err | halt => exact h.steers fun _ => ⟨_, _, _, rfl⟩
  | newarray =>
      exact pop fun _ => aside (fun _ _ => arrCreate_aside _) (.offline (arrCreate_offline _))
        fun _ => h.pushLast _
  | iaload =>
      exact pop fun _ => pop fun _ => aside (fun _ _ => arrGet_aside _ _)
        (.offline (arrGet_offline _ _)) fun _ => h.pushLast _
  | iastore =>
      exact pop fun _ => pop fun _ => pop fun _ => h.aside (fun _ _ => arrSet_aside _ _ _)
        (.offline (arrSet_offline _ _ _))
  | gc => exact aside (fun _ _ => arrGc_aside) (.offline arrGc_offline) fun _ => h.pure _
  | netbind =>
      exact pop fun _ => aside (fun _ _ => netBind_aside _) (.bind _) fun _ => h.pushLast _
  | netconnect =>
      exact pop fun _ => pop fun _ => aside (fun _ _ => netConnect_aside _ _) (.connect _ _)
        fun _ => h.pushLast _
  | netin => exact pop fun _ => aside (fun _ _ => netRecv_aside _) (.recv _) fun _ => h.pushLast _
  | netout => exact pop fun _ => pop fun _ => h.aside (fun _ _ => netSend_aside _ _) (.send _ _)
  | netclose => exact pop fun _ => h.aside (fun _ _ => netClose_aside _) (.close _)

end PlainRules

namespace FrameRules

variable {P : (α : Type) → VM α → Prop}

theorem increment (h : FrameRules P) (i : Int) (c : Byte) :
    P Unit (do
      let old ← getLocalVariable i
      signed (old.toInt + c.toInt)
      updateLocalVariable (old + c.signExtend 32) i) :=
  h.bind (h.load i) fun _ => h.bind (h.signed _) fun _ => h.store _ i

/-- The judgment holds of every instruction that neither calls nor returns. -/
theorem execOp (h : FrameRules P) (nested : VM Bool) {op : Op}
    (ordinary : op ≠ .invokevirtual ∧ op ≠ .ireturn ∧ op ≠ .wide) :
    P Unit (execOp nested op) := by
  by_cases plain : op.plain = true
  · exact h.plain nested plain
  · cases op with
    | iload => exact h.bind h.varIndex fun i => h.bind (h.load i) fun _ => h.pushLast _
    | istore => exact h.bind h.pop fun v => h.bind h.varIndex fun i => h.store v i
    | iinc =>
        refine h.bind h.get fun _ => PlainRules.ite ?_ ?_
        · exact h.bind (h.map _ h.argShort) fun i => h.bind h.argByte fun c => h.increment i c
        · exact h.bind (h.map _ h.argByte) fun i => h.bind h.argByte fun c => h.increment i c
    | dup => exact h.dup
    | invokevirtual => exact absurd rfl ordinary.1
    | ireturn => exact absurd rfl ordinary.2.1
    | wide => exact absurd rfl ordinary.2.2
    | _ => exact absurd rfl plain

end FrameRules

namespace MachineRules

variable {P : (α : Type) → VM α → Prop}

theorem ireturn (h : MachineRules P) : P Unit execOpIreturn := by
  have reload {f : Word → Cpu → Cpu} {rest : VM Unit}
      (size : ∀ w c, (f w c).stackSize = c.stackSize) (next : P Unit rest) :
      P Unit (stackPop .linkage >>= fun w => modifyCpu (f w) >>= fun _ => rest) :=
    h.bind h.linkage fun w => h.bind (h.registers (size w)) fun _ => next
  refine h.bind h.pop fun retVal => h.bind h.get fun _ => h.bind h.get fun _ =>
    h.bind (h.signed _) fun _ => h.bind (h.registers fun _ => rfl) fun _ => ?_
  refine reload (fun _ _ => rfl) (reload (fun _ _ => rfl) (reload (fun _ _ => rfl)
    (reload (fun _ _ => rfl) ?_)))
  exact h.bind h.get fun _ => h.bind (h.signed _) fun _ =>
    h.bind (h.registers fun _ => rfl) fun _ => h.bind h.get fun _ =>
      PlainRules.ite (h.destroy nofun) (h.pushLast retVal)

theorem pushLinkage (h : MachineRules P) (oldPc : Int) : P Bool (Ijvm.pushLinkage oldPc) := by
  have push {e : State → Word} {rest : VM Bool} (next : P Bool rest) :
      P Bool (get >>= fun s => stackPush (e s) >>= fun b =>
        if b ≠ true then Pure.pure false else rest) :=
    h.bind h.get fun _ => h.bind (h.push _) fun _ => PlainRules.ite (h.pure _) next
  exact push (push (push (h.push _)))

theorem setFrame (h : MachineRules P) (numArgs numLocals : Nat) :
    P Unit (Ijvm.setFrame numArgs numLocals) :=
  h.bind h.get fun _ => h.bind (h.signed _) fun _ => h.bind (h.registers fun _ => rfl) fun _ =>
    h.bind (h.registers fun _ => rfl) fun _ => h.bind h.get fun _ => h.bind h.get fun _ =>
      h.bind (h.signed _) fun _ => h.registers fun _ => rfl

theorem invokevirtual (h : MachineRules P) : P Unit execOpInvokevirtual :=
  h.bind h.enterMethod fun _ => h.bind h.get fun _ => h.bind (h.signed _) fun _ =>
    h.bind (h.registers fun _ => rfl) fun _ => h.bind (h.pushLinkage _) fun _ =>
      PlainRules.ite (h.destroy nofun) (h.bind (h.setFrame _ _) fun _ => h.bind h.get fun _ =>
        PlainRules.ite (h.destroy nofun) (h.clear _ _))

/-- The judgment holds of every instruction, if it holds of the one behind a prefix. -/
theorem instruction (h : MachineRules P) {nested : VM Bool} (inner : P Bool nested) (op : Op) :
    P Unit (Ijvm.execOp nested op) := by
  by_cases ordinary : op ≠ .invokevirtual ∧ op ≠ .ireturn ∧ op ≠ .wide
  · exact h.execOp nested ordinary
  · cases op with
    | invokevirtual => exact h.invokevirtual
    | ireturn => exact h.ireturn
    | wide => exact h.bind (h.prefixed true) fun _ => h.bind inner fun _ => h.prefixed false
    | _ => exact absurd (by decide) ordinary

theorem fetch (h : MachineRules P) : P Byte fetchOp :=
  h.bind h.get fun _ => h.bind (h.computing (by simp [Event.computing])) fun _ =>
    PlainRules.ite (h.stop nofun) (h.bind (h.registers fun _ => rfl) fun _ => h.pure _)

theorem stepFuel (h : MachineRules P) (fuel : Nat) : P Bool (Ijvm.stepFuel fuel) := by
  induction fuel with
  | zero => exact h.stop nofun
  | succ fuel ih =>
      refine h.bind h.fetch fun op => ?_
      cases decoded : Op.ofByte? op with
      | some op =>
          rw [dispatch_some decoded]
          exact h.bind (h.instruction ih op) fun _ => h.pure true
      | none =>
          rw [dispatch_none decoded]
          exact h.bind (h.registers fun _ => rfl) fun _ => h.pure false

/-- The judgment holds of every step of the machine. -/
theorem step (h : MachineRules P) : P Bool Ijvm.step :=
  h.bind h.get fun _ => h.stepFuel _

end MachineRules

/-- `I` holds along pushes, pops and everything that leaves the stack alone. -/
structure Primitives (rely : Event → Prop) (I : State → Prop) (guar : Event → Prop) : Prop where
  quiet : ∀ {α : Type} {m : VM α}, Quiet m → Keeps rely I guar m
  control : ∀ s pc e h i o, I s → I (s.withControl pc e h i o)
  code : ∀ i n, guar (.code i n)
  signed : ∀ v, guar (.signed v)
  pop : Keeps rely I guar (stackPop .pop)
  push : ∀ e, Keeps rely I guar (stackPush e)

namespace Primitives

variable {rely guar : Event → Prop} {I : State → Prop}

/-- Preservation has the rules. -/
theorem rules (h : Primitives rely I guar) : PlainRules fun _ m => Keeps rely I guar m where
  bind := Keeps.bind
  aside leaves _ := h.quiet (.of_aside leaves)
  computing computing := .emit fun e member _ => by
    cases e with
    | code i n => exact h.code i n
    | signed v => exact h.signed v
    | _ => exact (computing _ member).elim
  steers {f} steers := .modify fun s hs => by
    obtain ⟨pc, e, flag, same⟩ := steers s.gCpu
    rw [same]
    exact h.control s pc e flag _ _ hs
  pop := h.pop
  push := h.push

/-- A plain instruction preserves what pushes and pops preserve. -/
theorem plain (h : Primitives rely I guar) (nested : VM Bool) {op : Op} (plain : op.plain = true) :
    Keeps rely I guar (execOp nested op) :=
  h.rules.plain nested plain

end Primitives
end Ijvm
