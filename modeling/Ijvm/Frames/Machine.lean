import Ijvm.Machine.Decode

/-!
# A machine with frames

What the interpreter is for, without the layout of its stack: a method has a list of local
variables and a list of operands, and a call suspends the method in front of a list of
callers. There are no registers `sp`, `fp`, `lv` and `nv`, no linkage words, no stack that has
to grow and no cell that belongs to nobody.

An instruction that takes more operands than its method has, and a return from the main
method, have no meaning here: the machine ends as `undisciplined`. Arrays and connections are
not part of the machine. The word that one of their instructions pushes is an answer from
outside, one for each instruction.
-/

namespace Ijvm.Frames

open Transcript

/-- What a binary provides: the code and the constants. -/
structure Image where
  codeSize : Int
  code : Int → Byte
  constCount : Int
  consts : List Word

/-- The local variables of a method, the arguments first, and its operands, the top first. -/
structure Activation where
  vars : List Word
  operands : List Word
  deriving DecidableEq

/-- A method that waits for the one it called, and the address at which it goes on. -/
structure Suspension where
  frame : Activation
  pc : Int
  deriving DecidableEq

structure Config where
  pc : Int
  frame : Activation
  callers : List Suspension
  input : List Byte
  output : List Byte
  errorFlag : Bool
  haltFlag : Bool
  deriving DecidableEq

/-- Why the machine ends early: with an error that it reports, for a fetch outside the code,
or because the program leaves the discipline of frames. -/
inductive Fault where
  | error (e : Err)
  | undefined
  | undisciplined
  deriving DecidableEq

/-- What an instruction reads and cannot change: the binary, whether there was a WIDE prefix,
and the answer from outside. -/
structure Setting where
  image : Image
  wide : Bool
  answer : Word

abbrev FM (α : Type) := Program Setting Config Empty Fault α

def fault {α : Type} (e : Err) : FM α := Program.stop (.error e)

def undisciplined {α : Type} : FM α := Program.stop .undisciplined

def modifyFrame (f : Activation → Activation) : FM Unit :=
  modify fun c => { c with frame := f c.frame }

def Activation.push (f : Activation) (w : Word) : Activation :=
  { f with operands := w :: f.operands }

def push (w : Word) : FM Unit := modifyFrame fun f => f.push w

def pop : FM Word := do
  match (← get).frame.operands with
  | [] => undisciplined
  | w :: rest =>
      modifyFrame fun f => { f with operands := rest }
      return w

def load (i : Int) : FM Word := do
  let vars := (← get).frame.vars
  if i < 0 ∨ i ≥ vars.length then
    fault .localGet
  else
    return vars.getD i.toNat 0

def store (w : Word) (i : Int) : FM Unit := do
  let vars := (← get).frame.vars
  if i < 0 ∨ i ≥ vars.length then
    fault .localUpdate
  else
    modifyFrame fun f => { f with vars := f.vars.set i.toNat w }

/-- An argument of `k` bytes goes beyond the code. -/
def argFault (pc : Int) (k : Nat) (e : Err) : Fault :=
  if pc + k < 2 ^ 31 then .error e else .undefined

theorem argFault_disciplined {pc : Int} {k : Nat} {e : Err} :
    argFault pc k e ≠ .undisciplined := by
  unfold argFault
  split
  · exact nofun
  · exact nofun

def argByte : FM Byte := do
  let image := (← Program.ask).image
  let pc := (← get).pc
  if pc + 1 > image.codeSize then
    Program.stop (argFault pc 1 .argByte)
  else
    modify fun c => { c with pc := pc + 1 }
    return image.code pc

def argShort : FM (BitVec 16) := do
  let image := (← Program.ask).image
  let pc := (← get).pc
  if pc + 2 > image.codeSize then
    Program.stop (argFault pc 2 .argShort)
  else
    modify fun c => { c with pc := pc + 2 }
    return joinBytes (image.code pc) (image.code (pc + 1))

def varIndex : FM Int := do
  if (← Program.ask).wide then
    return (← argShort).toNat
  else
    return (← argByte).toNat

def constant (i : Int) : FM Word := do
  let image := (← Program.ask).image
  if i < 0 ∨ i ≥ image.constCount then
    fault .constantIndex
  else
    return image.consts.getD i.toNat 0

def jump (offset : Int) : FM Unit := do
  let image := (← Program.ask).image
  let pc := (← get).pc
  if pc + offset < 0 ∨ offset ≥ image.codeSize then
    fault .jumpOffset
  else
    modify fun c => { c with pc := pc + offset }

def jumpOffset : FM Int := do
  return ((← argShort) - 3).toInt

section Runs

variable (x : Setting) (c : Config)

theorem push_run (w : Word) : (push w).run x c = .done () { c with frame := c.frame.push w } [] :=
  rfl

theorem load_run (i : Int) :
    (load i).run x c = if i < 0 ∨ i ≥ c.frame.vars.length then .stopped (.error .localGet) c []
      else .done (c.frame.vars.getD i.toNat 0) c [] := by
  simp only [load, Program.run_bind, Program.run_get, Outcome.andThen_done, Outcome.prepend_nil]
  split
  · rfl
  · rfl

theorem store_run (w : Word) (i : Int) :
    (store w i).run x c =
      if i < 0 ∨ i ≥ c.frame.vars.length then .stopped (.error .localUpdate) c []
      else .done () { c with frame := { c.frame with vars := c.frame.vars.set i.toNat w } } [] := by
  simp only [store, Program.run_bind, Program.run_get, Outcome.andThen_done, Outcome.prepend_nil]
  split
  · rfl
  · rfl

theorem argByte_run :
    argByte.run x c =
      if c.pc + 1 > x.image.codeSize then .stopped (argFault c.pc 1 .argByte) c []
      else .done (x.image.code c.pc) { c with pc := c.pc + 1 } [] := by
  simp only [argByte, Program.run_bind, Program.run_ask, Program.run_get, Outcome.andThen_done,
    Outcome.prepend_nil]
  split
  · rfl
  · rfl

theorem argShort_run :
    argShort.run x c =
      if c.pc + 2 > x.image.codeSize then .stopped (argFault c.pc 2 .argShort) c []
      else .done (joinBytes (x.image.code c.pc) (x.image.code (c.pc + 1)))
        { c with pc := c.pc + 2 } [] := by
  simp only [argShort, Program.run_bind, Program.run_ask, Program.run_get, Outcome.andThen_done,
    Outcome.prepend_nil]
  split
  · rfl
  · rfl

theorem constant_run (i : Int) :
    (constant i).run x c = if i < 0 ∨ i ≥ x.image.constCount then
        .stopped (.error .constantIndex) c []
      else .done (x.image.consts.getD i.toNat 0) c [] := by
  simp only [constant, Program.run_bind, Program.run_ask, Outcome.andThen_done, Outcome.prepend_nil]
  split
  · rfl
  · rfl

theorem jump_run (offset : Int) :
    (jump offset).run x c = if c.pc + offset < 0 ∨ offset ≥ x.image.codeSize then
        .stopped (.error .jumpOffset) c []
      else .done () { c with pc := c.pc + offset } [] := by
  simp only [jump, Program.run_bind, Program.run_ask, Program.run_get, Outcome.andThen_done,
    Outcome.prepend_nil]
  split
  · rfl
  · rfl

end Runs

/-- Go on in a method with these numbers of arguments and other local variables. -/
def enter (returnAddress : Int) (numArgs numLocals : Nat) : FM Unit := do
  let operands := (← get).frame.operands
  if operands.length < numArgs then
    undisciplined
  else
    modify fun c => { c with
      frame := {
        vars := (operands.take numArgs).reverse ++ List.replicate numLocals 0
        operands := [] }
      callers := {
        frame := { c.frame with operands := operands.drop numArgs }
        pc := returnAddress } :: c.callers }

/-- Move to the method, and return the return address with its numbers of arguments and
other local variables. -/
def findMethod : FM (Int × Nat × Nat) := do
  let image := (← Program.ask).image
  let constIndex ← argShort
  let address := (← constant constIndex.toInt).toInt
  let returnAddress := (← get).pc
  if address < 0 ∨ address ≥ image.codeSize then
    fault .invokeAddress
  else
    modify fun c => { c with pc := address }
    let numArgs ← argShort
    let numLocals ← argShort
    return (returnAddress, numArgs.toNat, numLocals.toNat)

def invoke : FM Unit := do
  let (returnAddress, numArgs, numLocals) ← findMethod
  enter returnAddress numArgs numLocals

/-- Go on in the caller, with the returned word as an operand. -/
def leave : FM Unit := do
  let w ← pop
  match (← get).callers with
  | [] => undisciplined
  | r :: callers =>
      if r.pc < 0 ∨ r.pc ≥ (← Program.ask).image.codeSize then
        fault .ireturnFrame
      else
        modify fun c => { c with pc := r.pc, frame := r.frame.push w, callers }

def binary (f : Word → Word → Word) : FM Unit := do
  let b ← pop
  let a ← pop
  push (f a b)

def discard : Nat → FM Unit
  | 0 => pure ()
  | n + 1 => do
      let _ ← pop
      discard n

/-- Take this number of operands and push a word from outside. -/
def request : Nat → FM Unit
  | 0 => do push (← Program.ask).answer
  | n + 1 => do
      let _ ← pop
      request n

def nextByte : FM (Option Byte) := do
  match (← get).input with
  | [] => return none
  | b :: rest =>
      modify fun c => { c with input := rest }
      return some b

def input : FM Unit := do
  match ← nextByte with
  | none => push 0
  | some b => push (b.setWidth 32)

def output : FM Unit := do
  let w ← pop
  modify fun c => { c with output := c.output ++ [w.setWidth 8] }

def exec : Op → FM Unit
  | .nop => pure ()
  | .bipush => do push ((← argByte).signExtend 32)
  | .ldcW => do
      let i ← argShort
      push (← constant i.toNat)
  | .iload => do
      let i ← varIndex
      push (← load i)
  | .istore => do
      let w ← pop
      store w (← varIndex)
  | .pop => discard 1
  | .dup => do
      let w ← pop
      push w
      push w
  | .swap => do
      let b ← pop
      let a ← pop
      push b
      push a
  | .iadd => binary fun a b => a + b
  | .isub => binary fun a b => a - b
  | .iand => binary fun a b => a &&& b
  | .ior => binary fun a b => a ||| b
  | .iinc => do
      let i ← if (← Program.ask).wide then
          (fun b : BitVec 16 => b.toInt) <$> argShort
        else
          (fun b : Byte => (b.toNat : Int)) <$> argByte
      let c ← argByte
      store ((← load i) + c.signExtend 32) i
  | .ifeq => do
      let offset ← jumpOffset
      if (← pop) = 0 then jump offset
  | .iflt => do
      let offset ← jumpOffset
      if (← pop).toInt < 0 then jump offset
  | .icmpeq => do
      let offset ← jumpOffset
      let a ← pop
      let b ← pop
      if a = b then jump offset
  | .goto => do jump (← jumpOffset)
  | .ireturn => leave
  | .invokevirtual => invoke
  | .wide => Program.stop .undefined
  | .in => input
  | .out => output
  | .err => modify fun c => { c with errorFlag := true }
  | .halt => modify fun c => { c with haltFlag := true }
  | .newarray => request 1
  | .iaload => request 2
  | .iastore => discard 3
  | .gc => pure ()
  | .netbind => request 1
  | .netconnect => request 2
  | .netin => request 1
  | .netout => discard 2
  | .netclose => discard 1

namespace Image

variable (im : Image)

/-- The address of the opcode behind the prefixes at `pc`. -/
def opAddr? (pc : Int) : Option Int :=
  opAddrFrom im.code im.codeSize ((im.codeSize - pc).toNat + 1) pc

def short (a : Int) : BitVec 16 := joinBytes (im.code a) (im.code (a + 1))

/-- The address of the method that the argument bytes of a call name. -/
def method (a : Int) : Int := (im.consts.getD (im.short a).toInt.toNat 0).toInt

/-- The number of arguments of that method. -/
def numArgs (a : Int) : Nat := (im.short (im.method a)).toNat

/-- The number of its other local variables. -/
def numLocals (a : Int) : Nat := (im.short (im.method a + 2)).toNat

end Image

/-- The end of an instruction. The value tells whether it was a known one. -/
abbrev End := Outcome Config Empty Fault Bool

/-- Perform one instruction, together with the WIDE prefixes before it. -/
def perform (im : Image) (answer : Word) (c : Config) : End :=
  match im.opAddr? c.pc with
  | none => .stopped .undefined c []
  | some a =>
      let wide := decide (a ≠ c.pc)
      match Op.ofByte? (im.code a) with
      | none => .done wide { c with pc := a + 1, errorFlag := true } []
      | some op =>
          ((exec op).run { image := im, wide, answer } { c with pc := a + 1 }).andThen
            fun _ c' => .done true c' []

def ended (im : Image) (c : Config) : Bool :=
  (c.pc < 0 || c.pc ≥ im.codeSize) || c.errorFlag || c.haltFlag

/-- The instructions of a run, one for each of these answers, as long as there are any. -/
def run (im : Image) : List Word → Config → Outcome Config Empty Fault Unit
  | [], c => .done () c []
  | answer :: answers, c =>
      if ended im c then .done () c []
      else (perform im answer c).andThen fun _ c' => run im answers c'

/-- The machine in a main method with this number of variables. -/
def start (numVars : Nat) (input : List Byte) : Config where
  pc := 0
  frame := { vars := List.replicate numVars 0, operands := [] }
  callers := []
  input := input
  output := []
  errorFlag := false
  haltFlag := false

end Ijvm.Frames
