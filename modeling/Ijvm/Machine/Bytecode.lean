import Mathlib.Algebra.Group.Int.Defs
import Mathlib.Algebra.Group.Nat.Defs
import Mathlib.Data.List.Basic

/-!
# Words, bytes and operation codes

All data memory consists of 32-bit words and code memory of bytes. Signed and
unsigned readings of the same bits are `BitVec.toInt` and `BitVec.toNat`; the
C integer registers are mathematical integers.
-/

namespace Ijvm

/-- `byte_t`, the type of code memory. -/
abbrev Byte := BitVec 8

/-- `word_t`, the type of all other memory. -/
abbrev Word := BitVec 32

/-- `SIZE_MAX_UINT32_T`, used by the code as "no index". -/
def sizeMaxUint32 : Nat := 4294967295

inductive Op where
  | nop | bipush | ldcW | iload | istore | pop | dup | swap
  | iadd | isub | iand | iinc | ifeq | iflt | icmpeq | goto
  | ireturn | ior | invokevirtual | wide | in | out | err | halt
  | newarray | iaload | iastore | gc
  | netbind | netconnect | netin | netout | netclose
  deriving DecidableEq, Repr

namespace Op

def code : Op → Byte
  | nop => 0x00
  | bipush => 0x10
  | ldcW => 0x13
  | iload => 0x15
  | istore => 0x36
  | pop => 0x57
  | dup => 0x59
  | swap => 0x5F
  | iadd => 0x60
  | isub => 0x64
  | iand => 0x7E
  | iinc => 0x84
  | ifeq => 0x99
  | iflt => 0x9B
  | icmpeq => 0x9F
  | goto => 0xA7
  | ireturn => 0xAC
  | ior => 0xB0
  | invokevirtual => 0xB6
  | wide => 0xC4
  | «in» => 0xFC
  | out => 0xFD
  | err => 0xFE
  | halt => 0xFF
  | newarray => 0xD1
  | iaload => 0xD2
  | iastore => 0xD3
  | gc => 0xD4
  | netbind => 0xE1
  | netconnect => 0xE2
  | netin => 0xE3
  | netout => 0xE4
  | netclose => 0xE5

/-- Every instruction, in the order of the `switch` in `step`. -/
def all : List Op :=
  [nop, bipush, ldcW, iload, istore, pop, dup, swap, iadd, isub, iand, iinc, ifeq, iflt,
    icmpeq, goto, ireturn, ior, invokevirtual, wide, «in», out, err, halt,
    newarray, iaload, iastore, gc, netbind, netconnect, netin, netout, netclose]

/-- The `case` label that a byte selects in the `switch` of `step`; `none` is the
`default` branch. -/
def ofByte? (b : Byte) : Option Op :=
  all.find? fun op => op.code == b

/-- The labels are pairwise distinct, so each byte selects at most one of them. -/
theorem ofByte?_code (op : Op) : ofByte? op.code = some op := by
  cases op <;> decide

theorem ofByte?_eq_some {b : Byte} {op : Op} : ofByte? b = some op ↔ b = op.code := by
  constructor
  · intro h
    have found := List.find?_some h
    exact (eq_of_beq found).symm
  · rintro rfl
    exact ofByte?_code op

end Op

end Ijvm
