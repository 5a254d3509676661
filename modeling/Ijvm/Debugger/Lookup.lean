import Ijvm.Collector.Twice
import Ijvm.Symbols.Loader

/-!
# Looking up symbols

The debugger finds the function around an address, and the address of a label. Both go
through the symbols from the first one on, and copy the names they look at with `str_dup`,
which runs the collector of the machine when there is no memory.

A transcript of a lookup shows the accesses to the table of symbols, too. A lookup that leaves
the table has no meaning.
-/

namespace Ijvm

open Transcript Program

def uint32 (v : Int) : Nat := (v % 2 ^ 32).toNat

theorem uint32_of_lt {v : Int} (nonneg : 0 ≤ v) (bound : v < 2 ^ 32) : uint32 v = v.toNat := by
  rw [uint32, Int.emod_eq_of_lt nonneg bound]

theorem uint32_lt (v : Int) : uint32 v < 2 ^ 32 := by
  unfold uint32
  omega

/-- The loop of `str_dup`: a copy of the string, or `none` for the null pointer. -/
def strDupFuel : Nat → List Byte → VM (Option (List Byte))
  | 0, _ => Program.stop .outOfFuel
  | fuel + 1, src => do
      if ← allocate then
        return some src
      else if (← arrGc) ≠ 0 then
        strDupFuel fuel src
      else
        return none

/-- Copy a string; a collection that frees something is followed by another attempt. -/
def copyString (src : List Byte) : VM (Option (List Byte)) := do
  strDupFuel ((← get).arrMem.size + 1) src

/-- What a lookup leaves in its transcript: what the machine does, and the reads of the
tables of a symbol block. -/
inductive LookupEvent where
  | vm (e : Event)
  | label (i size : Nat)
  | name (start size : Nat)

abbrev LOOKUP (α : Type) := Program Env State LookupEvent Stop α

/-- The access is inside its table. -/
def LookupEvent.Inside : LookupEvent → Prop
  | .vm _ => True
  | .label i size => i < size
  | .name start size => start < size

/-- Use a function of the machine in a lookup. -/
def onMachine {α : Type} (m : VM α) : LOOKUP α := m.zoom id id (fun _ s => s) fun _ e => .vm e

def readFuncAddr (d : DebugData) (i : Nat) : LOOKUP Word := do
  Program.emit [.label i d.funcLabel.num]
  return d.funcLabel.addr.getD i 0

/-- `get_func_name`: a copy of the name of the `i`-th function. -/
def copyFuncName (d : DebugData) (i : Nat) : LOOKUP (Option (List Byte)) := do
  Program.emit [.label i d.funcLabel.num]
  if i < d.funcLabel.num then
    Program.emit [.name (d.funcLabel.namesStart.getD i 0) d.funcLabel.names.length]
    onMachine (copyString (getFuncName d i))
  else
    Program.stop .undefined

/-- The loop of `addr_to_func_name` over the `n` labels from the `i`-th on. -/
def searchFuncName (d : DebugData) (addr : Word) : Nat → Nat → LOOKUP (Option (List Byte))
  | _, 0 => return none
  | i, n + 1 => do
      if addr = (← readFuncAddr d i) then
        copyFuncName d i
      else if addr < (← readFuncAddr d i) then
        -- The previous symbol, for the first one too: `i - 1` is a `uint32_t`.
        copyFuncName d (uint32 (i - 1))
      else
        searchFuncName d addr (i + 1) n

/-- The name of the function that contains an address; `none` is the text `??`. -/
def addrToFuncName (d : DebugData) (addr : Word) : LOOKUP (Option (List Byte)) := do
  if d.funcLabel.num = 0 then
    return none
  else
    searchFuncName d addr 0 d.funcLabel.num

def notFound : Word := 0xFFFFFFFF

/-- A loop of `label_name_to_addr`, over the `n` symbols from the `i`-th on. A name that cannot
be copied is a null pointer for `strcmp`. -/
def searchLabel (names : Nat → List Byte) (addrs : List Word) (labelName : List Byte) :
    Nat → Nat → VM (Option Word)
  | _, 0 => return none
  | i, n + 1 => do
      match ← copyString (names i) with
      | none => Program.stop .undefined
      | some name =>
          if labelName = name then
            return some (addrs.getD i 0)
          else
            searchLabel names addrs labelName (i + 1) n

/-- The address of a label. -/
def labelNameToAddr (d : DebugData) (labelName : List Byte) : VM Word := do
  if d.secLabel.num = 0 then
    return notFound
  else
    let section? ← searchLabel (getSectionName d) d.secLabel.addr labelName 0 d.secLabel.num
    let symbAddr := section?.getD notFound
    if symbAddr ≠ notFound ∨ d.funcLabel.num = 0 then
      return symbAddr
    else
      let func? ← searchLabel (getFuncName d) d.funcLabel.addr labelName 0 d.funcLabel.num
      return func?.getD symbAddr

def isSpace (c : Byte) : Bool := c == 32 || (9 ≤ c && c ≤ 13)

def digit? (base : Nat) (c : Byte) : Option Nat :=
  let n := c.toNat
  let v :=
    if 48 ≤ n ∧ n ≤ 57 then n - 48
    else if 65 ≤ n ∧ n ≤ 90 then n - 55
    else if 97 ≤ n ∧ n ≤ 122 then n - 87
    else base
  if v < base then some v else none

/-- The value of the digits at the front, after digits with the value `v`. -/
def readDigits (base : Nat) : Nat → List Byte → Nat
  | v, [] => v
  | v, c :: cs =>
      match digit? base c with
      | some k => readDigits base (v * base + k) cs
      | none => v

/-- The number behind the sign: hexadecimal, octal or decimal, by its prefix. -/
def readNumber (cs : List Byte) : Nat :=
  let isHex := cs.head? = some 0x30 ∧ (cs[1]? = some 0x78 ∨ cs[1]? = some 0x58) ∧
    (cs[2]?.bind (digit? 16)).isSome
  if isHex then readDigits 16 0 (cs.drop 2)
  else if cs.head? = some 0x30 then readDigits 8 0 cs
  else readDigits 10 0 cs

/-- `strtol` with base 0, for a `long` of 64 bits. -/
def strtol (str : List Byte) : Int :=
  let cs := str.dropWhile isSpace
  if cs.head? = some 0x2D then max (-(readNumber cs.tail : Int)) (-2 ^ 63)
  else if cs.head? = some 0x2B then min (readNumber cs.tail : Int) (2 ^ 63 - 1)
  else min (readNumber cs : Int) (2 ^ 63 - 1)

example : strtol [0x20, 0x30, 0x78, 0x31, 0x46] = 31 ∧ strtol [0x2D, 0x31, 0x61] = -1 ∧
    strtol [0x30, 0x31, 0x37] = 15 ∧ strtol [0x66] = 0 := by decide

section Copies

variable {env : Env} {s : State} {src : List Byte}

/-- With nothing to collect, there is one attempt to copy. -/
theorem strDupFuel_settled (env : Env) (src : List Byte) (fuel : Nat) {s : State}
    (settled : s.Settled) : ((strDupFuel (fuel + 1) src).run env s).Satisfies
      (fun r _ _ => r = some src ∨ r = none) fun reason _ _ => reason ≠ .outOfFuel := by
  rw [strDupFuel, run_bind, run_allocate, Outcome.andThen_done, Outcome.prepend_nil]
  split
  · exact Or.inl rfl
  · rw [run_bind]
    have ends := Terminating.arrGc env { s with clock := s.clock + 1 }
    cases collection : arrGc.run env { s with clock := s.clock + 1 } with
    | stopped e t es =>
        rw [collection] at ends
        exact ends
    | done n t es =>
        rw [arrGc_settled (s := { s with clock := s.clock + 1 }) settled collection]
        exact Or.inr rfl

/-- `str_dup` ends, with a copy, with a null pointer or with the machine. -/
theorem copyString_satisfies (env : Env) (src : List Byte) (s : State) :
    ((copyString src).run env s).Satisfies
      (fun r _ _ => r = some src ∨ r = none) fun reason _ _ => reason ≠ .outOfFuel := by
  rw [copyString, run_bind, run_get, Outcome.andThen_done, Outcome.prepend_nil]
  cases size : s.arrMem.size with
  | zero => exact strDupFuel_settled env src 0 (settled_of_size_eq size)
  | succ n =>
      rw [strDupFuel, run_bind, run_allocate, Outcome.andThen_done, Outcome.prepend_nil]
      split
      · exact Or.inl rfl
      · rw [run_bind]
        have ends := Terminating.arrGc env { s with clock := s.clock + 1 }
        cases collection : arrGc.run env { s with clock := s.clock + 1 } with
        | stopped e t es =>
            rw [collection] at ends
            exact ends
        | done k t es =>
            rw [Outcome.andThen_done, Outcome.satisfies_prepend]
            split
            · exact strDupFuel_settled env src n (Collected.of_done collection).2.settled
            · exact Or.inr rfl

end Copies

end Ijvm
