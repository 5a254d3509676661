import Ijvm.Loader.Words

/-!
# The binary format

`Binary` is a file in the format of the loader, without what may follow the code. As long
as memory can be allocated, `load_bin` accepts a file exactly if it starts with a binary,
and the machine it leaves depends on that binary only.
-/

namespace Ijvm

open Transcript Program

/-- The parts of a binary. A block is its origin, its size in bytes and its bytes. -/
structure Binary where
  constOrigin : List Byte
  constSize : Word
  constBytes : List Byte
  textOrigin : List Byte
  textSize : Word
  code : List Byte
  constOrigin_length : constOrigin.length = 4
  constSize_whole : 4 ∣ constSize.toNat
  constBytes_length : constBytes.length = constSize.toNat
  textOrigin_length : textOrigin.length = 4
  code_length : code.length = textSize.toNat

namespace Binary

def bytes (b : Binary) : List Byte :=
  [0x1D, 0xEA, 0xDF, 0xAD] ++ b.constOrigin ++ bigEndian b.constSize ++ b.constBytes ++
    b.textOrigin ++ bigEndian b.textSize ++ b.code

def consts (b : Binary) : List Word := bigEndianWords b.constBytes

/-- The CPU that has loaded the binary. -/
def loaded (b : Binary) (env : Env) (c : Cpu) : Cpu :=
  { c with
    constMemSize := b.constSize.toInt
    constMem := b.consts
    codeMemSize := b.textSize.toInt
    codeMem := fun i =>
      if 0 ≤ i ∧ i < b.textSize.toNat then b.code.getD i.toNat 0 else env.codeMemory i }

/-- There is one constant for every four bytes. -/
theorem length_consts (b : Binary) : b.consts.length = b.constSize.toNat / 4 := by
  obtain ⟨n, size⟩ := b.constSize_whole
  rw [consts, length_bigEndianWords (n := n) (by rw [b.constBytes_length, size])]
  omega

end Binary

/-- The loader tests a size that it has converted to `int`. -/
theorem toInt_tmod_four (size : Word) : size.toInt.tmod 4 = 0 ↔ 4 ∣ size.toNat := by
  have small := size.isLt
  rw [← Int.dvd_iff_tmod_eq_zero, BitVec.toInt_eq_toNat_cond]
  split
  · omega
  · omega

theorem magicNumber_bytes : bigEndian magicNumber = [0x1D, 0xEA, 0xDF, 0xAD] := by decide

/-- `load_bin`, which returns what it has left of the file. -/
def loadBinRest (file : Option (List Byte)) : VM (Option (List Byte)) := do
  let some f := file | return none
  let some (magic, f) := readWord f | return none
  if checkFileSignature magic = false then
    return none
  else
    let some f ← loadConsts f | return none
    loadCode f

theorem loadBin_eq (file : Option (List Byte)) :
    loadBin file = Option.isSome <$> loadBinRest file := by
  cases file with
  | none => rfl
  | some f =>
      rw [loadBin, loadBinRest]
      cases readWord f with
      | none => rfl
      | some p =>
          obtain ⟨magic, f⟩ := p
          dsimp only
          by_cases good : checkFileSignature magic = false
          · rw [if_pos good, if_pos good]
            rfl
          · rw [if_neg good, if_neg good, map_bind]
            congr 1
            funext r
            cases r with
            | none => rfl
            | some f =>
                rw [map_eq_pure_bind]
                dsimp only
                congr 1
                funext r
                cases r with
                | none => rfl
                | some rest => rfl

section Loading

variable {env : Env} {s : State}

theorem readWord_four {origin : List Byte} (length : origin.length = 4) (rest : List Byte) :
    ∃ w, readWord (origin ++ rest) = some (w, rest) := by
  obtain ⟨b0, b1, b2, b3, tail, rfl⟩ := exists_four (f := origin) (by omega)
  obtain rfl : tail = [] := List.length_eq_zero_iff.mp (by simpa using length)
  exact ⟨_, rfl⟩

theorem loadConsts_run (granted : env.alloc s.clock = true) {origin bytes : List Byte} {size : Word}
    (origin_length : origin.length = 4) (whole : 4 ∣ size.toNat)
    (length : bytes.length = size.toNat) (rest : List Byte) :
    (loadConsts (origin ++ (bigEndian size ++ (bytes ++ rest)))).run env s =
      .done (some rest) { s with
        gCpu := { s.gCpu with
          constMemSize := size.toInt
          constMem := bigEndianWords bytes }
        clock := s.clock + 1 } [] := by
  obtain ⟨o, first⟩ := readWord_four origin_length (bigEndian size ++ (bytes ++ rest))
  obtain ⟨w, second, rfl⟩ := readWord_bigEndian size (bytes ++ rest)
  obtain ⟨ws, words, swapped⟩ := readWords_append (n := (swapUint32 w).toNat / 4) bytes
    (by omega) rest
  simp only [loadConsts, first, second, run_bind, run_modifyCpu, Outcome.andThen_done,
    Outcome.prepend_nil]
  rw [if_neg (by rw [ne_eq, not_not]; exact (toInt_tmod_four _).mpr whole)]
  simp only [run_bind, run_allocate, Outcome.andThen_done, Outcome.prepend_nil, granted, words,
    swapped]
  rfl

theorem loadCode_run (granted : env.alloc s.clock = true) {origin bytes : List Byte} {size : Word}
    (origin_length : origin.length = 4) (length : bytes.length = size.toNat) (rest : List Byte) :
    (loadCode (origin ++ (bigEndian size ++ (bytes ++ rest)))).run env s =
      .done (some rest) { s with
        gCpu := { s.gCpu with
          codeMemSize := size.toInt
          codeMem := fun i =>
            if 0 ≤ i ∧ i < size.toNat then bytes.getD i.toNat 0 else env.codeMemory i }
        clock := s.clock + 1 } [] := by
  obtain ⟨o, first⟩ := readWord_four origin_length (bigEndian size ++ (bytes ++ rest))
  obtain ⟨w, second, rfl⟩ := readWord_bigEndian size (bytes ++ rest)
  have third := readBytes_append bytes rest
  rw [length] at third
  simp only [loadCode, first, second, run_bind, run_modifyCpu, Outcome.andThen_done,
    Outcome.prepend_nil, run_allocate, granted, third]
  rfl

/-- The loader reads a binary and stops right behind it. -/
theorem loadBinRest_run (plenty : ∀ n, env.alloc n = true) (b : Binary) (trailing : List Byte) :
    (loadBinRest (some (b.bytes ++ trailing))).run env s = .done (some trailing)
      { s with gCpu := b.loaded env s.gCpu, clock := s.clock + 2 } [] := by
  obtain ⟨magic, first, signature⟩ := readWord_bigEndian magicNumber
    (b.constOrigin ++ (bigEndian b.constSize ++ (b.constBytes ++
      (b.textOrigin ++ (bigEndian b.textSize ++ (b.code ++ trailing))))))
  have whole : b.bytes ++ trailing = bigEndian magicNumber ++
      (b.constOrigin ++ (bigEndian b.constSize ++ (b.constBytes ++
        (b.textOrigin ++ (bigEndian b.textSize ++ (b.code ++ trailing)))))) := by
    simp only [Binary.bytes, magicNumber_bytes, List.append_assoc]
  have good : checkFileSignature magic = true := by
    rw [checkFileSignature, signature]
    rfl
  simp only [loadBinRest, whole, first, good]
  rw [if_neg (by simp), run_bind, loadConsts_run (plenty _) b.constOrigin_length b.constSize_whole
    b.constBytes_length, Outcome.andThen_done, Outcome.prepend_nil]
  dsimp only
  rw [loadCode_run (plenty _) b.textOrigin_length b.code_length]
  rfl

/-- The loader accepts a binary, whatever follows it. -/
theorem loadBin_run (plenty : ∀ n, env.alloc n = true) (b : Binary) (trailing : List Byte) :
    (loadBin (some (b.bytes ++ trailing))).run env s =
      .done true { s with gCpu := b.loaded env s.gCpu, clock := s.clock + 2 } [] := by
  rw [loadBin_eq, run_map, loadBinRest_run plenty b trailing]
  rfl

/-- A constant block that was loaded is in the file. -/
theorem loadConsts_returns (env : Env) (s : State) (f : List Byte) :
    ∃ r t, (loadConsts f).run env s = .done r t [] ∧ ∀ rest, r = some rest →
      ∃ (origin bytes : List Byte) (size : Word), origin.length = 4 ∧ 4 ∣ size.toNat ∧
        bytes.length = size.toNat ∧ f = origin ++ (bigEndian size ++ (bytes ++ rest)) := by
  unfold loadConsts
  cases first : readWord f with
  | none => exact ⟨none, s, rfl, by simp⟩
  | some p =>
      obtain ⟨o, f₁⟩ := p
      dsimp only
      cases second : readWord f₁ with
      | none => exact ⟨none, s, rfl, by simp⟩
      | some p =>
          obtain ⟨w, f₂⟩ := p
          simp only [run_bind, run_modifyCpu, Outcome.andThen_done, Outcome.prepend_nil]
          by_cases whole : (swapUint32 w).toInt.tmod 4 = 0
          swap
          · rw [if_pos whole]
            exact ⟨none, _, rfl, by simp⟩
          rw [if_neg (not_not.mpr whole)]
          simp only [run_bind, run_allocate, Outcome.andThen_done, Outcome.prepend_nil]
          split
          · exact ⟨none, _, rfl, by simp⟩
          · cases third : readWords ((swapUint32 w).toNat / 4) f₂ with
            | none => exact ⟨none, _, rfl, by simp⟩
            | some p =>
                obtain ⟨ws, f₃⟩ := p
                refine ⟨some f₃, _, rfl, ?_⟩
                rintro rest ⟨⟩
                obtain ⟨bytes, length, rfl⟩ := of_readWords third
                have divides := (toInt_tmod_four _).mp whole
                refine ⟨bigEndian (swapUint32 o), bytes, swapUint32 w, rfl, divides, by omega, ?_⟩
                rw [of_readWord first, of_readWord second]

/-- A code block that was loaded is in the file. -/
theorem loadCode_returns (env : Env) (s : State) (f : List Byte) :
    ∃ r t, (loadCode f).run env s = .done r t [] ∧ ∀ rest, r = some rest →
      ∃ (origin bytes : List Byte) (size : Word), origin.length = 4 ∧
        bytes.length = size.toNat ∧ f = origin ++ (bigEndian size ++ (bytes ++ rest)) := by
  unfold loadCode
  cases first : readWord f with
  | none => exact ⟨none, s, rfl, by simp⟩
  | some p =>
      obtain ⟨o, f₁⟩ := p
      dsimp only
      cases second : readWord f₁ with
      | none => exact ⟨none, s, rfl, by simp⟩
      | some p =>
          obtain ⟨w, f₂⟩ := p
          simp only [run_bind, run_modifyCpu, run_allocate, Outcome.andThen_done,
            Outcome.prepend_nil]
          split
          · exact ⟨none, _, rfl, by simp⟩
          · cases third : readBytes (swapUint32 w).toNat f₂ with
            | none => exact ⟨none, _, rfl, by simp⟩
            | some p =>
                obtain ⟨bytes, f₃⟩ := p
                refine ⟨some f₃, _, rfl, ?_⟩
                rintro rest ⟨⟩
                obtain ⟨length, rfl⟩ := of_readBytes third
                refine ⟨bigEndian (swapUint32 o), bytes, swapUint32 w, rfl, length, ?_⟩
                rw [of_readWord first, of_readWord second]

/-- A file that the loader accepts starts with a binary. -/
theorem loadBin_returns (env : Env) (s : State) (f : List Byte) :
    ∃ ok t, (loadBin (some f)).run env s = .done ok t [] ∧
      (ok = true → ∃ (b : Binary) (trailing : List Byte), f = b.bytes ++ trailing) := by
  unfold loadBin
  dsimp only
  cases first : readWord f with
  | none => exact ⟨false, s, rfl, by simp⟩
  | some p =>
      obtain ⟨magic, f₁⟩ := p
      dsimp only
      by_cases good : checkFileSignature magic = true
      swap
      · rw [if_pos (by simpa using good)]
        exact ⟨false, s, rfl, by simp⟩
      rw [if_neg (by simpa using good), run_bind]
      obtain ⟨r, t, consts, parts⟩ := loadConsts_returns env s f₁
      rw [consts, Outcome.andThen_done, Outcome.prepend_nil]
      cases r with
      | none => exact ⟨false, t, rfl, by simp⟩
      | some f₂ =>
          obtain ⟨constOrigin, constBytes, constSize, four, whole, length, rfl⟩ := parts f₂ rfl
          dsimp only
          rw [run_bind]
          obtain ⟨r, t', code, parts'⟩ := loadCode_returns env t f₂
          rw [code, Outcome.andThen_done, Outcome.prepend_nil]
          cases r with
          | none => exact ⟨false, t', rfl, by simp⟩
          | some trailing =>
              obtain ⟨textOrigin, text, textSize, four', length', rfl⟩ := parts' trailing rfl
              refine ⟨true, t', rfl, fun _ => ⟨⟨constOrigin, constSize, constBytes, textOrigin,
                textSize, text, four, whole, length, four', length'⟩, trailing, ?_⟩⟩
              have signature : swapUint32 magic = magicNumber := by
                simpa [checkFileSignature] using good
              rw [of_readWord first, signature, magicNumber_bytes, Binary.bytes]
              simp only [List.append_assoc]

/-- The loader accepts exactly the files that start with a binary; the machine it leaves
depends on the binary, and not on what follows it, and has a constant for every four bytes. -/
theorem loadBin_format (plenty : ∀ n, env.alloc n = true) (f : List Byte) (s : State) :
    ∃ ok t, (loadBin (some f)).run env s = .done ok t [] ∧
      (ok = true ↔ ∃ (b : Binary) (trailing : List Byte), f = b.bytes ++ trailing) ∧
      ∀ (b : Binary) (trailing : List Byte), f = b.bytes ++ trailing →
        t = { s with gCpu := b.loaded env s.gCpu, clock := s.clock + 2 } ∧
          t.gCpu.constMem.length = b.constSize.toNat / 4 := by
  obtain ⟨ok, t, run, parts⟩ := loadBin_returns env s f
  have accepted (b : Binary) (trailing : List Byte) (eq : f = b.bytes ++ trailing) :
      ok = true ∧ t = { s with gCpu := b.loaded env s.gCpu, clock := s.clock + 2 } := by
    rw [eq, loadBin_run plenty b trailing] at run
    injection run with value state
    exact ⟨value.symm, state.symm⟩
  refine ⟨ok, t, run, ⟨parts, ?_⟩, fun b trailing eq => ?_⟩
  · rintro ⟨b, trailing, eq⟩
    exact (accepted b trailing eq).1
  · obtain ⟨_, rfl⟩ := accepted b trailing eq
    exact ⟨rfl, b.length_consts⟩

/-- The constants 7 and 9, and the code LDC_W 0; HALT. -/
def sevenHalt : Binary where
  constOrigin := [0, 3, 0, 0]
  constSize := 8
  constBytes := [0, 0, 0, 7, 0, 0, 0, 9]
  textOrigin := [0, 4, 0, 0]
  textSize := 4
  code := [0x13, 0, 0, 0xFF]
  constOrigin_length := rfl
  constSize_whole := by decide
  constBytes_length := rfl
  textOrigin_length := rfl
  code_length := rfl

/-- The loader on this binary, with three bytes behind the code. -/
theorem loadBin_format_sevenHalt :
    ∃ t, (loadBin (some (sevenHalt.bytes ++ [1, 2, 3]))).run Env.quiet State.fresh =
        .done true t [] ∧ t.gCpu = sevenHalt.loaded Env.quiet State.fresh.gCpu ∧
      t.gCpu.constMem.length = 2 := by
  have plenty (n : Nat) : Env.quiet.alloc n = true := rfl
  obtain ⟨ok, t, run, accepts, loaded⟩ :=
    loadBin_format plenty (sevenHalt.bytes ++ [1, 2, 3]) State.fresh
  obtain rfl := accepts.mpr ⟨sevenHalt, [1, 2, 3], rfl⟩
  obtain ⟨rfl, length⟩ := loaded sevenHalt [1, 2, 3] rfl
  exact ⟨_, run, rfl, length⟩

end Loading
end Ijvm
