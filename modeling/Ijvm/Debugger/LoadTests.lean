import Ijvm.Debugger.Situations
import Ijvm.Loader.Format

/-!
# The tests of `load_bin` on a file

The blocks follow the tests on a file, and the model of the machine follows the bytes. Here
the tests are computed from the bytes, and both give `load_bin` the same result.
-/

namespace Ijvm.Blocks

open Transcript Program

def readBlockSize (f : List Byte) : Option (Word × List Byte) := do
  let (_, f) ← readWord f
  let (size, f) ← readWord f
  return (swapUint32 size, f)

/-- The size of the constant block, which has to be whole words. -/
def constSize (f : List Byte) : Option (Word × List Byte) := do
  let (size, f) ← readBlockSize f
  if size.toInt.tmod 4 = 0 then some (size, f) else none

/-- What follows the constants. -/
def constWords (f : List Byte) : Option (List Byte) := do
  let (size, f) ← constSize f
  let (_, f) ← readWords (size.toNat / 4) f
  return f

/-- What follows the code, in what follows the constants. -/
def codeBlock (f : List Byte) : Option (List Byte) := do
  let (size, f) ← readBlockSize f
  let (_, f) ← readBytes size.toNat f
  return f

theorem loadCode_tests (env : Env) (s : State) (f : List Byte) :
    ∃ t, (Ijvm.loadCode f).run env s =
      .done (if env.alloc s.clock then codeBlock f else none) t [] := by
  rw [Ijvm.loadCode]
  cases first : readWord f with
  | none => exact ⟨s, by simp [codeBlock, readBlockSize, first]⟩
  | some p =>
      obtain ⟨o, f₁⟩ := p
      dsimp only
      cases second : readWord f₁ with
      | none => exact ⟨s, by simp [codeBlock, readBlockSize, first, second]⟩
      | some p =>
          obtain ⟨w, f₂⟩ := p
          simp only [run_bind, run_modifyCpu, run_allocate, Outcome.andThen_done,
            Outcome.prepend_nil]
          cases granted : env.alloc s.clock with
          | false => exact ⟨_, rfl⟩
          | true =>
              have block : codeBlock f =
                  (readBytes (swapUint32 w).toNat f₂).bind fun p => some p.2 := by
                simp [codeBlock, readBlockSize, first, second]
              rw [block]
              cases third : readBytes (swapUint32 w).toNat f₂ with
              | none => exact ⟨_, rfl⟩
              | some p => exact ⟨_, rfl⟩

theorem loadConsts_tests (env : Env) (s : State) (f : List Byte) :
    ∃ t, (Ijvm.loadConsts f).run env s =
      .done (if env.alloc s.clock then constWords f else none) t [] ∧
      ((constSize f).isSome → t.clock = s.clock + 1) := by
  rw [Ijvm.loadConsts]
  cases first : readWord f with
  | none => exact ⟨s, by simp [constWords, constSize, readBlockSize, first]⟩
  | some p =>
      obtain ⟨o, f₁⟩ := p
      dsimp only
      cases second : readWord f₁ with
      | none => exact ⟨s, by simp [constWords, constSize, readBlockSize, first, second]⟩
      | some p =>
          obtain ⟨w, f₂⟩ := p
          have size : constSize f = if (swapUint32 w).toInt.tmod 4 = 0 then
              some (swapUint32 w, f₂) else none := by
            simp [constSize, readBlockSize, first, second]
          simp only [run_bind, run_modifyCpu, Outcome.andThen_done, Outcome.prepend_nil]
          by_cases whole : (swapUint32 w).toInt.tmod 4 = 0
          · rw [if_neg (not_not.mpr whole)]
            rw [if_pos whole] at size
            simp only [run_bind, run_allocate, Outcome.andThen_done, Outcome.prepend_nil]
            cases granted : env.alloc s.clock with
            | false => exact ⟨_, rfl, fun _ => rfl⟩
            | true =>
                have block : constWords f =
                    (readWords ((swapUint32 w).toNat / 4) f₂).bind fun p => some p.2 := by
                  simp [constWords, size]
                rw [block]
                cases third : readWords ((swapUint32 w).toNat / 4) f₂ with
                | none => exact ⟨_, rfl, fun _ => rfl⟩
                | some p => exact ⟨_, rfl, fun _ => rfl⟩
          · rw [if_pos whole]
            rw [if_neg whole] at size
            have absent : constWords f = none := by simp [constWords, size]
            rw [absent, ite_self]
            exact ⟨_, rfl, by simp [size]⟩

/-- What follows the magic number of a binary. -/
def signed (file : Option (List Byte)) : Option (List Byte) := do
  let f ← file
  let (magic, f) ← readWord f
  if checkFileSignature magic then some f else none

/-- The tests of `load_bin` on a file, with two answers of the allocator. -/
def Load.ofFile (file : Option (List Byte)) (constAlloc codeAlloc : Bool) (o : Load) : Load :=
  { o with
    header := ((signed file).bind constSize).isSome
    constAlloc := constAlloc
    constRead := ((signed file).bind constWords).isSome
    codeHeader := (((signed file).bind constWords).bind readBlockSize).isSome
    codeAlloc := codeAlloc
    codeRead := (((signed file).bind constWords).bind codeBlock).isSome }

/-- What `load_bin` needs of the file is that the last block is there. -/
theorem Load.ofFile_binary (file : Option (List Byte)) (constAlloc codeAlloc : Bool) (o : Load) :
    (Load.ofFile file constAlloc codeAlloc o).binary = (constAlloc && codeAlloc &&
      (((signed file).bind constWords).bind codeBlock).isSome) := by
  have header : ((signed file).bind constWords).isSome → ((signed file).bind constSize).isSome := by
    cases signed file with
    | none => exact id
    | some f => cases size : constSize f <;> simp [constWords, size]
  have code (f : List Byte) : (codeBlock f).isSome → (readBlockSize f).isSome := by
    cases size : readBlockSize f <;> simp [codeBlock, size]
  rw [Load.binary, Load.ofFile]
  cases words : (signed file).bind constWords with
  | none => simp
  | some f =>
      rw [words] at header
      have codeHeader := code f
      cases constAlloc <;> cases codeAlloc <;> simp_all

/-- The result of `load_bin` in the model of the machine is that of the tests. -/
theorem loadBin_tests (env : Env) (s : State) (file : Option (List Byte)) (o : Load) :
    ∃ t, (Ijvm.loadBin file).run env s = .done
      (Load.ofFile file (env.alloc s.clock) (env.alloc (s.clock + 1)) o).binary t [] := by
  rw [Load.ofFile_binary]
  unfold Ijvm.loadBin
  cases file with
  | none => exact ⟨s, by simp [signed]⟩
  | some f =>
      dsimp only
      cases first : readWord f with
      | none => exact ⟨s, by simp [signed, first]⟩
      | some p =>
          obtain ⟨magic, f₁⟩ := p
          dsimp only
          by_cases good : checkFileSignature magic = true
          · rw [if_neg (by simpa using good), run_bind]
            have start : signed (some f) = some f₁ := by simp [signed, first, good]
            obtain ⟨t, consts, clock⟩ := loadConsts_tests env s f₁
            rw [consts, Outcome.andThen_done, Outcome.prepend_nil, start, Option.bind_some]
            cases granted : env.alloc s.clock with
            | false => exact ⟨t, rfl⟩
            | true =>
                cases words : constWords f₁ with
                | none => exact ⟨t, by simp⟩
                | some f₂ =>
                    have later : t.clock = s.clock + 1 := by
                      refine clock ?_
                      cases size : constSize f₁ with
                      | none => simp [constWords, size] at words
                      | some _ => rfl
                    obtain ⟨t', code⟩ := loadCode_tests env t f₂
                    rw [later] at code
                    refine ⟨t', ?_⟩
                    rw [if_pos rfl, run_bind, code, Outcome.andThen_done, Outcome.prepend_nil,
                      Option.bind_some]
                    cases env.alloc (s.clock + 1) <;> cases codeBlock f₂ <;> rfl
          · rw [if_pos (by simpa using good)]
            exact ⟨s, by simp [signed, first, good]⟩

end Ijvm.Blocks
