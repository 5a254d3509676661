import Ijvm.Machine.Launch
import Mathlib.Tactic.IntervalCases

/-!
# Words in a file

A file holds its words most significant byte first. `fread` on a little-endian machine
takes the bytes in the other order, and `swap_uint32` undoes it: reading a word and
swapping it gives the word whose big-endian bytes are in the file.
-/

namespace Ijvm

/-- Four bytes, the most significant first. -/
def bigEndianWord (b0 b1 b2 b3 : Byte) : Word := (b0 ++ b1 ++ b2 ++ b3 : BitVec (8 + 8 + 8 + 8))

theorem swapUint32_littleEndian (b0 b1 b2 b3 : Byte) :
    swapUint32 (littleEndian b0 b1 b2 b3) = bigEndianWord b0 b1 b2 b3 := by
  apply BitVec.eq_of_getLsbD_eq
  intro i hi
  simp only [swapUint32, littleEndian, bigEndianWord, BitVec.getLsbD_or, BitVec.getLsbD_and,
    BitVec.getLsbD_shiftLeft, BitVec.getLsbD_ushiftRight, BitVec.getLsbD_setWidth,
    BitVec.getLsbD_append]
  interval_cases i <;> simp

theorem bigEndian_bigEndianWord (b0 b1 b2 b3 : Byte) :
    bigEndian (bigEndianWord b0 b1 b2 b3) = [b0, b1, b2, b3] := by
  have byte {b c : Byte} (same : ∀ i < 8, c.getLsbD i = b.getLsbD i) : c = b :=
    BitVec.eq_of_getLsbD_eq same
  rw [bigEndian, bigEndianWord]
  congr 1
  · apply byte
    intro i hi
    simp only [BitVec.getLsbD_setWidth, BitVec.getLsbD_ushiftRight, BitVec.getLsbD_append]
    interval_cases i <;> simp
  congr 1
  · apply byte
    intro i hi
    simp only [BitVec.getLsbD_setWidth, BitVec.getLsbD_ushiftRight, BitVec.getLsbD_append]
    interval_cases i <;> simp
  congr 1
  · apply byte
    intro i hi
    simp only [BitVec.getLsbD_setWidth, BitVec.getLsbD_ushiftRight, BitVec.getLsbD_append]
    interval_cases i <;> simp
  congr 1
  · apply byte
    intro i hi
    simp only [BitVec.getLsbD_setWidth, BitVec.getLsbD_append]
    interval_cases i <;> simp

/-- Every word is given by four bytes. -/
theorem exists_bigEndianWord (w : Word) : ∃ b0 b1 b2 b3, w = bigEndianWord b0 b1 b2 b3 := by
  refine ⟨(w >>> 24).setWidth 8, (w >>> 16).setWidth 8, (w >>> 8).setWidth 8, w.setWidth 8, ?_⟩
  apply BitVec.eq_of_getLsbD_eq
  intro i hi
  simp only [bigEndianWord, BitVec.getLsbD_setWidth, BitVec.getLsbD_ushiftRight,
    BitVec.getLsbD_append]
  interval_cases i <;> simp

@[simp] theorem length_bigEndian (w : Word) : (bigEndian w).length = 4 := rfl

/-- The words of a file that starts on a word boundary. -/
def bigEndianWords : List Byte → List Word
  | b0 :: b1 :: b2 :: b3 :: rest => bigEndianWord b0 b1 b2 b3 :: bigEndianWords rest
  | _ => []

/-- Four bytes are taken from a list that is long enough. -/
theorem exists_four {f : List Byte} (enough : 4 ≤ f.length) :
    ∃ b0 b1 b2 b3 rest, f = b0 :: b1 :: b2 :: b3 :: rest := by
  obtain _ | ⟨b0, _ | ⟨b1, _ | ⟨b2, _ | ⟨b3, rest⟩⟩⟩⟩ := f
  · simp at enough
  · simp at enough
  · simp at enough
  · simp at enough
  · exact ⟨b0, b1, b2, b3, rest, rfl⟩

theorem length_bigEndianWords {bytes : List Byte} {n : Nat} (length : bytes.length = 4 * n) :
    (bigEndianWords bytes).length = n := by
  induction n generalizing bytes with
  | zero =>
      rw [List.length_eq_zero_iff.mp length]
      rfl
  | succ n ih =>
      obtain ⟨b0, b1, b2, b3, rest, rfl⟩ := exists_four (f := bytes) (by omega)
      simp only [List.length_cons] at length
      rw [bigEndianWords, List.length_cons, ih (by omega)]

section Reading

variable {f rest : List Byte}

theorem readWord_bigEndian (v : Word) (rest : List Byte) :
    ∃ w, readWord (bigEndian v ++ rest) = some (w, rest) ∧ swapUint32 w = v := by
  obtain ⟨b0, b1, b2, b3, rfl⟩ := exists_bigEndianWord v
  rw [bigEndian_bigEndianWord]
  exact ⟨littleEndian b0 b1 b2 b3, rfl, swapUint32_littleEndian b0 b1 b2 b3⟩

theorem of_readWord {w : Word} (h : readWord f = some (w, rest)) :
    f = bigEndian (swapUint32 w) ++ rest := by
  unfold readWord at h
  split at h
  · rename_i b0 b1 b2 b3 tail
    injection h with same
    injection same with word tail
    subst word tail
    rw [swapUint32_littleEndian, bigEndian_bigEndianWord]
    rfl
  · contradiction

theorem readWord_eq_none_iff : readWord f = none ↔ f.length < 4 := by
  constructor
  · intro h
    by_contra long
    obtain ⟨b0, b1, b2, b3, rest, rfl⟩ := exists_four (f := f) (by omega)
    cases h
  · intro short
    cases h : readWord f with
    | none => rfl
    | some p =>
        obtain ⟨w, rest⟩ := p
        have := congrArg List.length (of_readWord h)
        simp at this
        omega

theorem readWords_append {n : Nat} (bytes : List Byte) (length : bytes.length = 4 * n)
    (rest : List Byte) :
    ∃ ws, readWords n (bytes ++ rest) = some (ws, rest) ∧
      ws.map swapUint32 = bigEndianWords bytes := by
  induction n generalizing bytes with
  | zero =>
      rw [List.length_eq_zero_iff.mp length]
      exact ⟨[], rfl, rfl⟩
  | succ n ih =>
      obtain ⟨b0, b1, b2, b3, tail, rfl⟩ := exists_four (f := bytes) (by omega)
      obtain ⟨ws, read, words⟩ := ih tail (by simpa [Nat.mul_succ] using length)
      refine ⟨littleEndian b0 b1 b2 b3 :: ws, ?_, ?_⟩
      · simp only [List.cons_append, readWords, readWord, Option.bind_eq_bind, Option.bind_some,
          read]
        rfl
      · rw [List.map_cons, swapUint32_littleEndian, words]
        rfl

theorem of_readWords {n : Nat} {ws : List Word} (h : readWords n f = some (ws, rest)) :
    ∃ bytes, bytes.length = 4 * n ∧ f = bytes ++ rest := by
  induction n generalizing f ws with
  | zero =>
      injection h with same
      injection same with _ tail
      exact ⟨[], rfl, tail⟩
  | succ n ih =>
      simp only [readWords, Option.bind_eq_bind] at h
      obtain ⟨⟨w, tail⟩, first, h⟩ := Option.bind_eq_some_iff.mp h
      obtain ⟨⟨ws', tail'⟩, others, h⟩ := Option.bind_eq_some_iff.mp h
      injection h with same
      injection same with _ same
      subst same
      obtain ⟨bytes, length, rfl⟩ := ih others
      refine ⟨bigEndian (swapUint32 w) ++ bytes, ?_, ?_⟩
      · rw [List.length_append, length_bigEndian, length]
        omega
      · rw [of_readWord first, List.append_assoc]

theorem readBytes_append (bytes rest : List Byte) :
    readBytes bytes.length (bytes ++ rest) = some (bytes, rest) := by
  rw [readBytes, if_pos (by simp), List.take_left, List.drop_left]

theorem of_readBytes {n : Nat} {bytes : List Byte} (h : readBytes n f = some (bytes, rest)) :
    bytes.length = n ∧ f = bytes ++ rest := by
  unfold readBytes at h
  split at h
  · rename_i enough
    injection h with same
    injection same with taken left
    subst taken left
    exact ⟨List.length_take_of_le enough, (List.take_append_drop n f).symm⟩
  · contradiction

end Reading
end Ijvm
