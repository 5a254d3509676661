import Ijvm.Machine.Bytecode

/-!
# References: an index between two tags

A reference carries an index in bits 4 to 23, with a fixed tag in the other
bits. `array.c` and `net.c` contain the same two conversions for different tags.
-/

namespace Ijvm

/-- The bits of a reference that hold the index. -/
def kRefToIndex : Word := 0x00FFFFF0

/-- The bits that a reference is recognised by. -/
def refTagMask : Word := 0xFF00000F

/-- `ref_to_index`: recover the index of a reference. -/
def refToIndex (ref : Word) : Nat := ((kRefToIndex &&& ref) >>> 4).toNat

/-- `index_to_ref`: create a reference from an index. -/
def indexToRef (tag : Word) (i : Nat) : Word := tag ||| (BitVec.ofNat 32 i <<< 4)

/-- The recognition test on a word. -/
def hasTag (tag ref : Word) : Bool := ((ref &&& refTagMask) ^^^ tag) == 0

/-- `k_index_to_ref` of `array.c`. -/
def arrTag : Word := 0xAA00000A

/-- `k_index_to_ref` of `net.c`. -/
def netTag : Word := 0xCC00000C

def isArrRef (w : Word) : Bool := hasTag arrTag w

def isNetRef (w : Word) : Bool := hasTag netTag w

/-- A tag leaves the index bits free. -/
def IsTag (tag : Word) : Prop := tag &&& refTagMask = tag

instance (tag : Word) : Decidable (IsTag tag) := inferInstanceAs (Decidable (_ = _))

theorem arrTag_isTag : IsTag arrTag := by decide

theorem netTag_isTag : IsTag netTag := by decide

theorem hasTag_iff {tag ref : Word} : hasTag tag ref = true ↔ ref &&& refTagMask = tag := by
  rw [hasTag, beq_iff_eq]
  exact BitVec.xor_eq_zero_iff

theorem refToIndex_lt (ref : Word) : refToIndex ref < 2 ^ 20 := by
  have masked : (kRefToIndex &&& ref).toNat ≤ kRefToIndex.toNat := by
    rw [BitVec.toNat_and]
    exact Nat.and_le_left
  have bound : kRefToIndex.toNat < 2 ^ 24 := by decide
  rw [refToIndex, BitVec.toNat_ushiftRight, Nat.shiftRight_eq_div_pow]
  omega

private theorem kRefToIndex_bit (j : Nat) (hj : j < 32) :
    kRefToIndex.getLsbD j = decide (4 ≤ j ∧ j < 24) := by
  have bits : ∀ j : Fin 32, kRefToIndex.getLsbD j = decide (4 ≤ j.val ∧ j.val < 24) := by decide
  exact bits ⟨j, hj⟩

private theorem refTagMask_bit (j : Nat) (hj : j < 32) :
    refTagMask.getLsbD j = decide (j < 4 ∨ 24 ≤ j) := by
  have bits : ∀ j : Fin 32, refTagMask.getLsbD j = decide (j.val < 4 ∨ 24 ≤ j.val) := by decide
  exact bits ⟨j, hj⟩

private theorem IsTag.bit {tag : Word} (ht : IsTag tag) {j : Nat} (low : 4 ≤ j) (high : j < 24) :
    tag.getLsbD j = false := by
  have bits := congrArg (fun w : Word => w.getLsbD j) ht
  simp only [BitVec.getLsbD_and, refTagMask_bit j (by omega)] at bits
  rw [← bits, decide_eq_false (by omega), Bool.and_false]

private theorem index_bit {i : Nat} (hi : i < 2 ^ 20) {j : Nat} (hj : 20 ≤ j) :
    i.testBit j = false := by
  apply Nat.testBit_lt_two_pow
  exact Nat.lt_of_lt_of_le hi (Nat.pow_le_pow_right (by decide) hj)

/-- Below `2 ^ 20` the shifted index stays inside the index bits, so the reference
decodes to the index it was made from. -/
theorem refToIndex_indexToRef {tag : Word} (ht : IsTag tag) {i : Nat} (hi : i < 2 ^ 20) :
    refToIndex (indexToRef tag i) = i := by
  have word : (kRefToIndex &&& indexToRef tag i) >>> 4 = BitVec.ofNat 32 i := by
    apply BitVec.eq_of_getLsbD_eq
    intro j hj
    rw [BitVec.getLsbD_ushiftRight, BitVec.getLsbD_and, indexToRef, BitVec.getLsbD_or,
      BitVec.getLsbD_shiftLeft, BitVec.getLsbD_ofNat, BitVec.getLsbD_ofNat]
    by_cases inside : j < 20
    · rw [kRefToIndex_bit (4 + j) (by omega), ht.bit (by omega) (by omega)]
      simp [hj, show 4 + j < 24 by omega, show 4 + j < 32 by omega]
    · rw [index_bit hi (by omega : 20 ≤ j)]
      by_cases top : 4 + j < 32
      · rw [kRefToIndex_bit (4 + j) top]
        simp [show ¬ 4 + j < 24 by omega]
      · simp [BitVec.getLsbD_of_ge kRefToIndex (4 + j) (by omega)]
  rw [refToIndex, word, BitVec.toNat_ofNat]
  exact Nat.mod_eq_of_lt (by omega)

theorem hasTag_indexToRef {tag : Word} (ht : IsTag tag) {i : Nat} (hi : i < 2 ^ 20) :
    hasTag tag (indexToRef tag i) = true := by
  rw [hasTag_iff]
  apply BitVec.eq_of_getLsbD_eq
  intro j hj
  have own := congrArg (fun w : Word => w.getLsbD j) ht
  simp only [BitVec.getLsbD_and] at own
  rw [BitVec.getLsbD_and, indexToRef, BitVec.getLsbD_or, Bool.and_or_distrib_right, own,
    BitVec.getLsbD_shiftLeft, BitVec.getLsbD_ofNat, refTagMask_bit j hj]
  by_cases low : j < 4
  · simp [low]
  · by_cases high : 24 ≤ j
    · simp [low, high, index_bit hi (by omega : 20 ≤ j - 4)]
    · simp [low, high]

/-- A recognised reference is determined by its index. -/
theorem indexToRef_refToIndex {tag ref : Word} (h : hasTag tag ref = true) :
    indexToRef tag (refToIndex ref) = ref := by
  rw [hasTag_iff] at h
  apply BitVec.eq_of_getLsbD_eq
  intro j hj
  have own := congrArg (fun w : Word => w.getLsbD j) h
  simp only [BitVec.getLsbD_and, refTagMask_bit j hj] at own
  rw [indexToRef, BitVec.getLsbD_or, ← own, refToIndex, BitVec.ofNat_toNat,
    BitVec.getLsbD_shiftLeft, BitVec.setWidth_eq, BitVec.getLsbD_ushiftRight,
    BitVec.getLsbD_and]
  by_cases low : j < 4
  · simp [hj, low]
  · rw [show 4 + (j - 4) = j by omega, kRefToIndex_bit j hj]
    by_cases high : 24 ≤ j
    · simp [low, high]
    · simp [hj, low, high, show 4 ≤ j by omega, show j < 24 by omega]

end Ijvm
