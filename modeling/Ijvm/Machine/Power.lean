import Mathlib.NumberTheory.Multiplicity
import Ijvm.Machine.Init

/-!
# The function `power`

The loop of `power` multiplies by the exponent instead of the base, so that it computes
`base * exponent ^ exponent` in 32 bits. `power_correct_iff` says for which arguments this
is the power after all.
-/

namespace Ijvm

/-- Each turn of the loop multiplies by `n`, modulo `2 ^ 32`. -/
theorem foldl_mul {α : Type} (l : List α) (n : Nat) {b : Nat} (fits : b < 2 ^ 32) :
    l.foldl (fun b _ => b * n % 2 ^ 32) b = b * n ^ l.length % 2 ^ 32 := by
  induction l generalizing b with
  | nil => rw [List.foldl_nil, List.length_nil, Nat.pow_zero, Nat.mul_one, Nat.mod_eq_of_lt fits]
  | cons a l ih =>
      have turns : n ^ (l.length + 1) = n * n ^ l.length := Nat.pow_succ'
      rw [List.foldl_cons, ih (Nat.mod_lt _ (by decide)), List.length_cons, Nat.mod_mul_mod, turns,
        Nat.mul_assoc]

theorem power_zero (b : Nat) : power b 0 = 1 := rfl

theorem power_eq {b n : Nat} (fits : b < 2 ^ 32) (positive : n ≠ 0) :
    power b n = b * n ^ n % 2 ^ 32 := by
  rw [power, if_neg positive, foldl_mul _ n fits, List.length_range]

/-- An odd number whose odd power is 1 modulo a power of 2 is 1 itself. -/
theorem eq_one_of_odd_pow {n m k : Nat} (oddBase : Odd n) (oddExponent : Odd m) (small : n < 2 ^ k)
    (one : n ^ m % 2 ^ k = 1) : n = 1 := by
  obtain ⟨j, rfl⟩ := oddBase
  have divides : (2 : Int) ^ k ∣ ((2 * j + 1 : Nat) : Int) ^ m - 1 ^ m := by
    have split := Nat.div_add_mod ((2 * j + 1) ^ m) (2 ^ k)
    rw [one] at split
    have split' : ((2 * j + 1 : Nat) : Int) ^ m =
        2 ^ k * (((2 * j + 1) ^ m / 2 ^ k : Nat) : Int) + 1 := by exact_mod_cast split.symm
    exact ⟨_, by rw [one_pow, split', add_sub_cancel_right]⟩
  have same := emultiplicity_pow_sub_pow_of_prime Int.prime_two (x := ((2 * j + 1 : Nat) : Int))
    (y := 1) (n := m) ⟨j, by push_cast; omega⟩ (by omega) (by
      obtain ⟨i, rfl⟩ := oddExponent
      omega)
  rw [pow_dvd_iff_le_emultiplicity, same, ← pow_dvd_iff_le_emultiplicity] at divides
  have divides' : 2 ^ k ∣ 2 * j := by
    have := divides
    push_cast at this
    rw [add_sub_cancel_right] at this
    exact_mod_cast this
  have := Nat.eq_zero_of_dvd_of_lt divides' (by omega)
  omega

/-- The powers that fit, for the exponents from 5 on. -/
theorem power_differs_table : ∀ n < 32, 5 ≤ n → ∀ b < 85, 2 ≤ b →
    ¬ (b ^ n < 2 ^ 32 ∧ b * n ^ n % 2 ^ 32 = b ^ n) := by
  decide +kernel

theorem power_differs {b n : Nat} (base : 2 ≤ b) (exponent : 5 ≤ n) :
    b * n ^ n % 2 ^ 32 ≠ b ^ n := by
  intro same
  have fits : b ^ n < 2 ^ 32 := by
    rw [← same]
    exact Nat.mod_lt _ (by decide)
  have few : n < 32 := by
    have := Nat.pow_le_pow_left base n
    exact (Nat.pow_lt_pow_iff_right (by decide : 1 < 2)).mp (Nat.lt_of_le_of_lt this fits)
  have small : b < 85 := by
    have fifth := Nat.pow_le_pow_right (by omega : 0 < b) exponent
    by_contra large
    have := Nat.pow_le_pow_left (Nat.le_of_not_lt large) 5
    omega
  exact power_differs_table n few exponent b small base ⟨fits, same⟩

/-- For an exponent below 5, the loop multiplies without overflow. -/
theorem pow_of_power {b k m : Nat} (positive : 0 < b) (few : m ≤ 256) (exponent : 1 ≤ k)
    (same : b * m % 2 ^ 32 = b ^ (k + 1)) : m = b ^ k := by
  have fits : b ^ (k + 1) < 2 ^ 32 := by
    rw [← same]
    exact Nat.mod_lt _ (by decide)
  have small : b < 2 ^ 16 := by
    have square := Nat.pow_le_pow_right positive (show 2 ≤ k + 1 by omega)
    by_contra large
    have := Nat.pow_le_pow_left (Nat.le_of_not_lt large) 2
    omega
  rw [Nat.mod_eq_of_lt (by nlinarith), Nat.pow_succ'] at same
  exact Nat.eq_of_mul_eq_mul_left positive same

/-- `power` returns a power of 1 for the exponents 0 and 1 only. -/
theorem self_pow_ne_one {n : Nat} (small : n < 2 ^ 32) (exponent : 2 ≤ n) :
    n ^ n % 2 ^ 32 ≠ 1 := by
  intro one
  rcases Nat.even_or_odd n with even | odd
  · have parity : n ^ n % 2 = 1 := by
      rw [← Nat.mod_mod_of_dvd (n ^ n) (show 2 ∣ 2 ^ 32 by decide), one]
    have := (Nat.even_pow.mpr ⟨even, by omega⟩ : Even (n ^ n))
    rw [Nat.even_iff] at this
    omega
  · have := eq_one_of_odd_pow odd odd small one
    omega

/-- `power` returns the power exactly for the base 0, the exponents 0 and 1, and 4 squared. -/
theorem power_correct_iff {b n : Nat} (base : b < 2 ^ 32) (exponent : n < 2 ^ 32) :
    power b n = b ^ n ↔ b = 0 ∨ n ≤ 1 ∨ (b = 4 ∧ n = 2) := by
  by_cases none : n = 0
  · subst none
    simp [power_zero]
  rw [power_eq base none]
  by_cases single : n = 1
  · subst single
    rw [Nat.one_pow, Nat.mul_one, Nat.mod_eq_of_lt base, Nat.pow_one]
    simp
  have several : 2 ≤ n := by omega
  rcases Nat.lt_or_ge b 2 with few | many
  · obtain rfl | rfl : b = 0 ∨ b = 1 := by omega
    · simp [none]
    · have := self_pow_ne_one exponent several
      rw [Nat.one_mul, one_pow]
      omega
  · rcases Nat.lt_or_ge n 5 with low | high
    · have positive : 0 < b := by omega
      obtain rfl | rfl | rfl : n = 2 ∨ n = 3 ∨ n = 4 := by omega
      · constructor
        · intro same
          have four := pow_of_power positive (by decide) (Nat.le_refl 1) same
          rw [Nat.pow_one] at four
          omega
        · rintro (rfl | absurd | ⟨rfl, _⟩)
          · decide
          · omega
          · decide
      · refine iff_of_false (fun same => ?_) (by omega)
        have square := pow_of_power (k := 2) positive (by decide) (by decide) same
        have : b < 6 := by nlinarith
        interval_cases b <;> omega
      · refine iff_of_false (fun same => ?_) (by omega)
        have cube := pow_of_power (k := 3) positive (by decide) (by decide) same
        have : b < 7 := by
          by_contra large
          have := Nat.pow_le_pow_left (Nat.le_of_not_lt large) 3
          omega
        interval_cases b <;> omega
    · have := power_differs many high
      omega

end Ijvm
