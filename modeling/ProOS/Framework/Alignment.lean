import Mathlib

namespace ProOS.Framework

/-- The least multiple of `a` that is not below `n`. -/
def roundUp (n a : Nat) : Nat := (n + (a - 1)) / a * a

theorem dvd_roundUp (n a : Nat) : a ∣ roundUp n a := Nat.dvd_mul_left _ _

theorem le_roundUp (n : Nat) {a : Nat} (ha : 0 < a) : n ≤ roundUp n a := by
  have hdiv := Nat.div_add_mod (n + (a - 1)) a
  have hmod := Nat.mod_lt (n + (a - 1)) ha
  rw [Nat.mul_comm] at hdiv
  rw [roundUp]
  omega

theorem testBit_sub_two_pow {k : Nat} (hk : k ≤ 32) (i : Nat) :
    (2 ^ 32 - 2 ^ k).testBit i = (decide (i < 32) && decide (k ≤ i)) := by
  have hpos := Nat.two_pow_pos k
  have hle : 2 ^ k ≤ 2 ^ 32 := Nat.pow_le_pow_right (by omega) hk
  have heq : 2 ^ 32 - 2 ^ k = 2 ^ 32 - (2 ^ k - 1 + 1) := by omega
  rw [heq, Nat.testBit_two_pow_sub_succ (by omega), Nat.testBit_two_pow_sub_one]
  by_cases h : i < k
  · simp [h]
  · simp [h, not_lt.mp h]

theorem and_two_pow_sub {x k : Nat} (hx : x < 2 ^ 32) (hk : k ≤ 32) : x &&& (2 ^ 32 - 2 ^ k) = x / 2 ^ k * 2 ^ k := by
  apply Nat.eq_of_testBit_eq
  intro i
  rw [Nat.testBit_and, testBit_sub_two_pow hk, Nat.testBit_mul_two_pow, Nat.testBit_div_two_pow]
  by_cases hi : i < 32
  · by_cases hki : k ≤ i
    · simp [hi, hki]
    · simp [hki]
  · have hbit : x.testBit i = false :=
      Nat.testBit_lt_two_pow (lt_of_lt_of_le hx (Nat.pow_le_pow_right (by omega) (not_lt.mp hi)))
    by_cases hki : k ≤ i
    · simp [hi, hki, hbit]
    · simp [hbit, hki]

end ProOS.Framework
