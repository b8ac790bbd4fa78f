/-
Risky321.Lib.Bits — masks and shifts of 32-bit words as arithmetic.

The masks that come up are of two kinds: low bits (`x &&& 0x3FF`) and all
but the low bits (`x &&& 0xFFFFF000`). With them a shift and an `|||` of
values that share no bit are a product, a quotient or a sum.
-/
import Mathlib.Data.Nat.Bitwise
import Mathlib.Tactic.Common

namespace Risky321.Lib

/-- Masking out the low `n` of `n + w` bits. -/
theorem and_high {x n w : Nat} (hx : x < 2 ^ (n + w)) :
    x &&& ((2 ^ w - 1) <<< n) = x / 2 ^ n * 2 ^ n := by
  rw [← Nat.shiftLeft_eq, ← Nat.shiftRight_eq_div_pow]
  apply Nat.eq_of_testBit_eq
  intro i
  rw [Nat.testBit_and, Nat.testBit_shiftLeft, Nat.testBit_shiftLeft, Nat.testBit_shiftRight,
    Nat.testBit_two_pow_sub_one]
  by_cases hi : n ≤ i
  · rw [Nat.add_sub_cancel' hi]
    by_cases hw : i - n < w
    · simp [hi, hw]
    · have hbit : x.testBit i = false := by
        apply Nat.testBit_lt_two_pow
        exact lt_of_lt_of_le hx (Nat.pow_le_pow_right (by omega) (by omega))
      simp [hbit]
  · simp [hi]

theorem and_0x3FF (x : Nat) : x &&& 0x3FF = x % 1024 :=
  Nat.and_two_pow_sub_one_eq_mod x 10

theorem and_0xFFFFF000 {x : Nat} (hx : x < 2 ^ 32) : x &&& 0xFFFFF000 = x / 4096 * 4096 :=
  and_high (n := 12) (w := 20) hx

theorem and_0xFFFFFC00 {x : Nat} (hx : x < 2 ^ 32) : x &&& 0xFFFFFC00 = x / 1024 * 1024 :=
  and_high (n := 10) (w := 22) hx

/-- A mask of low bits only sees the low bits. -/
theorem mod_1024_and {x f : Nat} (hf : f < 1024) : x % 1024 &&& f = x &&& f := by
  have hmask : 0x3FF &&& f = f := by
    rw [Nat.and_comm]
    exact Nat.and_two_pow_sub_one_of_lt_two_pow (n := 10) hf
  rw [← and_0x3FF, Nat.and_assoc, hmask]

/-- An `|||` with a value below the low bits of the other is a sum. -/
theorem or_low {a b n : Nat} (ha : a % 2 ^ n = 0) (hb : b < 2 ^ n) : a ||| b = a + b := by
  have hdiv : a = 2 ^ n * (a / 2 ^ n) := by
    have := Nat.div_add_mod a (2 ^ n)
    omega
  rw [hdiv]
  exact (Nat.two_pow_add_eq_or_of_lt hb _).symm

/-- Setting the lowest bit. -/
theorem or_one_eq (n : Nat) : n ||| 1 = n / 2 * 2 + 1 := by
  refine Nat.eq_of_testBit_eq fun b => ?_
  cases b with
  | zero => simp
  | succ b =>
    rw [Nat.testBit_or, Nat.testBit_succ, Nat.testBit_succ, Nat.testBit_succ,
      show (n / 2 * 2 + 1) / 2 = n / 2 by omega]
    simp

theorem and_one_ne_zero (x : Nat) : x &&& 1 ≠ 0 ↔ x % 2 = 1 := by
  rw [Nat.and_one_is_mod]
  omega

/-- Testing one bit. -/
theorem and_two_pow_ne_zero (x n : Nat) : x &&& 2 ^ n ≠ 0 ↔ x / 2 ^ n % 2 = 1 := by
  have h := Nat.and_two_pow x n
  rw [Nat.testBit_eq_decide_div_mod_eq] at h
  by_cases hx : x / 2 ^ n % 2 = 1
  · simp_all
  · simp_all

theorem and_sixteen_ne_zero (x : Nat) : x &&& 16 ≠ 0 ↔ x / 16 % 2 = 1 :=
  and_two_pow_ne_zero x 4

end Risky321.Lib
