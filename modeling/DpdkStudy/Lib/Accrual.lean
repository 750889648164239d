import Mathlib.Data.Nat.ModEq
import Mathlib.Algebra.BigOperators.Group.List.Basic
import Mathlib.Tactic.Ring

/-!
# Rounding the parts and rounding the whole

A quantity that accrues in parts, each part rounded down to a multiple of a
unit, falls short of the whole rounded once. This module measures the
shortfall exactly: it is the sum of the remainders of the parts, in whole
units (`div_sum_eq`). The parts never exceed the whole (`sum_div_le`), and
they stay within one unit of it exactly as long as their remainders add up
to less than two (`sum_div_within_one_iff`).
-/

namespace Accrual

variable {c : ℕ}

/-- The total, split into its rounded parts and their remainders. -/
theorem sum_eq_mul_add (c : ℕ) (l : List ℕ) :
    l.sum = c * (l.map (· / c)).sum + (l.map (· % c)).sum := by
  induction l with
  | nil => simp
  | cons x l ih =>
    have hx : x = c * (x / c) + x % c := (Nat.div_add_mod x c).symm
    calc (x :: l).sum = x + l.sum := by rw [List.sum_cons]
      _ = (c * (x / c) + x % c) + (c * (l.map (· / c)).sum + (l.map (· % c)).sum) := by
          rw [← hx, ← ih]
      _ = c * ((x :: l).map (· / c)).sum + ((x :: l).map (· % c)).sum := by
          simp only [List.map_cons, List.sum_cons]
          ring

/-- **The shortfall of the parts** is the sum of their remainders, in whole
units. -/
theorem div_sum_eq (hc : 0 < c) (l : List ℕ) :
    l.sum / c = (l.map (· / c)).sum + (l.map (· % c)).sum / c := by
  conv_lhs => rw [sum_eq_mul_add c l]
  rw [Nat.mul_add_div hc]

/-- The rounded parts never exceed the rounded whole. -/
theorem sum_div_le (hc : 0 < c) (l : List ℕ) : (l.map (· / c)).sum ≤ l.sum / c := by
  rw [div_sum_eq hc l]
  exact Nat.le_add_right _ _

/-- **The parts stay within one unit of the whole** exactly as long as their
remainders add up to less than two units. -/
theorem sum_div_within_one_iff (hc : 0 < c) (l : List ℕ) :
    l.sum / c ≤ (l.map (· / c)).sum + 1 ↔ (l.map (· % c)).sum < 2 * c := by
  rw [div_sum_eq hc l, Nat.add_le_add_iff_left, ← Nat.lt_succ_iff, Nat.div_lt_iff_lt_mul hc]

end Accrual
