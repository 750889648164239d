import Mathlib.Algebra.BigOperators.Group.Finset.Piecewise
import Mathlib.Data.Nat.ModEq

/-!
# Counters that wrap

A counter of a machine counts modulo the size of its word. It shows `n`
counts (`Counts`) if it shows them modulo the word, and outright as long as
the word has room for them. Families of counters count together what each
of them counts, however the counts are spread.
-/

open Finset

namespace Tally

variable {M : ℕ}

/-- **A counter that shows `shown` counts `n`**: modulo `M`, and outright
below `M`. -/
structure Counts (M shown n : ℕ) : Prop where
  modEq : shown ≡ n [MOD M]
  eq : n < M → shown = n

theorem Counts.zero : Counts M 0 0 := ⟨Nat.ModEq.refl 0, fun _ => rfl⟩

/-- Two counters together count what each of them counts. -/
theorem Counts.add {a b n m : ℕ} (ha : Counts M a n) (hb : Counts M b m) :
    Counts M (a + b) (n + m) where
  modEq := ha.modEq.add hb.modEq
  eq h := by
    rw [ha.eq (by omega), hb.eq (by omega)]

/-- A family of counters counts together what each of them counts. -/
theorem Counts.sum {ι : Type} [Fintype ι] {f n : ι → ℕ} (h : ∀ i, Counts M (f i) (n i)) :
    Counts M (∑ i, f i) (∑ i, n i) := by
  classical
  refine Finset.induction_on (Finset.univ : Finset ι) ?_ ?_
  · rw [Finset.sum_empty, Finset.sum_empty]
    exact Counts.zero
  · intro i s hi ih
    rw [sum_insert hi, sum_insert hi]
    exact (h i).add ih

end Tally
