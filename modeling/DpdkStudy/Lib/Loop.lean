import Mathlib.Logic.Function.Basic
import Mathlib.Algebra.Group.Nat.Defs

/-!
# Counted loops over arrays

A loop `for (i = 0; i < n; i++)` is `times n`, and its invariant rule is
`times_invariant`. A loop that rewrites the entries of a range of an array
one by one, each from itself alone, is `mapRange`. A loop that counts down is `countdown`, with
`countdown_update` for one that rewrites the entries of an array. An array is
a function of its index.
-/

namespace Loop

variable {σ α : Type*}

/-- `for (i = 0; i < n; i++) s = f(i, s)`. -/
def times : ℕ → (ℕ → σ → σ) → σ → σ
  | 0, _, s => s
  | n + 1, f, s => f n (times n f s)

theorem times_succ (n : ℕ) (f : ℕ → σ → σ) (s : σ) :
    times (n + 1) f s = f n (times n f s) := rfl

/-- **The invariant rule.** What holds before the loop and goes from one
iteration to the next holds after it. -/
theorem times_invariant {n : ℕ} {f : ℕ → σ → σ} {s : σ} (P : ℕ → σ → Prop) (h₀ : P 0 s)
    (hstep : ∀ i < n, ∀ t, P i t → P (i + 1) (f i t)) : P n (times n f s) := by
  induction n with
  | zero => exact h₀
  | succ n ih =>
    exact hstep n (Nat.lt_succ_self n) _ (ih (fun i hi => hstep i (Nat.lt_succ_of_lt hi)))

/-- A loop that stores one entry in each iteration. -/
theorem times_update (g : ℕ → α) (lo n : ℕ) (t : ℕ → α) (k : ℕ) :
    times n (fun i t => Function.update t (lo + i) (g (lo + i))) t k
      = if lo ≤ k ∧ k < lo + n then g k else t k := by
  induction n with
  | zero => exact (if_neg (by omega)).symm
  | succ n ih =>
    rw [times_succ, Function.update_apply, ih]
    split
    · next heq => rw [if_pos (by omega), heq]
    · exact if_congr (by omega) rfl rfl

/-- `for (i = lo; i < lo + n; i++) t[i] = g(t[i])`, entry by entry: an
iteration reads and writes its own entry only. -/
def mapRange (lo n : ℕ) (g : α → α) (t : ℕ → α) : ℕ → α := fun k =>
  if lo ≤ k ∧ k < lo + n then g (t k) else t k

theorem mapRange_of_mem {lo n k : ℕ} (h : lo ≤ k ∧ k < lo + n) (g : α → α) (t : ℕ → α) :
    mapRange lo n g t k = g (t k) := if_pos h

theorem mapRange_of_notMem {lo n k : ℕ} (h : ¬ (lo ≤ k ∧ k < lo + n)) (g : α → α) (t : ℕ → α) :
    mapRange lo n g t k = t k := if_neg h

/-- `for (i = n - 1; i >= 0; i--) s = f(i, s)`. -/
def countdown : ℕ → (ℕ → σ → σ) → σ → σ
  | 0, _, s => s
  | n + 1, f, s => countdown n f (f n s)

/-- **A loop that rewrites each entry of an array from itself** has rewritten
the entries it counted over, and no other. -/
theorem countdown_update (n : ℕ) (g : ℕ → α → α) (t : ℕ → α) (k : ℕ) :
    countdown n (fun i t => Function.update t i (g i (t i))) t k
      = if k < n then g k (t k) else t k := by
  induction n generalizing t with
  | zero => simp [countdown]
  | succ n ih =>
    rw [countdown, ih]
    by_cases hk : k = n
    · subst hk
      simp
    · have hlt : k < n + 1 ↔ k < n := by omega
      simp [Function.update_of_ne hk, hlt]

end Loop
