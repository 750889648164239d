import Mathlib.Data.Nat.Count
import Mathlib.Algebra.BigOperators.Group.Finset.Piecewise
import Mathlib.Order.Interval.Finset.Nat

/-!
# Arrivals at places with limited room

Something arrives at one place after another (`key`). A place takes what arrives as
long as it has room. How many have been let in by then (`admitted`) is a sum over the
places: each has taken what has arrived there, up to its room. One more arrival is let
in exactly if fewer have come to its place before than the place has room
(`admitted_succ`).
-/

open Finset

namespace Admission

variable {κ : Type*} [DecidableEq κ] (key : ℕ → κ) (room : κ → ℕ)

/-- How many of the first `n` arrivals come to a place. -/
def arrivals (n : ℕ) (k : κ) : ℕ := Nat.count (fun i => key i = k) n

/-- **How many of the first `n` arrivals are let in.** -/
def admitted (n : ℕ) : ℕ := ∑ k ∈ (Finset.range n).image key, min (arrivals key n k) (room k)

@[simp] theorem arrivals_zero (k : κ) : arrivals key 0 k = 0 := Nat.count_zero _

theorem arrivals_succ (n : ℕ) (k : κ) :
    arrivals key (n + 1) k = arrivals key n k + if key n = k then 1 else 0 :=
  Nat.count_succ _ n

theorem arrivals_mono {n m : ℕ} (h : n ≤ m) (k : κ) : arrivals key n k ≤ arrivals key m k :=
  Nat.count_monotone _ h

/-- Nothing has come to a place that is no place of an arrival. -/
theorem arrivals_eq_zero {n : ℕ} {k : κ} (h : k ∉ (range n).image key) :
    arrivals key n k = 0 :=
  Nat.count_iff_forall_not.mpr fun i hi hk =>
    h (mem_image.mpr ⟨i, mem_range.mpr hi, hk⟩)

/-- Where arrivals at one place are in one block of `b`, at most `b` come to a place. -/
theorem arrivals_le_of_blocks {b : ℕ} (n : ℕ) (k : κ)
    (h : ∀ i < n, ∀ j < n, key i = key j → i / b = j / b) (hb : 0 < b) : arrivals key n k ≤ b := by
  by_cases hk : ∃ i < n, key i = k
  · obtain ⟨i, hi, rfl⟩ := hk
    have hsub : (range n).filter (fun j => key j = key i) ⊆
        Finset.Ico (b * (i / b)) (b * (i / b) + b) := by
      intro j hj
      obtain ⟨hjn, hkey⟩ := mem_filter.mp hj
      have hblock := h j (mem_range.mp hjn) i hi hkey
      have hdiv := Nat.div_add_mod j b
      have hmod := Nat.mod_lt j hb
      rw [hblock] at hdiv
      exact mem_Ico.mpr (by omega)
    rw [arrivals, Nat.count_eq_card_filter_range]
    refine (card_le_card hsub).trans (le_of_eq ?_)
    rw [Nat.card_Ico, Nat.add_sub_cancel_left]
  · rw [arrivals_eq_zero key fun hmem => ?_]
    · exact Nat.zero_le b
    · obtain ⟨i, hi, hkey⟩ := mem_image.mp hmem
      exact hk ⟨i, mem_range.mp hi, hkey⟩

@[simp] theorem admitted_zero : admitted key room 0 = 0 := by simp [admitted]

/-- One more arrival is let in while its place has room. -/
theorem admitted_succ (n : ℕ) :
    admitted key room (n + 1) =
      admitted key room n + if arrivals key n (key n) < room (key n) then 1 else 0 := by
  have hwide : admitted key room n =
      ∑ k ∈ (range (n + 1)).image key, min (arrivals key n k) (room k) := by
    refine sum_subset (image_subset_image
      (range_subset_range.mpr (Nat.le_succ n))) fun k _ hk => ?_
    rw [arrivals_eq_zero key hk, Nat.zero_min]
  have hterm : ∀ k, min (arrivals key (n + 1) k) (room k) = min (arrivals key n k) (room k) +
      if key n = k then (if arrivals key n (key n) < room (key n) then 1 else 0) else 0 := by
    intro k
    rw [arrivals_succ]
    by_cases hk : key n = k
    · subst hk
      simp only [if_pos]
      split <;> omega
    · simp only [if_neg hk, Nat.add_zero]
  have hmem : key n ∈ (range (n + 1)).image key :=
    mem_image_of_mem key (self_mem_range_succ n)
  rw [admitted, sum_congr rfl fun k _ => hterm k, sum_add_distrib,
    sum_ite_eq, if_pos hmem, hwide]

theorem admitted_le (n : ℕ) : admitted key room n ≤ n := by
  induction n with
  | zero => simp
  | succ n ih =>
    rw [admitted_succ]
    split <;> omega

/-- All are let in where each place has room for all that arrive there. -/
theorem admitted_eq_of_fits {n : ℕ} (h : ∀ k, arrivals key n k ≤ room k) {m : ℕ} (hm : m ≤ n) :
    admitted key room m = m := by
  induction m with
  | zero => exact admitted_zero key room
  | succ m ih =>
    have hroom : arrivals key m (key m) < room (key m) := by
      have hmore := arrivals_mono key hm (key m)
      rw [arrivals_succ, if_pos rfl] at hmore
      exact lt_of_lt_of_le (Nat.lt_of_succ_le hmore) (h (key m))
    rw [admitted_succ, ih (Nat.le_of_succ_le hm), if_pos hroom]

end Admission
