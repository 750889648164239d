import DpdkStudy.Lib.WordRuns
import Mathlib.Algebra.BigOperators.Intervals
import Mathlib.Algebra.Field.ZMod
import Mathlib.Tactic.Ring

/-!
# Exclusive or as a sum over the field of two elements

A function that is linear over the field of two elements is often computed bit by bit, with an
exclusive or for each bit that is set. Its bits are then sums of products over `ZMod 2`, and there
two orders of the same terms are compared by the lemmas on finite sums.
-/

open Nat Finset WordRuns

namespace BitSums

/-- **A bit as an element of the field of two elements**. -/
def bit (b : Bool) : ZMod 2 :=
  b.toNat

@[simp] theorem bit_false : bit false = 0 := rfl

@[simp] theorem bit_true : bit true = 1 := rfl

@[simp] theorem bit_xor (a b : Bool) : bit (a ^^ b) = bit a + bit b := by
  revert a b
  decide

@[simp] theorem bit_and (a b : Bool) : bit (a && b) = bit a * bit b := by
  revert a b
  decide

theorem bit_inj {a b : Bool} (h : bit a = bit b) : a = b := by
  revert a b
  decide

variable {w : ℕ}

theorem eq_of_bits {x y : BitVec w} (h : ∀ i < w, bit (x.getMsbD i) = bit (y.getMsbD i)) :
    x = y :=
  BitVec.eq_of_getMsbD_eq fun i hi => bit_inj (h i hi)

/-- A fold with exclusive or is a sum, bit by bit. -/
theorem bit_foldl (f : ℕ → BitVec w) (n i : ℕ) :
    bit (((List.range n).foldl (fun r k => r ^^^ f k) 0).getMsbD i)
      = ∑ k ∈ range n, bit ((f k).getMsbD i) := by
  induction n with
  | zero => simp
  | succ n ih =>
    rw [List.range_succ, List.foldl_append, List.foldl_cons, List.foldl_nil, BitVec.getMsbD_xor,
      bit_xor, ih, sum_range_succ]

theorem sum_blocks {R : Type} [AddCommMonoid R] (f : ℕ → R) (m n : ℕ) :
    ∑ k ∈ range n, ∑ b ∈ range m, f (m * k + b) = ∑ p ∈ range (m * n), f p := by
  induction n with
  | zero => simp
  | succ n ih => rw [sum_range_succ, ih, Nat.mul_succ, sum_range_add]

/-! ## The bits that are set -/

theorem toNat_eq_ctz {x : BitVec w} (hx : x ≠ 0) :
    ∃ m, x.toNat = 2 ^ (x.ctz.toNat + 1) * m + 2 ^ x.ctz.toNat := by
  obtain ⟨-, hbit, hbelow⟩ := ctz_spec hx
  refine ⟨x.toNat / 2 ^ (x.ctz.toNat + 1), ?_⟩
  have hmod : x.toNat % 2 ^ (x.ctz.toNat + 1) = 2 ^ x.ctz.toNat := by
    refine Nat.eq_of_testBit_eq fun j => ?_
    rw [testBit_mod_two_pow, testBit_two_pow, BitVec.testBit_toNat]
    rcases lt_trichotomy j x.ctz.toNat with hj | rfl | hj
    · simp [hbelow j hj, hj.ne']
    · simp [hbit]
    · simp [hj.ne, show ¬ j < x.ctz.toNat + 1 by omega]
  rw [← hmod, div_add_mod]

theorem toNat_sub_one {x : BitVec w} (hx : x ≠ 0) : (x - 1#w).toNat = x.toNat - 1 := by
  have hpos := BitVec.toNat_pos_of_ne_zero hx
  have hone : (1#w).toNat = 1 := BitVec.toNat_one (Nat.zero_lt_of_lt (ctz_spec hx).1)
  rw [BitVec.toNat_sub_of_le (BitVec.le_def.mpr (by omega)), hone]

/-- The least bit that is set, and only it, is cleared by `x & (x - 1)`. -/
theorem getLsbD_and_sub_one {x : BitVec w} (hx : x ≠ 0) (i : ℕ) :
    (x &&& (x - 1#w)).getLsbD i = (x.getLsbD i && i ≠ x.ctz.toNat) := by
  obtain ⟨m, hm⟩ := toNat_eq_ctz hx
  generalize x.ctz.toNat = c at hm
  have hpos := Nat.two_pow_pos c
  have hpow : 2 ^ c < 2 ^ (c + 1) := Nat.pow_lt_pow_right (by decide) (by omega)
  have hone : (x - 1#w).toNat = 2 ^ (c + 1) * m + (2 ^ c - 1) := by
    rw [toNat_sub_one hx, hm, Nat.add_sub_assoc hpos]
  rw [BitVec.getLsbD_and, ← BitVec.testBit_toNat, ← BitVec.testBit_toNat, hone, hm,
    testBit_two_pow_mul_add _ hpow, testBit_two_pow_mul_add _ (by omega)]
  split
  · rw [testBit_two_pow, testBit_two_pow_sub_one]
    grind
  · rw [Bool.and_self, decide_eq_true (by omega), Bool.and_true]

theorem and_sub_one_lt {x : BitVec w} (hx : x ≠ 0) : (x &&& (x - 1#w)).toNat < x.toNat := by
  have hpos := BitVec.toNat_pos_of_ne_zero hx
  have hle : x.toNat &&& (x - 1#w).toNat ≤ (x - 1#w).toNat := Nat.and_le_right
  rw [toNat_sub_one hx] at hle
  rw [BitVec.toNat_and, toNat_sub_one hx]
  omega

/-- **The loop over the bits that are set in a word**, from the least on:
`for (map = x; map; map &= map - 1)`. -/
def forSetBits {α : Type} (step : ℕ → α → α) (map : BitVec w) (a : α) : α :=
  if _h : map = 0#w then a
  else forSetBits step (map &&& (map - 1#w)) (step map.ctz.toNat a)
termination_by map.toNat
decreasing_by exact and_sub_one_lt _h

/-- The loop adds what it adds at each bit that is set. -/
theorem bit_forSetBits {v : ℕ} (f : ℕ → BitVec v) (map : BitVec w) (x : BitVec v) (i : ℕ) :
    bit ((forSetBits (fun k r => r ^^^ f k) map x).getMsbD i)
      = bit (x.getMsbD i)
        + ∑ k ∈ range w, bit (map.getLsbD k) * bit ((f k).getMsbD i) := by
  fun_induction forSetBits (fun k r => r ^^^ f k) map x with
  | case1 => simp
  | case2 map x h ih =>
    have hone : ∀ k, bit (map.getLsbD k)
        = bit ((map &&& (map - 1#w)).getLsbD k) + if k = map.ctz.toNat then 1 else 0 := by
      intro k
      by_cases hk : k = map.ctz.toNat
      · simp [getLsbD_and_sub_one h, hk, BitVec.getLsbD_true_ctz_of_ne_zero h]
      · simp [getLsbD_and_sub_one h, hk]
    have hlt := (ctz_spec h).1
    rw [ih]
    simp only [hone, add_mul, ite_mul, one_mul, zero_mul, sum_add_distrib, sum_ite_eq',
      mem_range, hlt, if_true, BitVec.getMsbD_xor, bit_xor]
    ring

end BitSums
