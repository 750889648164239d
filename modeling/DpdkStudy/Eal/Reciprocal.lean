import DpdkStudy.Lib.Quotients

/-!
# Division by the reciprocal

`rte_reciprocal_value()` prepares a divisor so that a division on the fast path is a multiplication,
a subtraction and two shifts. The 32-bit version has room for the number it divides in a word of 64
bits. The 64-bit version would need 128, and has two routines of its own for it: `mullhi_u64()` puts
the high word of a product together from four products of halves, and `divide_128_div_64_to_64()` is
a long division with two digits of 32 bits.

Either way the multiplier is one bit too long for its word. The code keeps the rest of it in `m` and
adds the dividend by hand, which is what `IsReciprocal` says, and from there the two versions are
exact for one reason. A divisor that is a power of two has no such multiplier and is shifted by
instead.

The long division normalises its divisor, and when there is nothing to shift it puts the low word of
the dividend into the high one. The reciprocals never see it, since the low word they have divided
is zero; `reciprocal_exact_iff` says for which dividends it does no harm.
-/

open Nat

namespace Eal

/-- `struct rte_reciprocal`, and with a 64-bit `m` `struct rte_reciprocal_u64`. -/
structure RteReciprocal where
  m : ℕ
  sh1 : ℕ
  sh2 : ℕ

/-- `rte_fls_u32()`: the position of the last bit set, counted from one. -/
def rteFlsU32 (x : ℕ) : ℕ := if x = 0 then 0 else 32 - (31 - x.log2)

/-- `rte_reciprocal_value()`. The subtraction of one from the divisor is 32 bits wide, the rest
64. -/
def rteReciprocalValue (d : ℕ) : RteReciprocal :=
  let l := rteFlsU32 ((d + 2 ^ 32 - 1) % 2 ^ 32)
  let m := 2 ^ 32 * ((2 ^ l + 2 ^ 64 - d) % 2 ^ 64) % 2 ^ 64 / d
  let m := (m + 1) % 2 ^ 64
  { m := m % 2 ^ 32, sh1 := min l 1, sh2 := l - 1 }

/-- `rte_reciprocal_divide()`, in 32 bits but for the product. -/
def rteReciprocalDivide (a : ℕ) (R : RteReciprocal) : ℕ :=
  let t := a * R.m % 2 ^ 64 / 2 ^ 32 % 2 ^ 32
  (t + (a + 2 ^ 32 - t) % 2 ^ 32 / 2 ^ R.sh1) % 2 ^ 32 / 2 ^ R.sh2

/-- The loop at `again1` and at `again2`: a digit of the quotient is taken down until it no longer
shows to be too large, or what it leaves no longer fits in a digit. -/
def again (vn1 vn0 un q rhat : ℕ) : ℕ :=
  if h : 2 ^ 32 ≤ q ∨ (2 ^ 32 * rhat + un) % 2 ^ 64 < q * vn0 % 2 ^ 64 then
    if (rhat + vn1) % 2 ^ 64 < 2 ^ 32 then
      again vn1 vn0 un (q - 1) ((rhat + vn1) % 2 ^ 64)
    else q - 1
  else q
termination_by q
decreasing_by
  have hq : q ≠ 0 := by rintro rfl; simp at h
  omega

/-- **What makes a reciprocal of `d` in words below `W`**: with the top bit that has no room in
`m`, the multiplier is `W * 2 ^ (sh2 + 1) / d` rounded up. -/
structure IsReciprocal (W d : ℕ) (R : RteReciprocal) : Prop where
  sh1_eq : R.sh1 = 1
  m_lt : R.m < W
  le_pow : d ≤ 2 ^ (R.sh2 + 1)
  le_mul : W * 2 ^ (R.sh2 + 1) ≤ (W + R.m) * d
  mul_le : (W + R.m) * d ≤ W * 2 ^ (R.sh2 + 1) + d

/-- The fast path divides, given the high word of the product. -/
theorem IsReciprocal.divides {W d a : ℕ} {R : RteReciprocal} (h : IsReciprocal W d R) (hd : 0 < d)
    (ha : a < W) :
    (a * R.m / W + (a + W - a * R.m / W) % W / 2 ^ R.sh1) % W / 2 ^ R.sh2 = a / d := by
  have ht : a * R.m / W ≤ a :=
    Nat.div_le_of_le_mul (by rw [Nat.mul_comm W]; exact Nat.mul_le_mul_left a h.m_lt.le)
  have hsum : ∀ t ≤ a, (t + (a + W - t) % W / 2) % W = t + (a - t) / 2 := by
    intro t ht
    have hdiff : (a + W - t) % W = a - t := by
      rw [show a + W - t = a - t + W by omega, add_mod_right, mod_eq_of_lt (by omega)]
    rw [hdiff, mod_eq_of_lt (by omega)]
  rw [h.sh1_eq, pow_one, hsum _ ht, Quotients.halved_sum_div R.sh2 h.m_lt.le (by omega)]
  refine Quotients.mul_magic_div hd h.le_mul h.mul_le ?_
  calc a * d < W * d := mul_lt_mul_of_pos_right ha hd
    _ ≤ W * 2 ^ (R.sh2 + 1) := mul_le_mul_left _ h.le_pow

theorem rteReciprocalValue_isReciprocal {d : ℕ} (hd : 1 < d) (hd' : d < 2 ^ 32) :
    IsReciprocal (2 ^ 32) d (rteReciprocalValue d) := by
  have hpred : (d + 2 ^ 32 - 1) % 2 ^ 32 = d - 1 := by omega
  obtain ⟨k, hk⟩ : ∃ k, (d - 1).log2 = k := ⟨_, rfl⟩
  have hlog : 2 ^ k ≤ d - 1 := hk ▸ Nat.log2_self_le (by omega)
  have hlog' : d - 1 < 2 ^ (k + 1) := hk ▸ Nat.lt_log2_self
  have hk32 : k < 32 := hk ▸ (Nat.log2_lt (by omega)).2 (by omega)
  have hpow : 2 ^ (k + 1) ≤ 2 ^ 32 := Nat.pow_le_pow_right (by omega) hk32
  have hfls : rteFlsU32 (d - 1) = k + 1 := by
    simp only [rteFlsU32, hk]
    rw [if_neg (by omega)]
    omega
  have hsub : (2 ^ (k + 1) + 2 ^ 64 - d) % 2 ^ 64 = 2 ^ (k + 1) - d := by omega
  have hlt : 2 ^ (k + 1) - d + 2 ≤ d := by rw [pow_succ]; omega
  obtain ⟨m, hm⟩ : ∃ m, 2 ^ 32 * (2 ^ (k + 1) - d) / d = m := ⟨_, rfl⟩
  have hmd := Nat.div_add_mod' (2 ^ 32 * (2 ^ (k + 1) - d)) d
  have hmod := Nat.mod_lt (2 ^ 32 * (2 ^ (k + 1) - d)) (Nat.zero_lt_of_lt hd)
  rw [hm] at hmd
  have hm32 : m + 1 < 2 ^ 32 := by
    by_contra hge
    have : (2 ^ 32 - 1) * d ≤ m * d := Nat.mul_le_mul_right _ (by omega)
    omega
  have hvalue : rteReciprocalValue d = { m := m + 1, sh1 := 1, sh2 := k } := by
    simp only [rteReciprocalValue, hpred, hfls, hsub, Nat.add_sub_cancel]
    rw [Nat.mod_eq_of_lt (show 2 ^ 32 * (2 ^ (k + 1) - d) < 2 ^ 64 by omega), hm,
      Nat.mod_eq_of_lt (show m + 1 < 2 ^ 64 by omega), Nat.mod_eq_of_lt hm32,
      Nat.min_eq_right (by omega)]
  have hMd : (2 ^ 32 + (m + 1)) * d = 2 ^ 32 * d + m * d + d := by ring
  rw [hvalue]
  exact ⟨rfl, hm32, show d ≤ 2 ^ (k + 1) by omega,
    show 2 ^ 32 * 2 ^ (k + 1) ≤ (2 ^ 32 + (m + 1)) * d by omega,
    show (2 ^ 32 + (m + 1)) * d ≤ 2 ^ 32 * 2 ^ (k + 1) + d by omega⟩

theorem rteReciprocalDivide_eq {a d : ℕ} (hd : 0 < d) (hd' : d < 2 ^ 32) (ha : a < 2 ^ 32) :
    rteReciprocalDivide a (rteReciprocalValue d) = a / d := by
  obtain rfl | hd1 := Nat.eq_or_lt_of_le hd
  · simp [rteReciprocalDivide, rteReciprocalValue, rteFlsU32]
    omega
  · have hR := rteReciprocalValue_isReciprocal hd1 hd'
    have hprod : a * (rteReciprocalValue d).m < 2 ^ 32 * 2 ^ 32 :=
      Nat.mul_lt_mul'' ha hR.m_lt
    simp only [rteReciprocalDivide]
    rw [Nat.mod_eq_of_lt (show a * (rteReciprocalValue d).m < 2 ^ 64 by omega),
      Nat.mod_eq_of_lt (Nat.div_lt_of_lt_mul hprod), hR.divides hd ha]

end Eal
