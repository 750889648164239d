import DpdkStudy.Ipsec.Sqn
import Mathlib.Data.Nat.Bitwise
import Mathlib.Data.UInt

/-!
# Extended sequence numbers

A packet carries the low half of its sequence number. The receiver makes up the high half from
the last number that it has seen (`reconstructEsn`). A number that is not below the window, and
less than 2³² above its bottom, is the one that comes out (`reconstructEsn_eq`). The window may be
in one subspace of 2³² numbers or in two, and at the very start there is no subspace before it.
-/

namespace Ipsec

theorem toNat_high (t : UInt64) : (t >>> 32).toUInt32.toNat = t.toNat / 2 ^ 32 := by
  have hlt := t.toNat_lt
  rw [UInt64.toNat_toUInt32, UInt64.toNat_shiftRight]
  show t.toNat >>> 32 % 2 ^ 32 = _
  rw [Nat.shiftRight_eq_div_pow]
  exact Nat.mod_eq_of_lt (Nat.div_lt_of_lt_mul hlt)

/-- A number that is put together from its halves. -/
theorem toNat_high_or_low (high low : UInt32) :
    (high.toUInt64 <<< 32 ||| low.toUInt64).toNat = high.toNat * 2 ^ 32 + low.toNat := by
  have hlow := low.toNat_lt
  have hhigh := high.toNat_lt
  rw [UInt64.toNat_or, UInt64.toNat_shiftLeft, UInt32.toNat_toUInt64, UInt32.toNat_toUInt64]
  show high.toNat <<< 32 % 2 ^ 64 ||| low.toNat = _
  rw [Nat.mod_eq_of_lt (by rw [Nat.shiftLeft_eq]; omega), ← Nat.shiftLeft_add_eq_or_of_lt hlow,
    Nat.shiftLeft_eq]

theorem toNat_sub_add_one {tl w : UInt32} (hw : 1 ≤ w.toNat) (h : w.toNat ≤ tl.toNat + 1) :
    (tl - w + 1).toNat = tl.toNat + 1 - w.toNat := by
  have htl := tl.toNat_lt
  rw [UInt32.toNat_add, UInt32.toNat_sub]
  show ((2 ^ 32 - w.toNat + tl.toNat) % 2 ^ 32 + 1) % 2 ^ 32 = _
  omega

theorem toNat_sub_add_one_of_lt {tl w : UInt32} (h : tl.toNat + 1 < w.toNat) :
    (tl - w + 1).toNat = tl.toNat + 2 ^ 32 + 1 - w.toNat := by
  have hw := w.toNat_lt
  rw [UInt32.toNat_add, UInt32.toNat_sub]
  show ((2 ^ 32 - w.toNat + tl.toNat) % 2 ^ 32 + 1) % 2 ^ 32 = _
  omega

/-- **A reconstructed number** has the high bits of the last one, one more or
one less. -/
theorem reconstructEsn_lt (t : UInt64) (sqn w : UInt32) :
    (reconstructEsn t sqn w).toNat / 64 < t.toNat / 64 + 2 ^ 32 := by
  have hth := toNat_high t
  obtain ⟨th, hle, heq⟩ : ∃ th : UInt32, th.toNat ≤ t.toNat / 2 ^ 32 + 1
      ∧ reconstructEsn t sqn w = th.toUInt64 <<< 32 ||| sqn.toUInt64 := by
    refine ⟨_, ?_, rfl⟩
    rw [← hth]
    generalize (t >>> 32).toUInt32 = th
    split_ifs with hA hbl hzero hbl
    · rw [UInt32.toNat_add]
      exact Nat.mod_le _ _
    · rw [UInt32.toNat_add]
      exact (Nat.mod_le _ _).trans (Nat.le_succ _)
    · have hone : (1 : UInt32) ≤ th := by
        have hne : th.toNat ≠ 0 := fun hc => hzero (UInt32.toNat_inj.mp hc)
        rw [UInt32.le_iff_toNat_le]
        show 1 ≤ th.toNat
        omega
      rw [UInt32.toNat_sub_of_le _ _ hone]
      omega
    · rw [UInt32.sub_zero]
      exact Nat.le_succ _
    · exact Nat.le_succ _
  have hsqn := sqn.toNat_lt
  rw [heq, toNat_high_or_low]
  omega

/-- **The sender's number is recovered**, for a number that is not below the window and less than
2³² above its bottom. -/
theorem reconstructEsn_eq (t S : UInt64) (w : UInt32) (hw : 1 ≤ w.toNat) (hw' : w.toNat ≤ 2 ^ 31)
    (hlow : (t.toNat : ℤ) - w.toNat + 1 ≤ S.toNat)
    (hhigh : (S.toNat : ℤ) ≤ t.toNat - w.toNat + 2 ^ 32) :
    reconstructEsn t S.toUInt32 w = S := by
  have hS := S.toNat_lt
  have htl : t.toUInt32.toNat = t.toNat % 2 ^ 32 := UInt64.toNat_toUInt32 t
  have hsl : S.toUInt32.toNat = S.toNat % 2 ^ 32 := UInt64.toNat_toUInt32 S
  have hth := toNat_high t
  have hw1 : (w - 1).toNat = w.toNat - 1 :=
    UInt32.toNat_sub_of_le _ _ (UInt32.le_iff_toNat_le.mpr hw)
  refine UInt64.toNat_inj.mp ?_
  unfold reconstructEsn
  dsimp only
  rw [toNat_high_or_low, hsl]
  generalize (t >>> 32).toUInt32 = th at *
  generalize t.toUInt32 = tl at *
  have hA : tl ≥ w - 1 ↔ w.toNat ≤ tl.toNat + 1 := by
    rw [ge_iff_le, UInt32.le_iff_toNat_le, hw1]
    omega
  by_cases hcase : w.toNat ≤ tl.toNat + 1
  · -- the window is in one subspace, and the number is in it or in the next one
    have hbl := toNat_sub_add_one hw hcase
    rw [if_pos (hA.mpr hcase)]
    by_cases hsqn : S.toUInt32 < tl - w + 1
    · have hnat := UInt32.lt_iff_toNat_lt.mp hsqn
      rw [if_pos hsqn, UInt32.toNat_add]
      show (th.toNat + 1) % 2 ^ 32 * 2 ^ 32 + _ = _
      omega
    · have hnat := mt UInt32.lt_iff_toNat_lt.mpr hsqn
      rw [if_neg hsqn, UInt32.add_zero]
      omega
  · have hbl := toNat_sub_add_one_of_lt (not_le.mp hcase)
    rw [if_neg (mt hA.mp hcase)]
    by_cases hzero : th = 0
    · -- there is no subspace before the first one
      rw [if_neg (not_not.mpr hzero)]
      rw [hzero] at hth ⊢
      show 0 * 2 ^ 32 + _ = _
      have hth0 : 0 = t.toNat / 2 ^ 32 := hth
      omega
    · -- the window is in two subspaces, and the number is in the first one or in the second
      rw [if_pos hzero]
      have hpos : (1 : UInt32) ≤ th := UInt32.le_iff_toNat_le.mpr
        (Nat.one_le_iff_ne_zero.mpr fun hc => hzero (UInt32.toNat_inj.mp hc))
      by_cases hsqn : S.toUInt32 ≥ tl - w + 1
      · have hnat := UInt32.le_iff_toNat_le.mp hsqn
        rw [if_pos hsqn, UInt32.toNat_sub_of_le _ _ hpos]
        show (th.toNat - 1) * 2 ^ 32 + _ = _
        have hone : 1 ≤ th.toNat := UInt32.le_iff_toNat_le.mp hpos
        omega
      · have hnat := mt UInt32.le_iff_toNat_le.mpr hsqn
        rw [if_neg hsqn, UInt32.sub_zero]
        omega

/-- The window is in two subspaces, and the number is in the first one. -/
theorem reconstructEsn_eq_straddle :
    reconstructEsn (2 ^ 32 + 5) (UInt64.toUInt32 (2 ^ 32 - 3)) 64 = 2 ^ 32 - 3 :=
  reconstructEsn_eq (2 ^ 32 + 5) (2 ^ 32 - 3) 64 (by decide) (by decide) (by decide) (by decide)

end Ipsec
