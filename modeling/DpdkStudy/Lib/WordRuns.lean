import Mathlib.Data.Nat.Bitwise
import Mathlib.Data.Nat.Notation
import Mathlib.Tactic.SplitIfs

/-!
# Runs of bits in words

A long sequence of bits is kept in words of 64. A run of bits that are set is found within a
word by anding the word with itself, shifted: after `m` times the bits that are left are those
at which a run of `m + 1` begins, or ends. Here are the bits of such words and sequences.
-/

namespace WordRuns

/-- A bit of a sequence of words. -/
def bitAt (w : ℕ → BitVec 64) (i : ℕ) : Bool := (w (i / 64)).getLsbD (i % 64)

theorem bitAt_add {w : ℕ → BitVec 64} {k q : ℕ} (hq : q < 64) :
    bitAt w (64 * k + q) = (w k).getLsbD q := by
  rw [bitAt, Nat.mul_add_div (by decide), Nat.div_eq_of_lt hq, Nat.add_zero, Nat.mul_add_mod,
    Nat.mod_eq_of_lt hq]

/-- **The bits at which a run begins**: the word is anded with itself, shifted to the right. -/
def runsRight : ℕ → BitVec 64 → BitVec 64
  | 0, v => v
  | m + 1, v => runsRight m (v &&& v >>> 1)

/-- **The bits at which a run ends**: the word is anded with itself, shifted to the left. -/
def runsLeft : ℕ → BitVec 64 → BitVec 64
  | 0, v => v
  | m + 1, v => runsLeft m (v &&& v <<< 1)

theorem getLsbD_runsRight {m i : ℕ} {v : BitVec 64} :
    (runsRight m v).getLsbD i = true ↔ ∀ j ≤ m, v.getLsbD (i + j) = true := by
  induction m generalizing v with
  | zero => simp [runsRight]
  | succ m ih =>
    simp only [runsRight, ih, BitVec.getLsbD_and, BitVec.getLsbD_ushiftRight, Bool.and_eq_true]
    constructor
    · intro h j hj
      rcases Nat.lt_or_ge m j with hlt | hle
      · obtain rfl : j = m + 1 := by omega
        rw [show i + (m + 1) = 1 + (i + m) by omega]
        exact (h m le_rfl).2
      · exact (h j hle).1
    · intro h j hj
      refine ⟨h j (Nat.le_succ_of_le hj), ?_⟩
      rw [show 1 + (i + j) = i + (j + 1) by omega]
      exact h (j + 1) (Nat.succ_le_succ hj)

/-! ## Mirrored words -/

theorem reverse_and_shiftLeft (v : BitVec 64) :
    (v &&& v <<< 1).reverse = v.reverse &&& v.reverse >>> 1 := by
  refine BitVec.eq_of_getLsbD_eq fun i hi => ?_
  simp only [BitVec.getLsbD_and, BitVec.getLsbD_reverse, BitVec.getMsbD_and,
    BitVec.getLsbD_ushiftRight, BitVec.getMsbD_shiftLeft]
  rw [add_comm]

/-- Runs that end are runs that begin, in the mirrored word. -/
theorem runsLeft_eq (m : ℕ) (v : BitVec 64) : runsLeft m v = (runsRight m v.reverse).reverse := by
  induction m generalizing v with
  | zero => exact BitVec.reverse_reverse_eq.symm
  | succ m ih => rw [runsLeft, runsRight, ih, reverse_and_shiftLeft]

theorem reverse_not (v : BitVec 64) : (~~~v).reverse = ~~~v.reverse := by
  refine BitVec.eq_of_getLsbD_eq fun i hi => ?_
  rw [BitVec.getLsbD_reverse, BitVec.getMsbD_not, BitVec.getLsbD_not, BitVec.getLsbD_reverse]

/-! ## The first bit and the last -/

theorem ctz_spec {w : ℕ} {v : BitVec w} (hv : v ≠ 0) : v.ctz.toNat < w ∧
    v.getLsbD v.ctz.toNat = true ∧ ∀ i < v.ctz.toNat, v.getLsbD i = false :=
  ⟨BitVec.lt_of_getLsbD (BitVec.getLsbD_true_ctz_of_ne_zero hv),
    BitVec.getLsbD_true_ctz_of_ne_zero hv, fun _ hi => BitVec.getLsbD_false_of_lt_ctz hi⟩

theorem clz_spec {v : BitVec 64} (hv : v ≠ 0) : v.clz.toNat < 64 ∧
    v.getLsbD (63 - v.clz.toNat) = true ∧
    ∀ i < 64, 63 - v.clz.toNat < i → v.getLsbD i = false := by
  refine ⟨BitVec.clz_lt_iff_ne_zero.mpr hv,
    BitVec.getLsbD_true_clz_of_ne_zero (by decide) hv, fun i hi hlt => ?_⟩
  have hzero := BitVec.getLsbD_false_of_clzAuxRec (x := v) (n := 63)
    (fun i hi => BitVec.getLsbD_of_ge v i (by omega)) (i - (64 - v.clz.toNat))
  rwa [show 64 - (v.clzAuxRec 63).toNat + (i - (64 - v.clz.toNat)) = i from ?_] at hzero
  show 64 - v.clz.toNat + (i - (64 - v.clz.toNat)) = i
  omega

end WordRuns
