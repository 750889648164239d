import Mathlib.Data.Nat.Bitwise
import Mathlib.Data.Nat.Log
import DpdkStudy.Lib.Ring
import DpdkStudy.Lib.Runs
import DpdkStudy.Ipsec.Esn

/-!
# The anti-replay window

The window is a ring of buckets, and a bucket has a bit for each of 64
numbers. The bits of the buckets that the ring holds say which numbers have
been accepted (`Shows`), for the numbers in the lower half of a bucket: the
update keeps the bit of a number in a variable of 32 bits, so a number in the
upper half of a bucket leaves no mark.

A number is judged by its bit where its bucket is one of those that the ring
holds, and the ring need not hold all of the window: it has as many buckets
as the window has, and no bucket more for a window that does not start at a
bucket. `Judged` says which numbers are judged right; for runs of these a
number is accepted exactly if it was not accepted before and is not below the
window (`accepts_iff`).
-/

open Function Nat

namespace Ipsec

open Runs

/-! ## Sizes -/

/-- The bits of `x`, each spread over the `m - 1` places below it. -/
def Spread (x y m : ℕ) : Prop :=
  ∀ i, y.testBit i = true ↔ ∃ j < m, x.testBit (i + j) = true

/-- A shift by as many places spreads the bits over twice as many. -/
theorem Spread.double {x y m : ℕ} (h : Spread x y m) : Spread x (y ||| y >>> m) (2 * m) := by
  intro i
  rw [testBit_or, testBit_shiftRight, Bool.or_eq_true, h i, h (m + i)]
  constructor
  · rintro (⟨j, hj, hx⟩ | ⟨j, hj, hx⟩)
    · exact ⟨j, by omega, hx⟩
    · refine ⟨m + j, by omega, ?_⟩
      rw [show i + (m + j) = m + i + j by omega]
      exact hx
  · rintro ⟨j, hj, hx⟩
    by_cases hlt : j < m
    · exact Or.inl ⟨j, hlt, hx⟩
    · refine Or.inr ⟨j - m, by omega, ?_⟩
      rw [show m + i + (j - m) = i + j by omega]
      exact hx

/-- The bits are spread over all the places below them. -/
theorem spread_rteCombine32ms1b (x : UInt32) : Spread x.toNat (rteCombine32ms1b x).toNat 32 := by
  have hself : Spread x.toNat x.toNat 1 := by
    intro i
    constructor
    · exact fun h => ⟨0, by decide, h⟩
    · rintro ⟨j, hj, h⟩
      rw [lt_one_iff.mp hj] at h
      exact h
  have hall := hself.double.double.double.double.double
  unfold rteCombine32ms1b
  simp only [UInt32.toNat_or, UInt32.toNat_shiftRight]
  exact hall

/-- The bits up to the highest one are set, and no others. -/
theorem toNat_rteCombine32ms1b_of_ne_zero {x : UInt32} (hzero : x.toNat ≠ 0) :
    (rteCombine32ms1b x).toNat = 2 ^ (x.toNat.log2 + 1) - 1 := by
  have hlog : x.toNat.log2 < 32 := (log2_lt hzero).mpr x.toNat_lt
  refine eq_of_testBit_eq (fun i => ?_)
  rw [Bool.eq_iff_iff, spread_rteCombine32ms1b x i, testBit_two_pow_sub_one,
    decide_eq_true_iff]
  constructor
  · rintro ⟨j, -, hx⟩
    by_contra hgt
    have hlt : x.toNat < 2 ^ (i + j) :=
      lt_of_lt_of_le Nat.lt_log2_self (Nat.pow_le_pow_right (by decide) (by omega))
    rw [testBit_lt_two_pow hlt] at hx
    cases hx
  · intro hi
    refine ⟨x.toNat.log2 - i, by omega, ?_⟩
    rw [show i + (x.toNat.log2 - i) = x.toNat.log2 by omega]
    exact testBit_log2 hzero

/-- The bits below a power of two are set, and no others. -/
theorem toNat_rteCombine32ms1b (x : UInt32) :
    ∃ k ≤ 32, (rteCombine32ms1b x).toNat = 2 ^ k - 1 := by
  by_cases hzero : x.toNat = 0
  · refine ⟨0, by decide, eq_of_testBit_eq (fun i => ?_)⟩
    rw [Bool.eq_iff_iff, spread_rteCombine32ms1b x i, hzero]
    simp
  · have hlog : x.toNat.log2 < 32 := (log2_lt hzero).mpr x.toNat_lt
    exact ⟨x.toNat.log2 + 1, by omega, toNat_rteCombine32ms1b_of_ne_zero hzero⟩

/-- `rte_align32pow2` returns a power of two, or wraps. -/
theorem rteAlign32pow2_eq (x : UInt32) (hx : rteAlign32pow2 x ≠ 0) :
    ∃ k, (rteAlign32pow2 x).toNat = 2 ^ k := by
  obtain ⟨k, hk, hcombine⟩ := toNat_rteCombine32ms1b (x - 1)
  have hpos := Nat.two_pow_pos k
  have hadd : (rteAlign32pow2 x).toNat = 2 ^ k % 2 ^ 32 := by
    rw [rteAlign32pow2, UInt32.toNat_add, hcombine]
    show (2 ^ k - 1 + 1) % 2 ^ 32 = _
    rw [Nat.sub_add_cancel hpos]
  have hne : k ≠ 32 := by
    rintro rfl
    rw [Nat.mod_self] at hadd
    exact hx (UInt32.toNat_inj.mp hadd)
  exact ⟨k, hadd.trans (Nat.mod_eq_of_lt (Nat.pow_lt_pow_right (by decide) (by omega)))⟩

/-- The next power of two, of a number that is not too big. -/
theorem toNat_rteAlign32pow2 {x : UInt32} {m : ℕ} (hpos : 0 < x.toNat) (hx : x.toNat ≤ 2 ^ m)
    (hm : m < 32) : ∃ k ≤ m, (rteAlign32pow2 x).toNat = 2 ^ k ∧ x.toNat ≤ 2 ^ k := by
  have hpred : (x - 1).toNat = x.toNat - 1 :=
    UInt32.toNat_sub_of_le _ _ (UInt32.le_iff_toNat_le.mpr hpos)
  have hlt : 2 ^ m < 2 ^ 32 := Nat.pow_lt_pow_right (by decide) hm
  by_cases hone : x.toNat = 1
  · have hx1 : x = 1 := UInt32.toNat_inj.mp hone
    subst hx1
    exact ⟨0, zero_le m, by decide, by decide⟩
  · have hzero : (x - 1).toNat ≠ 0 := by omega
    have hcombine := toNat_rteCombine32ms1b_of_ne_zero hzero
    have hself := lt_log2_self (n := (x - 1).toNat)
    have hlog : (x - 1).toNat.log2 < m := (log2_lt hzero).mpr (by omega)
    have hle : 2 ^ ((x - 1).toNat.log2 + 1) ≤ 2 ^ m := Nat.pow_le_pow_right (by decide) hlog
    refine ⟨(x - 1).toNat.log2 + 1, hlog, ?_, by omega⟩
    rw [rteAlign32pow2, UInt32.toNat_add, hcombine]
    change (2 ^ ((x - 1).toNat.log2 + 1) - 1 + 1) % 2 ^ 32 = _
    rw [Nat.sub_add_cancel (Nat.two_pow_pos _), Nat.mod_eq_of_lt (by omega)]

/-- The number of buckets is a power of two, of two buckets at least. -/
theorem replayNumBucket_spec (wsz : UInt32) :
    ∃ k, 1 ≤ k ∧ k < 32 ∧ (replayNumBucket wsz).toNat = 2 ^ k := by
  unfold replayNumBucket rteAlign32pow2
  dsimp only
  generalize (wsz + 64 - 1) / 64 * 64 / 64 - 1 = x
  obtain ⟨j, hj, hx⟩ := toNat_rteCombine32ms1b x
  have hpos := Nat.two_pow_pos j
  have hadd : (rteCombine32ms1b x + 1).toNat = 2 ^ j % 2 ^ 32 := by
    rw [UInt32.toNat_add, hx]
    show (2 ^ j - 1 + 1) % 2 ^ 32 = _
    rw [Nat.sub_add_cancel hpos]
  show ∃ k, 1 ≤ k ∧ k < 32 ∧ (if rteCombine32ms1b x + 1 ≤ 2 then (2 : UInt32)
    else rteCombine32ms1b x + 1).toNat = 2 ^ k
  by_cases hle : rteCombine32ms1b x + 1 ≤ 2
  · exact ⟨1, by decide, by decide, by rw [if_pos hle]; rfl⟩
  · rw [if_neg hle, hadd]
    have hge : 2 < (rteCombine32ms1b x + 1).toNat := UInt32.not_le.mp hle
    rw [hadd] at hge
    have hlt : j < 32 := by
      by_contra hc
      rw [show j = 32 by omega, Nat.mod_self] at hge
      omega
    have hmod : 2 ^ j % 2 ^ 32 = 2 ^ j := Nat.mod_eq_of_lt (Nat.pow_lt_pow_right (by decide) hlt)
    rw [hmod] at hge ⊢
    refine ⟨j, ?_, hlt, rfl⟩
    by_contra hc
    rw [show j = 0 by omega] at hge
    omega

/-- The number of buckets of a window that is accepted. -/
theorem ipsecSaSize_spec {esn : Bool} {wndSz w n : UInt32}
    (h : ipsecSaSize true esn wndSz = some (w, n)) (hw : w ≠ 0) :
    ∃ k, 1 ≤ k ∧ k ≤ 15 ∧ n.toNat = 2 ^ k := by
  unfold ipsecSaSize at h
  dsimp only at h
  rw [if_pos rfl] at h
  generalize (if ¬ esn = true then wndSz else max wndSz 64) = wsz at h
  by_cases hbig : (if true = true ∧ wsz ≠ 0 then replayNumBucket wsz else 0) > 32768
  · rw [if_pos hbig] at h
    cases h
  · rw [if_neg hbig] at h
    obtain ⟨rfl, rfl⟩ := Prod.mk.inj (Option.some.inj h)
    rw [if_pos ⟨rfl, hw⟩] at hbig ⊢
    obtain ⟨k, hk, -, hnb⟩ := replayNumBucket_spec wsz
    refine ⟨k, hk, ?_, hnb⟩
    have hle : (replayNumBucket wsz).toNat ≤ 32768 := UInt32.not_lt.mp hbig
    by_contra hgt
    have hpow : 2 ^ 16 ≤ 2 ^ k := Nat.pow_le_pow_right (by decide) (by omega)
    omega

/-! ## Bits -/

theorem toNat_shiftLeft_one (sqn : UInt64) :
    ((1 : UInt64) <<< (sqn &&& 63)).toNat = 2 ^ (sqn.toNat % 64) := by
  have hall : ∀ k : Fin 64, ((1 : UInt64) <<< UInt64.ofNat k.val).toNat = 2 ^ k.val := by decide
  have hand : sqn &&& 63 = UInt64.ofNat (sqn.toNat % 64) := by
    refine UInt64.toNat_inj.mp ?_
    rw [UInt64.toNat_and, UInt64.toNat_ofNat_of_lt' (by show _ < 2 ^ 64; omega)]
    exact and_two_pow_sub_one_eq_mod sqn.toNat 6
  rw [hand]
  exact hall ⟨sqn.toNat % 64, mod_lt _ (by decide)⟩

/-- **The bit of a number, cut to 32 bits**: nothing is left of it in the
upper half of a bucket. -/
theorem toNat_cut_bit (sqn : UInt64) :
    ((1 : UInt64) <<< (sqn &&& 63)).toUInt32.toUInt64.toNat
      = if sqn.toNat % 64 < 32 then 2 ^ (sqn.toNat % 64) else 0 := by
  have hall : ∀ k : Fin 64, 2 ^ k.val % 2 ^ 32 = if k.val < 32 then 2 ^ k.val else 0 := by decide
  rw [UInt32.toNat_toUInt64, UInt64.toNat_toUInt32, toNat_shiftLeft_one]
  exact hall ⟨sqn.toNat % 64, mod_lt _ (by decide)⟩

/-- A bit of a word that is ored with the bit of a number. -/
theorem testBit_or_cut_bit (word sqn : UInt64) (j : ℕ) :
    (word ||| ((1 : UInt64) <<< (sqn &&& 63)).toUInt32.toUInt64).toNat.testBit j = true
      ↔ word.toNat.testBit j = true ∨ (sqn.toNat % 64 < 32 ∧ j = sqn.toNat % 64) := by
  rw [UInt64.toNat_or, testBit_or, Bool.or_eq_true, toNat_cut_bit]
  refine or_congr Iff.rfl ?_
  by_cases hlow : sqn.toNat % 64 < 32
  · rw [if_pos hlow, testBit_two_pow, decide_eq_true_iff]
    constructor
    · exact fun h => ⟨hlow, h.symm⟩
    · exact fun h => h.2.symm
  · rw [if_neg hlow, zero_testBit]
    exact iff_of_false Bool.false_ne_true (fun h => hlow h.1)

/-- A word has the bit of a number, as the update reads it. -/
theorem and_cut_bit_ne_zero (word sqn : UInt64) :
    word &&& ((1 : UInt64) <<< (sqn &&& 63)).toUInt32.toUInt64 ≠ 0
      ↔ sqn.toNat % 64 < 32 ∧ word.toNat.testBit (sqn.toNat % 64) = true := by
  rw [ne_eq, ← UInt64.toNat_inj, UInt64.toNat_and, toNat_cut_bit]
  by_cases hlow : sqn.toNat % 64 < 32
  · rw [if_pos hlow, and_two_pow]
    cases word.toNat.testBit (sqn.toNat % 64) with
    | false => simp
    | true => simp [hlow]
  · rw [if_neg hlow, and_zero]
    exact iff_of_false (fun h => h rfl) (fun h => hlow h.1)

/-- A word has the bit of a number, as the check reads it. -/
theorem and_bit_ne_zero (word sqn : UInt64) :
    word &&& ((1 : UInt64) <<< (sqn &&& 63)) ≠ 0
      ↔ word.toNat.testBit (sqn.toNat % 64) = true := by
  rw [ne_eq, ← UInt64.toNat_inj, UInt64.toNat_and, toNat_shiftLeft_one, and_two_pow]
  cases word.toNat.testBit (sqn.toNat % 64) with
  | false => simp
  | true => simp

/-! ## What the window shows -/

/-- **The ring has `2 ^ k` buckets.** -/
structure HasBuckets (sa : RteIpsecSa) (k : ℕ) : Prop where
  le : k ≤ 15
  nbBucket : sa.replay.nbBucket.toNat = 2 ^ k
  mask : sa.replay.bucketIndexMask.toNat = 2 ^ k - 1

/-- **The window shows which numbers have been accepted**: the buckets of the
ring have the bits of the accepted numbers in their lower halves, and none in
their upper halves. -/
structure Shows (k : ℕ) (rsn : ReplaySqn) (accepted : List ℕ) : Prop where
  le : ∀ n ∈ accepted, n ≤ rsn.sqn.toNat
  bits : ∀ b, b ≤ rsn.sqn.toNat / 64 → rsn.sqn.toNat / 64 < b + 2 ^ k → ∀ j < 32,
    (rsn.window (b % 2 ^ k)).toNat.testBit j = true ↔ 64 * b + j ∈ accepted
  upper : ∀ slot j, 32 ≤ j → (rsn.window slot).toNat.testBit j = false

/-- **The ring judges a number right**: a number below the window is turned
down for that; any other must not be zero and must not wrap with the size of
the window, its bucket must be one of those the ring holds, and a number that
leaves no mark must not come again. -/
def Judged (sa : RteIpsecSa) (rsn : ReplaySqn) (accepted : List ℕ) (n : ℕ) : Prop :=
  n + sa.replay.winSz.toNat < rsn.sqn.toNat
    ∨ (n ≠ 0 ∧ n + sa.replay.winSz.toNat < 2 ^ 64
      ∧ (n % 64 < 32 → rsn.sqn.toNat / 64 < n / 64 + sa.replay.nbBucket.toNat)
      ∧ (32 ≤ n % 64 → n ∉ accepted))

section Window

variable {sa : RteIpsecSa} {k : ℕ} {rsn : ReplaySqn} {accepted : List ℕ}

theorem HasBuckets.slot (hsa : HasBuckets sa k) (b : UInt32) :
    (b &&& sa.replay.bucketIndexMask.toUInt32).toNat = b.toNat % 2 ^ k := by
  rw [UInt32.toNat_and, UInt16.toNat_toUInt32, hsa.mask, Ring.land_mask_eq_mod]

theorem toNat_bucket (sqn : UInt64) : (sqn >>> 6).toUInt32.toNat = sqn.toNat / 64 % 2 ^ 32 := by
  rw [UInt64.toNat_toUInt32, UInt64.toNat_shiftRight]
  show sqn.toNat >>> 6 % 2 ^ 32 = _
  rw [shiftRight_eq_div_pow]

/-- The length of the ring divides the numbers of 32 bits. -/
theorem HasBuckets.mod_mod (hsa : HasBuckets sa k) (a : ℕ) : a % 2 ^ 32 % 2 ^ k = a % 2 ^ k := by
  have hle := hsa.le
  exact mod_mod_of_dvd a (pow_dvd_pow 2 (show k ≤ 32 by omega))

theorem HasBuckets.slot_number (hsa : HasBuckets sa k) (sqn : UInt64) :
    ((sqn >>> 6).toUInt32 &&& sa.replay.bucketIndexMask.toUInt32).toNat
      = sqn.toNat / 64 % 2 ^ k := by
  rw [hsa.slot, toNat_bucket, hsa.mod_mod]

/-- **The window, moved on**, shows what it showed: the buckets that leave the
ring are cleared. -/
theorem Shows.advance (hsa : HasBuckets sa k) (h : Shows k rsn accepted) {sqn : UInt64}
    (hlt : rsn.sqn < sqn) (hjump : sqn.toNat / 64 < rsn.sqn.toNat / 64 + 2 ^ 32) :
    Shows k ⟨sqn, clearBuckets sa (rsn.sqn >>> 6).toUInt32 (sqn >>> 6).toUInt32 rsn.window⟩
      accepted := by
  have hlt' : rsn.sqn.toNat < sqn.toNat := hlt
  have hle : rsn.sqn.toNat / 64 ≤ sqn.toNat / 64 := Nat.div_le_div_right (le_of_lt hlt')
  have hk : 2 ^ k ≤ 2 ^ 15 := Nat.pow_le_pow_right (by decide) hsa.le
  have hnb : sa.replay.nbBucket.toUInt32.toNat = 2 ^ k := by
    rw [UInt16.toNat_toUInt32, hsa.nbBucket]
  -- as many buckets are cleared as the window moves on, or all of them
  have hdiff : ((sqn >>> 6).toUInt32 - (rsn.sqn >>> 6).toUInt32).toNat
      = sqn.toNat / 64 - rsn.sqn.toNat / 64 := by
    rw [UInt32.toNat_sub, toNat_bucket, toNat_bucket]
    omega
  -- the slots that are cleared, as those of the buckets behind the old last one
  obtain ⟨D, hD, hclear⟩ : ∃ D, D = min (sqn.toNat / 64 - rsn.sqn.toNat / 64) (2 ^ k)
      ∧ clearBuckets sa (rsn.sqn >>> 6).toUInt32 (sqn >>> 6).toUInt32 rsn.window
        = Loop.times D (fun i window => update window
          ((UInt32.ofNat i + (rsn.sqn >>> 6).toUInt32 + 1)
            &&& sa.replay.bucketIndexMask.toUInt32).toNat 0) rsn.window := by
    refine ⟨_, ?_, rfl⟩
    by_cases hbig : (sqn >>> 6).toUInt32 - (rsn.sqn >>> 6).toUInt32 > sa.replay.nbBucket.toUInt32
    · have hgt : 2 ^ k < sqn.toNat / 64 - rsn.sqn.toNat / 64 := by
        rw [← hnb, ← hdiff]
        exact hbig
      rw [if_pos hbig, hnb]
      omega
    · have hge : sqn.toNat / 64 - rsn.sqn.toNat / 64 ≤ 2 ^ k := by
        rw [← hnb, ← hdiff]
        exact UInt32.not_lt.mp hbig
      rw [if_neg hbig, hdiff]
      omega
  have hslot : ∀ i < D, ((UInt32.ofNat i + (rsn.sqn >>> 6).toUInt32 + 1)
      &&& sa.replay.bucketIndexMask.toUInt32).toNat = (rsn.sqn.toNat / 64 + 1 + i) % 2 ^ k := by
    intro i hi
    rw [hsa.slot, UInt32.toNat_add, UInt32.toNat_add, toNat_bucket, UInt32.toNat_ofNat',
      mod_eq_of_lt (show i < 2 ^ 32 by omega), add_mod_mod, mod_add_mod, hsa.mod_mod]
    congr 1
    show i + rsn.sqn.toNat / 64 + 1 = _
    omega
  refine ⟨fun n hn => (h.le n hn).trans (le_of_lt hlt'), fun b hb hring j hj => ?_,
    fun slot j hj => ?_⟩
  rotate_left
  · show (clearBuckets sa _ _ rsn.window slot).toNat.testBit j = false
    rw [hclear]
    rcases Ring.times_update_const D (fun i => ((UInt32.ofNat i + (rsn.sqn >>> 6).toUInt32 + 1)
        &&& sa.replay.bucketIndexMask.toUInt32).toNat) 0 rsn.window slot with
      ⟨hzero, -⟩ | ⟨hsame, -⟩
    · rw [hzero]
      exact zero_testBit j
    · rw [hsame]
      exact h.upper slot j hj
  dsimp only at hb hring
  show (clearBuckets sa _ _ rsn.window (b % 2 ^ k)).toNat.testBit j = true ↔ _
  rw [hclear]
  rcases Ring.times_update_const D (fun i => ((UInt32.ofNat i + (rsn.sqn >>> 6).toUInt32 + 1)
      &&& sa.replay.bucketIndexMask.toUInt32).toNat) 0 rsn.window (b % 2 ^ k) with
    ⟨hzero, i, hi, hf⟩ | ⟨hsame, hne⟩
  · -- a bucket that was cleared is past the old last one
    rw [hzero]
    refine iff_of_false (by simp) (fun hacc => ?_)
    have hlast := h.le _ hacc
    rw [hslot i hi] at hf
    have heq := Ring.mod_inj hf (by omega) (by omega)
    omega
  · rw [hsame]
    have hold : b ≤ rsn.sqn.toNat / 64 := by
      by_contra hgt
      have hmod := Nat.mod_lt (b - rsn.sqn.toNat / 64 - 1) (Nat.two_pow_pos k)
      have hle' := mod_le (b - rsn.sqn.toNat / 64 - 1) (2 ^ k)
      have hi : (b - rsn.sqn.toNat / 64 - 1) % 2 ^ k < D := by omega
      refine hne _ hi ?_
      rw [hslot _ hi, add_mod_mod]
      congr 1
      omega
    exact h.bits b hold (by omega) j hj

/-- **The bit of a number** says whether it was accepted, if the ring judges
it right. -/
theorem Shows.seen_iff (hsa : HasBuckets sa k) (h : Shows k rsn accepted) {sqn : UInt64}
    (hle : sqn ≤ rsn.sqn) (hring : sqn.toNat % 64 < 32 → rsn.sqn.toNat / 64 < sqn.toNat / 64 + 2 ^ k)
    (hhigh : 32 ≤ sqn.toNat % 64 → sqn.toNat ∉ accepted) :
    (sqn.toNat % 64 < 32 ∧ (rsn.window ((sqn >>> 6).toUInt32
        &&& sa.replay.bucketIndexMask.toUInt32).toNat).toNat.testBit (sqn.toNat % 64) = true)
      ↔ sqn.toNat ∈ accepted := by
  have hle' : sqn.toNat / 64 ≤ rsn.sqn.toNat / 64 := Nat.div_le_div_right hle
  rw [hsa.slot_number]
  by_cases hlow : sqn.toNat % 64 < 32
  · rw [and_iff_right hlow, h.bits _ hle' (hring hlow) _ hlow, div_add_mod]
  · exact iff_of_false (fun hc => hlow hc.1) (hhigh (by omega))

theorem Shows.mark (hsa : HasBuckets sa k) (h : Shows k rsn accepted) {sqn : UInt64}
    (hle : sqn ≤ rsn.sqn)
    (hring : sqn.toNat % 64 < 32 → rsn.sqn.toNat / 64 < sqn.toNat / 64 + 2 ^ k) :
    Shows k { rsn with
      window := update rsn.window
        ((sqn >>> 6).toUInt32 &&& sa.replay.bucketIndexMask.toUInt32).toNat
        (rsn.window ((sqn >>> 6).toUInt32 &&& sa.replay.bucketIndexMask.toUInt32).toNat
          ||| ((1 : UInt64) <<< (sqn &&& 63)).toUInt32.toUInt64) } (sqn.toNat :: accepted) := by
  have hle' : sqn.toNat / 64 ≤ rsn.sqn.toNat / 64 := Nat.div_le_div_right hle
  rw [hsa.slot_number]
  refine ⟨fun n hn => ?_, fun b hb hbring j hj => ?_, fun slot j hj => ?_⟩
  · rcases List.mem_cons.mp hn with rfl | hn
    · exact hle
    · exact h.le n hn
  · dsimp only at hb hbring ⊢
    -- the number has the place `j` of the bucket `b` exactly if it is there
    have hplace : 64 * b + j ∈ sqn.toNat :: accepted
        ↔ 64 * b + j ∈ accepted
          ∨ (b = sqn.toNat / 64 ∧ sqn.toNat % 64 < 32 ∧ j = sqn.toNat % 64) := by
      rw [List.mem_cons]
      constructor
      · rintro (heq | hmem)
        · exact Or.inr ⟨by omega, by omega, by omega⟩
        · exact Or.inl hmem
      · rintro (hmem | ⟨rfl, -, rfl⟩)
        · exact Or.inr hmem
        · exact Or.inl (div_add_mod _ _)
    rw [hplace, ← h.bits b hb hbring j hj]
    by_cases hslot : b % 2 ^ k = sqn.toNat / 64 % 2 ^ k
    · rw [hslot, update_self, testBit_or_cut_bit]
      refine or_congr Iff.rfl ⟨fun hbit => ?_, fun hbit => hbit.2⟩
      have hin := hring hbit.1
      exact ⟨Ring.mod_inj hslot (by omega) (by omega), hbit⟩
    · rw [update_of_ne hslot]
      refine (or_iff_left (fun hc => ?_)).symm
      exact hslot (by rw [hc.1])
  · dsimp only
    by_cases hslot : slot = sqn.toNat / 64 % 2 ^ k
    · subst hslot
      rw [update_self, ← Bool.not_eq_true, testBit_or_cut_bit]
      rintro (hbit | ⟨hlow, heq⟩)
      · rw [h.upper _ j hj] at hbit
        cases hbit
      · omega
    · rw [update_of_ne hslot]
      exact h.upper slot j hj

/-! ## Judging a number -/

/-- The number that the update works on: that of the packet, or the one
reconstructed from it. -/
def seqNumber (sa : RteIpsecSa) (rsn : ReplaySqn) (sqn : UInt64) : UInt64 :=
  if sa.isEsn then reconstructEsn rsn.sqn sqn.toUInt32 sa.replay.winSz else sqn

theorem below_iff {sqn : UInt64} (h : sqn.toNat + sa.replay.winSz.toNat < 2 ^ 64) :
    sqn + sa.replay.winSz.toUInt64 < rsn.sqn
      ↔ sqn.toNat + sa.replay.winSz.toNat < rsn.sqn.toNat := by
  rw [UInt64.lt_iff_toNat_lt, UInt64.toNat_add, UInt32.toNat_toUInt64, mod_eq_of_lt h]

/-- A number below the window is always turned down. -/
theorem esnInbUpdateSqn_below {sqn : UInt64}
    (h : (seqNumber sa rsn sqn).toNat + sa.replay.winSz.toNat < rsn.sqn.toNat) :
    esnInbUpdateSqn rsn sa sqn = (-einval, rsn) := by
  have hlt := rsn.sqn.toNat_lt
  unfold esnInbUpdateSqn
  exact if_pos (Or.inr ((below_iff (by omega)).mpr h))

/-- What the update does with a number that the ring judges right. -/
theorem esnInbUpdateSqn_spec (hsa : HasBuckets sa k) (h : Shows k rsn accepted) {sqn : UInt64}
    (hjump : (seqNumber sa rsn sqn).toNat / 64 < rsn.sqn.toNat / 64 + 2 ^ 32)
    (hjudged : Judged sa rsn accepted (seqNumber sa rsn sqn).toNat) :
    ((esnInbUpdateSqn rsn sa sqn).1 = 0
        ↔ (seqNumber sa rsn sqn).toNat ∉ accepted
          ∧ rsn.sqn.toNat ≤ (seqNumber sa rsn sqn).toNat + sa.replay.winSz.toNat)
      ∧ Shows k (esnInbUpdateSqn rsn sa sqn).2
        (if (esnInbUpdateSqn rsn sa sqn).1 = 0 then (seqNumber sa rsn sqn).toNat :: accepted
          else accepted) := by
  have hneg : ¬ (-einval : Int) = 0 := by decide
  unfold Judged at hjudged
  rw [hsa.nbBucket] at hjudged
  rcases hjudged with hbelow | ⟨hzero, hwrap, hring, hhigh⟩
  · rw [esnInbUpdateSqn_below hbelow, if_neg hneg]
    exact ⟨iff_of_false hneg (fun hc => absurd hc.2 (by omega)), h⟩
  generalize hn : seqNumber sa rsn sqn = n at *
  unfold esnInbUpdateSqn
  unfold seqNumber at hn
  rw [hn]
  dsimp only
  have hn0 : n ≠ 0 := by
    rintro rfl
    exact hzero rfl
  by_cases hout : n + sa.replay.winSz.toUInt64 < rsn.sqn
  · rw [if_pos (Or.inr hout), if_neg hneg]
    rw [below_iff hwrap] at hout
    exact ⟨iff_of_false hneg (fun hc => absurd hc.2 (by omega)), h⟩
  rw [if_neg (not_or.mpr ⟨hn0, hout⟩)]
  rw [below_iff hwrap] at hout
  -- the window, once it reaches the number
  obtain ⟨rsn', hrsn', hshows, hle, hring', hhigh'⟩ :
      ∃ rsn', rsn' = (if n > rsn.sqn then
          ⟨n, clearBuckets sa (rsn.sqn >>> 6).toUInt32 (n >>> 6).toUInt32 rsn.window⟩ else rsn)
        ∧ Shows k rsn' accepted ∧ n ≤ rsn'.sqn
        ∧ (n.toNat % 64 < 32 → rsn'.sqn.toNat / 64 < n.toNat / 64 + 2 ^ k)
        ∧ (32 ≤ n.toNat % 64 → n.toNat ∉ accepted) := by
    by_cases hgt : n > rsn.sqn
    · rw [if_pos hgt]
      exact ⟨_, rfl, h.advance hsa hgt hjump, UInt64.le_refl n,
        fun _ => Nat.lt_add_of_pos_right (Nat.two_pow_pos k), hhigh⟩
    · rw [if_neg hgt]
      exact ⟨rsn, rfl, h, UInt64.not_lt.mp hgt, hring, hhigh⟩
  rw [← hrsn']
  have hseen := hshows.seen_iff hsa hle hring' hhigh'
  by_cases hbit : rsn'.window ((n >>> 6).toUInt32
      &&& sa.replay.bucketIndexMask.toUInt32).toNat
      &&& ((1 : UInt64) <<< (n &&& 63)).toUInt32.toUInt64 ≠ 0
  · rw [if_pos hbit, if_neg hneg]
    rw [and_cut_bit_ne_zero, hseen] at hbit
    exact ⟨iff_of_false hneg (fun hc => hc.1 hbit), hshows⟩
  · rw [if_neg hbit, if_pos rfl]
    rw [and_cut_bit_ne_zero, hseen] at hbit
    exact ⟨iff_of_true rfl ⟨hbit, by omega⟩, hshows.mark hsa hle hring'⟩

/-- What the check says of a number that the ring judges right. -/
theorem esnInbCheckSqn_spec (hsa : HasBuckets sa k) (hwin : sa.replay.winSz ≠ 0)
    (h : Shows k rsn accepted) {n : UInt64} (hjudged : Judged sa rsn accepted n.toNat) :
    esnInbCheckSqn rsn sa n = 0
      ↔ n.toNat ∉ accepted ∧ rsn.sqn.toNat ≤ n.toNat + sa.replay.winSz.toNat := by
  have hneg : ¬ (-einval : Int) = 0 := by decide
  have hlast := rsn.sqn.toNat_lt
  unfold esnInbCheckSqn
  dsimp only
  rw [if_neg hwin]
  by_cases hgt : n > rsn.sqn
  · rw [if_pos hgt]
    have hgt' : rsn.sqn.toNat < n.toNat := hgt
    refine iff_of_true rfl ⟨fun hacc => ?_, by omega⟩
    have := h.le _ hacc
    omega
  rw [if_neg hgt]
  have hle : n ≤ rsn.sqn := UInt64.not_lt.mp hgt
  unfold Judged at hjudged
  rw [hsa.nbBucket] at hjudged
  rcases hjudged with hbelow | ⟨hzero, hwrap, hring, hhigh⟩
  · rw [if_pos (Or.inr ((below_iff (by omega)).mpr hbelow))]
    exact iff_of_false hneg (fun hc => absurd hc.2 (by omega))
  by_cases hout : n + sa.replay.winSz.toUInt64 < rsn.sqn
  · rw [if_pos (Or.inr hout)]
    rw [below_iff hwrap] at hout
    exact iff_of_false hneg (fun hc => absurd hc.2 (by omega))
  have hn0 : n ≠ 0 := by
    rintro rfl
    exact hzero rfl
  rw [if_neg (not_or.mpr ⟨hn0, hout⟩)]
  rw [below_iff hwrap] at hout
  have hseen := h.seen_iff hsa hle hring hhigh
  -- the upper half of a bucket has no bits
  have hlow : ∀ slot, (rsn.window slot).toNat.testBit (n.toNat % 64) = true → n.toNat % 64 < 32 := by
    intro slot hbit
    by_contra hge
    rw [h.upper slot _ (by omega)] at hbit
    cases hbit
  by_cases hbit : rsn.window ((n >>> 6).toUInt32
      &&& sa.replay.bucketIndexMask.toUInt32).toNat &&& ((1 : UInt64) <<< (n &&& 63)) ≠ 0
  · rw [if_pos hbit]
    rw [and_bit_ne_zero] at hbit
    exact iff_of_false hneg (fun hc => hc.1 (hseen.mp ⟨hlow _ hbit, hbit⟩))
  · rw [if_neg hbit]
    rw [and_bit_ne_zero] at hbit
    exact iff_of_true rfl ⟨fun hacc => hbit (hseen.mpr hacc).2, by omega⟩

end Window

/-! ## Runs -/

/-- **An inbound SA with a replay window**, for a size of the window that is
accepted. -/
def InboundSa (esn : Bool) (wndSz : UInt32) (sa : RteIpsecSa) : Prop :=
  ∃ w n, ipsecSaSize true esn wndSz = some (w, n) ∧ w ≠ 0 ∧ sa.replay = fillSaReplay w n
    ∧ sa.sqnMask = if esn then 0xffffffffffffffff else 0xffffffff

/-- The window, and the numbers that have been accepted. -/
structure InbState where
  rsn : ReplaySqn
  accepted : List ℕ

/-- A new SA: its window is empty, and its last number is anything. -/
def inbInit (last : UInt64) : InbState := ⟨⟨last, fun _ => 0⟩, []⟩

/-- **A packet**: its number updates the window, and is accepted or not. -/
def inbStep (sa : RteIpsecSa) (s : InbState) (sqn : UInt32) : InbState :=
  let r := esnInbUpdateSqn s.rsn sa sqn.toUInt64
  ⟨r.2, if r.1 = 0 then (seqNumber sa s.rsn sqn.toUInt64).toNat :: s.accepted else s.accepted⟩

/-- The number of a packet is judged right. -/
def StepJudged (sa : RteIpsecSa) (s : InbState) (sqn : UInt32) : Prop :=
  Judged sa s.rsn s.accepted (seqNumber sa s.rsn sqn.toUInt64).toNat

theorem InboundSa.hasBuckets {esn : Bool} {wndSz : UInt32} {sa : RteIpsecSa}
    (h : InboundSa esn wndSz sa) : sa.replay.winSz ≠ 0 ∧ ∃ k, HasBuckets sa k := by
  obtain ⟨w, n, hsize, hw, hreplay, -⟩ := h
  obtain ⟨k, hk, hk', hn⟩ := ipsecSaSize_spec hsize hw
  have hpow : 2 ^ k ≤ 2 ^ 15 := Nat.pow_le_pow_right (by decide) hk'
  have hpos := Nat.two_pow_pos k
  refine ⟨by rw [hreplay]; exact hw, k, hk', ?_, ?_⟩
  · rw [hreplay]
    show n.toUInt16.toNat = _
    rw [UInt32.toNat_toUInt16, hn, mod_eq_of_lt (by omega)]
  · rw [hreplay]
    show (n - 1).toUInt16.toNat = _
    have hone : (1 : UInt32) ≤ n := by
      rw [UInt32.le_iff_toNat_le, hn]
      exact hpos
    rw [UInt32.toNat_toUInt16, UInt32.toNat_sub_of_le _ _ hone, hn]
    exact mod_eq_of_lt (show 2 ^ k - 1 < 2 ^ 16 by omega)

/-- The numbers of packets do not go far past the last one. -/
theorem seqNumber_lt (sa : RteIpsecSa) (rsn : ReplaySqn) (sqn : UInt32) :
    (seqNumber sa rsn sqn.toUInt64).toNat / 64 < rsn.sqn.toNat / 64 + 2 ^ 32 := by
  unfold seqNumber
  split
  · exact reconstructEsn_lt _ _ _
  · have hlt := sqn.toNat_lt
    rw [UInt32.toNat_toUInt64]
    omega

/-- A packet is accepted at most once. -/
theorem inbStep_keeps {sa : RteIpsecSa} {k : ℕ} (hsa : HasBuckets sa k) {s : InbState}
    {sqn : UInt32} (h : Shows k s.rsn s.accepted ∧ s.accepted.Nodup) (hjudged : StepJudged sa s sqn) :
    Shows k (inbStep sa s sqn).rsn (inbStep sa s sqn).accepted
      ∧ (inbStep sa s sqn).accepted.Nodup := by
  obtain ⟨hiff, hshows⟩ := esnInbUpdateSqn_spec hsa h.1 (seqNumber_lt sa s.rsn sqn) hjudged
  refine ⟨hshows, ?_⟩
  show (if _ then _ else _ : List ℕ).Nodup
  by_cases hret : (esnInbUpdateSqn s.rsn sa sqn.toUInt64).1 = 0
  · rw [if_pos hret]
    exact List.nodup_cons.mpr ⟨(hiff.mp hret).1, h.2⟩
  · rw [if_neg hret]
    exact h.2

/-- **Anti-replay**: in every run whose numbers are judged right, no number is
accepted twice, a number is accepted exactly if it was not accepted before
and is not below the window, the check agrees with the update, and a number
below the window is always turned down. -/
theorem accepts_iff {esn : Bool} {wndSz : UInt32} {sa : RteIpsecSa} (hsa : InboundSa esn wndSz sa)
    {last : UInt64} {sqns : List UInt32}
    (hrun : Along (inbStep sa) (StepJudged sa) (inbInit last) sqns) {s : InbState}
    (hs : run (inbStep sa) (inbInit last) sqns = s) :
    s.accepted.Nodup
      ∧ ∀ (sqn : UInt32) (n : UInt64), seqNumber sa s.rsn sqn.toUInt64 = n →
        (StepJudged sa s sqn →
          ((esnInbUpdateSqn s.rsn sa sqn.toUInt64).1 = 0
              ↔ n.toNat ∉ s.accepted ∧ s.rsn.sqn.toNat ≤ n.toNat + sa.replay.winSz.toNat)
            ∧ (esnInbCheckSqn s.rsn sa n = 0
              ↔ (esnInbUpdateSqn s.rsn sa sqn.toUInt64).1 = 0))
          ∧ (n.toNat + sa.replay.winSz.toNat < s.rsn.sqn.toNat →
            (esnInbUpdateSqn s.rsn sa sqn.toUInt64).1 ≠ 0 ∧ esnInbCheckSqn s.rsn sa n ≠ 0) := by
  obtain ⟨hwin, k, hbuckets⟩ := hsa.hasBuckets
  have hinit : Shows k (inbInit last).rsn (inbInit last).accepted
      ∧ (inbInit last).accepted.Nodup := by
    refine ⟨⟨fun n hn => (nomatch hn), fun b _ _ j _ => ?_, fun slot j _ => zero_testBit j⟩,
      List.nodup_nil⟩
    exact iff_of_false (by rw [show (inbInit last).rsn.window (b % 2 ^ k) = 0 from rfl]; simp)
      (fun h => nomatch h)
  obtain ⟨hshows, hnodup⟩ := hrun.invariant (fun s sqn => inbStep_keeps hbuckets) hinit
  rw [hs] at hshows hnodup
  refine ⟨hnodup, fun sqn n hn => ⟨fun hjudged => ?_, fun hbelow => ⟨?_, fun hcheck => ?_⟩⟩⟩
  · obtain ⟨hiff, -⟩ := esnInbUpdateSqn_spec hbuckets hshows (seqNumber_lt sa s.rsn sqn) hjudged
    unfold StepJudged at hjudged
    rw [hn] at hiff hjudged
    exact ⟨hiff, (esnInbCheckSqn_spec hbuckets hwin hshows hjudged).trans hiff.symm⟩
  · rw [esnInbUpdateSqn_below (by rw [hn]; exact hbelow)]
    exact show (-einval : Int) ≠ 0 by decide
  · have hjudged : Judged sa s.rsn s.accepted n.toNat := Or.inl hbelow
    have hle := ((esnInbCheckSqn_spec hbuckets hwin hshows hjudged).mp hcheck).2
    omega

/-- A window of 64 numbers: three packets, of which the second comes again. -/
theorem accepts_iff_three_packets :
    (run (inbStep ⟨0xffffffff, false, fillSaReplay 64 2⟩) (inbInit 0) [1, 7, 7]).accepted.Nodup :=
  (@accepts_iff false 64 ⟨0xffffffff, false, fillSaReplay 64 2⟩
    ⟨64, 2, by decide, by decide, rfl, rfl⟩ 0 [1, 7, 7]
    ⟨Or.inr (by decide), Or.inr (by decide), Or.inr (by decide), trivial⟩ _ rfl).1

/-- **Where the window misjudges a number.** Number 32 of a window of 64 leaves
no mark and is accepted twice; in a window of 128, number 2 is accepted again
once 129 has taken its bucket, and number 1 is turned down for 129; number 0
is turned down; and so is a number that wraps with the size of the window. -/
theorem accepts_iff_fails :
    (run (inbStep ⟨0xffffffff, false, fillSaReplay 64 2⟩) (inbInit 0) [32, 32]).accepted = [32, 32]
      ∧ (run (inbStep ⟨0xffffffff, false, fillSaReplay 128 2⟩) (inbInit 0) [2, 129, 2]).accepted
        = [2, 129, 2]
      ∧ (run (inbStep ⟨0xffffffff, false, fillSaReplay 128 2⟩) (inbInit 0) [129, 1]).accepted
        = [129]
      ∧ (run (inbStep ⟨0xffffffff, false, fillSaReplay 64 2⟩) (inbInit 0) [0]).accepted = []
      ∧ (run (inbStep ⟨0xffffffffffffffff, false, fillSaReplay 64 2⟩)
        (inbInit 0xfffffffffffffffd) [0xfffffffe]).accepted = []
      ∧ ipsecSaSize true false 64 = some (64, 2) ∧ ipsecSaSize true false 128 = some (128, 2)
      ∧ ipsecSaSize true true 64 = some (64, 2) := by
  decide

end Ipsec
