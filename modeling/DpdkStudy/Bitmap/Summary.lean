import DpdkStudy.Bitmap.Bitmap
import DpdkStudy.Ipsec.AntiReplay
import Mathlib.Tactic.IntervalCases

/-!
# The summary of a bitmap

A bit of `array1` is set where a cache line of `array2` is not empty
(`Summary`). Setting and clearing bits keep that, and so does setting the bits
of a slab, unless there are none and the line is empty: then the line is marked
all the same.
-/

namespace Bitmap

open Function

variable {bmp bmp' : RteBitmap} {n_bits pos : ℕ}

/-! ## Bits of a slab -/

theorem getLsbD_or_bit (v : BitVec 64) {o i : ℕ} (hi : i < 64) :
    (v ||| 1#64 <<< o).getLsbD i = (v.getLsbD i || decide (i = o)) := by
  rw [BitVec.getLsbD_or, BitVec.getLsbD_shiftLeft, BitVec.getLsbD_one]
  congr 1
  rw [Bool.eq_iff_iff]
  simp only [Bool.and_eq_true, Bool.not_eq_true', decide_eq_true_eq, decide_eq_false_iff_not]
  omega

theorem getLsbD_and_not_bit (v : BitVec 64) {o i : ℕ} (hi : i < 64) :
    (v &&& ~~~(1#64 <<< o)).getLsbD i = (v.getLsbD i && decide (i ≠ o)) := by
  rw [BitVec.getLsbD_and, BitVec.getLsbD_not, BitVec.getLsbD_shiftLeft, BitVec.getLsbD_one]
  congr 1
  rw [Bool.eq_iff_iff]
  simp only [Bool.and_eq_true, Bool.not_eq_true', decide_eq_true_eq, Bool.and_eq_false_iff,
    decide_eq_false_iff_not, Bool.not_eq_false']
  omega

theorem ne_zero_iff (v : BitVec 64) : v ≠ 0 ↔ ∃ i < 64, v.getLsbD i = true := by
  constructor
  · intro hv
    by_contra hnot
    refine hv (BitVec.eq_of_getLsbD_eq (fun i hi => ?_))
    have hbit : ¬ v.getLsbD i = true := fun h => hnot ⟨i, hi, h⟩
    simpa using hbit
  · rintro ⟨i, -, hi⟩ rfl
    simp at hi

/-! ## The invariant -/

/-- **The sizes of the arrays** for a number of bits. -/
structure Sized (n_bits : ℕ) (bmp : RteBitmap) : Prop where
  bits : n_bits ≤ slabBitSize * bmp.array2_size
  lines : clSlabSize ∣ bmp.array2_size
  covered : bmp.array2_size ≤ clSlabSize * slabBitSize * bmp.array1_size
  pow : ∃ k ≤ 17, bmp.array1_size = 2 ^ k
  small : bmp.array2_size ≤ 2 ^ 26

/-- A bit is set at a position. -/
def RteBitmap.Has (bmp : RteBitmap) (p : ℕ) : Prop :=
  p / slabBitSize < bmp.array2_size ∧
    (bmp.array2 (p / slabBitSize)).getLsbD (p % slabBitSize) = true

/-- A slab is not zero. -/
def RteBitmap.Full (bmp : RteBitmap) (i : ℕ) : Prop := i < bmp.array2_size ∧ bmp.array2 i ≠ 0

/-- The bit of `array1` for a line is set. -/
def RteBitmap.Marked (bmp : RteBitmap) (j : ℕ) : Prop :=
  j / slabBitSize < bmp.array1_size ∧
    (bmp.array1 (j / slabBitSize)).getLsbD (j % slabBitSize) = true

instance (bmp : RteBitmap) : DecidablePred bmp.Full := fun i =>
  inferInstanceAs (Decidable (i < bmp.array2_size ∧ bmp.array2 i ≠ 0))

/-- **A line is marked where it is not empty.** -/
def Summary (bmp : RteBitmap) : Prop := ∀ j, bmp.Marked j ↔ ∃ i, bmp.Full i ∧ i / clSlabSize = j

theorem full_iff {i : ℕ} :
    bmp.Full i ↔ ∃ p, bmp.Has p ∧ p / slabBitSize = i := by
  unfold RteBitmap.Full RteBitmap.Has
  rw [ne_zero_iff]
  simp only [slabBitSize]
  constructor
  · rintro ⟨hi, o, ho, hbit⟩
    have hdiv : (64 * i + o) / 64 = i := by omega
    have hmod : (64 * i + o) % 64 = o := by omega
    exact ⟨64 * i + o, ⟨by rwa [hdiv], by rwa [hdiv, hmod]⟩, hdiv⟩
  · rintro ⟨p, ⟨hp, hbit⟩, rfl⟩
    exact ⟨hp, p % 64, Nat.mod_lt _ (by decide), hbit⟩

theorem Sized.lt_array2 (hs : Sized n_bits bmp) (hpos : pos < n_bits) :
    pos / slabBitSize < bmp.array2_size := by
  have hbits := hs.bits
  simp only [slabBitSize] at *
  omega

theorem Sized.lt_array1 (hs : Sized n_bits bmp) {i : ℕ} (hi : i < bmp.array2_size) :
    i / (clSlabSize * slabBitSize) < bmp.array1_size := by
  have hcovered := hs.covered
  exact Nat.div_lt_of_lt_mul (lt_of_lt_of_le hi hcovered)

theorem line_of_pos (pos : ℕ) : pos / clBitSize = pos / slabBitSize / clSlabSize := by
  simp only [clBitSize, cacheLineSize, slabBitSize, clSlabSize]
  omega

theorem index1_of_pos (pos : ℕ) :
    pos / (slabBitSize * clBitSize) = pos / slabBitSize / clSlabSize / slabBitSize := by
  simp only [clBitSize, cacheLineSize, slabBitSize, clSlabSize]
  omega

/-! ## Setting bits -/

theorem markLine_spec (hs : Sized n_bits bmp) (hpos : pos / slabBitSize < bmp.array2_size) :
    ∃ array1, bmp.markLine pos = some { bmp with array1 := array1 } ∧
      ∀ j, RteBitmap.Marked { bmp with array1 := array1 } j ↔
        j = pos / slabBitSize / clSlabSize ∨ bmp.Marked j := by
  have hlt := hs.lt_array1 hpos
  rw [← Nat.div_div_eq_div_mul] at hlt
  refine ⟨_, by rw [RteBitmap.markLine, index1_of_pos, line_of_pos, if_pos hlt], fun j => ?_⟩
  generalize pos / slabBitSize / clSlabSize = l at hlt
  unfold RteBitmap.Marked
  have hmod : j % slabBitSize < 64 := Nat.mod_lt _ (by decide)
  by_cases hj : j / slabBitSize = l / slabBitSize
  · simp only [hj, update_self, getLsbD_or_bit _ hmod, Bool.or_eq_true, decide_eq_true_eq, hlt,
      true_and]
    have heq : j % slabBitSize = l % slabBitSize ↔ j = l := by
      simp only [slabBitSize] at *
      omega
    rw [heq, or_comm]
  · have hne : j ≠ l := fun e => hj (by rw [e])
    simp only [update_of_ne hj, hne, false_or]

/-- Some bits of a slab are set, and its line is marked. -/
theorem orSlab_spec (hs : Sized n_bits bmp) {i : ℕ} (hi : i = pos / slabBitSize)
    (hlt : i < bmp.array2_size) (slab : BitVec 64) :
    ∃ array1, RteBitmap.markLine
        { bmp with array2 := update bmp.array2 i (bmp.array2 i ||| slab) } pos =
      some { bmp with
        array2 := update bmp.array2 i (bmp.array2 i ||| slab), array1 := array1 } ∧
      ∀ j, RteBitmap.Marked { bmp with array1 := array1 } j ↔
        j = i / clSlabSize ∨ bmp.Marked j := by
  have hs' : Sized n_bits { bmp with array2 := update bmp.array2 i (bmp.array2 i ||| slab) } :=
    ⟨hs.bits, hs.lines, hs.covered, hs.pow, hs.small⟩
  subst hi
  exact markLine_spec hs' hlt

/-- The bits of a bitmap with more bits in a slab. -/
theorem has_orSlab {i : ℕ} (hlt : i < bmp.array2_size) (slab : BitVec 64) (array1 : ℕ → BitVec 64)
    (p : ℕ) :
    RteBitmap.Has { bmp with
        array2 := update bmp.array2 i (bmp.array2 i ||| slab), array1 := array1 } p ↔
      bmp.Has p ∨ (p / slabBitSize = i ∧ slab.getLsbD (p % slabBitSize) = true) := by
  unfold RteBitmap.Has
  by_cases hp : p / slabBitSize = i
  · simp only [hp, update_self, BitVec.getLsbD_or, Bool.or_eq_true, hlt, true_and]
  · simp only [update_of_ne hp, hp, false_and, or_false]

/-- **The summary of a bitmap with more bits in a slab**, if the line of the slab
has a bit then. -/
theorem Summary.orSlab (hsum : Summary bmp) {i : ℕ} (hlt : i < bmp.array2_size) {slab : BitVec 64}
    (hslab : slab ≠ 0 ∨ ∃ i', bmp.Full i' ∧ i' / clSlabSize = i / clSlabSize)
    {array1 : ℕ → BitVec 64} (hmark : ∀ j, RteBitmap.Marked { bmp with array1 := array1 } j ↔
      j = i / clSlabSize ∨ bmp.Marked j) :
    Summary { bmp with
      array2 := update bmp.array2 i (bmp.array2 i ||| slab), array1 := array1 } := by
  have hfull : ∀ i', RteBitmap.Full { bmp with
      array2 := update bmp.array2 i (bmp.array2 i ||| slab), array1 := array1 } i' ↔
      bmp.Full i' ∨ (i' = i ∧ slab ≠ 0) := by
    intro i'
    unfold RteBitmap.Full
    by_cases hi : i' = i
    · subst hi
      simp only [update_self, hlt, true_and, ne_zero_iff, BitVec.getLsbD_or, Bool.or_eq_true]
      constructor
      · rintro ⟨o, ho, hv | hs⟩
        · exact Or.inl ⟨o, ho, hv⟩
        · exact Or.inr ⟨o, ho, hs⟩
      · rintro (⟨o, ho, hv⟩ | ⟨o, ho, hs⟩)
        · exact ⟨o, ho, Or.inl hv⟩
        · exact ⟨o, ho, Or.inr hs⟩
    · simp only [update_of_ne hi, hi, false_and, or_false]
  intro j
  rw [show RteBitmap.Marked { bmp with
    array2 := update bmp.array2 i (bmp.array2 i ||| slab), array1 := array1 } j ↔ _ from hmark j,
    hsum j]
  simp only [hfull]
  constructor
  · rintro (rfl | ⟨i', hi', hline⟩)
    · rcases hslab with hne | ⟨i', hi', hline⟩
      · exact ⟨i, Or.inr ⟨rfl, hne⟩, rfl⟩
      · exact ⟨i', Or.inl hi', hline⟩
    · exact ⟨i', Or.inl hi', hline⟩
  · rintro ⟨i', hi' | ⟨rfl, -⟩, hline⟩
    · exact Or.inr ⟨i', hi', hline⟩
    · exact Or.inl hline.symm

/-! ## Clearing bits -/

theorem or_ne_zero_iff (v w : BitVec 64) : v ||| w ≠ 0 ↔ v ≠ 0 ∨ w ≠ 0 := by
  change ¬ v ||| w = 0#64 ↔ _
  rw [BitVec.or_eq_zero_iff, not_and_or]
  rfl

theorem lineNotEmpty_iff (bmp : RteBitmap) (l : ℕ) :
    bmp.lineNotEmpty (l * clSlabSize) ≠ 0 ↔ ∃ i, i / clSlabSize = l ∧ bmp.array2 i ≠ 0 := by
  simp only [RteBitmap.lineNotEmpty, or_ne_zero_iff, or_assoc]
  have hdiv : ∀ i < 8, (l * clSlabSize + i) / clSlabSize = l := by
    intro i hi
    simp only [clSlabSize, clBitSize, cacheLineSize, slabBitSize]
    omega
  constructor
  · rintro (h | h | h | h | h | h | h | h)
    · exact ⟨_, hdiv 0 (by decide), h⟩
    · exact ⟨_, hdiv 1 (by decide), h⟩
    · exact ⟨_, hdiv 2 (by decide), h⟩
    · exact ⟨_, hdiv 3 (by decide), h⟩
    · exact ⟨_, hdiv 4 (by decide), h⟩
    · exact ⟨_, hdiv 5 (by decide), h⟩
    · exact ⟨_, hdiv 6 (by decide), h⟩
    · exact ⟨_, hdiv 7 (by decide), h⟩
  · rintro ⟨i, hline, hi⟩
    obtain ⟨o, ho, rfl⟩ : ∃ o < 8, i = l * clSlabSize + o := by
      refine ⟨i % 8, Nat.mod_lt _ (by decide), ?_⟩
      simp only [clSlabSize, clBitSize, cacheLineSize, slabBitSize] at *
      omega
    interval_cases o <;> tauto

theorem marked_unmark (bmp : RteBitmap) {l : ℕ} (hlt : l / slabBitSize < bmp.array1_size) (j : ℕ) :
    RteBitmap.Marked { bmp with
        array1 := update bmp.array1 (l / slabBitSize)
          (bmp.array1 (l / slabBitSize) &&& ~~~(1#64 <<< (l % slabBitSize))) } j ↔
      j ≠ l ∧ bmp.Marked j := by
  unfold RteBitmap.Marked
  have hmod : j % slabBitSize < 64 := Nat.mod_lt _ (by decide)
  by_cases hj : j / slabBitSize = l / slabBitSize
  · simp only [hj, update_self, getLsbD_and_not_bit _ hmod, Bool.and_eq_true, decide_eq_true_eq,
      hlt, true_and]
    have heq : j % slabBitSize = l % slabBitSize ↔ j = l := by
      simp only [slabBitSize] at *
      omega
    rw [Ne, heq, and_comm]
  · have hne : j ≠ l := fun e => hj (by rw [e])
    simp only [update_of_ne hj, hne, ne_eq, not_false_eq_true, true_and]

theorem has_andNot {pos : ℕ} (hlt : pos / slabBitSize < bmp.array2_size) (p : ℕ) :
    RteBitmap.Has { bmp with
        array2 := update bmp.array2 (pos / slabBitSize)
          (bmp.array2 (pos / slabBitSize) &&& ~~~(1#64 <<< (pos % slabBitSize))) } p ↔
      p ≠ pos ∧ bmp.Has p := by
  unfold RteBitmap.Has
  have hmod : p % slabBitSize < 64 := Nat.mod_lt _ (by decide)
  by_cases hp : p / slabBitSize = pos / slabBitSize
  · simp only [hp, update_self, getLsbD_and_not_bit _ hmod, Bool.and_eq_true, decide_eq_true_eq,
      hlt, true_and]
    have heq : p % slabBitSize = pos % slabBitSize ↔ p = pos := by
      simp only [slabBitSize] at *
      omega
    rw [Ne, heq, and_comm]
  · have hne : p ≠ pos := fun e => hp (by rw [e])
    simp only [update_of_ne hp, hne, ne_eq, not_false_eq_true, true_and]

/-- **`rte_bitmap_clear`** clears a bit, and its line is marked no longer if it was
the last one there. -/
theorem clear_spec (hs : Sized n_bits bmp) (hsum : Summary bmp)
    (hlt : pos / slabBitSize < bmp.array2_size) :
    ∃ array1 array2, bmp.clear pos = some { bmp with array1 := array1, array2 := array2 } ∧
      Summary { bmp with array1 := array1, array2 := array2 } ∧
      ∀ p, RteBitmap.Has { bmp with array1 := array1, array2 := array2 } p ↔
        p ≠ pos ∧ bmp.Has p := by
  have hhas := has_andNot hlt
  rw [RteBitmap.clear]
  simp only [if_pos hlt]
  generalize hi : pos / slabBitSize = i at hlt hhas ⊢
  generalize hslab : bmp.array2 i &&& ~~~(1#64 <<< (pos % slabBitSize)) = slab at hhas ⊢
  have hold : slab ≠ 0 → bmp.array2 i ≠ 0 := by
    intro hne h0
    rw [h0] at hslab
    exact hne (by rw [← hslab]; simp)
  -- what is not zero now was not zero before
  have hfull : ∀ i', RteBitmap.Full { bmp with array2 := update bmp.array2 i slab } i' ↔
      (i' ≠ i ∧ bmp.Full i') ∨ (i' = i ∧ slab ≠ 0) := by
    intro i'
    unfold RteBitmap.Full
    by_cases heq : i' = i
    · subst heq
      simp [hlt]
    · simp [heq]
  have hkept : (∃ i', RteBitmap.Full { bmp with array2 := update bmp.array2 i slab } i' ∧
      i' / clSlabSize = i / clSlabSize) →
      Summary { bmp with array2 := update bmp.array2 i slab } := by
    rintro ⟨i₀, hi₀, hline₀⟩ j
    refine (hsum j).trans ⟨?_, ?_⟩
    · rintro ⟨i', hi', rfl⟩
      by_cases heq : i' = i
      · exact ⟨i₀, hi₀, by rw [hline₀, heq]⟩
      · exact ⟨i', (hfull i').mpr (Or.inl ⟨heq, hi'⟩), rfl⟩
    · rintro ⟨i', hi', rfl⟩
      rcases (hfull i').mp hi' with ⟨-, hi'⟩ | ⟨rfl, hne⟩
      · exact ⟨i', hi', rfl⟩
      · exact ⟨i', ⟨hlt, hold hne⟩, rfl⟩
  rw [update_self]
  by_cases hzero : slab = 0
  swap
  · rw [if_pos hzero]
    exact ⟨bmp.array1, _, rfl, hkept ⟨i, (hfull i).mpr (Or.inr ⟨rfl, hzero⟩), rfl⟩, hhas⟩
  rw [if_neg (not_not.mpr hzero)]
  have hfits : i / clSlabSize * clSlabSize + clSlabSize ≤ bmp.array2_size := by
    have hdvd := hs.lines
    simp only [clSlabSize, clBitSize, cacheLineSize, slabBitSize] at *
    omega
  rw [if_pos hfits]
  have hline := lineNotEmpty_iff { bmp with array2 := update bmp.array2 i slab } (i / clSlabSize)
  by_cases hempty : RteBitmap.lineNotEmpty { bmp with array2 := update bmp.array2 i slab }
      (i / clSlabSize * clSlabSize) = 0
  · rw [if_neg (not_not.mpr hempty)]
    have hnone : ∀ i', i' / clSlabSize = i / clSlabSize → update bmp.array2 i slab i' = 0 := by
      intro i' hi'
      by_contra hne
      exact absurd hempty (hline.mpr ⟨i', hi', hne⟩)
    have hlt1 := hs.lt_array1 hlt
    rw [← Nat.div_div_eq_div_mul] at hlt1
    rw [line_of_pos, index1_of_pos, hi, if_pos hlt1]
    refine ⟨_, _, rfl, fun j => ?_, hhas⟩
    refine (marked_unmark { bmp with array2 := update bmp.array2 i slab } hlt1 j).trans ?_
    rw [show RteBitmap.Marked { bmp with array2 := update bmp.array2 i slab } j ↔ _ from hsum j]
    constructor
    · rintro ⟨hne, i', hi', rfl⟩
      have hii : i' ≠ i := fun e => hne (by rw [e])
      exact ⟨i', (hfull i').mpr (Or.inl ⟨hii, hi'⟩), rfl⟩
    · rintro ⟨i', hi', rfl⟩
      have hne : i' / clSlabSize ≠ i / clSlabSize := fun e => hi'.2 (hnone i' e)
      rcases (hfull i').mp hi' with ⟨-, hi'⟩ | ⟨rfl, -⟩
      · exact ⟨hne, i', hi', rfl⟩
      · exact absurd rfl hne
  · rw [if_pos hempty]
    obtain ⟨i', hi', hne⟩ := hline.mp hempty
    have hlt' : i' < bmp.array2_size := by
      simp only [clSlabSize, clBitSize, cacheLineSize, slabBitSize] at *
      omega
    exact ⟨bmp.array1, _, rfl, hkept ⟨i', ⟨hlt', hne⟩, hi'⟩, hhas⟩

/-! ## Making a bitmap -/

/-- The number of bits up to which the footprint can be counted. -/
def maxBits : ℕ := word32 - clBitSize

/-- **The arrays lie in the footprint**, one behind the other, and are as large as
the bits need. -/
theorem footprint_spec (hpos : 0 < n_bits) (hmax : n_bits ≤ maxBits) :
    (∃ k ≤ 17, (footprint n_bits).array1_slabs = 2 ^ k) ∧
    n_bits ≤ slabBitSize * (footprint n_bits).array2_slabs ∧
    slabBitSize * (footprint n_bits).array2_slabs < n_bits + clBitSize ∧
    clSlabSize ∣ (footprint n_bits).array2_slabs ∧
    (footprint n_bits).array2_slabs ≤ clSlabSize * slabBitSize * (footprint n_bits).array1_slabs ∧
    (footprint n_bits).array2_slabs ≤ 2 ^ 26 ∧
    bitmapHdrSize ≤ (footprint n_bits).array1_byte_offset ∧
    (footprint n_bits).array1_byte_offset + 8 * (footprint n_bits).array1_slabs ≤
      (footprint n_bits).array2_byte_offset ∧
    (footprint n_bits).array2_byte_offset + 8 * (footprint n_bits).array2_slabs =
      (footprint n_bits).n_bytes_total := by
  simp only [maxBits, word32, clBitSize, cacheLineSize] at hmax
  obtain ⟨lines, hlines⟩ : ∃ lines, (n_bits + 511) / 512 = lines := ⟨_, rfl⟩
  have hl : (n_bits + clBitSize - 1) % word32 / clBitSize = lines := by
    simp only [word32, clBitSize, cacheLineSize]
    omega
  have hs : (lines + slabBitSize - 1) % word32 / slabBitSize = (lines + 63) / 64 := by
    simp only [word32, slabBitSize]
    omega
  obtain ⟨slabs, hslabs⟩ : ∃ slabs, (lines + 63) / 64 = slabs := ⟨_, rfl⟩
  have hcast : (UInt32.ofNat slabs).toNat = slabs := by
    rw [UInt32.toNat_ofNat']
    exact Nat.mod_eq_of_lt (by omega)
  obtain ⟨k, hk, hpow, hle⟩ := Ipsec.toNat_rteAlign32pow2 (x := UInt32.ofNat slabs) (m := 17)
    (by omega) (by omega) (by decide)
  have hk17 : 2 ^ k ≤ 2 ^ 17 := Nat.pow_le_pow_right (by decide) hk
  rw [hcast] at hle
  unfold footprint
  simp only [hl, hs, hslabs, hpow]
  generalize hsize : 2 ^ k = size at *
  simp only [word32, clBitSize, cacheLineSize, slabBitSize, clSlabSize, bitmapHdrSize]
  refine ⟨⟨k, hk, hsize.symm⟩, ?_⟩
  omega

/-- A bitmap that is made has the sizes for its bits. -/
theorem setup_sized (hpos : 0 < n_bits) (hmax : n_bits ≤ maxBits) (array1 array2 : ℕ → BitVec 64) :
    Sized n_bits (setup (footprint n_bits) array1 array2) := by
  obtain ⟨hpow, hbits, -, hlines, hcovered, hsmall, -⟩ := footprint_spec hpos hmax
  exact ⟨hbits, hlines, hcovered, hpow, hsmall⟩

theorem summary_zero (hzero1 : bmp.array1 = fun _ => 0) (hzero2 : bmp.array2 = fun _ => 0) :
    Summary bmp := by
  intro j
  unfold RteBitmap.Marked RteBitmap.Full
  simp [hzero1, hzero2]

theorem not_has_zero (hzero2 : bmp.array2 = fun _ => 0) (p : ℕ) : ¬ bmp.Has p := by
  unfold RteBitmap.Has
  simp [hzero2]

theorem foldl_clear (offset n : ℕ) (slab : BitVec 64) {i : ℕ} (hi : i < 64) :
    ((List.range' offset n).foldl (fun slab i => slab &&& ~~~(1#64 <<< i)) slab).getLsbD i =
      (slab.getLsbD i && decide (¬ (offset ≤ i ∧ i < offset + n))) := by
  induction n generalizing offset slab with
  | zero =>
    simp
  | succ n ih =>
    rw [List.range'_succ, List.foldl_cons, ih, getLsbD_and_not_bit _ hi, Bool.and_assoc]
    congr 1
    rw [Bool.eq_iff_iff]
    simp only [Bool.and_eq_true, decide_eq_true_eq]
    omega

/-- **`__rte_bitmap_clear_slab_overhead_bits`** leaves the bits below a position,
which lies in the slabs or behind the last one. -/
theorem clearSlabOverheadBits_spec (slabs : ℕ → BitVec 64) {slab_size pos : ℕ}
    (hpos : pos ≤ slabBitSize * slab_size) :
    ∃ slabs', clearSlabOverheadBits slabs slab_size pos = some slabs' ∧
      ∀ i o, i < slab_size → o < slabBitSize →
        ((slabs' i).getLsbD o = true ↔ (slabs i).getLsbD o = true ∧ slabBitSize * i + o < pos) := by
  have hdiv : slabBitSize * (pos / slabBitSize) + pos % slabBitSize = pos := Nat.div_add_mod _ _
  have hmod : pos % slabBitSize < slabBitSize := Nat.mod_lt _ (by decide)
  unfold clearSlabOverheadBits
  generalize pos / slabBitSize = index at *
  generalize pos % slabBitSize = offset at *
  by_cases hoff : offset = 0
  · refine ⟨_, if_neg (not_not.mpr hoff), fun i o hi ho => ?_⟩
    simp only [slabBitSize] at *
    split_ifs with hbehind
    · simp
      omega
    · have hlt : 64 * i + o < pos := by omega
      simp [hlt]
  · have hin : index < slab_size := by
      simp only [slabBitSize] at *
      omega
    refine ⟨_, (if_pos hoff).trans (if_pos hin), fun i o hi ho => ?_⟩
    simp only [slabBitSize] at *
    split_ifs with hbehind
    · simp
      omega
    · by_cases heq : i = index
      · subst heq
        rw [update_self, foldl_clear _ _ _ ho]
        simp only [Bool.and_eq_true, decide_eq_true_eq]
        refine and_congr_right (fun _ => ?_)
        omega
      · have hlt : 64 * i + o < pos := by omega
        rw [update_of_ne heq]
        simp [hlt]

/-- **A bitmap with all bits set** has the bits below its number, and all of its
lines are marked. -/
theorem rteBitmapInitWithAllSet_spec (hpos : 0 < n_bits) (hmax : n_bits ≤ maxBits) {mem : ℕ}
    (hmem : mem ≠ 0 ∧ mem % cacheLineSize = 0) {mem_size : ℕ}
    (hsize : mem_size ≤ (footprint n_bits).n_bytes_total) :
    ∃ array1 array2, rteBitmapInitWithAllSet n_bits mem mem_size =
        some (some (setup (footprint n_bits) array1 array2)) ∧
      Summary (setup (footprint n_bits) array1 array2) ∧
      ∀ p, (setup (footprint n_bits) array1 array2).Has p ↔ p < n_bits := by
  obtain ⟨-, hbits, hlast, hlines, hcovered, -⟩ := footprint_spec hpos hmax
  have hbad : ¬ (n_bits = 0 ∨ mem = 0 ∨ mem % cacheLineSize ≠ 0) := by
    rintro (h | h | h)
    · omega
    · exact hmem.1 h
    · exact h hmem.2
  rw [rteBitmapInitWithAllSet, if_neg hbad]
  simp only [if_neg (not_lt.mpr hsize)]
  generalize footprint n_bits = f at *
  obtain ⟨lines, hf⟩ := hlines
  have hdiv : f.array2_slabs / clSlabSize = lines := by
    rw [hf]
    exact Nat.mul_div_cancel_left _ (by decide)
  have hsummary : f.array2_slabs / clSlabSize ≤ slabBitSize * f.array1_slabs := by
    simp only [slabBitSize, clSlabSize, clBitSize, cacheLineSize] at *
    omega
  obtain ⟨array1, h1, hbits1⟩ :=
    clearSlabOverheadBits_spec (fun _ => BitVec.allOnes 64) hsummary
  obtain ⟨array2, h2, hbits2⟩ := clearSlabOverheadBits_spec (fun _ => BitVec.allOnes 64) hbits
  have hall : ∀ o < slabBitSize, (BitVec.allOnes 64).getLsbD o = true := by
    intro o ho
    rw [BitVec.getLsbD_allOnes]
    exact decide_eq_true ho
  have hhas : ∀ p, (setup f array1 array2).Has p ↔ p < n_bits := by
    intro p
    have hmod : p % slabBitSize < slabBitSize := Nat.mod_lt _ (by decide)
    have hsplit : slabBitSize * (p / slabBitSize) + p % slabBitSize = p := Nat.div_add_mod _ _
    change p / slabBitSize < f.array2_slabs ∧
      (array2 (p / slabBitSize)).getLsbD (p % slabBitSize) = true ↔ _
    constructor
    · rintro ⟨hlt, hbit⟩
      have hbit' := ((hbits2 _ _ hlt hmod).mp hbit).2
      rwa [hsplit] at hbit'
    · intro hp
      have hlt : p / slabBitSize < f.array2_slabs := by
        simp only [slabBitSize] at *
        omega
      exact ⟨hlt, (hbits2 _ _ hlt hmod).mpr ⟨hall _ hmod, by rwa [hsplit]⟩⟩
  refine ⟨array1, array2, by rw [h1, h2]; rfl, fun j => ?_, hhas⟩
  have hmod : j % slabBitSize < slabBitSize := Nat.mod_lt _ (by decide)
  have hsplit : slabBitSize * (j / slabBitSize) + j % slabBitSize = j := Nat.div_add_mod _ _
  have hmarked : (setup f array1 array2).Marked j ↔ j < lines := by
    change j / slabBitSize < f.array1_slabs ∧
      (array1 (j / slabBitSize)).getLsbD (j % slabBitSize) = true ↔ _
    constructor
    · rintro ⟨hlt, hbit⟩
      have hbit' := ((hbits1 _ _ hlt hmod).mp hbit).2
      rwa [hsplit, hdiv] at hbit'
    · intro hj
      have hlt : j / slabBitSize < f.array1_slabs := by
        simp only [slabBitSize, clSlabSize, clBitSize, cacheLineSize] at *
        omega
      exact ⟨hlt, (hbits1 _ _ hlt hmod).mpr ⟨hall _ hmod, by rwa [hsplit, hdiv]⟩⟩
  rw [hmarked]
  simp only [full_iff, hhas]
  constructor
  · intro hj
    refine ⟨j * clSlabSize, ⟨j * clBitSize, ?_, ?_⟩, ?_⟩
    · simp only [slabBitSize, clSlabSize, clBitSize, cacheLineSize] at *
      omega
    · simp only [slabBitSize, clSlabSize, clBitSize, cacheLineSize] at *
      omega
    · exact Nat.mul_div_cancel _ (by decide)
  · rintro ⟨i, ⟨p, hp, rfl⟩, rfl⟩
    simp only [slabBitSize, clSlabSize, clBitSize, cacheLineSize] at *
    omega

end Bitmap
