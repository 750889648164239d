import DpdkStudy.Bitmap.Summary
import DpdkStudy.Lib.Cyclic

/-!
# Scanning a bitmap

A scan stops behind a slab, in a line or at its end, and the next one goes on
there (`place`). It returns the next slab that is not zero from there on, with a
wrap-around (`scan_spec`): first in the line, then in the next line that is
marked, which is looked for in the slab of `array1` and then in the others.
-/

open Nat

namespace Bitmap

open Function Cyclic

variable {bmp bmp' : RteBitmap} {n_bits : ℕ}

/-! ## Where a scan goes on -/

/-- **Where a scan has stopped**: behind a slab of the line that it has found
last, or at the end of the line. -/
structure Cursor (bmp : RteBitmap) : Prop where
  index1_lt : bmp.index1 < bmp.array1_size
  offset1_lt : bmp.offset1 < slabBitSize
  inLine : bmp.go2 ≠ 0 → bmp.index2 < bmp.array2_size ∧ bmp.go2 = bmp.index2 % clSlabSize ∧
    bmp.index2 / clSlabSize = slabBitSize * bmp.index1 + bmp.offset1

/-- The slab at which the next scan begins. -/
def RteBitmap.place (bmp : RteBitmap) : ℕ :=
  if bmp.go2 = 0 then clSlabSize * (slabBitSize * bmp.index1 + bmp.offset1 + 1) else bmp.index2

/-- Two bitmaps have the same bits, and may differ in where a scan goes on. -/
def SameBits (bmp bmp' : RteBitmap) : Prop :=
  bmp'.array1 = bmp.array1 ∧ bmp'.array2 = bmp.array2 ∧ bmp'.array1_size = bmp.array1_size ∧
    bmp'.array2_size = bmp.array2_size

theorem SameBits.refl (bmp : RteBitmap) : SameBits bmp bmp := ⟨rfl, rfl, rfl, rfl⟩

theorem SameBits.trans {bmp'' : RteBitmap} (h : SameBits bmp bmp') (h' : SameBits bmp' bmp'') :
    SameBits bmp bmp'' :=
  ⟨h'.1.trans h.1, h'.2.1.trans h.2.1, h'.2.2.1.trans h.2.2.1, h'.2.2.2.trans h.2.2.2⟩

theorem SameBits.full (h : SameBits bmp bmp') : bmp'.Full = bmp.Full := by
  funext i
  unfold RteBitmap.Full
  rw [h.2.1, h.2.2.2]

theorem SameBits.has (h : SameBits bmp bmp') : bmp'.Has = bmp.Has := by
  funext p
  unfold RteBitmap.Has
  rw [h.2.1, h.2.2.2]

theorem SameBits.sized (h : SameBits bmp bmp') (hs : Sized n_bits bmp) : Sized n_bits bmp' := by
  obtain ⟨-, -, h1, h2⟩ := h
  exact ⟨by rw [h2]; exact hs.bits, by rw [h2]; exact hs.lines, by rw [h1, h2]; exact hs.covered,
    by rw [h1]; exact hs.pow, by rw [h2]; exact hs.small⟩

theorem SameBits.summary (h : SameBits bmp bmp') (hsum : Summary bmp) : Summary bmp' := by
  intro j
  rw [h.full, ← hsum j]
  unfold RteBitmap.Marked
  rw [h.1, h.2.2.1]

/-! ## Reading a line -/

/-- **`__rte_bitmap_scan_read`** from a slab of a line on: the first slab that is
not zero is stored, or the line ends. -/
theorem readLine_spec (bmp : RteBitmap) {l : ℕ} (o : ℕ) {n : ℕ} (hgo : bmp.go2 ≠ 0)
    (hidx : bmp.index2 = clSlabSize * l + o)
    (ho : o < clSlabSize) (hfits : clSlabSize * l + clSlabSize ≤ bmp.array2_size)
    (hsmall : bmp.array2_size ≤ 2 ^ 26) (hn : clSlabSize ≤ o + n) :
    ((∀ i, clSlabSize * l + o ≤ i → i < clSlabSize * l + clSlabSize → bmp.array2 i = 0) ∧
      RteBitmap.readLine (n + 1) bmp =
        some (none, { bmp with index2 := clSlabSize * l + clSlabSize, go2 := 0 })) ∨
    ∃ r, clSlabSize * l + o ≤ r ∧ r < clSlabSize * l + clSlabSize ∧ bmp.array2 r ≠ 0 ∧
      (∀ i, clSlabSize * l + o ≤ i → i < r → bmp.array2 i = 0) ∧
      RteBitmap.readLine (n + 1) bmp =
        some (some (slabBitSize * r, bmp.array2 r),
          { bmp with index2 := r + 1, go2 := (r + 1) % clSlabSize }) := by
  induction n generalizing bmp o with
  | zero => omega
  | succ n ih =>
    have hlt : bmp.index2 < bmp.array2_size := by omega
    have hnext : (bmp.index2 + 1) % word32 = bmp.index2 + 1 := by
      simp only [word32]
      omega
    rw [RteBitmap.readLine, if_neg hgo, if_pos hlt]
    simp only [hnext]
    by_cases hslab : bmp.array2 bmp.index2 = 0
    swap
    · refine Or.inr ⟨bmp.index2, by omega, by omega, hslab, fun i hi hi' => by omega, ?_⟩
      have hpos : bmp.index2 * slabBitSize % word32 = slabBitSize * bmp.index2 := by
        simp only [word32, slabBitSize]
        omega
      rw [if_pos hslab, hpos]
    rw [if_neg (not_not.mpr hslab)]
    by_cases hlast : o + 1 = clSlabSize
    · have hend : bmp.index2 + 1 = clSlabSize * l + clSlabSize := by omega
      have hgo' : (bmp.index2 + 1) % clSlabSize = 0 := by
        rw [hend]
        simp only [clSlabSize, clBitSize, cacheLineSize, slabBitSize]
        omega
      refine Or.inl ⟨fun i hi hi' => ?_, ?_⟩
      · have heq : i = bmp.index2 := by omega
        rw [heq, hslab]
      · rw [hgo', hend]
        cases n <;> rfl
    · have hgo' : (bmp.index2 + 1) % clSlabSize ≠ 0 := by
        rw [hidx]
        simp only [clSlabSize, clBitSize, cacheLineSize, slabBitSize] at *
        omega
      have hidx' : bmp.index2 + 1 = clSlabSize * l + (o + 1) := by omega
      have hrest := ih
        { bmp with index2 := bmp.index2 + 1, go2 := (bmp.index2 + 1) % clSlabSize } (o + 1) hgo'
        hidx' (by omega) hfits hsmall (by omega)
      rcases hrest with ⟨hzero, hread⟩ | ⟨r, hlow, hhigh, hr, hzero, hread⟩
      · refine Or.inl ⟨fun i hi hi' => ?_, hread⟩
        by_cases heq : i = bmp.index2
        · rw [heq, hslab]
        · exact hzero i (by omega) hi'
      · refine Or.inr ⟨r, by omega, hhigh, hr, fun i hi hi' => ?_, hread⟩
        by_cases heq : i = bmp.index2
        · rw [heq, hslab]
        · exact hzero i (by omega) hi'

/-! ## Looking for a line -/

/-- `rte_bsf64_safe` finds the lowest bit. -/
theorem rteBsf64Safe_spec (v : BitVec 64) :
    (rteBsf64Safe v = none ∧ v = 0) ∨ ∃ o, rteBsf64Safe v = some o ∧ o < 64 ∧
      v.getLsbD o = true ∧ ∀ o' < o, v.getLsbD o' = false := by
  cases hfind : rteBsf64Safe v with
  | none =>
    refine Or.inl ⟨rfl, ?_⟩
    by_contra hv
    obtain ⟨o, ho, hbit⟩ := (ne_zero_iff v).mp hv
    exact absurd hbit (List.find?_eq_none.mp hfind o (List.mem_range.mpr ho))
  | some o =>
    obtain ⟨hbit, i, hi, hio, hbefore⟩ := List.find?_eq_some_iff_getElem.mp hfind
    rw [List.length_range] at hi
    rw [List.getElem_range] at hio
    subst hio
    refine Or.inr ⟨i, rfl, hi, hbit, fun o' ho' => ?_⟩
    simpa using hbefore o' ho'

/-- The next slab of `array1`, around. -/
theorem index1Inc_spec {k : ℕ} (hk : k ≤ 17) (hsize : bmp.array1_size = 2 ^ k)
    (hlt : bmp.index1 < bmp.array1_size) :
    bmp.index1Inc = { bmp with index1 := (bmp.index1 + 1) % bmp.array1_size } := by
  have hpow : 2 ^ k ≤ 2 ^ 17 := Nat.pow_le_pow_right (by decide) hk
  have hpos := Nat.two_pow_pos k
  have hmask : (bmp.array1_size + (word32 - 1)) % word32 = 2 ^ k - 1 := by
    rw [hsize]
    simp only [word32]
    omega
  have hinc : (bmp.index1 + 1) % word32 = bmp.index1 + 1 := by
    simp only [word32]
    omega
  rw [RteBitmap.index1Inc, hmask, hinc, and_two_pow_sub_one_eq_mod, hsize]

/-- **The loop over the other slabs of `array1`** finds the first that is not
zero. -/
theorem searchSlabs_spec (bmp : RteBitmap) {k : ℕ} (hk : k ≤ 17) (hsize : bmp.array1_size = 2 ^ k)
    (hlt : bmp.index1 < bmp.array1_size) (n : ℕ) :
    ((∀ i < n, bmp.array1 ((bmp.index1 + i) % bmp.array1_size) = 0) ∧
      RteBitmap.searchSlabs n bmp =
        some (false, { bmp with index1 := (bmp.index1 + n) % bmp.array1_size })) ∨
    ∃ i < n, ∃ o < 64, (bmp.array1 ((bmp.index1 + i) % bmp.array1_size)).getLsbD o = true ∧
      (∀ o' < o, (bmp.array1 ((bmp.index1 + i) % bmp.array1_size)).getLsbD o' = false) ∧
      (∀ i' < i, bmp.array1 ((bmp.index1 + i') % bmp.array1_size) = 0) ∧
      RteBitmap.searchSlabs n bmp = some (true,
        { bmp with index1 := (bmp.index1 + i) % bmp.array1_size, offset1 := o }) := by
  induction n generalizing bmp with
  | zero =>
    refine Or.inl ⟨fun i hi => absurd hi (not_lt_zero i), ?_⟩
    rw [RteBitmap.searchSlabs, add_zero, mod_eq_of_lt hlt]
  | succ n ih =>
    have hfirst : (bmp.index1 + 0) % bmp.array1_size = bmp.index1 := mod_eq_of_lt hlt
    rw [RteBitmap.searchSlabs, if_pos hlt]
    rcases rteBsf64Safe_spec (bmp.array1 bmp.index1) with
      ⟨hnone, hzero⟩ | ⟨o, hsome, ho, hbit, hlow⟩
    · rw [hnone, index1Inc_spec hk hsize hlt]
      have hlt' : (bmp.index1 + 1) % bmp.array1_size < bmp.array1_size :=
        mod_lt _ (by omega)
      have hshift : ∀ i, ((bmp.index1 + 1) % bmp.array1_size + i) % bmp.array1_size =
          (bmp.index1 + (i + 1)) % bmp.array1_size := by
        intro i
        rw [mod_add_mod, add_assoc, add_comm 1 i]
      have hrest := ih { bmp with index1 := (bmp.index1 + 1) % bmp.array1_size } hsize hlt'
      simp only [hshift] at hrest
      rcases hrest with ⟨hall, hsearch⟩ | ⟨i, hi, o, ho, hbit, hlow, hbefore, hsearch⟩
      · refine Or.inl ⟨fun i hi => ?_, hsearch⟩
        cases i with
        | zero => rw [hfirst, hzero]
        | succ i => exact hall i (by omega)
      · refine Or.inr ⟨i + 1, by omega, o, ho, hbit, hlow, fun i' hi' => ?_, hsearch⟩
        cases i' with
        | zero => rw [hfirst, hzero]
        | succ i' => exact hbefore i' (by omega)
    · rw [hsome]
      refine Or.inr ⟨0, succ_pos n, o, ho, by rw [hfirst]; exact hbit,
        by rw [hfirst]; exact hlow, fun i' hi' => absurd hi' (not_lt_zero i'), ?_⟩
      rw [hfirst]

/-- **The bits of a slab behind the current one** (`__rte_bitmap_mask1_get`). -/
theorem getLsbD_mask1Get (bmp : RteBitmap) (v : BitVec 64) {o : ℕ} (ho : o < 64) :
    (v &&& bmp.mask1Get).getLsbD o = (v.getLsbD o && decide (bmp.offset1 < o)) := by
  rw [RteBitmap.mask1Get, BitVec.getLsbD_and, BitVec.getLsbD_shiftLeft, BitVec.getLsbD_not,
    BitVec.getLsbD_one]
  congr 1
  rw [Bool.eq_iff_iff]
  simp only [Bool.and_eq_true, Bool.not_eq_true', decide_eq_true_eq, decide_eq_false_iff_not,
    Bool.and_eq_false_iff]
  omega

/-- **`__rte_bitmap_scan_search`** finds the next line that is marked, around. -/
theorem scanSearch_spec (hs : Sized n_bits bmp) (hc : Cursor bmp) :
    ((∀ j, ¬ bmp.Marked j) ∧ bmp.scanSearch = some (false,
        { bmp with index1 := (bmp.index1 + 1) % bmp.array1_size, offset1 := 0 })) ∨
    ∃ s o, s < bmp.array1_size ∧ o < slabBitSize ∧
      IsNext bmp.Marked (slabBitSize * bmp.index1 + bmp.offset1 + 1) (slabBitSize * s + o) ∧
      bmp.scanSearch = some (true, { bmp with index1 := s, offset1 := o }) := by
  obtain ⟨k, hk, hsize⟩ := hs.pow
  have hlt := hc.index1_lt
  have hoff := hc.offset1_lt
  have hsplit : ∀ s, ∀ o < slabBitSize, (slabBitSize * s + o) / slabBitSize = s ∧
      (slabBitSize * s + o) % slabBitSize = o := by
    intro s o ho
    simp only [slabBitSize] at *
    omega
  have hmarked : ∀ s < bmp.array1_size, ∀ o < slabBitSize,
      (bmp.Marked (slabBitSize * s + o) ↔ (bmp.array1 s).getLsbD o = true) := by
    intro s hs' o ho
    unfold RteBitmap.Marked
    rw [(hsplit s o ho).1, (hsplit s o ho).2]
    exact and_iff_right hs'
  rw [RteBitmap.scanSearch, if_pos hlt]
  rcases rteBsf64Safe_spec (bmp.array1 bmp.index1 &&& bmp.mask1Get) with
    ⟨hnone, hzero⟩ | ⟨o, hsome, ho, hbit, hlow⟩
  swap
  · -- a line of the current slab
    rw [hsome]
    rw [getLsbD_mask1Get bmp _ ho, Bool.and_eq_true, decide_eq_true_eq] at hbit
    refine Or.inr ⟨bmp.index1, o, hlt, ho, ⟨(hmarked _ hlt o ho).mpr hbit.1, ?_, ?_⟩, rfl⟩
    · intro _ x hx hcx
      by_contra hxr
      obtain ⟨hxlt, hxbit⟩ := hx
      have hslab : x / slabBitSize = bmp.index1 := by
        simp only [slabBitSize] at *
        omega
      rw [hslab] at hxbit
      have hmod : x % slabBitSize < 64 := mod_lt _ (by decide)
      have hxlow := hlow (x % slabBitSize) (by simp only [slabBitSize] at *; omega)
      rw [getLsbD_mask1Get bmp _ hmod, hxbit, Bool.true_and, decide_eq_false_iff_not] at hxlow
      simp only [slabBitSize] at *
      omega
    · intro hrc
      omega
  -- the other slabs
  have hleft : ∀ x, bmp.Marked x → slabBitSize * bmp.index1 + bmp.offset1 + 1 ≤ x →
      slabBitSize * (bmp.index1 + 1) ≤ x := by
    intro x hx hcx
    by_contra hxr
    obtain ⟨hxlt, hxbit⟩ := hx
    have hslab : x / slabBitSize = bmp.index1 := by
      simp only [slabBitSize] at *
      omega
    rw [hslab] at hxbit
    have hmod : x % slabBitSize < 64 := mod_lt _ (by decide)
    have hxzero := getLsbD_mask1Get bmp (bmp.array1 bmp.index1) hmod
    rw [hzero, hxbit, Bool.true_and] at hxzero
    have hbehind : bmp.offset1 < x % slabBitSize := by
      simp only [slabBitSize] at *
      omega
    simp [hbehind] at hxzero
  rw [hnone, index1Inc_spec hk hsize hlt]
  have hlt' : (bmp.index1 + 1) % bmp.array1_size < bmp.array1_size := mod_lt _ (by omega)
  have hshift : ∀ i, ((bmp.index1 + 1) % bmp.array1_size + i) % bmp.array1_size =
      (bmp.index1 + 1 + i) % bmp.array1_size := fun i => mod_add_mod _ _ _
  have hsearch := searchSlabs_spec
    { bmp with index1 := (bmp.index1 + 1) % bmp.array1_size, offset1 := 0 } hk hsize hlt'
    bmp.array1_size
  simp only [hshift] at hsearch
  rcases hsearch with ⟨hall, hsearch⟩ | ⟨i, hi, o, ho, hbit, hlow, hbefore, hsearch⟩
  · refine Or.inl ⟨fun j hj => ?_, ?_⟩
    · obtain ⟨hjlt, hjbit⟩ := hj
      -- the search has come to each slab
      have hplace : ∃ i < bmp.array1_size,
          (bmp.index1 + 1 + i) % bmp.array1_size = j / slabBitSize := by
        refine ⟨(j / slabBitSize + (bmp.array1_size - (bmp.index1 + 1))) % bmp.array1_size,
          mod_lt _ (by omega), ?_⟩
        rw [add_mod_mod, show bmp.index1 + 1 + (j / slabBitSize +
          (bmp.array1_size - (bmp.index1 + 1))) = j / slabBitSize + bmp.array1_size by omega,
          add_mod_right, mod_eq_of_lt hjlt]
      obtain ⟨i, hi, heq⟩ := hplace
      rw [← heq, hall i hi] at hjbit
      simp at hjbit
    · rw [add_mod_right] at hsearch
      exact hsearch
  · refine Or.inr ⟨_, o, mod_lt _ (by omega), ho, ?_, hsearch⟩
    have hslab := mod_lt (bmp.index1 + 1 + i) (show 0 < bmp.array1_size by omega)
    have hnext : IsNext (fun s => s < bmp.array1_size ∧ bmp.array1 s ≠ 0) (bmp.index1 + 1)
        ((bmp.index1 + 1 + i) % bmp.array1_size) := by
      refine isNext_of_search (fun x hx => hx.1) (by omega) hi ⟨hslab, ?_⟩ (fun i' hi' hx => ?_)
      · exact (ne_zero_iff _).mpr ⟨o, ho, hbit⟩
      · exact hx.2 (hbefore i' hi')
    refine IsNext.of_blocks (k := slabBitSize) (by decide) (fun x hx => ?_) ?_ hleft hnext
      ((hmarked _ hslab o ho).mpr hbit) (hsplit _ o ho).1 (fun x hx hxs => ?_)
    · exact ⟨hx.1, (ne_zero_iff _).mpr ⟨_, mod_lt _ (by decide), hx.2⟩⟩
    · simp only [slabBitSize] at *
      omega
    · by_contra hxr
      obtain ⟨-, hxbit⟩ := hx
      rw [hxs] at hxbit
      have hxo : x % slabBitSize < o := by
        simp only [slabBitSize] at *
        omega
      rw [hlow _ hxo] at hxbit
      cases hxbit

/-! ## A scan -/

theorem cursor_behind {s o r : ℕ} (hdvd : clSlabSize ∣ bmp.array2_size)
    (hs : s < bmp.array1_size) (ho : o < slabBitSize)
    (hline : r / clSlabSize = slabBitSize * s + o) (hr : r < bmp.array2_size) :
    Cursor { bmp with
        index1 := s, offset1 := o, index2 := r + 1, go2 := (r + 1) % clSlabSize } ∧
      RteBitmap.place { bmp with
        index1 := s, offset1 := o, index2 := r + 1, go2 := (r + 1) % clSlabSize } = r + 1 := by
  obtain ⟨lines, hlines⟩ := hdvd
  refine ⟨⟨hs, ho, fun hgo => ?_⟩, ?_⟩
  · change (r + 1) % clSlabSize ≠ 0 at hgo
    have hin : r + 1 < bmp.array2_size := by
      simp only [clSlabSize, clBitSize, cacheLineSize, slabBitSize] at *
      omega
    have hsame : (r + 1) / clSlabSize = slabBitSize * s + o := by
      simp only [clSlabSize, clBitSize, cacheLineSize, slabBitSize] at *
      omega
    exact ⟨hin, rfl, hsame⟩
  · change (if (r + 1) % clSlabSize = 0 then clSlabSize * (slabBitSize * s + o + 1) else r + 1) = _
    split_ifs with hgo
    · simp only [clSlabSize, clBitSize, cacheLineSize, slabBitSize] at *
      omega
    · rfl

/-- `__rte_bitmap_scan_read` from where the last scan has stopped. -/
theorem scanRead_spec (hs : Sized n_bits bmp) (hc : Cursor bmp) :
    ((∀ i, bmp.Full i → bmp.place ≤ i →
        clSlabSize * (slabBitSize * bmp.index1 + bmp.offset1 + 1) ≤ i) ∧
      ∃ index2, bmp.scanRead = some (none, { bmp with index2 := index2, go2 := 0 })) ∨
    ∃ r, bmp.Full r ∧ bmp.place ≤ r ∧ r / clSlabSize = slabBitSize * bmp.index1 + bmp.offset1 ∧
      (∀ i, bmp.Full i → bmp.place ≤ i → r ≤ i) ∧
      bmp.scanRead = some (some (slabBitSize * r, bmp.array2 r),
        { bmp with index2 := r + 1, go2 := (r + 1) % clSlabSize }) := by
  obtain ⟨lines, hlines⟩ := hs.lines
  by_cases hgo : bmp.go2 = 0
  · have hplace : bmp.place = clSlabSize * (slabBitSize * bmp.index1 + bmp.offset1 + 1) :=
      if_pos hgo
    refine Or.inl ⟨fun i _ hi => hplace ▸ hi, bmp.index2, ?_⟩
    rw [RteBitmap.scanRead, RteBitmap.readLine, if_pos hgo, ← hgo]
  · have hplace : bmp.place = bmp.index2 := if_neg hgo
    obtain ⟨hlt, -, hline⟩ := hc.inLine hgo
    have hidx : bmp.index2 = clSlabSize * (bmp.index2 / clSlabSize) + bmp.index2 % clSlabSize :=
      (div_add_mod _ _).symm
    have hmod : bmp.index2 % clSlabSize < clSlabSize := mod_lt _ (by decide)
    have hfits : clSlabSize * (bmp.index2 / clSlabSize) + clSlabSize ≤ bmp.array2_size := by
      simp only [clSlabSize, clBitSize, cacheLineSize, slabBitSize] at *
      omega
    have hread := readLine_spec bmp _ hgo hidx hmod hfits hs.small (le_add_left _ _)
    rw [← hidx, hline] at hread
    rw [hplace]
    rcases hread with ⟨hzero, hread⟩ | ⟨r, hlow, hhigh, hr, hzero, hread⟩
    · refine Or.inl ⟨fun i hi hle => ?_, _, hread⟩
      by_contra hlt'
      refine hi.2 (hzero i hle ?_)
      rw [mul_succ] at hlt'
      omega
    · refine Or.inr ⟨r, ⟨?_, hr⟩, hlow, ?_, fun i hi hle => ?_, hread⟩
      · rw [hline] at hfits
        omega
      · simp only [clSlabSize, clBitSize, cacheLineSize, slabBitSize] at *
        omega
      · by_contra hlt'
        exact hi.2 (hzero i hle (not_le.mp hlt'))

/-- **`rte_bitmap_scan`** returns the next slab that is not zero from where the last
one has stopped, and stops behind it. It returns zero where there is none. -/
theorem scan_spec (hs : Sized n_bits bmp) (hsum : Summary bmp) (hc : Cursor bmp) :
    ((∀ i, ¬ bmp.Full i) ∧ ∃ bmp', bmp.scan = some (⟨0, none⟩, bmp') ∧ SameBits bmp bmp' ∧
      Cursor bmp') ∨
    ∃ r bmp', bmp.scan = some (⟨1, some (slabBitSize * r, bmp.array2 r)⟩, bmp') ∧
      SameBits bmp bmp' ∧ Cursor bmp' ∧ IsNext bmp.Full bmp.place r ∧ bmp'.place = r + 1 := by
  rw [RteBitmap.scan]
  rcases scanRead_spec hs hc with ⟨hleft, index2, hread⟩ | ⟨r, hr, hle, hline, hfirst, hread⟩
  swap
  · rw [hread]
    obtain ⟨hcursor, hplace⟩ := cursor_behind hs.lines hc.index1_lt hc.offset1_lt hline hr.1
    exact Or.inr ⟨r, _, rfl, ⟨rfl, rfl, rfl, rfl⟩, hcursor,
      ⟨hr, fun _ x hx hcx => hfirst x hx hcx, fun hlt => absurd hlt (not_lt.mpr hle)⟩, hplace⟩
  rw [hread]
  simp only [Option.bind_some, Option.isSome_none, Bool.false_eq_true, if_false]
  -- the line is at its end
  have hs' : Sized n_bits { bmp with index2 := index2, go2 := 0 } :=
    ⟨hs.bits, hs.lines, hs.covered, hs.pow, hs.small⟩
  have hc' : Cursor { bmp with index2 := index2, go2 := 0 } :=
    ⟨hc.index1_lt, hc.offset1_lt, fun hgo => absurd rfl hgo⟩
  rcases scanSearch_spec hs' hc' with ⟨hnone, hsearch⟩ | ⟨s, o, hslt, ho, hnext, hsearch⟩
  · rw [hsearch]
    refine Or.inl ⟨fun i hi => hnone _ ((hsum _).mpr ⟨i, hi, rfl⟩), _, rfl, ⟨rfl, rfl, rfl, rfl⟩,
      mod_lt _ ?_, (show 0 < slabBitSize by decide), fun hgo => absurd rfl hgo⟩
    exact zero_lt_of_lt hc.index1_lt
  · rw [hsearch]
    simp only [Option.bind_some, if_true]
    obtain ⟨i, hi, hiline⟩ := (hsum _).mp hnext.holds
    obtain ⟨lines, hlines⟩ := hs.lines
    have hsmall := hs.small
    have hfits : clSlabSize * (slabBitSize * s + o) + clSlabSize ≤ bmp.array2_size := by
      have hlt := hi.1
      simp only [clSlabSize, clBitSize, cacheLineSize, slabBitSize] at *
      omega
    have hidx : (s * slabBitSize + o) * clSlabSize % word32 =
        clSlabSize * (slabBitSize * s + o) + 0 := by
      simp only [clSlabSize, clBitSize, cacheLineSize, slabBitSize, word32] at *
      omega
    have hread' := readLine_spec
      (RteBitmap.scanReadInit { bmp with index1 := s, offset1 := o, index2 := index2, go2 := 0 }) 0
      one_ne_zero hidx (by decide) hfits hs.small (n := clSlabSize) (le_add_left _ _)
    rcases hread' with ⟨hzero, -⟩ | ⟨r, hlow, hhigh, hr, hzero, hread'⟩
    · -- the line that is marked is not empty
      refine absurd (hzero i ?_ ?_) hi.2
      · simp only [clSlabSize, clBitSize, cacheLineSize, slabBitSize] at *
        omega
      · simp only [clSlabSize, clBitSize, cacheLineSize, slabBitSize] at *
        omega
    · have hrlt : r < bmp.array2_size := by omega
      have hrline : r / clSlabSize = slabBitSize * s + o := by
        simp only [clSlabSize, clBitSize, cacheLineSize, slabBitSize] at *
        omega
      obtain ⟨hcursor, hplace⟩ := cursor_behind hs.lines hslt ho hrline hrlt
      rw [RteBitmap.scanRead, hread']
      refine Or.inr ⟨r, _, rfl, ⟨rfl, rfl, rfl, rfl⟩, hcursor, ?_, hplace⟩
      refine IsNext.of_blocks (k := clSlabSize) (by decide)
        (fun x hx => (hsum _).mpr ⟨x, hx, rfl⟩) ?_ hleft hnext ⟨hrlt, hr⟩ hrline
        (fun x hx hxline => ?_)
      · unfold RteBitmap.place
        split_ifs with hgo
        · exact le_refl _
        · obtain ⟨-, -, hline⟩ := hc.inLine hgo
          simp only [clSlabSize, clBitSize, cacheLineSize, slabBitSize] at *
          omega
      · by_contra hxr
        refine hx.2 (hzero x ?_ (not_le.mp hxr))
        rw [add_zero, ← hxline]
        exact mul_div_le x clSlabSize

end Bitmap
