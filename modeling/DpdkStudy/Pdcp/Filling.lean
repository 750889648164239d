import DpdkStudy.Pdcp.Slabs

/-!
# How a status report is filled

The slabs of a report are those of the window from the first COUNT on, around and around, each
put together from two of them (`Wheel.word`). The two loops of `pdcp_cnt_report_fill` write them
if there is a slab with a bit that is not in front of the first one and not behind the report;
if there is none, they do not come to an end, or write behind the room.
-/

open List Nat

namespace Pdcp

open List (replicate)
open Bitmap (RteBitmap slabBitSize SameBits)
open Cyclic (IsNext)

variable {n : ℕ} {bits : Set ℕ} {bmp bmp' : RteBitmap} {start passes : ℕ}

/-! ## The first loop -/

theorem div_slab (r : ℕ) : slabBitSize * r / slabBitSize = r := by
  simp [slabBitSize]

/-- The first loop stops at a slab with a bit, if it stops. -/
theorem scanToStart_done (hi : Bitmap.Inv n bmp bits) {r : ℕ} {slab : BitVec 64}
    (h : scanToStart start passes bmp = .done (bmp', r, slab)) :
    bmp.Full r ∧ start ≤ r ∧ SameBits bmp bmp' ∧ Bitmap.Inv n bmp' bits := by
  induction passes generalizing bmp with
  | zero => cases h
  | succ passes ih =>
    rw [scanToStart] at h
    rcases Bitmap.scan_spec hi.sized hi.summary hi.cursor with ⟨-, bmp₁, hscan, -⟩ |
      ⟨r₁, bmp₁, hscan, hsame, hc, hnext, -⟩
    · rw [hscan] at h
      cases h
    · rw [hscan] at h
      simp only [div_slab] at h
      have hi₁ := hi.same hsame hc
      split_ifs at h with hle
      · cases h
        exact ⟨hnext.holds, hle, hsame, hi₁⟩
      · obtain ⟨hfull, hler, hsame', hi'⟩ := ih hi₁ h
        rw [hsame.full] at hfull
        exact ⟨hfull, hler, hsame.trans hsame', hi'⟩

/-- Where the first loop is: a scan is in front of the first slab of the report, or it is behind
all slabs and goes on at the beginning. `m` bounds the scans that are left. -/
def Ahead (start : ℕ) (bmp : RteBitmap) (m : ℕ) : Prop :=
  bmp.array2_size ≤ bmp.place ∧ m = start + 1 ∨ bmp.place ≤ start ∧ m = start - bmp.place

/-- **The first loop finds the first slab** with a bit that is not in front of the report. -/
theorem scanToStart_spec (hi : Bitmap.Inv n bmp bits) (hbits : bits ≠ ∅) {t : ℕ}
    (ht : bmp.Full t) (hle : start ≤ t) {m : ℕ} (hm : Ahead start bmp m) :
    ∃ bmp' r, (∀ passes, m < passes →
        scanToStart start passes bmp = .done (bmp', r, bmp.array2 r)) ∧
      SameBits bmp bmp' ∧ Bitmap.Inv n bmp' bits ∧ bmp'.place = r + 1 ∧ bmp.Full r ∧ start ≤ r ∧
      ∀ x, bmp.Full x → start ≤ x → r ≤ x := by
  induction m using Nat.strong_induction_on generalizing bmp with
  | _ m ih =>
    obtain ⟨r, hscan, hsame, hi', hnext, hplace⟩ := hi.afterScan_spec hbits
    -- nothing is passed over that is not in front of the report
    have hfirst : ∀ x, bmp.Full x → start ≤ x → r ≤ x := by
      intro x hx hstart
      by_cases hr : bmp.place ≤ r
      · refine hnext.ahead hr x hx ?_
        rcases hm with ⟨hbehind, -⟩ | ⟨hplace, -⟩
        · exact absurd (lt_of_lt_of_le hnext.holds.1 hbehind) (not_lt.mpr hr)
        · exact hplace.trans hstart
      · exact (hnext.around (not_le.mp hr) x hx).2
    by_cases hstop : start ≤ r
    · refine ⟨_, r, fun passes hpasses => ?_, hsame, hi', hplace, hnext.holds, hstop, hfirst⟩
      obtain ⟨p, rfl⟩ := exists_eq_succ_of_ne_zero (ne_of_gt (zero_lt_of_lt hpasses))
      rw [scanToStart, hscan]
      simp only [div_slab, if_pos hstop]
    · have hm' : start - (r + 1) < m := by
        rcases hm with ⟨-, rfl⟩ | ⟨hplace', rfl⟩
        · omega
        · have hr : bmp.place ≤ r := by
            by_contra hr
            have hbehind := (hnext.around (not_le.mp hr) t ht).1
            omega
          omega
      have hahead : Ahead start (Bitmap.afterScan bmp) (start - (r + 1)) :=
        .inr ⟨by omega, by rw [hplace]⟩
      obtain ⟨bmp', r', hrun, hsame', hi'', hplace', hfull, hle', hleast⟩ :=
        ih _ hm' hi' (by rwa [hsame.full]) hahead
      rw [hsame.full] at hfull hleast
      refine ⟨bmp', r', fun passes hpasses => ?_, hsame.trans hsame', hi'', hplace', hfull, hle',
        hleast⟩
      obtain ⟨p, rfl⟩ := exists_eq_succ_of_ne_zero (ne_of_gt (zero_lt_of_lt hpasses))
      rw [scanToStart, hscan]
      simp only [div_slab, if_neg hstop]
      rw [hrun p (by omega), hsame.2.1]

/-! ## Around the window -/

/-- **The next slab is some way ahead**, between one and all the slabs of the window. -/
theorem next_ahead {P : ℕ → Prop} {nb a r : ℕ} (ha : a < nb) (hP : ∀ x, P x → x < nb)
    (h : IsNext P (a + 1) r) :
    ∃ d, 1 ≤ d ∧ d ≤ nb ∧ (r + nb - a) % nb + (if r = a then nb else 0) = d ∧
      r = (a + d) % nb ∧ ∀ e, 0 < e → e < d → ¬ P ((a + e) % nb) := by
  have hr := hP r h.holds
  rcases lt_trichotomy a r with hlt | rfl | hgt
  · refine ⟨r - a, by omega, by omega, ?_, ?_, fun e he hed hfull => ?_⟩
    · rw [if_neg (by omega), show r + nb - a = r - a + nb by omega, add_mod_right,
        mod_eq_of_lt (by omega), add_zero]
    · rw [show a + (r - a) = r by omega, mod_eq_of_lt hr]
    · rw [mod_eq_of_lt (by omega)] at hfull
      have := h.ahead hlt _ hfull (by omega)
      omega
  · refine ⟨nb, by omega, le_rfl, ?_, ?_, fun e he hed hfull => ?_⟩
    · rw [if_pos rfl, Nat.add_sub_cancel_left, Nat.mod_self, Nat.zero_add]
    · rw [add_mod_right, mod_eq_of_lt ha]
    · have hmem := h.around (lt_succ_self a) _ hfull
      by_cases hin : a + e < nb
      · rw [mod_eq_of_lt hin] at hmem
        omega
      · rw [mod_eq_sub_mod (not_lt.mp hin), mod_eq_of_lt (by omega)] at hmem
        omega
  · refine ⟨r + nb - a, by omega, by omega, ?_, ?_, fun e he hed hfull => ?_⟩
    · rw [if_neg (by omega), mod_eq_of_lt (by omega), add_zero]
    · rw [show a + (r + nb - a) = r + nb by omega, add_mod_right, mod_eq_of_lt hr]
    · have hmem := h.around (by omega) _ hfull
      by_cases hin : a + e < nb
      · rw [mod_eq_of_lt hin] at hmem
        omega
      · rw [mod_eq_sub_mod (not_lt.mp hin), mod_eq_of_lt (by omega)] at hmem
        omega

/-- The slabs between two, from the distance of these. -/
theorem gap_mod {nb a d : ℕ} (ha : a < nb) (hd : 1 ≤ d) (hdn : d ≤ nb) :
    ((a + d) % nb + nb - a - 1) % nb = d - 1 := by
  by_cases hin : a + d < nb
  · rw [mod_eq_of_lt hin, show a + d + nb - a - 1 = d - 1 + nb by omega, add_mod_right,
      mod_eq_of_lt (by omega)]
  · rw [mod_eq_sub_mod (not_lt.mp hin), mod_eq_of_lt (by omega : a + d - nb < nb),
      show a + d - nb + nb - a - 1 = d - 1 by omega, mod_eq_of_lt (by omega)]

/-! ## The second loop -/

/-- **The slabs of a report**: those of the window from the first one on, around and around. -/
structure Wheel (al : Alignment) (bmp : RteBitmap) (s : ℕ) : Prop where
  full_lt : ∀ x, bmp.Full x → x < al.nb_slabs
  size : al.nb_slabs = bmp.array2_size
  le : al.nb_data_slabs ≤ al.nb_slabs
  stop : al.stop_slab_id = (s + al.nb_data_slabs) % al.nb_slabs
  shift : al.shift < slabBitSize

variable {al : Alignment} {s k : ℕ}

/-- A slab of the window, counted from the first one on and around. -/
def spoke (al : Alignment) (bmp : RteBitmap) (i : ℕ) : BitVec 64 := bmp.array2 (i % al.nb_slabs)

/-- **A slab of the report** is put together from two of the window. -/
def word (al : Alignment) (bmp : RteBitmap) (s j : ℕ) : BitVec 64 :=
  spoke al bmp (s + j) >>> al.shift ||| al.leftover (spoke al bmp (s + j + 1))

theorem leftover_zero (al : Alignment) : al.leftover 0 = 0 := by
  simp [Alignment.leftover, leftoverGet]

theorem Wheel.spoke_eq_zero (h : Wheel al bmp s) {i : ℕ} (hpos : 0 < al.nb_slabs)
    (hnot : ¬ bmp.Full (i % al.nb_slabs)) : spoke al bmp i = 0 := by
  by_contra hne
  refine hnot ⟨?_, hne⟩
  rw [← h.size]
  exact mod_lt _ hpos

/-- The slabs that one pass writes: all up to the next slab with a bit. -/
theorem pass_eq_words {d : ℕ} (hd : 1 ≤ d)
    (hzero : ∀ e, 0 < e → e < d → spoke al bmp (s + k + e) = 0) :
    (if d - 1 ≠ 0 then
      spoke al bmp (s + k) >>> al.shift ::
        (replicate (d - 1 - 1) 0 ++ [al.leftover (spoke al bmp (s + k + d))])
    else [spoke al bmp (s + k) >>> al.shift ||| al.leftover (spoke al bmp (s + k + d))]) =
      (range d).map fun e => word al bmp s (k + e) := by
  obtain rfl | ⟨c, rfl⟩ : d = 1 ∨ ∃ c, d = c + 2 := by
    rcases d with _ | _ | c
    · omega
    · exact .inl rfl
    · exact .inr ⟨c, rfl⟩
  · simp [word]
  · have hmiddle : (range c).map (fun e => word al bmp s (k + (e + 1))) = replicate c 0 := by
      refine eq_replicate_iff.mpr ⟨by simp, fun x hx => ?_⟩
      obtain ⟨e, he, rfl⟩ := mem_map.mp hx
      have hlt := mem_range.mp he
      have h₁ := hzero (e + 1) (by omega) (by omega)
      have h₂ := hzero (e + 2) (by omega) (by omega)
      rw [word, ← add_assoc s k, h₁, show s + k + (e + 1) + 1 = s + k + (e + 2) by omega, h₂,
        leftover_zero]
      simp
    have hfirst : word al bmp s k = spoke al bmp (s + k) >>> al.shift := by
      rw [word, hzero 1 (by omega) (by omega), leftover_zero]
      simp
    have hlast : word al bmp s (k + (c + 1)) = al.leftover (spoke al bmp (s + k + (c + 2))) := by
      rw [word, ← add_assoc s k, hzero (c + 1) (by omega) (by omega),
        show s + k + (c + 1) + 1 = s + k + (c + 2) by omega]
      simp
    rw [if_pos (by omega), range_succ_eq_map, map_cons, range_succ, map_map,
      map_append, show c + 2 - 1 - 1 = c by omega, ← hmiddle, ← hlast, ← hfirst]
    rfl

/-- **Where the second loop is**: the slabs up to one have been written, and the scan is behind
it. -/
structure Filled (al : Alignment) (bmp : RteBitmap) (s k : ℕ) (f : Filling) : Prop where
  out : f.out = (List.range k).map (word al bmp s)
  left : k + f.report_len = al.nb_data_slabs
  slab : f.slab = spoke al bmp (s + k)
  slab_id : f.slab_id = (s + k) % al.nb_slabs
  place : f.bmp.place = f.slab_id + 1
  same : SameBits bmp f.bmp

/-- **One pass** comes to the next slab with a bit, or to the end of the report. -/
theorem Filled.pass (h : Wheel al bmp s) (hbits : bits ≠ ∅) {f : Filling}
    (hf : Filled al bmp s k f) (hi : Bitmap.Inv n f.bmp bits) (hmore : f.report_len ≠ 0) :
    ∃ d f', 1 ≤ d ∧ (∀ p, al.fill (p + 1) f = al.fill p f') ∧
      f'.report_len + d = f.report_len ∧ SameBits bmp f'.bmp ∧ Bitmap.Inv n f'.bmp bits ∧
      f'.out = (range (k + d)).map (word al bmp s) ∧
      (f'.report_len ≠ 0 → Filled al bmp s (k + d) f') := by
  obtain ⟨r, hscan, hsame, hi', hnext, hplace⟩ := hi.afterScan_spec hbits
  rw [hf.place, hf.same.full] at hnext
  have hpos : 0 < al.nb_slabs := zero_lt_of_lt (h.full_lt r hnext.holds)
  have hid : f.slab_id < al.nb_slabs := hf.slab_id ▸ mod_lt _ hpos
  obtain ⟨d, hd, hdn, hdiff, hr, hbetween⟩ := next_ahead hid h.full_lt hnext
  have hleft := hf.left
  have hle := h.le
  have hzero : ∀ e, 0 < e → e < d → spoke al bmp (s + k + e) = 0 := fun e he hed =>
    h.spoke_eq_zero hpos (by
      have hnot := hbetween e he hed
      rwa [hf.slab_id, mod_add_mod] at hnot)
  have hput : ∀ c slabs, c ≤ f.report_len →
      slabs = (range c).map (fun e => word al bmp s (k + e)) →
      putSlabs al.nb_data_slabs f.out slabs =
        .done ((range (k + c)).map (word al bmp s)) := by
    rintro c slabs hc rfl
    have hfits : f.out.length + ((range c).map fun e => word al bmp s (k + e)).length ≤
        al.nb_data_slabs := by
      simp only [hf.out, length_map, length_range]
      omega
    rw [putSlabs, if_pos hfits, hf.out, range_add, map_append, map_map]
    rfl
  by_cases hout : f.report_len < d
  · -- the report ends before the next slab with a bit
    have hstop : al.stop_slab_id = (f.slab_id + f.report_len) % al.nb_slabs := by
      rw [h.stop, hf.slab_id, mod_add_mod, add_assoc, hf.left]
    have hzeros := gap_mod hid (one_le_iff_ne_zero.mpr hmore) (hout.le.trans hdn)
    rw [← hstop] at hzeros
    have hslabs := pass_eq_words (one_le_iff_ne_zero.mpr hmore)
      (fun e he hed => hzero e he (hed.trans hout))
    rw [hzero _ (pos_of_ne_zero hmore) hout, ← hf.slab] at hslabs
    refine ⟨f.report_len, {
        bmp := Bitmap.afterScan f.bmp
        out := (range (k + f.report_len)).map (word al bmp s)
        slab := 0
        slab_id := al.stop_slab_id
        next_pos := slabBitSize * r
        next_slab := 0
        report_len := f.report_len - f.report_len },
      one_le_iff_ne_zero.mpr hmore, fun p => ?_, by simp, hf.same.trans hsame, hi', rfl,
      fun hne => absurd (Nat.sub_self _) hne⟩
    rw [Alignment.fill, if_neg hmore, hscan]
    simp only [Option.getD_some, div_slab, hdiff, if_pos hout, hzeros]
    rw [hput _ _ le_rfl hslabs]
    rfl
  · have hin := not_lt.mp hout
    have hslab : f.bmp.array2 r = spoke al bmp (s + k + d) := by
      rw [spoke, hf.same.2.1, hr, hf.slab_id, mod_add_mod]
    have hzeros := gap_mod hid hd hdn
    rw [← hr] at hzeros
    have hslabs := pass_eq_words hd hzero
    rw [← hf.slab, ← hslab] at hslabs
    refine ⟨d, {
        bmp := Bitmap.afterScan f.bmp
        out := (range (k + d)).map (word al bmp s)
        slab := f.bmp.array2 r
        slab_id := r
        next_pos := slabBitSize * r
        next_slab := f.bmp.array2 r
        report_len := f.report_len - d },
      hd, fun p => ?_, Nat.sub_add_cancel hin, hf.same.trans hsame, hi', rfl, fun _ =>
      ⟨rfl, ?_, ?_, ?_, hplace, hf.same.trans hsame⟩⟩
    · rw [Alignment.fill, if_neg hmore, hscan]
      simp only [Option.getD_some, div_slab, hdiff, if_neg hout, hzeros]
      rw [hput _ _ hin hslabs]
      rfl
    · show k + d + (f.report_len - d) = _
      omega
    · rw [hslab, add_assoc]
    · show r = _
      rw [hr, hf.slab_id, mod_add_mod, add_assoc]

/-- The second loop changes no bits. -/
theorem fill_keeps {f : Filling} (hi : Bitmap.Inv n f.bmp bits) {out : List (BitVec 64)}
    (h : al.fill passes f = .done (bmp', out)) : SameBits f.bmp bmp' ∧ Bitmap.Inv n bmp' bits := by
  induction passes generalizing f with
  | zero => cases h
  | succ passes ih =>
    rw [Alignment.fill] at h
    by_cases hend : f.report_len = 0
    · rw [if_pos hend] at h
      cases h
      exact ⟨SameBits.refl _, hi⟩
    · rw [if_neg hend] at h
      obtain ⟨r, bmp₁, hscan, hsame, hc⟩ : ∃ r bmp₁, f.bmp.scan = some (r, bmp₁) ∧
          SameBits f.bmp bmp₁ ∧ Bitmap.Cursor bmp₁ := by
        rcases Bitmap.scan_spec hi.sized hi.summary hi.cursor with ⟨-, bmp₁, hscan, hsame, hc⟩ |
          ⟨r, bmp₁, hscan, hsame, hc, -⟩
        · exact ⟨_, bmp₁, hscan, hsame, hc⟩
        · exact ⟨_, bmp₁, hscan, hsame, hc⟩
      rw [hscan] at h
      simp only [putSlabs] at h
      split_ifs at h <;> first
        | cases h
        | (obtain ⟨hsame', hi'⟩ := ih (hi.same hsame hc) h
           exact ⟨hsame.trans hsame', hi'⟩)

/-- The second loop ends when nothing is left to write. -/
theorem fill_end {f : Filling} (hend : f.report_len = 0) (hpasses : 0 < passes) :
    al.fill passes f = .done (f.bmp, f.out) := by
  obtain ⟨p, rfl⟩ := exists_eq_succ_of_ne_zero hpasses.ne'
  rw [Alignment.fill, if_pos hend]

/-- The second loop writes the slabs of the report. -/
theorem fill_spec (h : Wheel al bmp s) (hbits : bits ≠ ∅) {f : Filling}
    (hf : Filled al bmp s k f) (hi : Bitmap.Inv n f.bmp bits) :
    ∃ bmp', (∀ passes, f.report_len < passes →
        al.fill passes f = .done (bmp', (range al.nb_data_slabs).map (word al bmp s))) ∧
      SameBits bmp bmp' := by
  obtain ⟨left, hleft⟩ : ∃ left, f.report_len = left := ⟨_, rfl⟩
  induction left using Nat.strong_induction_on generalizing k f with
  | _ left ih =>
    have hsum := hf.left
    by_cases hend : f.report_len = 0
    · refine ⟨f.bmp, fun passes hpasses => ?_, hf.same⟩
      rw [fill_end hend (zero_lt_of_lt hpasses), hf.out, ← hsum, hend, add_zero]
    · obtain ⟨d, f', hd, hpass, hlen, hsame, hi', hout, hnext⟩ := hf.pass h hbits hi hend
      have hdone : ∃ bmp', (∀ passes, f'.report_len < passes →
          al.fill passes f' = .done (bmp', (range al.nb_data_slabs).map (word al bmp s))) ∧
          SameBits bmp bmp' := by
        by_cases hend' : f'.report_len = 0
        · refine ⟨f'.bmp, fun passes hpasses => ?_, hsame⟩
          rw [fill_end hend' (zero_lt_of_lt hpasses), hout,
            show k + d = al.nb_data_slabs by omega]
        · exact ih f'.report_len (by omega) (hnext hend') hi' rfl
      obtain ⟨bmp', hrun, hsame'⟩ := hdone
      refine ⟨bmp', fun passes hpasses => ?_, hsame'⟩
      obtain ⟨p, rfl⟩ := exists_eq_succ_of_ne_zero (ne_of_gt (zero_lt_of_lt hpasses))
      rw [hpass, hrun p (by omega)]

/-! ## The whole function -/

theorem place_scanInit (bmp : RteBitmap) : bmp.scanInit.place = Bitmap.clSlabSize *
    (slabBitSize * ((bmp.array1_size + (Bitmap.word32 - 1)) % Bitmap.word32) +
      (slabBitSize - 1) + 1) := by
  have hgo : bmp.scanInit.go2 = 0 := by rw [RteBitmap.scanInit]
  rw [RteBitmap.place, if_pos hgo]
  rw [RteBitmap.scanInit, RteBitmap.index2Set]

theorem sameBits_scanInit (bmp : RteBitmap) : SameBits bmp bmp.scanInit := by
  obtain ⟨array1, array2, array1_size, array2_size, index1, offset1, index2, go2⟩ := bmp
  exact ⟨rfl, rfl, rfl, rfl⟩

/-- A new scan begins behind all slabs, which are as they were. -/
theorem scanInit_spec (hi : Bitmap.Inv n bmp bits) :
    Bitmap.Inv n bmp.scanInit bits ∧ bmp.array2_size ≤ bmp.scanInit.place := by
  obtain ⟨k, hk, hsize⟩ := hi.sized.pow
  have hpow : bmp.array1_size ≤ 2 ^ 17 := by
    rw [hsize]
    exact Nat.pow_le_pow_right Nat.two_pos hk
  have hpos : 0 < bmp.array1_size := by
    rw [hsize]
    exact Nat.two_pow_pos k
  have hcovered := hi.sized.covered
  refine ⟨hi.same (sameBits_scanInit bmp) (Bitmap.scanInit_cursor bmp hk hsize), ?_⟩
  rw [place_scanInit]
  simp only [Bitmap.clSlabSize, Bitmap.clBitSize, Bitmap.cacheLineSize, slabBitSize,
    Bitmap.word32] at *
  omega

/-- **How the slabs of a report lie** in the window. -/
def alignmentOf (size rx_deliv data_len : ℕ) : Alignment where
  nb_slabs := size / slabBitSize
  nb_data_slabs := data_len / slabByteSize
  stop_slab_id := ((rx_deliv + 1) % word32 / slabBitSize + data_len / slabByteSize) %
    (size / slabBitSize)
  shift := (rx_deliv + 1) % word32 % slabBitSize

variable {size rx_deliv data_len : ℕ}

/-- **A report that is filled** has a slab with a bit that is not in front of its first one, and
not behind the report. The bits are as they were. -/
theorem pdcpCntReportFill_done (hi : Bitmap.Inv n bmp bits) {slabs : List (BitVec 64)}
    (h : pdcpCntReportFill passes bmp size rx_deliv data_len = .done (bmp', slabs)) :
    (∃ t, bmp.Full t ∧ (rx_deliv + 1) % word32 / slabBitSize ≤ t ∧
      t ≤ (rx_deliv + 1) % word32 / slabBitSize + data_len / slabByteSize) ∧
    SameBits bmp bmp' ∧ Bitmap.Inv n bmp' bits := by
  have hsame := sameBits_scanInit bmp
  obtain ⟨hi₀, -⟩ := scanInit_spec hi
  simp only [pdcpCntReportFill] at h
  cases hscan : scanToStart ((rx_deliv + 1) % word32 / slabBitSize) passes bmp.scanInit with
  | running =>
    rw [hscan] at h
    cases h
  | broken =>
    rw [hscan] at h
    cases h
  | done found =>
    obtain ⟨bmp₁, t, slab⟩ := found
    obtain ⟨hfull, hle, hsame₁, hi₁⟩ := scanToStart_done hi₀ hscan
    rw [hsame.full] at hfull
    rw [hscan] at h
    clear hscan
    generalize data_len / slabByteSize = m at h ⊢
    generalize (rx_deliv + 1) % word32 / slabBitSize = s at hle h ⊢
    simp only [Progress.bind, putSlabs, length_nil, length_append, length_replicate,
      length_singleton] at h
    split_ifs at h with hlt hroom
    · obtain ⟨hsame₂, hi₂⟩ := fill_keeps hi₁ h
      exact ⟨⟨t, hfull, hle, by omega⟩, (hsame.trans hsame₁).trans hsame₂, hi₂⟩
    · obtain ⟨hsame₂, hi₂⟩ := fill_keeps hi₁ h
      exact ⟨⟨t, hfull, hle, by omega⟩, (hsame.trans hsame₁).trans hsame₂, hi₂⟩

/-- **A report is filled** with the slabs of the window, if there is a slab with a bit that is
not in front of the first one and not behind the report. -/
theorem pdcpCntReportFill_spec (hi : Bitmap.Inv n bmp bits) (hbits : bits ≠ ∅)
    (hsize : size = slabBitSize * bmp.array2_size)
    (hlen : data_len / slabByteSize ≤ bmp.array2_size) {t : ℕ} (ht : bmp.Full t)
    (hle : (rx_deliv + 1) % word32 / slabBitSize ≤ t)
    (hin : t ≤ (rx_deliv + 1) % word32 / slabBitSize + data_len / slabByteSize) :
    ∃ passes bmp', SameBits bmp bmp' ∧ pdcpCntReportFill passes bmp size rx_deliv data_len =
      .done (bmp', (range (data_len / slabByteSize)).map
        (word (alignmentOf size rx_deliv data_len) bmp
          ((rx_deliv + 1) % word32 / slabBitSize))) := by
  have hsame := sameBits_scanInit bmp
  obtain ⟨hi₀, hplace⟩ := scanInit_spec hi
  obtain ⟨s, hs⟩ : ∃ s, (rx_deliv + 1) % word32 / slabBitSize = s := ⟨_, rfl⟩
  obtain ⟨al, hal⟩ : ∃ al, alignmentOf size rx_deliv data_len = al := ⟨_, rfl⟩
  have hnb : al.nb_slabs = bmp.array2_size := by
    rw [← hal, alignmentOf, hsize, slabBitSize]
    simp
  have hm : data_len / slabByteSize = al.nb_data_slabs := by rw [← hal, alignmentOf]
  have hwheel : Wheel al bmp s := by
    refine ⟨fun x hx => hnb ▸ hx.1, hnb, by rw [← hm, hnb]; exact hlen, ?_, ?_⟩
    · rw [← hs, ← hal, alignmentOf]
    · rw [← hal, alignmentOf]
      exact mod_lt _ (by decide)
  rw [hs] at hle hin ⊢
  rw [hm] at hin ⊢
  rw [hal]
  obtain ⟨bmp₁, r, hscan, hsame₁, hi₁, hplace₁, hfull, hler, hleast⟩ :=
    scanToStart_spec hi₀ hbits (by rwa [hsame.full]) hle (.inl ⟨by rwa [hsame.2.2.2], rfl⟩)
  rw [hsame.full] at hfull hleast
  have hrin : r ≤ s + al.nb_data_slabs := (hleast t ht hle).trans hin
  have hrlt : r < al.nb_slabs := hwheel.full_lt r hfull
  have hpos : 0 < al.nb_slabs := zero_lt_of_lt hrlt
  obtain ⟨k, rfl⟩ := Nat.exists_eq_add_of_le hler
  have hslab : bmp.scanInit.array2 (s + k) = spoke al bmp (s + k) := by
    rw [spoke, hsame.2.1, mod_eq_of_lt hrlt]
  -- there are no bits in the slabs in front
  have hfront : (if s < s + k then
      putSlabs al.nb_data_slabs [] (replicate (s + k - s - 1) 0 ++
        [al.leftover (bmp.scanInit.array2 (s + k))])
      else .done []) = .done ((range k).map (word al bmp s)) := by
    have hzero : ∀ j < k, spoke al bmp (s + j) = 0 := by
      refine fun j hj => hwheel.spoke_eq_zero hpos fun hx => ?_
      rw [mod_eq_of_lt (by omega)] at hx
      have hge := hleast _ hx (le_add_right s j)
      omega
    cases k with
    | zero => exact if_neg (lt_irrefl s)
    | succ c =>
      have hwords : (range c).map (word al bmp s) = replicate c 0 := by
        refine eq_replicate_iff.mpr ⟨by simp, fun x hx => ?_⟩
        obtain ⟨j, hj, rfl⟩ := mem_map.mp hx
        have hlt := mem_range.mp hj
        rw [word, hzero j (by omega), add_assoc, hzero (j + 1) (by omega), leftover_zero]
        simp
      have hlast : word al bmp s c = al.leftover (bmp.scanInit.array2 (s + (c + 1))) := by
        rw [word, hzero c (by omega), hslab]
        simp [add_assoc]
      rw [if_pos (by omega), putSlabs, if_pos, range_succ, map_append, hwords,
        show s + (c + 1) - s - 1 = c by omega, ← hlast]
      · rfl
      · simp only [length_nil, length_append, length_replicate,
          length_singleton]
        omega
  obtain ⟨bmp', hfill, hsame'⟩ := fill_spec (k := k) (f := {
      bmp := bmp₁
      out := (range k).map (word al bmp s)
      slab := bmp.scanInit.array2 (s + k)
      slab_id := s + k
      next_pos := 0
      next_slab := 0
      report_len := al.nb_data_slabs - (s + k - s) }) hwheel hbits
    ⟨rfl, by show k + (al.nb_data_slabs - (s + k - s)) = _; omega, hslab,
      (mod_eq_of_lt hrlt).symm, hplace₁, hsame.trans hsame₁⟩ hi₁
  obtain ⟨passes, hpasses⟩ : ∃ passes, passes = s + 2 + al.nb_data_slabs := ⟨_, rfl⟩
  have hstart := hscan passes (by omega)
  have hrest := hfill passes (by show al.nb_data_slabs - (s + k - s) < passes; omega)
  refine ⟨passes, bmp', hsame', ?_⟩
  have hfun : pdcpCntReportFill passes bmp size rx_deliv data_len =
      (scanToStart s passes bmp.scanInit).bind fun r =>
        (if s < r.2.1 then
          putSlabs al.nb_data_slabs [] (replicate (r.2.1 - s - 1) 0 ++ [al.leftover r.2.2])
        else .done []).bind fun out =>
          al.fill passes ⟨r.1, out, r.2.2, r.2.1, 0, 0, al.nb_data_slabs - (r.2.1 - s)⟩ := by
    rw [← hs, ← hal]
    rfl
  rw [hfun, hstart]
  show Progress.bind (if s < s + k then _ else _) _ = _
  rw [hfront]
  exact hrest

end Pdcp
