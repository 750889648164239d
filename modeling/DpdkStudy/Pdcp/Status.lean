import DpdkStudy.Pdcp.Filling

/-!
# What a status report says

A status report that is right has FMC and the bits of the COUNTs behind it (`Reported`), and is
written in no time if there is room for it (`StatusOk`). The slab at which the report begins is
computed from the COUNT, and not from where the COUNT is in the window. So there is a report
exactly when a packet is buffered in the slabs that the two have in common (`StatusWhen`); once
`RX_DELIV` is behind the first window there are none.
-/

open List Option Nat

namespace Pdcp

open Bitmap (RteBitmap slabBitSize SameBits)

variable {n k : ℕ} {bits : Set ℕ} {bmp bmp' : RteBitmap} {al : Alignment} {s : ℕ}

/-! ## The bits of the slabs -/

/-- **The bits of a slab of the report** are those of the window from the first COUNT on. -/
theorem getLsbD_word (hsize : al.nb_slabs = bmp.array2_size) (hpos : 0 < al.nb_slabs)
    (hshift : al.shift < slabBitSize) (j : ℕ) {b : ℕ} (hb : b < slabBitSize) :
    (word al bmp s j).getLsbD b = true ↔
      bmp.Has ((slabBitSize * (s + j) + al.shift + b) % (slabBitSize * al.nb_slabs)) := by
  have hshift' : al.shift < 64 := hshift
  have hb' : b < 64 := hb
  have hleft : (al.leftover (spoke al bmp (s + j + 1))).getLsbD b =
      (decide (64 ≤ al.shift + b) && (spoke al bmp (s + j + 1)).getLsbD (al.shift + b - 64)) := by
    rw [Alignment.leftover, leftoverGet]
    by_cases hzero : al.shift = 0
    · simp [hzero, hb']
    · rw [if_pos hzero, if_pos hzero, BitVec.and_allOnes, BitVec.getLsbD_shiftLeft]
      by_cases hover : 64 ≤ al.shift + b
      · have hno : ¬ b < 64 - al.shift := by omega
        simp [slabBitSize, hb', hover, hno, show b - (64 - al.shift) = al.shift + b - 64 by omega]
      · have hin : b < 64 - al.shift := by omega
        simp [slabBitSize, hover, hin]
  have hline : ∀ r, r % al.nb_slabs < bmp.array2_size := fun r => hsize ▸ mod_lt r hpos
  rw [word, BitVec.getLsbD_or, BitVec.getLsbD_ushiftRight, hleft, RteBitmap.Has,
    mod_mul_right_div_self, mod_mul_right_mod, and_iff_right (hline _)]
  by_cases hover : 64 ≤ al.shift + b
  · have hdiv : (slabBitSize * (s + j) + al.shift + b) / slabBitSize = s + j + 1 := by
      simp only [slabBitSize]
      omega
    have hmod : (slabBitSize * (s + j) + al.shift + b) % slabBitSize = al.shift + b - 64 := by
      simp only [slabBitSize]
      omega
    rw [hdiv, hmod, BitVec.getLsbD_of_ge _ _ hover, decide_eq_true hover, Bool.false_or,
      Bool.true_and]
    rfl
  · have hdiv : (slabBitSize * (s + j) + al.shift + b) / slabBitSize = s + j := by
      simp only [slabBitSize]
      omega
    have hmod : (slabBitSize * (s + j) + al.shift + b) % slabBitSize = al.shift + b := by
      simp only [slabBitSize]
      omega
    rw [hdiv, hmod, decide_eq_false hover, Bool.false_and, Bool.or_false]
    rfl

theorem length_slabBytes (slab : BitVec 64) : (slabBytes slab).length = slabByteSize := by
  rw [slabBytes, length_map, length_range]

theorem length_flatMap_slabBytes (slabs : List (BitVec 64)) :
    (slabs.flatMap slabBytes).length = slabByteSize * slabs.length := by
  induction slabs with
  | nil => rfl
  | cons slab slabs ih =>
    rw [flatMap_cons, length_append, length_slabBytes, ih, length_cons,
      mul_succ, add_comm]

/-- The bits of some bytes are those of their slabs. -/
theorem getLsbD_slabBytes (slabs : List (BitVec 64)) (i : ℕ) :
    ((slabs.flatMap slabBytes).getD (i / 8) 0).getLsbD (i % 8) =
      (slabs.getD (i / slabBitSize) 0).getLsbD (i % slabBitSize) := by
  simp only [slabBitSize]
  induction slabs generalizing i with
  | nil => simp
  | cons slab slabs ih =>
    have hlen : (slabBytes slab).length = 8 := length_slabBytes slab
    rw [flatMap_cons]
    by_cases hi : i < 64
    · have hbyte : i / 8 < (slabBytes slab).length := by omega
      rw [getD_append _ _ _ _ hbyte, getD_eq_getElem _ _ hbyte,
        div_eq_of_lt hi, getD_cons_zero, mod_eq_of_lt hi]
      simp only [slabBytes, getElem_map, getElem_range, BitVec.getLsbD_extractLsb',
        decide_eq_true (mod_lt i (by decide : 0 < 8)), Bool.true_and, div_add_mod]
    · have hrest := ih (i - 64)
      rw [getD_append_right _ _ _ _ (by omega), hlen,
        show i / 8 - 8 = (i - 64) / 8 by omega, show i % 8 = (i - 64) % 8 by omega, hrest,
        show i / 64 = (i - 64) / 64 + 1 by omega, getD_cons_succ,
        show i % 64 = (i - 64) % 64 by omega]

/-! ## The packet -/

/-- **A header and some bytes are written** in the area that has been appended, and the packet
is cut. -/
theorem Buf.report_eq (headroom tail hdr bytes : List (BitVec 8)) (len : ℕ) :
    (((⟨headroom, tail.take (hdr.length + bytes.length), tail.drop (hdr.length + bytes.length)⟩ :
      Buf).writeAt 0 hdr).writeAt hdr.length bytes).setLen len =
    ⟨headroom, (hdr ++ bytes).take len,
      (hdr ++ bytes).drop len ++ tail.drop (hdr.length + bytes.length)⟩ := by
  have hover : (tail.take (hdr.length + bytes.length)).drop (hdr.length + bytes.length) = [] := by
    rw [drop_eq_nil_iff, length_take]
    exact min_le_left _ _
  simp only [Buf.writeAt, Buf.setLen, take_zero, nil_append, Nat.zero_add,
    take_left, drop_append, drop_drop, Nat.add_sub_cancel_left,
    drop_eq_nil_of_le (Nat.le_add_right hdr.length bytes.length), hover, append_nil]

theorem fmc_bytes (x : BitVec 32) :
    (rteCpuToBe32 x).extractLsb' 0 8 ++ (rteCpuToBe32 x).extractLsb' 8 8 ++
      (rteCpuToBe32 x).extractLsb' 16 8 ++ (rteCpuToBe32 x).extractLsb' 24 8 = x := by
  refine BitVec.eq_of_getLsbD_eq fun i hi => ?_
  simp only [rteCpuToBe32, BitVec.getLsbD_append, BitVec.getLsbD_extractLsb']
  interval_cases i <;> simp

/-! ## What a report is for -/

/-- The bytes of the bitmap of a report, for the COUNTs behind FMC that are not behind all that
have come. -/
def DlEntity.reportSize (en : DlEntity) : ℕ :=
  min ((en.rx_next - en.rx_deliv - 1 + 7) / 8) (ctrlPduSizeMax - upCtrlPduHdrSize)

/-- The bit of a report for a COUNT behind FMC. -/
def Buf.reportBit (m : Buf) (i : ℕ) : Bool :=
  (m.data.getD (upCtrlPduHdrSize + i / 8) 0).getLsbD (i % 8)

/-- **What a status report says**, and that nothing is written outside of the area that has been
appended. -/
structure Reported (sys : DlSystem) (m m' : Buf) : Prop where
  /-- It is a status report. -/
  header : m'.data.getD 0 0 = 0
  /-- FMC is the first COUNT that is missing. -/
  fmc : (m'.data.getD 1 0 ++ m'.data.getD 2 0 ++ m'.data.getD 3 0 ++ m'.data.getD 4 0).toNat =
    sys.en.rx_deliv
  length : m'.data.length = upCtrlPduHdrSize + sys.en.reportSize
  /-- There is a bit for each COUNT that has come. -/
  bit : ∀ i < 8 * sys.en.reportSize, m'.reportBit i = true ↔
    ∃ mb ∈ sys.accepted, mb.seqn.toNat = sys.en.rx_deliv + 1 + i
  headroom : m'.headroom = m.headroom
  behind : (m'.data ++ m'.tailroom).drop (upCtrlPduHdrSize + sys.en.bitmapSz) =
    m.tailroom.drop (upCtrlPduHdrSize + sys.en.bitmapSz)

/-- **A status report comes to an end**, and is what it should be, or there is no room for it. -/
def StatusOk (sys : DlSystem) (m : Buf) : Prop :=
  ∃ passes en' r, pdcpCtrlPduStatusGen passes true sys.en m = .done (en', r) ∧
    match r with
    | .ok m' => Reported sys m m'
    | .error e => e = -enomem ∧ m.tailroom.length < upCtrlPduHdrSize + sys.en.bitmapSz

/-- **When there is a status report**: nothing is missing, or there is no room, or a packet is
buffered whose place in the window is in a slab from that of the first COUNT on, and not behind
the report. -/
def StatusWhen (en : DlEntity) (m : Buf) : Prop :=
  en.rx_deliv < en.rx_next → upCtrlPduHdrSize + en.bitmapSz ≤ m.tailroom.length →
    ∃ mb ∈ en.buffered,
      (en.rx_deliv + 1) / slabBitSize ≤ mb.seqn.toNat % en.bitmap_size / slabBitSize ∧
      mb.seqn.toNat % en.bitmap_size / slabBitSize ≤
        (en.rx_deliv + 1) / slabBitSize + en.bitmapSz / slabByteSize

/-! ## The sizes -/

variable {en : DlEntity} {m : Buf} {sys : DlSystem}

theorem actualSz_eq (hle : en.rx_next ≤ en.rx_deliv + 2 ^ 17) : en.actualSz = en.reportSize := by
  rw [DlEntity.actualSz, DlEntity.reportSize, roundUpBits, word32, word16]
  omega

/-- The room for the bitmap is a whole number of slabs. -/
theorem bitmapSz_eq (hle : en.rx_next ≤ en.rx_deliv + 2 ^ 17) :
    en.bitmapSz = slabByteSize * ((en.reportSize + 7) / 8) := by
  have hmax : en.reportSize ≤ ctrlPduSizeMax - upCtrlPduHdrSize := min_le_right _ _
  rw [DlEntity.bitmapSz, actualSz_eq hle, pdcpCntGetBitmapSize, word32, word16]
  simp only [slabByteSize, slabBitSize, ctrlPduSizeMax, upCtrlPduHdrSize] at *
  omega

/-- The header of a report, whatever comes behind it. -/
theorem header_spec {d : ℕ} (hd : d < word32) (bytes : List (BitVec 8)) (r : ℕ)
    {l : List (BitVec 8)} (hl : l = ((pdcpHdrFill d).bytes ++ bytes).take (upCtrlPduHdrSize + r)) :
    l.getD 0 0 = 0 ∧ (l.getD 1 0 ++ l.getD 2 0 ++ l.getD 3 0 ++ l.getD 4 0).toNat = d := by
  have hlen : (pdcpHdrFill d).bytes.length = upCtrlPduHdrSize := rfl
  rw [← hlen, take_length_add_append] at hl
  rw [hl]
  refine ⟨(by decide : pduTypeCtrl ++ ctrlPduTypeStatusReport ++ 0#4 = 0#8), ?_⟩
  have hbytes := congrArg BitVec.toNat (fmc_bytes (BitVec.ofNat 32 d))
  rw [BitVec.toNat_ofNat] at hbytes
  exact hbytes.trans (mod_eq_of_lt hd)

/-! ## When nothing is missing -/

theorem statusOk_of_le (hle : sys.en.rx_next ≤ sys.en.rx_deliv) (hd : sys.en.rx_deliv < word32)
    (hm : m.data = []) : StatusOk sys m := by
  have hsize : sys.en.reportSize = 0 := by
    rw [DlEntity.reportSize, show sys.en.rx_next - sys.en.rx_deliv = 0 by omega]
    rfl
  have hroom : sys.en.bitmapSz = 0 := by
    rw [bitmapSz_eq (hle.trans (le_add_right _ _)), hsize]
    rfl
  obtain ⟨headroom, data, tailroom⟩ := m
  obtain rfl : data = [] := hm
  refine ⟨0, sys.en, ?_⟩
  by_cases hfits : tailroom.length < upCtrlPduHdrSize
  · refine ⟨.error (-enomem), ?_, rfl, ?_⟩
    · rw [pdcpCtrlPduStatusGen, if_neg (by simp), if_pos hle, Buf.append, if_pos hfits]
    · rw [hroom]
      exact hfits
  · have hhdr : (pdcpHdrFill sys.en.rx_deliv).bytes =
        ((pdcpHdrFill sys.en.rx_deliv).bytes ++ []).take (upCtrlPduHdrSize + 0) := rfl
    obtain ⟨hzero, hfmc⟩ := header_spec hd [] 0 hhdr
    refine ⟨.ok ⟨headroom, (pdcpHdrFill sys.en.rx_deliv).bytes, tailroom.drop upCtrlPduHdrSize⟩, ?_,
      ⟨hzero, hfmc, ?_, fun i hi => ?_, rfl, ?_⟩⟩
    · have hover : (tailroom.take upCtrlPduHdrSize).drop upCtrlPduHdrSize = [] :=
        drop_eq_nil_of_le (length_take_le _ _)
      rw [pdcpCtrlPduStatusGen, if_neg (by simp), if_pos hle, Buf.append, if_neg hfits]
      simp only [Buf.writeAt, take_zero, nil_append, length_nil, zero_add]
      rw [show (pdcpHdrFill sys.en.rx_deliv).bytes.length = upCtrlPduHdrSize from rfl, hover,
        append_nil]
    · rw [hsize]
      rfl
    · rw [hsize] at hi
      exact absurd hi (not_lt_zero i)
    · rw [hroom]
      rfl

/-! ## When something is missing -/

variable {w : List (Option Reorder.Mbuf)} {D F : List Reorder.Mbuf}

/-- Each place of a window is that of a COUNT in it. -/
theorem exists_add_mod {W d p : ℕ} (hp : p < W) : ∃ i < W, (d + i) % W = p := by
  have hd := mod_lt d (zero_lt_of_lt hp)
  have hdiv := div_add_mod d W
  refine ⟨(p + W - d % W) % W, mod_lt _ (zero_lt_of_lt hp), ?_⟩
  have hsum : d + (p + W - d % W) = p + W + W * (d / W) := by omega
  rw [add_mod_mod, hsum, add_mul_mod_self_left, add_mod_right, mod_eq_of_lt hp]

/-- The bit of a COUNT behind FMC says whether it has come. -/
theorem Inv.has_iff (hi : Inv k sys w D F) {i : ℕ} (hlt : i < 2 ^ k) :
    sys.en.bitmap.Has ((sys.en.rx_deliv + 1 + i) % 2 ^ k) ↔
      ∃ mb ∈ sys.accepted, mb.seqn.toNat = sys.en.rx_deliv + 1 + i := by
  obtain ⟨bits, hbits, hslots⟩ := hi.keeps.slots
  have hslot : (sys.en.rx_deliv + 1 + i) % 2 ^ k ∈ bits ↔
      ∃ mb ∈ w.reduceOption, mb.seqn.toNat = sys.en.rx_deliv + 1 + i := by
    rw [add_assoc, add_comm 1 i]
    by_cases hin : i + 1 < 2 ^ k
    · exact (hslots.bit (i + 1) hin).trans (hslots.mem_iff (i + 1))
    · -- the place of the last bit is that of FMC, which is missing
      obtain hlast : i + 1 = 2 ^ k := by omega
      rw [hlast, add_mod_right]
      refine iff_of_false (fun hbit => ?_) (fun ⟨mb, hmb, hseqn⟩ => ?_)
      · obtain ⟨mb, hget⟩ := (hslots.bit 0 (Nat.two_pow_pos k)).mp hbit
        have hfirst := hi.keeps.first
        rw [head?_eq_getElem?, hget] at hfirst
        exact absurd (some.inj hfirst) nofun
      · have hin := (hslots.of_mem hmb).2.1
        omega
  rw [hbits.has, hslot]
  constructor
  · rintro ⟨mb, hmb, hseqn⟩
    exact ⟨mb, hi.accepted.mem_iff.mpr (mem_append_right _ hmb), hseqn⟩
  · rintro ⟨mb, hmb, hseqn⟩
    rcases mem_append.mp (hi.accepted.mem_iff.mp hmb) with hD | hw
    · have hbelow := hi.below mb hD
      omega
    · exact ⟨mb, hw, hseqn⟩

/-- A slab has a bit if a packet that is buffered has its place there. -/
theorem Inv.full_iff (hi : Inv k sys w D F)
    (hslabs : slabBitSize * sys.en.bitmap.array2_size = 2 ^ k) (t : ℕ) :
    sys.en.bitmap.Full t ↔
      ∃ mb ∈ sys.en.buffered, mb.seqn.toNat % sys.en.bitmap_size / slabBitSize = t := by
  obtain ⟨bits, hbits, hslots⟩ := hi.keeps.slots
  rw [hbits.full_iff, hi.keeps.size, hi.keeps.buffered_eq]
  constructor
  · rintro ⟨p, hp, rfl⟩
    have hlt : p < 2 ^ k := by
      have hline := ((hbits.has p).mpr hp).1
      rw [← hslabs, mul_comm]
      exact (div_lt_iff_lt_mul (by decide)).mp hline
    obtain ⟨i, hik, rfl⟩ := exists_add_mod (d := sys.en.rx_deliv) hlt
    obtain ⟨mb, hmb, hseqn⟩ := (hslots.mem_iff i).mp ((hslots.bit i hik).mp hp)
    exact ⟨mb, hmb, by rw [hseqn]⟩
  · rintro ⟨mb, hmb, rfl⟩
    have hin := hslots.of_mem hmb
    refine ⟨_, ?_, rfl⟩
    have hsum : sys.en.rx_deliv + (mb.seqn.toNat - sys.en.rx_deliv) = mb.seqn.toNat := by omega
    have hbit := (hslots.bit (mb.seqn.toNat - sys.en.rx_deliv) (by omega)).mpr
      ((hslots.mem_iff _).mpr ⟨mb, hmb, hsum.symm⟩)
    rwa [hsum] at hbit

/-- The bits of a report are those of the bytes behind the header. -/
theorem reportBit_eq {hdr bytes : List (BitVec 8)} (hhdr : hdr.length = upCtrlPduHdrSize) {r i : ℕ}
    (hi : i < 8 * r) (headroom tailroom : List (BitVec 8)) :
    (⟨headroom, (hdr ++ bytes).take (upCtrlPduHdrSize + r), tailroom⟩ : Buf).reportBit i =
      (bytes.getD (i / 8) 0).getLsbD (i % 8) := by
  have hlt : upCtrlPduHdrSize + i / 8 < upCtrlPduHdrSize + r := by omega
  rw [Buf.reportBit, getD_eq_getElem?_getD, getElem?_take_of_lt hlt,
    ← getD_eq_getElem?_getD, getD_append_right _ _ _ _ (hhdr ▸ le_add_right _ _),
    hhdr, Nat.add_sub_cancel_left]

section

variable (hi : Inv k sys w D F) (hslabs : slabBitSize * sys.en.bitmap.array2_size = 2 ^ k)

include hi hslabs

/-- The slabs of a report have the bits of the COUNTs behind FMC. -/
theorem Inv.slab_iff (hd : sys.en.rx_deliv + 1 < word32) {i data_len : ℕ} (hlt : i < 2 ^ k)
    (hin : i / slabBitSize < data_len / slabByteSize) :
    (((range (data_len / slabByteSize)).map
      (word (alignmentOf sys.en.bitmap_size sys.en.rx_deliv data_len) sys.en.bitmap
        ((sys.en.rx_deliv + 1) % word32 / slabBitSize))).getD (i / slabBitSize) 0).getLsbD
          (i % slabBitSize) = true ↔
      ∃ mb ∈ sys.accepted, mb.seqn.toNat = sys.en.rx_deliv + 1 + i := by
  have hnb : (alignmentOf sys.en.bitmap_size sys.en.rx_deliv data_len).nb_slabs =
      sys.en.bitmap.array2_size := by
    show sys.en.bitmap_size / slabBitSize = _
    rw [hi.keeps.size, ← hslabs, Nat.mul_div_cancel_left _ (by decide)]
  have hpos : 0 < sys.en.bitmap.array2_size := by
    have hpow := Nat.two_pow_pos k
    rw [← hslabs] at hpow
    exact Nat.pos_of_mul_pos_left hpow
  have hshift : (alignmentOf sys.en.bitmap_size sys.en.rx_deliv data_len).shift =
      (sys.en.rx_deliv + 1) % slabBitSize := by
    show (sys.en.rx_deliv + 1) % word32 % slabBitSize = _
    rw [Nat.mod_eq_of_lt hd]
  have hplace : slabBitSize * ((sys.en.rx_deliv + 1) / slabBitSize + i / slabBitSize) +
      (sys.en.rx_deliv + 1) % slabBitSize + i % slabBitSize = sys.en.rx_deliv + 1 + i := by
    simp only [slabBitSize]
    omega
  rw [getD_eq_getElem _ _ (by simpa using hin), getElem_map, getElem_range,
    getLsbD_word hnb (hnb.symm ▸ hpos) (hshift ▸ Nat.mod_lt _ (by decide)) _
      (Nat.mod_lt _ (by decide)), hshift, hnb, hslabs, Nat.mod_eq_of_lt hd, hplace,
    hi.has_iff hlt]

theorem Inv.reportSize_le :
    8 * sys.en.reportSize ≤ 2 ^ k ∧ sys.en.rx_next ≤ sys.en.rx_deliv + 2 ^ 17 := by
  have hnext := hi.keeps.next_le
  have hsmall := Nat.pow_le_pow_right Nat.two_pos hi.keeps.small
  have hmin : sys.en.reportSize ≤ (sys.en.rx_next - sys.en.rx_deliv - 1 + 7) / 8 :=
    min_le_left _ _
  refine ⟨?_, hnext.trans (Nat.add_le_add_left hsmall _)⟩
  rw [← hslabs] at hnext ⊢
  simp only [slabBitSize] at *
  omega

/-- A report that has been filled is what it should be. -/
theorem Inv.reported (hlt : sys.en.rx_deliv < sys.en.rx_next) (headroom tailroom : List (BitVec 8))
    {slabs : List (BitVec 64)}
    (hfilled : slabs = (range (sys.en.bitmapSz / slabByteSize)).map (word (alignmentOf sys.en.bitmap_size sys.en.rx_deliv sys.en.bitmapSz) sys.en.bitmap ((sys.en.rx_deliv + 1) % word32 / slabBitSize)))
    :
    (slabs.flatMap slabBytes).length = sys.en.bitmapSz ∧
    Reported sys ⟨headroom, [], tailroom⟩ ⟨headroom,
      ((pdcpHdrFill sys.en.rx_deliv).bytes ++ slabs.flatMap slabBytes).take
        (upCtrlPduHdrSize + sys.en.actualSz),
      ((pdcpHdrFill sys.en.rx_deliv).bytes ++ slabs.flatMap slabBytes).drop
        (upCtrlPduHdrSize + sys.en.actualSz) ++
        tailroom.drop (upCtrlPduHdrSize + sys.en.bitmapSz)⟩ := by
  have hnext := hi.keeps.next_lt
  obtain ⟨hwin, hle⟩ := hi.reportSize_le hslabs
  have hroom := bitmapSz_eq hle
  have hsize : sys.en.bitmapSz / slabByteSize = (sys.en.reportSize + 7) / 8 := by
    rw [hroom, Nat.mul_div_cancel_left _ (by decide)]
  have hlen : (slabs.flatMap slabBytes).length = sys.en.bitmapSz := by
    rw [length_flatMap_slabBytes, hfilled, length_map, length_range, hsize, hroom]
  have hfits : sys.en.reportSize ≤ sys.en.bitmapSz := by
    rw [hroom]
    simp only [slabByteSize, slabBitSize]
    omega
  have hhdr : (pdcpHdrFill sys.en.rx_deliv).bytes.length = upCtrlPduHdrSize := rfl
  rw [actualSz_eq hle]
  obtain ⟨hzero, hfmc⟩ := header_spec (hlt.trans hnext) (slabs.flatMap slabBytes)
    sys.en.reportSize rfl
  refine ⟨hlen, hzero, hfmc, ?_, fun i hin => ?_, rfl, ?_⟩
  · rw [length_take, length_append, hhdr, hlen]
    exact min_eq_left (Nat.add_le_add_left hfits _)
  · rw [reportBit_eq hhdr hin, getLsbD_slabBytes, hfilled,
      hi.slab_iff hslabs (lt_of_le_of_lt hlt hnext) (hin.trans_le hwin)]
    rw [hsize]
    simp only [slabBitSize]
    omega
  · show drop _ (_ ++ (_ ++ _)) = _
    rw [← append_assoc, take_append_drop, drop_left']
    rw [length_append, hhdr, hlen]

/-- **There is a report that is what it should be** exactly when a packet is buffered in a slab
that is not in front of the first one, and not behind the report. -/
theorem Inv.statusOk_iff (hm : m.data = []) :
    StatusOk sys m ↔ StatusWhen sys.en m := by
  by_cases hle : sys.en.rx_next ≤ sys.en.rx_deliv
  · exact iff_of_true (statusOk_of_le hle hi.deliv_lt hm)
      (fun hlt => absurd hle (not_le.mpr hlt))
  have hlt := not_le.mp hle
  have hd : (sys.en.rx_deliv + 1) % word32 = sys.en.rx_deliv + 1 :=
    mod_eq_of_lt (lt_of_le_of_lt hlt hi.keeps.next_lt)
  obtain ⟨bits, hbits, -⟩ := hi.keeps.slots
  obtain ⟨headroom, data, tailroom⟩ := m
  obtain rfl : data = [] := hm
  by_cases hfits : tailroom.length < upCtrlPduHdrSize + sys.en.bitmapSz
  · refine iff_of_true ⟨0, sys.en, .error (-enomem), ?_, rfl, hfits⟩
      (fun _ hroom => absurd hfits (not_lt.mpr hroom))
    rw [pdcpCtrlPduStatusGen, if_neg (by simp), if_neg hle, Buf.append, if_pos hfits]
  have hgen : ∀ passes, pdcpCtrlPduStatusGen passes true sys.en ⟨headroom, [], tailroom⟩ =
      (pdcpCntReportFill passes sys.en.bitmap sys.en.bitmap_size sys.en.rx_deliv
        sys.en.bitmapSz).bind fun r => .done ({ sys.en with bitmap := r.1 },
          .ok ((((⟨headroom, tailroom.take (upCtrlPduHdrSize + sys.en.bitmapSz),
            tailroom.drop (upCtrlPduHdrSize + sys.en.bitmapSz)⟩ : Buf).writeAt 0
              (pdcpHdrFill sys.en.rx_deliv).bytes).writeAt upCtrlPduHdrSize
                (r.2.flatMap slabBytes)).setLen (upCtrlPduHdrSize + sys.en.actualSz))) := by
    intro passes
    rw [pdcpCtrlPduStatusGen, if_neg (by simp), if_neg hle, Buf.append, if_neg hfits]
    simp only [length_nil, zero_add, nil_append]
  constructor
  · rintro ⟨passes, en', r, hdone, -⟩ - -
    rw [hgen] at hdone
    cases hfill : pdcpCntReportFill passes sys.en.bitmap sys.en.bitmap_size sys.en.rx_deliv
        sys.en.bitmapSz with
    | running =>
      rw [hfill] at hdone
      cases hdone
    | broken =>
      rw [hfill] at hdone
      cases hdone
    | done filled =>
      obtain ⟨⟨t, hfull, hge, hin⟩, -⟩ := pdcpCntReportFill_done hbits hfill
      rw [hd] at hge hin
      obtain ⟨mb, hmb, rfl⟩ := (hi.full_iff hslabs t).mp hfull
      exact ⟨mb, hmb, hge, hin⟩
  · intro hwhen
    obtain ⟨mb, hmb, hge, hin⟩ := hwhen hlt (not_lt.mp hfits)
    have hfull := (hi.full_iff hslabs _).mpr ⟨mb, hmb, rfl⟩
    have hroom : sys.en.bitmapSz / slabByteSize ≤ sys.en.bitmap.array2_size := by
      obtain ⟨hwin, hle⟩ := hi.reportSize_le hslabs
      rw [bitmapSz_eq hle, Nat.mul_div_cancel_left _ (by decide)]
      rw [← hslabs] at hwin
      simp only [slabBitSize] at hwin
      omega
    have hsome : bits ≠ ∅ := by
      obtain ⟨p, hp, -⟩ := (hbits.full_iff _).mp hfull
      exact Set.nonempty_iff_ne_empty.mp ⟨p, hp⟩
    rw [← hd] at hge hin
    obtain ⟨passes, bmp', -, hfill⟩ := pdcpCntReportFill_spec hbits hsome
      (hi.keeps.size.trans hslabs.symm) hroom hfull hge hin
    obtain ⟨slabs, hslabs'⟩ : ∃ slabs, slabs = (range (sys.en.bitmapSz / slabByteSize)).map
        (word (alignmentOf sys.en.bitmap_size sys.en.rx_deliv sys.en.bitmapSz) sys.en.bitmap
          ((sys.en.rx_deliv + 1) % word32 / slabBitSize)) := ⟨_, rfl⟩
    rw [← hslabs'] at hfill
    obtain ⟨hlen, hok⟩ := hi.reported hslabs hlt headroom tailroom hslabs'
    refine ⟨passes, _, _, (hgen passes).trans (by rw [hfill]; rfl), ?_⟩
    have hwrite := Buf.report_eq headroom tailroom (pdcpHdrFill sys.en.rx_deliv).bytes
      (slabs.flatMap slabBytes) (upCtrlPduHdrSize + sys.en.actualSz)
    rw [hlen, show (pdcpHdrFill sys.en.rx_deliv).bytes.length = upCtrlPduHdrSize from rfl]
      at hwrite
    rwa [← hwrite] at hok

end

/-! ## Runs with reports -/

variable {sys' : DlSystem} {en' : DlEntity} {mb : Reorder.Mbuf} {d passes : ℕ}

/-- **A report** leaves the entity as it is, but for the scan of its bitmap. -/
theorem status_entity {required : Bool} {r : Except Int Buf}
    (h : pdcpCtrlPduStatusGen passes required en m = .done (en', r)) :
    en' = en ∨ en.rx_deliv < en.rx_next ∧ ∃ bmp' slabs,
      pdcpCntReportFill passes en.bitmap en.bitmap_size en.rx_deliv en.bitmapSz =
        .done (bmp', slabs) ∧ en' = { en with bitmap := bmp' } := by
  rw [pdcpCtrlPduStatusGen] at h
  by_cases hreq : ¬ required = true
  · rw [if_pos hreq] at h
    cases h
    exact .inl rfl
  rw [if_neg hreq] at h
  by_cases hle : en.rx_next ≤ en.rx_deliv
  · rw [if_pos hle] at h
    cases hroom : m.append upCtrlPduHdrSize <;>
    · rw [hroom] at h
      cases h
      exact .inl rfl
  rw [if_neg hle] at h
  cases hroom : m.append (upCtrlPduHdrSize + en.bitmapSz) with
  | none =>
    rw [hroom] at h
    cases h
    exact .inl rfl
  | some m' =>
    rw [hroom] at h
    cases hfill : pdcpCntReportFill passes en.bitmap en.bitmap_size en.rx_deliv en.bitmapSz with
    | running =>
      simp only [hfill] at h
      cases h
    | broken =>
      simp only [hfill] at h
      cases h
    | done filled =>
      simp only [hfill] at h
      cases h
      exact .inr ⟨not_le.mp hle, _, _, rfl, rfl⟩

/-- Where a scan of the bitmap goes on does not matter to an entity that delivers in order. -/
theorem Inv.report (hi : Inv k sys w D F) {slabs : List (BitVec 64)} {size data_len : ℕ}
    (hfill : pdcpCntReportFill passes sys.en.bitmap size sys.en.rx_deliv data_len =
      .done (bmp', slabs)) :
    Inv k { sys with en := { sys.en with bitmap := bmp' } } w D F ∧
      bmp'.array2_size = sys.en.bitmap.array2_size := by
  obtain ⟨bits, hbits, hslots⟩ := hi.keeps.slots
  obtain ⟨-, hsame, hbits'⟩ := pdcpCntReportFill_done hbits hfill
  refine ⟨⟨⟨hi.keeps.small, hi.keeps.cache, hi.keeps.size, hi.keeps.inOrder, hi.keeps.shows,
    ⟨bits, hbits', hslots⟩, hi.keeps.first, hi.keeps.active, hi.keeps.inactive,
    hi.keeps.next_lt, hi.keeps.next_le⟩, hi.timer, hi.window, hi.deliv_lt, hi.next,
    hi.delivered, hi.failed, hi.accepted, hi.sorted, hi.below, hi.pending, hi.offered⟩,
    hsame.2.2.2⟩

/-- **Nothing is missing**, and `RX_DELIV` is a COUNT. -/
def NoneMissing (en : DlEntity) : Prop := en.rx_next ≤ en.rx_deliv ∧ en.rx_deliv < word32

/-- A packet that is delivered out of order leaves nothing missing. -/
theorem Opens.noneMissing (h : Opens k en) (hmax : mb.seqn.toNat + 1 < word32)
    (hnone : NoneMissing en) {r : Except Int (List (Option Reorder.Mbuf) × ℕ)}
    (hupdate : pdcpPostProcessUpdateEntityState en mb = some (en', r)) :
    Opens k en' ∧ NoneMissing en' := by
  have hpacket := h.packet hmax
  split_ifs at hpacket with hold
  · rw [hpacket] at hupdate
    cases hupdate
    exact ⟨h, hnone⟩
  · obtain ⟨en₁, hok, hopens, hdeliv, -⟩ := hpacket
    have hsame := hok.symm.trans hupdate
    cases hsame
    refine ⟨hopens, ?_, hdeliv ▸ hmax⟩
    rw [hdeliv]
    -- `RX_NEXT` is behind the packet
    simp only [pdcpPostProcessUpdateEntityState, if_neg hold, noteNext en hmax,
      if_pos h.outOfOrder] at hok
    obtain ⟨slab, -, hok⟩ := bind_eq_some_iff.mp hok
    split_ifs at hok
    · cases hok
    · obtain ⟨bmp, -, hok⟩ := bind_eq_some_iff.mp hok
      obtain ⟨en₂, hset, heq⟩ := map_eq_some_iff.mp hok
      cases heq
      obtain ⟨bmp', -, rfl⟩ := map_eq_some_iff.mp hset
      have hle := hnone.1
      show max en.rx_next (mb.seqn.toNat + 1) ≤ _
      omega

/-- Packets that are delivered out of order leave nothing missing. -/
theorem Opens.packets_noneMissing {p p' : Post} (h : Opens k p.en) (hnone : NoneMissing p.en)
    {in_mb : List (Reorder.Mbuf × Bool)} (hmax : ∀ mb ∈ in_mb, mb.1.seqn.toNat + 1 < word32)
    (hpackets : p.packets in_mb = some p') : NoneMissing p'.en := by
  induction in_mb generalizing p with
  | nil =>
    cases hpackets
    exact hnone
  | cons mb in_mb ih =>
    obtain ⟨p₁, hpacket, hrest⟩ := bind_eq_some_iff.mp hpackets
    have hmax' := fun m hm => hmax m (mem_cons_of_mem _ hm)
    rw [Post.packet] at hpacket
    split_ifs at hpacket
    · cases hpacket
      exact ih (p := { p with err := p.err ++ [mb.1] }) h hnone hmax' hrest
    · obtain ⟨⟨en₁, r⟩, hupdate, heq⟩ := map_eq_some_iff.mp hpacket
      obtain ⟨hopens, hnone₁⟩ := h.noneMissing (hmax _ mem_cons_self) hnone hupdate
      cases r with
      | error e =>
        cases heq
        exact ih hopens hnone₁ hmax' hrest
      | ok out =>
        cases heq
        exact ih hopens hnone₁ hmax' hrest

/-- **What every event and every report keeps.** In order, it is the invariant of the entity and
the slabs of its window. Out of order, nothing is missing. -/
def Reports (sys : DlSystem) : Prop :=
  (∃ k w D F, Inv k sys w D F ∧ slabBitSize * sys.en.bitmap.array2_size = 2 ^ k) ∨
    ∃ k d l, Opened k d sys l ∧ NoneMissing sys.en

/-- **What may happen**: an event that may happen, and that counts right, or a report into an
mbuf that is empty. -/
def Expected (sys : DlSystem) : RxEvent → Prop
  | .event e => Legal sys e ∧ Counts sys e
  | .report _ m => m.data = []

theorem Reports.event (h : Reports sys) {e : DlEvent} (hlegal : Legal sys e)
    (hcounts : Counts sys e)
    (hstep : dlStep sys e = some sys') : Reports sys' := by
  rcases h with ⟨k, w, D, F, hi, hslabs⟩ | ⟨k, d, l, hopened, hnone⟩
  · have hfits := hcounts.resolve_left (by simp [hi.keeps.inOrder])
    obtain ⟨sys₁, w₁, D₁, F₁, hstep₁, hi₁, -⟩ := hi.step hlegal hfits
    obtain rfl := some.inj (hstep₁.symm.trans hstep)
    exact .inl ⟨k, w₁, D₁, F₁, hi₁, by rw [dlStep_array2_size hstep, hslabs]⟩
  · obtain ⟨sys₁, hstep₁, hopened₁, -⟩ := hopened.step hlegal
    obtain rfl := some.inj (hstep₁.symm.trans hstep)
    refine .inr ⟨k, d, _, hopened₁, ?_⟩
    cases e with
    | pre in_mb =>
      cases hstep
      exact hnone
    | post in_mb =>
      obtain ⟨r, hpost, rfl⟩ := map_eq_some_iff.mp hstep
      obtain ⟨p, hpackets, rfl⟩ := map_eq_some_iff.mp hpost
      exact hopened.opens.packets_noneMissing (p := ⟨sys.en, [], [], []⟩) hnone
        (fun mb hmb => hopened.pending _ (hlegal.2.subset (mem_map_of_mem hmb))) hpackets
    | expiry => exact absurd (hopened.opens.timer.symm.trans hlegal) nofun

theorem Reports.step (h : Reports sys) {e : RxEvent} (hok : Expected sys e)
    (hstep : rxStep sys e = some sys') : Reports sys' := by
  cases e with
  | event e => exact h.event hok.1 hok.2 hstep
  | report passes m =>
    rw [rxStep] at hstep
    cases hgen : pdcpCtrlPduStatusGen passes true sys.en m with
    | running =>
      rw [hgen] at hstep
      cases hstep
    | broken =>
      rw [hgen] at hstep
      cases hstep
    | done r =>
      rw [hgen] at hstep
      cases hstep
      rcases status_entity hgen with hsame | ⟨hlt, bmp', slabs, hfill, heq⟩
      · rwa [hsame]
      · rw [heq]
        rcases h with ⟨k, w, D, F, hi, hslabs⟩ | ⟨k, d, l, hopened, hnone⟩
        · obtain ⟨hi', hsize⟩ := hi.report hfill
          exact .inl ⟨k, w, D, F, hi', by rw [← hslabs, ← hsize]⟩
        · exact absurd hnone.1 (not_le.mpr hlt)

theorem Reports.start {plane : Plane} {ooo : Bool} {hfn sn : BitVec 32} {mem : ℕ}
    (hen : rtePdcpEntityEstablish plane ooo hfn sn mem = some en) :
    Reports (DlSystem.start en) := by
  cases ooo with
  | false => exact .inl ⟨_, _, _, _, Inv.start hen, establish_array2_size hen⟩
  | true =>
    refine .inr ⟨_, _, _, Opened.start hen, ?_⟩
    obtain ⟨bmp, -, rfl⟩ := map_eq_some_iff.mp hen
    exact ⟨zero_le _, BitVec.isLt _⟩

/-- **Status reports of a downlink entity.** In every run of events that may happen, with
reports in between, a report is what it should be exactly when nothing is missing, or there is no
room, or a packet is buffered in the slabs at which the report looks. -/
theorem status_report_iff {plane : Plane} {ooo : Bool} {hfn sn : BitVec 32} {mem : ℕ}
    (hen : rtePdcpEntityEstablish plane ooo hfn sn mem = some en) {es : List RxEvent}
    (hes : Runs.AlongOption rxStep Expected (DlSystem.start en) es)
    (hrun : Runs.runOption rxStep (DlSystem.start en) es = some sys) (hm : m.data = []) :
    StatusOk sys m ↔ StatusWhen sys.en m := by
  have hreports : Reports sys := hes.invariant (P := Reports)
    (fun _ _ _ h hok hstep => h.step hok hstep) hrun (Reports.start hen)
  rcases hreports with ⟨k, w, D, F, hi, hslabs⟩ | ⟨k, d, l, -, hle, hd⟩
  · exact hi.statusOk_iff hslabs hm
  · exact iff_of_true (statusOk_of_le hle hd hm) (fun hlt => absurd hle (not_le.mpr hlt))

/-! ## Runs that can be computed -/

instance Expected.decidable (sys : DlSystem) : ∀ e : RxEvent, Decidable (Expected sys e)
  | .event e => inferInstanceAs (Decidable (Legal sys e ∧ Counts sys e))
  | .report _ m => inferInstanceAs (Decidable (m.data = []))

/-- An mbuf with some room. -/
def emptyMbuf : Buf := ⟨[], [], List.replicate 16 0⟩

/-- A packet comes, one that is not the next, and a report is asked for. -/
def reportAhead : List RxEvent :=
  [.event (.pre [(1, ⟨0, [0x80#8, 1#8], 0⟩)]), .event (.post [(⟨1, 1⟩, false)]),
    .report 4 emptyMbuf]

/-- Another report is asked for. -/
theorem status_report_iff_ahead :
    ∃ en sys, rtePdcpEntityEstablish .uplaneSn12 false 0 0 64 = some en ∧
      Runs.runOption rxStep (DlSystem.start en) reportAhead = some sys ∧
      (StatusOk sys emptyMbuf ↔ StatusWhen sys.en emptyMbuf) := by
  have hrun : ((rtePdcpEntityEstablish .uplaneSn12 false 0 0 64).bind fun en =>
      Runs.runOption (fun sys e => if Expected sys e then rxStep sys e else none)
        (DlSystem.start en) reportAhead).isSome = true := by
    decide +kernel
  obtain ⟨sys, hsys⟩ := isSome_iff_exists.mp hrun
  obtain ⟨en, hen, hguard⟩ := bind_eq_some_iff.mp hsys
  obtain ⟨hes, hrx⟩ := Runs.runOption_guard hguard
  exact ⟨en, sys, hen, hrx, status_report_iff hen hes hrx rfl⟩

/-- A packet comes behind the first window, one that is not the next. -/
def behindWindow : List RxEvent :=
  [.event (.pre [(1, ⟨0, [0x80#8, 1#8], 0⟩)]), .event (.post [(⟨1, 4097⟩, false)])]

/-- **There is no report behind the first window**: the COUNT is in slab 64, and there are no more
than 32. -/
theorem no_report_behind_window :
    ¬ ∀ {plane : Plane} {ooo : Bool} {hfn sn : BitVec 32} {mem : ℕ} {en : DlEntity},
      rtePdcpEntityEstablish plane ooo hfn sn mem = some en → ∀ {es : List RxEvent},
        Runs.AlongOption rxStep Expected (DlSystem.start en) es → ∀ {sys : DlSystem},
          Runs.runOption rxStep (DlSystem.start en) es = some sys → ∀ m : Buf, m.data = [] →
            StatusOk sys m := by
  intro h
  have hrun : ((rtePdcpEntityEstablish .uplaneSn12 false 1 0 64).bind fun en =>
      Runs.runOption (fun sys e => if Expected sys e then rxStep sys e else none)
        (DlSystem.start en) behindWindow).map (fun sys => (sys.en.rx_deliv, sys.en.rx_next,
          sys.en.buffered, sys.en.bitmap_size)) = some (4096, 4098, [⟨1, 4097⟩], 2048) := by
    decide +kernel
  obtain ⟨sys, hsys, hstate⟩ := map_eq_some_iff.mp hrun
  simp only [Prod.mk.injEq] at hstate
  obtain ⟨hdeliv, hnext, hbuffered, hsize⟩ := hstate
  obtain ⟨en, hen, hguard⟩ := bind_eq_some_iff.mp hsys
  obtain ⟨hes, hrx⟩ := Runs.runOption_guard hguard
  have hok := h hen hes hrx emptyMbuf rfl
  have hmissing : sys.en.rx_deliv < sys.en.rx_next := by
    rw [hdeliv, hnext]
    decide
  have hreports : Reports sys := hes.invariant (P := Reports)
    (fun _ _ _ h hok hstep => h.step hok hstep) hrx (Reports.start hen)
  rcases hreports with ⟨k, w, D, F, hi, hslabs⟩ | ⟨k, d, l, -, hnone⟩
  · have hroom : upCtrlPduHdrSize + sys.en.bitmapSz ≤ emptyMbuf.tailroom.length := by
      rw [bitmapSz_eq (by rw [hdeliv, hnext]; decide), DlEntity.reportSize, hdeliv, hnext]
      decide
    obtain ⟨mb, hmb, hge, -⟩ := (hi.statusOk_iff hslabs rfl).mp hok hmissing hroom
    rw [hbuffered] at hmb
    rw [mem_singleton.mp hmb, hdeliv, hsize] at hge
    exact absurd hge (by decide)
  · exact absurd hnone.1 (not_le.mpr hmissing)

end Pdcp
