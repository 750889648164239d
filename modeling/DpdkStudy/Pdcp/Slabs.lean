import DpdkStudy.Pdcp.OutOfOrder
import DpdkStudy.Pdcp.StatusReport

/-!
# The slabs of a window

The bitmap of a downlink entity has as many slabs as the window needs, and no event changes
their number. So the slabs with a bit, through which a scan goes around, are those of the
window.
-/

open Option

namespace Pdcp

open Bitmap (RteBitmap slabBitSize)

variable {bmp bmp' : RteBitmap} {en en' : DlEntity} {mb : Reorder.Mbuf}

/-! ## No event changes the number of slabs -/

theorem set_array2_size {pos : ℕ} (h : bmp.set pos = some bmp') :
    bmp'.array2_size = bmp.array2_size := by
  simp only [RteBitmap.set, RteBitmap.markLine] at h
  split_ifs at h
  cases h
  rfl

theorem clear_array2_size {pos : ℕ} (h : bmp.clear pos = some bmp') :
    bmp'.array2_size = bmp.array2_size := by
  simp only [RteBitmap.clear] at h
  split_ifs at h <;> (cases h; rfl)

theorem rangeClear_array2_size {size start stop : ℕ}
    (h : pdcpCntBitmapRangeClear bmp size start stop = some bmp') :
    bmp'.array2_size = bmp.array2_size := by
  rw [pdcpCntBitmapRangeClear] at h
  generalize List.range' start (stop - start) = counts at h
  induction counts generalizing bmp with
  | nil =>
    cases h
    rfl
  | cons i counts ih =>
    rw [List.foldlM_cons] at h
    obtain ⟨bmp₁, hclear, hrest⟩ := bind_eq_some_iff.mp h
    exact (ih hrest).trans (clear_array2_size hclear)

theorem rxDelivSet_array2_size {rx_deliv : ℕ} (h : en.rxDelivSet rx_deliv = some en') :
    en'.bitmap.array2_size = en.bitmap.array2_size := by
  obtain ⟨bmp, hclear, rfl⟩ := map_eq_some_iff.mp h
  exact rangeClear_array2_size hclear

/-- What is done to the reorder buffer does not matter to the bitmap. -/
theorem reorderInsert_bitmap (h : en.reorderInsert mb = some en') : en'.bitmap = en.bitmap := by
  rw [DlEntity.reorderInsert] at h
  split at h
  · cases h
    rfl
  · cases h

theorem reorderStart_bitmap (h : en.reorderStart = some en') : en'.bitmap = en.bitmap := by
  rw [DlEntity.reorderStart] at h
  split at h
  · cases h
    rfl
  · cases h

theorem buffer_bitmap (h : en.buffer mb = some en') : en'.bitmap = en.bitmap := by
  rw [DlEntity.buffer] at h
  split_ifs at h
  · exact reorderInsert_bitmap h
  · obtain ⟨en₁, hstart, hinsert⟩ := bind_eq_some_iff.mp h
    exact (reorderInsert_bitmap hinsert).trans (reorderStart_bitmap hstart)

theorem timerUpdate_bitmap (en : DlEntity) : en.timerUpdate.bitmap = en.bitmap := by
  rw [DlEntity.timerUpdate]
  split_ifs <;> rfl

theorem deliverNext_array2_size {r : List (Option Reorder.Mbuf) × ℕ}
    (h : en.deliverNext mb = some (en', r)) :
    en'.bitmap.array2_size = en.bitmap.array2_size := by
  rw [DlEntity.deliverNext] at h
  split_ifs at h
  · obtain ⟨en₁, hinsert, h⟩ := bind_eq_some_iff.mp h
    obtain ⟨en₂, hdeliv, h⟩ := bind_eq_some_iff.mp h
    cases h
    have hsame := reorderInsert_bitmap hinsert
    exact (rxDelivSet_array2_size hdeliv).trans (congrArg RteBitmap.array2_size hsame)
  · obtain ⟨en₁, hdeliv, h⟩ := bind_eq_some_iff.mp h
    cases h
    exact rxDelivSet_array2_size hdeliv

theorem update_array2_size {r : Except Int (List (Option Reorder.Mbuf) × ℕ)}
    (h : pdcpPostProcessUpdateEntityState en mb = some (en', r)) :
    en'.bitmap.array2_size = en.bitmap.array2_size := by
  simp only [pdcpPostProcessUpdateEntityState] at h
  by_cases hold : mb.seqn.toNat < en.rx_deliv
  · rw [if_pos hold] at h
    cases h
    rfl
  rw [if_neg hold] at h
  obtain ⟨en₀, hen₀, hbmp⟩ : ∃ en₀, (if en.rx_next ≤ mb.seqn.toNat then
      { en with rx_next := (mb.seqn.toNat + 1) % word32 } else en) = en₀ ∧
      en₀.bitmap = en.bitmap := ⟨_, rfl, by split_ifs <;> rfl⟩
  rw [hen₀] at h
  rw [← hbmp]
  obtain ⟨slab, -, h⟩ := bind_eq_some_iff.mp h
  by_cases hslab : slab ≠ 0
  · rw [if_pos hslab] at h
    cases h
    rfl
  rw [if_neg hslab] at h
  obtain ⟨bmp, hset, h⟩ := bind_eq_some_iff.mp h
  rw [← set_array2_size hset]
  split_ifs at h
  · obtain ⟨en₁, hdeliv, heq⟩ := map_eq_some_iff.mp h
    cases heq
    exact rxDelivSet_array2_size hdeliv
  · obtain ⟨⟨en₁, out⟩, hnext, heq⟩ := map_eq_some_iff.mp h
    cases heq
    rw [timerUpdate_bitmap]
    exact deliverNext_array2_size hnext
  · obtain ⟨en₁, hbuffer, heq⟩ := map_eq_some_iff.mp h
    cases heq
    rw [timerUpdate_bitmap, buffer_bitmap hbuffer]

theorem packets_array2_size {p p' : Post} {in_mb : List (Reorder.Mbuf × Bool)}
    (h : p.packets in_mb = some p') : p'.en.bitmap.array2_size = p.en.bitmap.array2_size := by
  induction in_mb generalizing p with
  | nil =>
    cases h
    rfl
  | cons mb in_mb ih =>
    obtain ⟨p₁, hpacket, hrest⟩ := bind_eq_some_iff.mp h
    rw [ih hrest]
    rw [Post.packet] at hpacket
    split_ifs at hpacket
    · cases hpacket
      rfl
    · obtain ⟨⟨en₁, r⟩, hupdate, heq⟩ := map_eq_some_iff.mp hpacket
      have hsame := update_array2_size hupdate
      cases r <;> (cases heq; exact hsame)

theorem dlStep_array2_size {sys sys' : DlSystem} {e : DlEvent} (h : dlStep sys e = some sys') :
    sys'.en.bitmap.array2_size = sys.en.bitmap.array2_size := by
  cases e with
  | pre in_mb =>
    cases h
    rfl
  | post in_mb =>
    obtain ⟨r, hpost, rfl⟩ := map_eq_some_iff.mp h
    obtain ⟨p, hpackets, rfl⟩ := map_eq_some_iff.mp hpost
    exact packets_array2_size hpackets
  | expiry =>
    obtain ⟨⟨en₁, out⟩, hexpiry, rfl⟩ := map_eq_some_iff.mp h
    obtain ⟨⟨out_mb, buf⟩, -, h₁⟩ := bind_eq_some_iff.mp hexpiry
    obtain ⟨en₂, hdeliv, h₂⟩ := bind_eq_some_iff.mp h₁
    cases h₂
    have hsame := rxDelivSet_array2_size hdeliv
    refine Eq.trans ?_ hsame
    show (if en₂.rx_deliv < en₂.rx_next then _ else _ : DlEntity).bitmap.array2_size = _
    split_ifs <;> rfl

/-- An entity that has been established has the slabs of its window. -/
theorem establish_array2_size {plane : Plane} {ooo : Bool} {hfn sn : BitVec 32} {mem : ℕ}
    (hen : rtePdcpEntityEstablish plane ooo hfn sn mem = some en) :
    slabBitSize * en.bitmap.array2_size = 2 ^ (plane.snSize.bits - 1) := by
  obtain ⟨bmp, hbmp, rfl⟩ := map_eq_some_iff.mp hen
  simp only [Bitmap.rteBitmapInit] at hbmp
  split_ifs at hbmp
  cases hbmp
  show slabBitSize * (Bitmap.footprint (pdcpWindowSizeGet plane.snSize).toNat).array2_slabs = _
  cases plane <;> decide +kernel

end Pdcp
