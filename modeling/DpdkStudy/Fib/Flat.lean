import Mathlib.Data.Finset.Card
import DpdkStudy.Fib.Reservation

/-!
# The tables as a flat table

What the data plane amounts to: a next hop for each address, and a number of
groups that are free (`Flat`). A block of 256 addresses has a group if its
addresses do not all have the same next hop (`Mixed`), and no other block has
one. The flat table of a data plane is what its lookups return, with the
groups that are not in use (`Flattens`).

The flat table says when an installation has room: a next hop on a part of a
block takes a group while it is written, if the block has none, and at the left
end of a range over several blocks there have to be two. Where there is room
the installation succeeds, and leads to the tables of the painted flat table
(`installToFib_flat`). Where there is no group at all for its first block, it
fails and changes nothing (`installToFib_refused`).
-/

open Function Finset

namespace Fib

open Rib

/-! ## Flat tables -/

/-- **A flat table**: a next hop for each address, and the number of groups
that are free. -/
structure Flat where
  hop : ℕ → ℕ
  free : ℕ

/-- A block whose addresses do not all have the same next hop. -/
def Mixed (hop : ℕ → ℕ) (b : ℕ) : Prop := ∃ j < 256, hop (b * 256 + j) ≠ hop (b * 256)

instance (hop : ℕ → ℕ) (b : ℕ) : Decidable (Mixed hop b) :=
  inferInstanceAs (Decidable (∃ j, j < 256 ∧ _))

/-- The groups that a block has, one or none. -/
def groups (hop : ℕ → ℕ) (b : ℕ) : ℕ := if Mixed hop b then 1 else 0

/-- A next hop on the addresses from `l` up to `r`. -/
def paint (hop : ℕ → ℕ) (l r nh : ℕ) : ℕ → ℕ := fun a => if l ≤ a ∧ a < r then nh else hop a

/-- A next hop on a part of a block. -/
def Flat.touch (s : Flat) (l r nh : ℕ) : Flat :=
  ⟨paint s.hop l r nh, s.free + groups s.hop (l / 256) - groups (paint s.hop l r nh) (l / 256)⟩

/-- **There is room** to write a part of a block: it has a group, or there are
enough of them. -/
def Flat.HasRoom (s : Flat) (b need : ℕ) : Prop := Mixed s.hop b ∨ need ≤ s.free

/-- The part of a range before its first whole block is written. -/
def Flat.left (s : Flat) (l nh : ℕ) : Flat :=
  if l % 256 = 0 then s else s.touch l ((l + 255) / 256 * 256) nh

/-- Its whole blocks are written. -/
def Flat.middle (s : Flat) (l r nh : ℕ) : Flat :=
  { s with hop := paint s.hop ((l + 255) / 256 * 256) (r / 256 * 256) nh }

/-- The part after its last whole block is written. -/
def Flat.right (s : Flat) (r nh : ℕ) : Flat :=
  if r % 256 = 0 then s else s.touch (r / 256 * 256) r nh

/-- **A next hop is installed on a range.** -/
def Flat.install (s : Flat) (l r nh : ℕ) : Flat :=
  if l / 256 = r / 256 then s.touch l r nh else ((s.left l nh).middle l r nh).right r nh

/-- **There is room for a range.** At its left end there have to be two groups
if it does not end in the same block. -/
def Flat.Admits (s : Flat) (l r nh : ℕ) : Prop :=
  if l / 256 = r / 256 then s.HasRoom (l / 256) 1
  else (l % 256 ≠ 0 → s.HasRoom (l / 256) 2)
    ∧ (r % 256 ≠ 0 → ((s.left l nh).middle l r nh).HasRoom (r / 256) 1)

/-- **There is no group for the first block of a range.** -/
def Flat.Refuses (s : Flat) (l r : ℕ) : Prop :=
  (l % 256 ≠ 0 ∨ l / 256 = r / 256) ∧ ¬ Mixed s.hop (l / 256) ∧ s.free = 0

/-! ## Free groups -/

/-- The number of groups that are not in use. -/
def freeGroups (dp : Dir24_8Tbl) : ℕ :=
  ((Finset.range (dp.numberTbl8s.toNat / 64 * 64)).filter fun i => dp.tbl8Idxes i = false).card

theorem mem_free {dp : Dir24_8Tbl} {i : ℕ} :
    i ∈ (range (dp.numberTbl8s.toNat / 64 * 64)).filter (fun i => dp.tbl8Idxes i = false)
      ↔ i < dp.numberTbl8s.toNat / 64 * 64 ∧ dp.tbl8Idxes i = false := by
  rw [mem_filter, mem_range]

theorem freeGroups_take {dp dp' : Dir24_8Tbl} {idx : ℕ} (hframe : Frame dp dp')
    (hlt : idx < dp.numberTbl8s.toNat / 64 * 64) (hfree : dp.tbl8Idxes idx = false)
    (hidxes : dp'.tbl8Idxes = update dp.tbl8Idxes idx true) :
    freeGroups dp' + 1 = freeGroups dp := by
  have herase : (range (dp'.numberTbl8s.toNat / 64 * 64)).filter
        (fun i => dp'.tbl8Idxes i = false)
      = ((range (dp.numberTbl8s.toNat / 64 * 64)).filter
        fun i => dp.tbl8Idxes i = false).erase idx := by
    ext i
    rw [mem_erase, mem_free, mem_free, hframe.numberTbl8s, hidxes]
    by_cases hi : i = idx
    · simp [hi]
    · simp [hi]
  unfold freeGroups
  rw [herase, card_erase_add_one (mem_free.mpr ⟨hlt, hfree⟩)]

theorem freeGroups_give {dp dp' : Dir24_8Tbl} {idx : ℕ} (hframe : Frame dp dp')
    (hlt : idx < dp.numberTbl8s.toNat / 64 * 64) (hused : dp.tbl8Idxes idx = true)
    (hidxes : dp'.tbl8Idxes = update dp.tbl8Idxes idx false) :
    freeGroups dp' = freeGroups dp + 1 := by
  refine (@freeGroups_take dp' dp idx ?_ ?_ ?_ ?_).symm
  · exact ⟨hframe.numberTbl8s.symm, hframe.rsvdTbl8s.symm, hframe.nhSz.symm, hframe.defNh.symm⟩
  · rw [hframe.numberTbl8s]
    exact hlt
  · rw [hidxes, update_self]
  · rw [hidxes, update_idem, ← hused, update_eq_self]

/-- The number of free groups depends on the bitmap only. -/
theorem freeGroups_congr {dp dp' : Dir24_8Tbl} (hframe : Frame dp dp')
    (hidxes : dp'.tbl8Idxes = dp.tbl8Idxes) : freeGroups dp' = freeGroups dp := by
  unfold freeGroups
  rw [hframe.numberTbl8s, hidxes]

theorem freeGroups_some {dp : Dir24_8Tbl} (hfits : Fits dp) {two : Bool}
    (h : (if two then 2 else 1) ≤ freeGroups dp) : FreeGroups dp two := by
  have hsmall : ∀ i, i < dp.numberTbl8s.toNat / 64 * 64 → i < 2 ^ 31 := by
    intro i hi
    have hplace := hfits.place
    have hpow : 2 ^ (24 - dp.nhSz.val) ≤ 2 ^ 24 := Nat.pow_le_pow_right (by decide) (by omega)
    omega
  have hpos : 0 < freeGroups dp := lt_of_lt_of_le (by split <;> decide) h
  obtain ⟨i, hi⟩ := card_pos.mp hpos
  obtain ⟨hlt, hfree⟩ := mem_free.mp hi
  refine ⟨i, hlt, hsmall i hlt, hfree, fun htwo => ?_⟩
  rw [if_pos htwo] at h
  obtain ⟨j, hj, hne⟩ := exists_mem_ne h i
  obtain ⟨hlt', hfree'⟩ := mem_free.mp hj
  exact ⟨j, hlt', hsmall j hlt', hne, hfree'⟩

theorem tbl8GetIdx_of_full {dp : Dir24_8Tbl} (h : freeGroups dp = 0) :
    tbl8GetIdx dp = (none, dp) := by
  have hnone : firstFree dp.tbl8Idxes (dp.numberTbl8s.toNat / 64 * 64) = none := by
    refine List.find?_eq_none.mpr fun i hi hfree => ?_
    have hmem := mem_free.mpr ⟨List.mem_range.mp hi, by simpa using hfree⟩
    rw [card_eq_zero.mp h] at hmem
    exact absurd hmem (notMem_empty i)
  unfold tbl8GetIdx
  rw [hnone]

/-! ## Blocks and their groups -/

theorem entry_block (dp : Dir24_8Tbl) (b : ℕ) {j : ℕ} (hj : j < 256) :
    entry dp (b * 256 + j) = cell dp b j := by
  unfold entry
  rw [show (b * 256 + j) / 256 = b by omega, show (b * 256 + j) % 256 = j by omega]

/-- **A block with a group has different next hops.** -/
def TidyAt (dp : Dir24_8Tbl) (b : ℕ) : Prop := Extended dp b → ∃ j < 256, cell dp b j ≠ cell dp b 0

/-- One if the block has a group. -/
def taken (dp : Dir24_8Tbl) (b : ℕ) : ℕ := if Extended dp b then 1 else 0

theorem TidyAt.congr {dp dp' : Dir24_8Tbl} {b : ℕ} (h : TidyAt dp b)
    (hext : Extended dp' b → Extended dp b) (hcells : ∀ j < 256, cell dp' b j = cell dp b j) :
    TidyAt dp' b := by
  intro he
  obtain ⟨j, hj, hne⟩ := h (hext he)
  refine ⟨j, hj, ?_⟩
  rw [hcells j hj, hcells 0 (by decide)]
  exact hne

/-- What the way of an entry to its group does to the bitmap. -/
theorem groupOf_free {dp dp' : Dir24_8Tbl} {ip : UInt32} {two : Bool} {idx : ℕ}
    (hN : dp.numberTbl8s.toNat % 64 = 0) (hr : groupOf dp ip two = (some idx, dp')) :
    freeGroups dp' + 1 = freeGroups dp + taken dp (ip.toNat / 256)
      ∧ ∀ b, b ≠ ip.toNat / 256 → (Extended dp' b ↔ Extended dp b) := by
  have hframe := groupOf_frame dp ip two
  rw [hr] at hframe
  unfold taken
  by_cases hext : Extended dp (ip.toNat / 256)
  · unfold groupOf at hr
    dsimp only at hr
    rw [if_pos (show dp.tbl24 (ip.toNat / 256) % 2 = 1 from hext)] at hr
    obtain ⟨-, rfl⟩ := Prod.mk.inj hr
    rw [if_pos hext]
    exact ⟨rfl, fun _ _ => Iff.rfl⟩
  · obtain ⟨hidx, hfree, h24, -, hidxes⟩ := groupOf_some hext hr
    rw [if_neg hext, Nat.add_zero]
    refine ⟨freeGroups_take hframe (by omega) hfree hidxes, fun b hb => ?_⟩
    unfold Extended
    rw [h24, writeToFib_one, update_of_ne hb]

/-- A group is given back, or its entries are not all the same. -/
theorem tbl8Recycle_cases (dp : Dir24_8Tbl) (ip : UInt32) (idx : ℕ) :
    ((tbl8Recycle dp ip idx).tbl24
          = update dp.tbl24 (ip.toNat / 256) (dp.tbl8 (idx * 256) / 2 * 2)
        ∧ (tbl8Recycle dp ip idx).tbl8Idxes = update dp.tbl8Idxes idx false)
      ∨ tbl8Recycle dp ip idx = dp ∧ ∃ j < 256, dp.tbl8 (idx * 256 + j) ≠ dp.tbl8 (idx * 256) := by
  unfold tbl8Recycle
  dsimp only
  split
  · exact Or.inl ⟨rfl, rfl⟩
  · next hall =>
    simp only [List.all_eq_true, List.mem_range, decide_eq_true_eq, not_forall] at hall
    obtain ⟨j, hj, hne⟩ := hall
    exact Or.inr ⟨rfl, j, hj, hne⟩

theorem tbl8Recycle_free {dp : Dir24_8Tbl} (h : Sound dp) (hN : dp.numberTbl8s.toNat % 64 = 0)
    {ip : UInt32} {idx : ℕ} (hext : Extended dp (ip.toNat / 256))
    (hidx : dp.tbl24 (ip.toNat / 256) / 2 = idx) :
    freeGroups (tbl8Recycle dp ip idx) + taken (tbl8Recycle dp ip idx) (ip.toNat / 256)
        = freeGroups dp + 1
      ∧ TidyAt (tbl8Recycle dp ip idx) (ip.toNat / 256)
      ∧ ∀ b, b ≠ ip.toNat / 256 → (Extended (tbl8Recycle dp ip idx) b ↔ Extended dp b) := by
  have hb : ip.toNat / 256 < 2 ^ 24 := by
    have hip := ip.toNat_lt
    omega
  have hlt := h.index _ hb hext
  have hused := h.inUse _ hb hext
  rw [hidx] at hlt hused
  have hframe := tbl8Recycle_frame dp ip idx
  rcases tbl8Recycle_cases dp ip idx with ⟨h24, hidxes⟩ | ⟨hsame, j, hj, hne⟩
  · have hnot : ¬ Extended (tbl8Recycle dp ip idx) (ip.toNat / 256) := by
      unfold Extended
      rw [h24, update_self]
      omega
    refine ⟨?_, fun he => absurd he hnot, fun b hne => ?_⟩
    · unfold taken
      rw [if_neg hnot]
      exact freeGroups_give hframe (by omega) hused hidxes
    · unfold Extended
      rw [h24, update_of_ne hne]
  · rw [hsame]
    refine ⟨by rw [taken, if_pos hext], fun _ => ⟨j, hj, fun heq => hne ?_⟩, fun _ _ => Iff.rfl⟩
    -- the entries are odd, so that the next hops differ
    have hj' := (h.odd _ hb hext j hj).1
    have h0' := (h.odd _ hb hext 0 (by decide)).1
    unfold cell at heq
    rw [if_pos hext, if_pos hext] at heq
    simp only [slot, hidx, Nat.add_zero] at hj' h0' heq
    omega

/-- What an installation on a part of a block does to the bitmap. -/
theorem installTbl8_free {dp dp' : Dir24_8Tbl} (h : Sound dp) (hfits : Fits dp)
    (hN : dp.numberTbl8s.toNat % 64 = 0) {ip n : UInt32} {nextHop : ℕ} {two : Bool}
    (hnh : nextHop ≤ getMaxNh dp.nhSz) (hn : ip.toNat % 256 + n.toNat ≤ 256)
    (hr : installTbl8 dp ip n nextHop two = (0, dp')) :
    freeGroups dp' + taken dp' (ip.toNat / 256) = freeGroups dp + taken dp (ip.toNat / 256)
      ∧ TidyAt dp' (ip.toNat / 256)
      ∧ ∀ b, b ≠ ip.toNat / 256 → (Extended dp' b ↔ Extended dp b) := by
  obtain ⟨idx, dp₁, dp₂, hg, rfl, hs₂, hf₂, h24, hidxes, hext₂, hidx₂, -⟩ :=
    installTbl8_written h hfits hnh hn hr
  have hf₁ := groupOf_frame dp ip two
  rw [hg] at hf₁
  obtain ⟨hfree₁, hother₁⟩ := groupOf_free hN hg
  have hN₂ : dp₂.numberTbl8s.toNat % 64 = 0 := by
    rw [hf₂.numberTbl8s, hf₁.numberTbl8s]
    exact hN
  obtain ⟨hfree₂, htidy, hother₂⟩ := tbl8Recycle_free hs₂ hN₂ hext₂ hidx₂
  rw [freeGroups_congr hf₂ hidxes] at hfree₂
  refine ⟨hfree₂.trans hfree₁, htidy, fun b hb => ?_⟩
  rw [hother₂ b hb, ← hother₁ b hb]
  unfold Extended
  rw [h24]

/-! ## The flat table of a data plane -/

/-- **The tables amount to a flat table**: it has their answers, and as many
free groups; and no group is wasted. -/
structure Flattens (dp : Dir24_8Tbl) (s : Flat) : Prop where
  sound : Sound dp
  tidy : ∀ b < 2 ^ 24, TidyAt dp b
  hop : ∀ a < 2 ^ 32, entry dp a = s.hop a
  free : freeGroups dp = s.free

/-- A block has a group if its addresses have different next hops. -/
theorem Flattens.extended_iff {dp : Dir24_8Tbl} {s : Flat} (h : Flattens dp s) {b : ℕ}
    (hb : b < 2 ^ 24) : Extended dp b ↔ Mixed s.hop b := by
  have hcell : ∀ j < 256, s.hop (b * 256 + j) = cell dp b j := by
    intro j hj
    rw [← h.hop _ (by omega), entry_block dp b hj]
  have hzero : s.hop (b * 256) = cell dp b 0 := by
    rw [← hcell 0 (by decide), Nat.add_zero]
  constructor
  · intro he
    obtain ⟨j, hj, hne⟩ := h.tidy b hb he
    refine ⟨j, hj, ?_⟩
    rw [hcell j hj, hzero]
    exact hne
  · rintro ⟨j, hj, hne⟩
    by_contra he
    rw [hcell j hj, hzero] at hne
    unfold cell at hne
    rw [if_neg he, if_neg he] at hne
    exact hne rfl

theorem Flattens.taken_eq {dp : Dir24_8Tbl} {s : Flat} (h : Flattens dp s) {b : ℕ}
    (hb : b < 2 ^ 24) : taken dp b = groups s.hop b :=
  if_congr (h.extended_iff hb) rfl rfl

theorem Installs.paint_eq {dp dp' : Dir24_8Tbl} {s : Flat} (h : Flattens dp s) {l r nh : ℕ}
    (hi : Installs dp dp' nh fun a => l ≤ a ∧ a < r) :
    ∀ a < 2 ^ 32, entry dp' a = paint s.hop l r nh a := by
  intro a ha
  unfold paint
  by_cases hp : l ≤ a ∧ a < r
  · rw [if_pos hp, hi.hit a ha hp]
  · rw [if_neg hp, hi.miss a ha hp, h.hop a ha]

section Install

variable {dp : Dir24_8Tbl} {s : Flat} {nextHop : ℕ}

/-- An installation on a part of a block, where there is room. -/
theorem installTbl8_flat (h : Flattens dp s) (hfits : Fits dp)
    (hN : dp.numberTbl8s.toNat % 64 = 0) {ip n : UInt32} {two : Bool}
    (hnh : nextHop ≤ getMaxNh dp.nhSz) (hn : ip.toNat % 256 + n.toNat ≤ 256)
    (hroom : s.HasRoom (ip.toNat / 256) (if two then 2 else 1)) :
    ∃ dp', installTbl8 dp ip n nextHop two = (0, dp') ∧ Frame dp dp'
      ∧ Flattens dp' (s.touch ip.toNat (ip.toNat + n.toNat) nextHop) := by
  have hb : ip.toNat / 256 < 2 ^ 24 := by
    have hip := ip.toNat_lt
    omega
  have hok : (installTbl8 dp ip n nextHop two).1 = 0 := by
    refine installTbl8_ok (hroom.imp (h.extended_iff hb).mpr fun hfree => ?_)
    exact freeGroups_some hfits (h.free ▸ hfree)
  cases hr : installTbl8 dp ip n nextHop two with
  | mk r dp' =>
    rw [hr] at hok
    obtain rfl : r = 0 := hok
    obtain ⟨hs', hf', hcells⟩ := installTbl8_spec h.sound hfits hnh hn hr
    obtain ⟨hfree, htidy, hother⟩ := installTbl8_free h.sound hfits hN hnh hn hr
    have hhop := (installTbl8_installs h.sound hfits hnh hn hr).paint_eq h
    have htidy' : ∀ b < 2 ^ 24, TidyAt dp' b := by
      intro b hb'
      by_cases hne : b = ip.toNat / 256
      · rw [hne]
        exact htidy
      · refine (h.tidy b hb').congr (hother b hne).mp fun j hj => ?_
        rw [hcells b hb' j hj, if_neg (fun hc => hne hc.1)]
    refine ⟨dp', rfl, hf', hs', htidy', hhop, ?_⟩
    have hflat : Flattens dp' ⟨paint s.hop ip.toNat (ip.toNat + n.toNat) nextHop, freeGroups dp'⟩ :=
      ⟨hs', htidy', hhop, rfl⟩
    rw [h.taken_eq hb, hflat.taken_eq hb, h.free] at hfree
    exact Nat.eq_sub_of_add_eq hfree

/-- An installation on a part of a block that has no group, where there is
none. -/
theorem installTbl8_refused (h : Flattens dp s) {ip n : UInt32} {two : Bool}
    (hmixed : ¬ Mixed s.hop (ip.toNat / 256)) (hfree : s.free = 0) :
    installTbl8 dp ip n nextHop two = (-enospc, dp) := by
  have hb : ip.toNat / 256 < 2 ^ 24 := by
    have hip := ip.toNat_lt
    omega
  have hget := tbl8GetIdx_of_full (h.free.trans hfree)
  have halloc : ∀ nh, tbl8Alloc dp nh = (none, dp) := by
    intro nh
    unfold tbl8Alloc
    rw [hget]
  have hgroup : groupOf dp ip two = (none, dp) := by
    unfold groupOf
    dsimp only
    rw [if_neg (show ¬ dp.tbl24 (ip.toNat / 256) % 2 = 1 from
      fun hc => hmixed ((h.extended_iff hb).mp hc)), halloc]
    cases two with
    | false => rfl
    | true =>
      dsimp only
      rw [if_pos rfl, hget]
  unfold installTbl8
  rw [hgroup]

theorem installMiddle_flat (h : Flattens dp s) {ledge redge : UInt32}
    (hnh : nextHop ≤ getMaxNh dp.nhSz) (hlen : (rangeLen ledge redge).toNat < 2 ^ 31) {lo hi : ℕ}
    (hlo : (roundup24 ledge).toNat / 256 = lo)
    (hhi : (roundup24 ledge).toNat / 256 + (rangeLen ledge redge).toNat = hi) :
    Flattens (installMiddle dp ledge redge nextHop)
      ⟨paint s.hop (lo * 256) (hi * 256) nextHop, s.free⟩ := by
  have hinst : Installs dp (installMiddle dp ledge redge nextHop) nextHop _ :=
    writeTbl24_installs h.sound hnh hlen
  rw [hlo] at hinst
  have hhop := (hinst.congr (fun a _ => show _ ↔ lo * 256 ≤ a ∧ a < hi * 256 by omega)).paint_eq h
  refine ⟨hinst.sound, fun b hb => ?_, hhop, h.free⟩
  have h24 : ∀ k, (installMiddle dp ledge redge nextHop).tbl24 k
      = if lo ≤ k ∧ k < hi then nextHop * 2 else dp.tbl24 k := by
    intro k
    unfold installMiddle
    dsimp only
    rw [writeToFib_apply _ _ _ _ hlen, hlo, ← hhi, hlo, Nat.mod_eq_of_lt]
    revert hnh
    cases dp.nhSz <;> simp only [getMaxNh, bitsInNh, NhSz.val] <;> omega
  by_cases hin : lo ≤ b ∧ b < hi
  · intro he
    unfold Extended at he
    rw [h24, if_pos hin] at he
    omega
  · have hsame : (installMiddle dp ledge redge nextHop).tbl24 b = dp.tbl24 b := by
      rw [h24, if_neg hin]
    have hiff : Extended (installMiddle dp ledge redge nextHop) b ↔ Extended dp b := by
      unfold Extended
      rw [hsame]
    refine (h.tidy b hb).congr hiff.mp fun j _ => ?_
    unfold cell slot
    rw [hsame]
    exact if_congr hiff rfl rfl

theorem installLeft_flat (h : Flattens dp s) (hfits : Fits dp)
    (hN : dp.numberTbl8s.toNat % 64 = 0) {ledge : UInt32} (hnh : nextHop ≤ getMaxNh dp.nhSz)
    (hroom : ledge.toNat % 256 ≠ 0 → s.HasRoom (ledge.toNat / 256) 2) :
    ∃ dp', installLeft dp ledge nextHop = (0, dp') ∧ Frame dp dp'
      ∧ Flattens dp' (s.left ledge.toNat nextHop) := by
  have hlt := ledge.toNat_lt
  have hround := toNat_roundup24 ledge
  have hn : (roundup24 ledge - ledge).toNat = (ledge.toNat + 255) / 256 * 256 - ledge.toNat := by
    rw [UInt32.toNat_sub]
    omega
  unfold installLeft Flat.left
  by_cases hzero : ledge.toNat % 256 = 0
  · have hz : roundup24 ledge - ledge = 0 := by
      refine UInt32.toNat_inj.mp ?_
      rw [hn]
      show _ = 0
      omega
    rw [if_pos hzero, if_neg (not_not.mpr hz)]
    exact ⟨dp, rfl, Frame.refl dp, h⟩
  · have hz : roundup24 ledge - ledge ≠ 0 := by
      intro hc
      rw [hc] at hn
      have h0 : (0 : UInt32).toNat = 0 := rfl
      omega
    rw [if_neg hzero, if_pos hz]
    obtain ⟨dp', hr, hf, hflat⟩ := installTbl8_flat h hfits hN hnh (n := roundup24 ledge - ledge)
      (by omega) (show s.HasRoom _ (if true then 2 else 1) from hroom hzero)
    rw [hn, show ledge.toNat + ((ledge.toNat + 255) / 256 * 256 - ledge.toNat)
      = (ledge.toNat + 255) / 256 * 256 by omega] at hflat
    exact ⟨dp', hr, hf, hflat⟩

theorem installRight_flat (h : Flattens dp s) (hfits : Fits dp)
    (hN : dp.numberTbl8s.toNat % 64 = 0) {redge : UInt32} (hnh : nextHop ≤ getMaxNh dp.nhSz)
    (hroom : redge.toNat % 256 ≠ 0 → s.HasRoom (redge.toNat / 256) 1) :
    ∃ dp', installRight dp redge nextHop = (0, dp') ∧ Frame dp dp'
      ∧ Flattens dp' (s.right redge.toNat nextHop) := by
  have hmask := toNat_and_tbl24Mask redge
  have hrest := toNat_and_255 redge
  unfold installRight Flat.right
  by_cases hzero : redge.toNat % 256 = 0
  · have hz : redge &&& 255 = 0 := UInt32.toNat_inj.mp (hrest.trans hzero)
    rw [if_pos hzero, if_neg (not_not.mpr hz)]
    exact ⟨dp, rfl, Frame.refl dp, h⟩
  · have hz : redge &&& 255 ≠ 0 := by
      intro hc
      rw [hc] at hrest
      exact hzero hrest.symm
    rw [if_neg hzero, if_pos hz]
    have hblock : (redge &&& tbl24Mask).toNat / 256 = redge.toNat / 256 := by omega
    obtain ⟨dp', hr, hf, hflat⟩ := @installTbl8_flat dp s nextHop h hfits hN
      (redge &&& tbl24Mask) (redge &&& 255) false hnh (by omega)
      (by rw [hblock]; exact hroom hzero)
    rw [hmask, hrest, show redge.toNat / 256 * 256 + redge.toNat % 256 = redge.toNat by omega]
      at hflat
    exact ⟨dp', hr, hf, hflat⟩

theorem paint_empty (hop : ℕ → ℕ) {l r : ℕ} (h : r ≤ l) (nh : ℕ) : paint hop l r nh = hop := by
  funext a
  exact if_neg (by omega)

theorem edge_le (redge : UInt32) : edge redge ≤ 2 ^ 32 := by
  have hlt := redge.toNat_lt
  unfold edge
  split <;> omega

theorem sub_ne_zero_of_lt_edge {ledge redge : UInt32} (hlt : ledge.toNat < edge redge)
    (hsame : ledge.toNat / 256 = edge redge / 256) :
    edge redge = redge.toNat ∧ (redge - ledge).toNat = redge.toNat - ledge.toNat
      ∧ redge - ledge ≠ 0 := by
  have hl32 := ledge.toNat_lt
  have hr32 := redge.toNat_lt
  have hnz : redge ≠ 0 := by
    rintro rfl
    have hedge : edge 0 = 2 ^ 32 := if_pos rfl
    omega
  have hedge : edge redge = redge.toNat := if_neg hnz
  rw [hedge] at hlt
  have hn : (redge - ledge).toNat = redge.toNat - ledge.toNat := by
    rw [UInt32.toNat_sub]
    omega
  refine ⟨hedge, hn, fun hc => ?_⟩
  rw [hc] at hn
  have h0 : (0 : UInt32).toNat = 0 := rfl
  omega

/-- Whether a range ends in the block in which it begins, as `install_to_fib`
sees it. -/
theorem apart_iff {ledge redge : UInt32} (hlt : ledge.toNat < edge redge)
    (htop : redge = 0 → ledge.toNat = 0 ∨ 256 ≤ ledge.toNat) :
    (ledge >>> 8 ≠ redge >>> 8 ∨ rangeLen ledge redge = 0x1000000)
      ↔ ledge.toNat / 256 ≠ edge redge / 256 := by
  have hl32 := ledge.toNat_lt
  have hr32 := redge.toNat_lt
  have hshift : ledge >>> 8 = redge >>> 8 ↔ ledge.toNat / 256 = redge.toNat / 256 := by
    rw [← UInt32.toNat_inj, toNat_shiftRight_8, toNat_shiftRight_8]
  rw [ne_eq, hshift]
  unfold edge at hlt ⊢
  by_cases hz : redge = 0
  · -- the range ends where the address space does
    subst hz
    rw [if_pos rfl]
    refine iff_of_true ?_ (by omega)
    have h0 : (0 : UInt32).toNat = 0 := rfl
    rcases htop rfl with hl | hl
    · exact Or.inr (if_pos ⟨UInt32.toNat_inj.mp hl, rfl⟩)
    · exact Or.inl (by omega)
  · rw [if_neg hz] at hlt ⊢
    refine or_iff_left fun hlen => ?_
    unfold rangeLen at hlen
    rw [if_neg (fun hc => hz hc.2)] at hlen
    have hval := congrArg UInt32.toNat hlen
    rw [toNat_shiftRight_8] at hval
    have hmax := ((redge &&& tbl24Mask) - roundup24 ledge).toNat_lt
    have hbig : (0x1000000 : UInt32).toNat = 2 ^ 24 := rfl
    omega

/-- An installation on a range, where there is room. -/
theorem installToFib_flat (h : Flattens dp s) (hfits : Fits dp)
    (hN : dp.numberTbl8s.toNat % 64 = 0) {ledge redge : UInt32} (hnh : nextHop ≤ getMaxNh dp.nhSz)
    (hlt : ledge.toNat < edge redge) (htop : redge = 0 → ledge.toNat = 0 ∨ 256 ≤ ledge.toNat)
    (hroom : s.Admits ledge.toNat (edge redge) nextHop) :
    ∃ dp', installToFib dp ledge redge nextHop = (0, dp') ∧ Frame dp dp'
      ∧ Flattens dp' (s.install ledge.toNat (edge redge) nextHop) := by
  have hl32 := ledge.toNat_lt
  have hr32 := redge.toNat_lt
  have hround := toNat_roundup24 ledge
  have hle := edge_le redge
  have hiff := apart_iff hlt htop
  unfold Flat.Admits at hroom
  unfold Flat.install
  by_cases hsame : ledge.toNat / 256 = edge redge / 256
  · have hcond := mt hiff.mp (not_not.mpr hsame)
    rw [if_pos hsame] at hroom ⊢
    rw [installToFib_of_together dp nextHop hcond]
    obtain ⟨hedge, hn, hne⟩ := sub_ne_zero_of_lt_edge hlt hsame
    rw [hedge] at hlt hsame ⊢
    rw [if_pos hne]
    obtain ⟨dp', hr, hf, hflat⟩ := @installTbl8_flat dp s nextHop h hfits hN
      ledge (redge - ledge) false hnh (by omega) hroom
    rw [hn, show ledge.toNat + (redge.toNat - ledge.toNat) = redge.toNat by omega] at hflat
    exact ⟨dp', hr, hf, hflat⟩
  · have hcond := hiff.mpr hsame
    have hlen := rangeLen_spec hlt htop hcond
    rw [if_neg hsame] at hroom ⊢
    rw [installToFib_of_apart dp nextHop hcond]
    obtain ⟨dp₁, hleft, hf₁, hflat₁⟩ := installLeft_flat h hfits hN hnh hroom.1
    rw [hleft, if_neg (not_not.mpr rfl)]
    have hnh₁ : nextHop ≤ getMaxNh dp₁.nhSz := by
      rw [hf₁.nhSz]
      exact hnh
    have hflat₂ : Flattens (installMiddle dp₁ ledge redge nextHop)
        ((s.left ledge.toNat nextHop).middle ledge.toNat (edge redge) nextHop) := by
      have hlen31 : (rangeLen ledge redge).toNat < 2 ^ 31 := by omega
      have hmid := installMiddle_flat hflat₁ hnh₁ hlen31 rfl rfl
      by_cases hlast : ledge.toNat + 255 < 2 ^ 32
      · rw [hround, show (ledge.toNat + 255) % 2 ^ 32 / 256 * 256 / 256
          = (ledge.toNat + 255) / 256 by omega, hlen.1] at hmid
        exact hmid
      · -- there are no whole blocks after the last one
        rw [paint_empty _ (by omega)] at hmid
        unfold Flat.middle
        rw [paint_empty _ (show edge redge / 256 * 256 ≤ (ledge.toNat + 255) / 256 * 256 by omega)]
        exact hmid
    have hf₂ : Frame dp (installMiddle dp₁ ledge redge nextHop) := hf₁.trans ⟨rfl, rfl, rfl, rfl⟩
    have hN₂ : (installMiddle dp₁ ledge redge nextHop).numberTbl8s.toNat % 64 = 0 := by
      rw [hf₂.numberTbl8s]
      exact hN
    by_cases hz : redge = 0
    · have hedge : edge redge = 2 ^ 32 := if_pos hz
      have hnone : redge.toNat % 256 = 0 := by
        rw [hz]
        rfl
      obtain ⟨dp', hr, hf, hflat⟩ := @installRight_flat _ _ nextHop hflat₂ (hfits.frame hf₂) hN₂
        redge hnh₁ (fun hc => absurd hnone hc)
      refine ⟨dp', hr, hf₂.trans hf, ?_⟩
      unfold Flat.right at hflat ⊢
      rw [if_pos hnone] at hflat
      rw [if_pos (show edge redge % 256 = 0 by omega)]
      exact hflat
    · have hedge : edge redge = redge.toNat := if_neg hz
      rw [hedge] at hroom hflat₂ ⊢
      obtain ⟨dp', hr, hf, hflat⟩ := installRight_flat hflat₂ (hfits.frame hf₂) hN₂ hnh₁ hroom.2
      exact ⟨dp', hr, hf₂.trans hf, hflat⟩

/-- An installation on a range that finds no group for its first block. -/
theorem installToFib_refused (h : Flattens dp s) {ledge redge : UInt32}
    (hlt : ledge.toNat < edge redge) (htop : redge = 0 → ledge.toNat = 0 ∨ 256 ≤ ledge.toNat)
    (hfull : s.Refuses ledge.toNat (edge redge)) :
    installToFib dp ledge redge nextHop = (-enospc, dp) := by
  have hl32 := ledge.toNat_lt
  have hround := toNat_roundup24 ledge
  have hiff := apart_iff hlt htop
  obtain ⟨hpart, hmixed, hfree⟩ := hfull
  by_cases hsame : ledge.toNat / 256 = edge redge / 256
  · have hcond := mt hiff.mp (not_not.mpr hsame)
    rw [installToFib_of_together dp nextHop hcond]
    rw [if_pos (sub_ne_zero_of_lt_edge hlt hsame).2.2]
    exact installTbl8_refused h hmixed hfree
  · have hcond := hiff.mpr hsame
    rw [installToFib_of_apart dp nextHop hcond]
    have hne : roundup24 ledge - ledge ≠ 0 := by
      intro hc
      have hn := congrArg UInt32.toNat hc
      rw [UInt32.toNat_sub, hround] at hn
      have h0 : (0 : UInt32).toNat = 0 := rfl
      have hoff := hpart.resolve_right hsame
      omega
    have hleft : installLeft dp ledge nextHop = (-enospc, dp) := by
      unfold installLeft
      rw [if_pos hne]
      exact installTbl8_refused h hmixed hfree
    rw [hleft, if_pos (show (-enospc : Int) ≠ 0 by decide)]

end Install

end Fib
