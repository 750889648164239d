import DpdkStudy.Pdcp.Window

/-!
# What a packet does to a downlink entity

While packets are missing, the reorder buffer starts at `RX_DELIV` and its slots are
those of the window (`Keeps`). A packet takes its slot, and the packets up to the first
gap are delivered (`Keeps.accept`), if they are not as many as a `uint16_t` counts. Then
the timer is set right (`Keeps.timerUpdate`). So is it when the timer expires
(`Keeps.expire`), if the window has not more packets than that.
-/

open List Option Nat

namespace Pdcp

open List (replicate)

variable {k : ℕ} {en : DlEntity} {w : List (Option Reorder.Mbuf)} {mb : Reorder.Mbuf}

/-- **The slots of an entity** are its window. -/
structure Keeps (k : ℕ) (en : DlEntity) (w : List (Option Reorder.Mbuf)) : Prop where
  small : k ≤ 17
  cache : en.max_pkt_cache = 2 ^ k
  size : en.bitmap_size = 2 ^ k
  inOrder : en.is_out_of_order_delivery = false
  shows : ∃ rest, Reorder.Shows k en.reorder [] rest w
  slots : ∃ bits, Bitmap.Inv (2 ^ k) en.bitmap bits ∧
    Slots (2 ^ k) en.rx_deliv bits en.rx_next w
  first : w.head? = some none
  active : en.is_active = true →
    en.reorder.isInitialized = true ∧ en.reorder.minSeqn.toNat = en.rx_deliv
  inactive : en.is_active = false → ∀ x ∈ w, x = none
  next_lt : en.rx_next < word32
  next_le : en.rx_next ≤ en.rx_deliv + 2 ^ k

/-- **The timer waits** for what is missing. -/
def TimerOk (en : DlEntity) : Prop :=
  match en.t_reorder with
  | .stop => en.is_active = false ∧ en.rx_next ≤ en.rx_deliv
  | .running => en.is_active = true ∧ en.rx_deliv < en.rx_reord ∧ en.rx_reord ≤ en.rx_next
  | .expired => en.is_active = true

theorem Keeps.length (h : Keeps k en w) : w.length = 2 ^ k := by
  obtain ⟨bits, -, hslots⟩ := h.slots
  exact hslots.length

/-- A packet is inserted in its slot of the reorder buffer. -/
theorem reorderInsert_spec (mb : Reorder.Mbuf) {rest : List (Option Reorder.Mbuf)}
    (hshows : Reorder.Shows k en.reorder [] rest w) (hinit : en.reorder.isInitialized = true)
    (hle : en.reorder.minSeqn.toNat ≤ mb.seqn.toNat)
    (hlt : mb.seqn.toNat - en.reorder.minSeqn.toNat < 2 ^ k) :
    ∃ buf, en.reorderInsert mb = some { en with reorder := buf } ∧
      Reorder.Shows k buf [] rest
        (w.set (mb.seqn.toNat - en.reorder.minSeqn.toNat) (some mb)) ∧
      buf.isInitialized = true ∧ buf.minSeqn = en.reorder.minSeqn := by
  have hsame : en.reorder.initialized mb = en.reorder := if_pos hinit
  have hoff : (mb.seqn - en.reorder.minSeqn).toNat =
      mb.seqn.toNat - en.reorder.minSeqn.toNat :=
    UInt32.toNat_sub_of_le _ _ (UInt32.le_iff_toNat_le.mpr hle)
  have hin : (mb.seqn - (en.reorder.initialized mb).minSeqn).toNat < 2 ^ k := by
    rwa [hsame, hoff]
  have hinsert := Reorder.rteReorderInsert_inside hshows hin
  rw [hsame] at hinsert
  refine ⟨en.reorder.store (mb.seqn - en.reorder.minSeqn) mb, ?_, ?_, hinit, rfl⟩
  · rw [DlEntity.reorderInsert, hinsert]
  · have hstore := hshows.store mb (hoff ▸ hlt)
    rwa [hoff] at hstore

theorem rxDelivSet_spec (en : DlEntity) {bits : Set ℕ} (hi : Bitmap.Inv (2 ^ k) en.bitmap bits)
    (hsize : en.bitmap_size = 2 ^ k) (n : ℕ) :
    ∃ bmp, en.rxDelivSet (en.rx_deliv + n) =
        some { en with bitmap := bmp, rx_deliv := en.rx_deliv + n } ∧
      Bitmap.Inv (2 ^ k) bmp (bits \ {x | ∃ i < n, x = (en.rx_deliv + i) % 2 ^ k}) := by
  obtain ⟨bmp, hclear, hi'⟩ :=
    pdcpCntBitmapRangeClear_spec (Nat.two_pow_pos k) hi en.rx_deliv n
  refine ⟨bmp, ?_, hi'⟩
  rw [DlEntity.rxDelivSet, hsize, hclear]
  rfl

/-! ## A packet that is accepted -/

/-- The slots behind the first gap, when those in front of it are given up. -/
def behind (v : List (Option Reorder.Mbuf)) : List (Option Reorder.Mbuf) :=
  v.dropWhile Option.isSome ++ replicate (v.takeWhile Option.isSome).length none

/-- **A packet whose COUNT has been noted**, and that is not in its slot yet. With it the
slots are `v`. -/
structure Notes (k : ℕ) (en : DlEntity) (w : List (Option Reorder.Mbuf)) (mb : Reorder.Mbuf)
    (v : List (Option Reorder.Mbuf)) : Prop where
  small : k ≤ 17
  cache : en.max_pkt_cache = 2 ^ k
  size : en.bitmap_size = 2 ^ k
  inOrder : en.is_out_of_order_delivery = false
  shows : ∃ rest, Reorder.Shows k en.reorder [] rest w
  set : v = w.set (mb.seqn.toNat - en.rx_deliv) (some mb)
  slots : ∃ bits, Bitmap.Inv (2 ^ k) en.bitmap bits ∧
    Slots (2 ^ k) en.rx_deliv bits en.rx_next v
  first : w.head? = some none
  active : en.is_active = true →
    en.reorder.isInitialized = true ∧ en.reorder.minSeqn.toNat = en.rx_deliv
  inactive : en.is_active = false → ∀ x ∈ w, x = none
  next_lt : en.rx_next < word32
  next_le : en.rx_next ≤ en.rx_deliv + 2 ^ k
  le : en.rx_deliv ≤ mb.seqn.toNat
  lt : mb.seqn.toNat < en.rx_next

/-- What the reorder buffer and `RX_DELIV` do not matter to. -/
def SameTimer (en en' : DlEntity) : Prop :=
  en'.plane = en.plane ∧ en'.rx_next = en.rx_next ∧ en'.rx_reord = en.rx_reord ∧
    en'.t_reorder = en.t_reorder

section Notes

variable {v : List (Option Reorder.Mbuf)} (h : Notes k en w mb v)

include h in
theorem Notes.length : v.length = 2 ^ k := by
  obtain ⟨bits, -, hslots⟩ := h.slots
  exact hslots.length

include h in
theorem Notes.offset_lt : mb.seqn.toNat - en.rx_deliv < 2 ^ k := by
  have hle := h.next_le
  have hlt := h.lt
  have hpos := Nat.two_pow_pos k
  omega

include h in
/-- The packets up to the first gap are in the window. -/
theorem Notes.front_le : en.rx_deliv + (v.takeWhile isSome).length ≤ en.rx_next := by
  obtain ⟨bits, -, hslots⟩ := h.slots
  refine hslots.front_le (h.le.trans h.lt.le) (fun m hm => ?_)
  exact (hslots.of_mem hm).2.2.ne

include h in
/-- A packet that is not the next one is buffered. -/
theorem Notes.buffer (hne : mb.seqn.toNat ≠ en.rx_deliv) :
    ∃ en', en.buffer mb = some en' ∧ Keeps k en' v ∧ en'.rx_deliv = en.rx_deliv ∧
      SameTimer en en' ∧ en'.is_active = true := by
  have hle := h.le
  have hoff := h.offset_lt
  have hfirst : v.head? = some none := by
    rw [h.set, head?_eq_getElem?, getElem?_set_ne (by omega), ← head?_eq_getElem?]
    exact h.first
  -- The reorder buffer starts at `RX_DELIV`, now or already.
  have hinsert : ∀ en₀ : DlEntity, (∃ rest, Reorder.Shows k en₀.reorder [] rest w) →
      en₀.reorder.isInitialized = true → en₀.reorder.minSeqn.toNat = en.rx_deliv →
      ∃ buf rest', en₀.reorderInsert mb = some { en₀ with reorder := buf } ∧
        Reorder.Shows k buf [] rest' v ∧
        buf.isInitialized = true ∧ buf.minSeqn.toNat = en.rx_deliv := by
    rintro en₀ ⟨rest, hshows⟩ hinit hmin
    obtain ⟨buf, hins, hshows', hinit', hmin'⟩ := reorderInsert_spec mb hshows hinit
      (hmin ▸ hle) (by rwa [hmin])
    rw [hmin, ← h.set] at hshows'
    exact ⟨buf, rest, hins, hshows', hinit', by rw [hmin', hmin]⟩
  rw [DlEntity.buffer]
  by_cases hact : en.is_active = true
  · obtain ⟨hinit, hmin⟩ := h.active hact
    obtain ⟨buf, rest', hins, hshows', hinit', hmin'⟩ := hinsert en h.shows hinit hmin
    rw [if_pos hact, hins]
    refine ⟨_, rfl, ⟨h.small, h.cache, h.size, h.inOrder, ⟨rest', hshows'⟩, h.slots, hfirst,
      fun _ => ⟨hinit', hmin'⟩, fun hoffline => ?_, h.next_lt, h.next_le⟩, rfl,
      ⟨rfl, rfl, rfl, rfl⟩, hact⟩
    exact absurd (hact.symm.trans hoffline) (by decide)
  · have hnone := h.inactive (Bool.eq_false_iff.mpr hact)
    obtain ⟨rest, hshows⟩ := h.shows
    obtain ⟨hset, hshows₀⟩ :=
      Reorder.rteReorderMinSeqnSet_spec hshows hnone (UInt32.ofNat en.rx_deliv)
    have hdlt : en.rx_deliv < 2 ^ 32 := hle.trans_lt mb.seqn.toNat_lt
    have hmin : (UInt32.ofNat en.rx_deliv).toNat = en.rx_deliv := by
      rw [UInt32.toNat_ofNat']
      exact mod_eq_of_lt hdlt
    obtain ⟨buf, rest', hins, hshows', hinit', hmin'⟩ := hinsert
      { en with
        reorder := { en.reorder with
          minSeqn := UInt32.ofNat en.rx_deliv
          isInitialized := true }
        is_active := true } ⟨rest, hshows₀⟩ rfl hmin
    rw [if_neg hact, DlEntity.reorderStart, hset]
    refine ⟨_, hins, ⟨h.small, h.cache, h.size, h.inOrder, ⟨rest', hshows'⟩, h.slots, hfirst,
      fun _ => ⟨hinit', hmin'⟩, nofun, h.next_lt, h.next_le⟩, rfl, ⟨rfl, rfl, rfl, rfl⟩, rfl⟩

include h in
/-- The next packet is delivered, with those up to the first gap. -/
theorem Notes.deliverNext (heq : mb.seqn.toNat = en.rx_deliv)
    (hcount : (v.takeWhile isSome).length < word16) :
    ∃ en', en.deliverNext mb =
        some (en', v.takeWhile isSome, (v.takeWhile isSome).length) ∧
      Keeps k en' (behind v) ∧ en'.rx_deliv = en.rx_deliv + (v.takeWhile isSome).length ∧
      SameTimer en en' ∧ en'.is_active = en.is_active := by
  obtain ⟨bits, hbits, hslots⟩ := h.slots
  have hfront := h.front_le
  have hnext := h.next_lt
  have hlen := h.length
  have hfirst : (behind v).head? = some none :=
    head_dropWhile (ne_nil_of_length_pos (hlen ▸ Nat.two_pow_pos k))
  have hslide : Slots (2 ^ k) (en.rx_deliv + (v.takeWhile isSome).length)
      (bits \ {x | ∃ i < (v.takeWhile isSome).length, x = (en.rx_deliv + i) % 2 ^ k})
      en.rx_next (behind v) := by
    refine Slots.slide ?_
    rw [takeWhile_append_dropWhile]
    exact hslots
  have hmod : (mb.seqn.toNat + (v.takeWhile isSome).length) % word32 =
      en.rx_deliv + (v.takeWhile isSome).length := by
    rw [heq, mod_eq_of_lt (hfront.trans_lt hnext)]
  have hbound : en.rx_next ≤ en.rx_deliv + (v.takeWhile isSome).length + 2 ^ k := by
    have hle := h.next_le
    omega
  rw [DlEntity.deliverNext]
  by_cases hact : en.is_active = true
  · obtain ⟨hinit, hmin⟩ := h.active hact
    obtain ⟨rest, hshows⟩ := h.shows
    obtain ⟨buf, hins, hshows', hinit', hmin'⟩ := reorderInsert_spec mb hshows hinit
      (hmin ▸ h.le) (by rw [hmin]; exact h.offset_lt)
    rw [hmin, ← h.set] at hshows'
    have hcache : (v.takeWhile isSome).length ≤ en.max_pkt_cache := by
      rw [h.cache, ← hlen]
      exact List.IsPrefix.length_le (List.takeWhile_prefix _)
    obtain ⟨hdrain, hshows₂, hmin₂, hinit₂⟩ := Reorder.rteReorderDrain_all hshows' _ hcache
    obtain ⟨bmp, hset, hbits'⟩ := rxDelivSet_spec
      { en with reorder := (Reorder.rteReorderDrain buf en.max_pkt_cache).2 } hbits h.size
      (v.takeWhile isSome).length
    rw [if_pos hact, hins]
    simp only [bind_eq_bind, bind_some, hdrain, mod_eq_of_lt hcount, hmod, hset]
    refine ⟨_, rfl, ⟨h.small, h.cache, h.size, h.inOrder, hshows₂, ⟨_, hbits', hslide⟩, hfirst,
      fun _ => ⟨hinit₂.trans hinit', ?_⟩, fun hoffline => ?_, hnext, hbound⟩, rfl,
      ⟨rfl, rfl, rfl, rfl⟩, rfl⟩
    · change (Reorder.rteReorderDrain buf en.max_pkt_cache).2.minSeqn.toNat = _
      rw [hmin₂, hmin', UInt32.toNat_add, hmin, UInt32.toNat_ofNat', add_mod_mod]
      exact mod_eq_of_lt (hfront.trans_lt hnext)
    · exact absurd (hact.symm.trans hoffline) (by decide)
  · have hoffline := Bool.eq_false_iff.mpr hact
    have hnone := h.inactive hoffline
    obtain ⟨m, hm⟩ : ∃ m, 2 ^ k = m + 1 := ⟨2 ^ k - 1, by have := Nat.two_pow_pos k; omega⟩
    have hw : w = none :: replicate m none := by
      have hlenw : w.length = 2 ^ k := by rw [← hlen, h.set, length_set]
      rw [eq_replicate_iff.mpr ⟨hlenw, hnone⟩, hm, replicate_succ]
    have hv : v = some mb :: replicate m none := by
      rw [h.set, heq, Nat.sub_self, hw, set_cons_zero]
    have htake : v.takeWhile isSome = [some mb] := by
      rw [hv, takeWhile_cons_of_pos rfl]
      cases m <;> rfl
    have hbehind : behind v = w := by
      rw [behind, htake, hv, dropWhile_cons_of_pos rfl, hw]
      cases m with
      | zero => rfl
      | succ m =>
        rw [replicate_succ, dropWhile_cons_of_neg (by decide), length_singleton,
          replicate_one, cons_append, ← replicate_succ']
        rfl
    obtain ⟨bmp, hset, hbits'⟩ := rxDelivSet_spec en hbits h.size (v.takeWhile isSome).length
    have hone : mb.seqn.toNat + 1 =
        mb.seqn.toNat + (v.takeWhile isSome).length := by
      rw [htake]
      rfl
    rw [if_neg hact, hone, hmod, hset]
    refine ⟨{ en with
      bitmap := bmp
      rx_deliv := en.rx_deliv + (v.takeWhile isSome).length }, ?_,
      ⟨h.small, h.cache, h.size, h.inOrder, hbehind ▸ h.shows, ⟨_, hbits', hslide⟩, hfirst,
        fun honline => absurd honline hact, fun _ => hbehind ▸ hnone, hnext, hbound⟩, rfl,
      ⟨rfl, rfl, rfl, rfl⟩, rfl⟩
    rw [htake]
    rfl

end Notes

/-! ## The timer -/

/-- **The timer behind a packet**, before it is set right. -/
def TimerBehind (en : DlEntity) : Prop :=
  match en.t_reorder with
  | .stop => en.is_active = false ∧ en.rx_next ≤ en.rx_deliv ∨
    en.is_active = true ∧ en.rx_deliv < en.rx_next
  | .running => en.is_active = true ∧ en.rx_reord ≤ en.rx_next
  | .expired => en.is_active = true

theorem Keeps.none_of_eq (h : Keeps k en w) (heq : en.rx_deliv = en.rx_next) :
    ∀ x ∈ w, x = none := by
  obtain ⟨bits, -, hslots⟩ := h.slots
  intro x hx
  cases x with
  | none => rfl
  | some m =>
    have hmem := hslots.of_mem (reduceOption_mem_iff.mpr hx)
    omega

theorem Keeps.timerUpdate (h : Keeps k en w) (hle : en.rx_deliv ≤ en.rx_next)
    (ht : TimerBehind en) :
    Keeps k en.timerUpdate w ∧ TimerOk en.timerUpdate ∧
      en.timerUpdate.rx_deliv = en.rx_deliv ∧ en.timerUpdate.rx_next = en.rx_next ∧
      en.timerUpdate.plane = en.plane := by
  have hsame : ∀ (reord : ℕ) (t : TimerState),
      Keeps k { en with rx_reord := reord, t_reorder := t } w := fun _ _ =>
    ⟨h.small, h.cache, h.size, h.inOrder, h.shows, h.slots, h.first, h.active, h.inactive,
      h.next_lt, h.next_le⟩
  rw [TimerBehind] at ht
  rw [DlEntity.timerUpdate]
  cases hstate : en.t_reorder with
  | stop =>
    simp only [hstate] at ht
    have hnot : ¬ (en.t_reorder = .running ∧ en.rx_reord ≤ en.rx_deliv) := by simp [hstate]
    simp only [reduceCtorEq, false_and, if_false, true_and, hstate]
    rcases ht with ⟨hoff, hge⟩ | ⟨hon, hlt⟩
    · rw [if_neg (not_lt.mpr hge)]
      refine ⟨h, ?_, rfl, rfl, rfl⟩
      rw [TimerOk, hstate]
      exact ⟨hoff, hge⟩
    · rw [if_pos hlt]
      exact ⟨hsame _ _, ⟨hon, hlt, le_rfl⟩, rfl, rfl, rfl⟩
  | running =>
    simp only [hstate] at ht
    obtain ⟨hon, hreord⟩ := ht
    by_cases hcome : en.rx_reord ≤ en.rx_deliv
    · simp only [true_and, if_pos hcome]
      rcases hle.eq_or_lt with heq | hlt
      · simp only [if_pos heq, if_neg heq.not_lt]
        exact ⟨⟨h.small, h.cache, h.size, h.inOrder, h.shows, h.slots, h.first, nofun,
          fun _ => h.none_of_eq heq, h.next_lt, h.next_le⟩, ⟨rfl, heq.ge⟩, by simp⟩
      · simp only [if_neg hlt.ne, if_pos hlt]
        exact ⟨hsame _ _, ⟨hon, hlt, le_rfl⟩, by simp⟩
    · simp only [true_and, if_neg hcome, reduceCtorEq, hstate, false_and, if_false]
      refine ⟨h, ?_, by simp⟩
      rw [TimerOk, hstate]
      exact ⟨hon, not_le.mp hcome, hreord⟩
  | expired =>
    simp only [hstate] at ht
    simp only [reduceCtorEq, false_and, if_false, hstate]
    refine ⟨h, ?_, by simp⟩
    rw [TimerOk, hstate]
    exact ht

/-- **The slots are kept** when the timer is set right, whatever its state was. -/
theorem Keeps.timerUpdate_keeps (h : Keeps k en w) (hle : en.rx_deliv ≤ en.rx_next) :
    Keeps k en.timerUpdate w ∧ en.timerUpdate.rx_deliv = en.rx_deliv ∧
      en.timerUpdate.plane = en.plane := by
  have hsame : ∀ (reord : ℕ) (t : TimerState),
      Keeps k { en with rx_reord := reord, t_reorder := t } w := fun _ _ =>
    ⟨h.small, h.cache, h.size, h.inOrder, h.shows, h.slots, h.first, h.active, h.inactive,
      h.next_lt, h.next_le⟩
  rw [DlEntity.timerUpdate]
  by_cases hcome : en.t_reorder = .running ∧ en.rx_reord ≤ en.rx_deliv
  · simp only [if_pos hcome, true_and]
    rcases hle.eq_or_lt with heq | hlt
    · simp only [if_pos heq, if_neg heq.not_lt]
      exact ⟨⟨h.small, h.cache, h.size, h.inOrder, h.shows, h.slots, h.first, nofun,
        fun _ => h.none_of_eq heq, h.next_lt, h.next_le⟩, by simp⟩
    · simp only [if_neg hlt.ne, if_pos hlt]
      exact ⟨hsame _ _, by simp⟩
  · simp only [if_neg hcome]
    split
    · exact ⟨hsame _ _, by simp⟩
    · exact ⟨h, by simp⟩

/-- The timer has expired before it is set right, or not. -/
theorem timerUpdate_expired (en : DlEntity) :
    en.timerUpdate.t_reorder = .expired ↔ en.t_reorder = .expired := by
  rw [DlEntity.timerUpdate]
  cases hstate : en.t_reorder <;> simp only [hstate, reduceCtorEq, true_and, false_and, if_false]
  all_goals split_ifs <;> simp_all

/-! ## One packet -/

/-- **What a packet that is accepted does** to `RX_DELIV`, to `RX_NEXT` and to a timer
that has expired. -/
structure Accepts (en : DlEntity) (mb : Reorder.Mbuf) (en' : DlEntity) : Prop where
  le : en.rx_deliv ≤ mb.seqn.toNat
  deliv_le : en.rx_deliv ≤ en'.rx_deliv
  next : en'.rx_next = max en.rx_next (mb.seqn.toNat + 1)
  expired : en'.t_reorder = .expired ↔ en.t_reorder = .expired

theorem noteNext (en : DlEntity) {c : ℕ} (hc : c + 1 < word32) :
    (if en.rx_next ≤ c then { en with rx_next := (c + 1) % word32 } else en) =
      { en with rx_next := max en.rx_next (c + 1) } := by
  split_ifs with h
  · rw [mod_eq_of_lt hc, max_eq_right (h.trans (le_succ c))]
  · rw [max_eq_left (not_le.mp h)]

theorem front_eq_nil {v : List (Option Reorder.Mbuf)} (h : v.head? = some none) :
    v.takeWhile isSome = [] ∧ behind v = v := by
  cases v with
  | nil => exact absurd h nofun
  | cons x v =>
    obtain rfl : x = none := some.inj h
    have htake : (none :: v).takeWhile isSome = [] := takeWhile_cons_of_neg (by simp)
    refine ⟨htake, ?_⟩
    rw [behind, htake, dropWhile_cons_of_neg (by simp), length_nil,
      replicate_zero, append_nil]

/-- **A packet has taken its slot**, and the timer is not set right yet. -/
structure Entered (k : ℕ) (en : DlEntity) (mb : Reorder.Mbuf) (v : List (Option Reorder.Mbuf))
    (en' : DlEntity) : Prop where
  keeps : Keeps k en' (behind v)
  rx_deliv : en'.rx_deliv = en.rx_deliv + (v.takeWhile Option.isSome).length
  deliv_le : en'.rx_deliv ≤ en'.rx_next
  plane : en'.plane = en.plane
  rx_next : en'.rx_next = max en.rx_next (mb.seqn.toNat + 1)
  rx_reord : en'.rx_reord = en.rx_reord
  t_reorder : en'.t_reorder = en.t_reorder
  next : mb.seqn.toNat = en.rx_deliv →
    en'.is_active = en.is_active ∧ en.rx_deliv < en'.rx_deliv
  gap : mb.seqn.toNat ≠ en.rx_deliv → en'.is_active = true ∧ en'.rx_deliv < en'.rx_next

/-- **A packet in the window that has not come** takes its slot, and the packets up to the
first gap are delivered. -/
theorem Keeps.enter (h : Keeps k en w) (hle : en.rx_deliv ≤ mb.seqn.toNat)
    (hlt : mb.seqn.toNat < en.rx_deliv + 2 ^ k) (hmax : mb.seqn.toNat + 1 < word32)
    (hslot : w[mb.seqn.toNat - en.rx_deliv]? = some none) {v : List (Option Reorder.Mbuf)}
    (hv : v = w.set (mb.seqn.toNat - en.rx_deliv) (some mb))
    (hcount : (v.takeWhile isSome).length < word16) :
    ∃ en', pdcpPostProcessUpdateEntityState en mb = some (en'.timerUpdate,
        .ok (v.takeWhile isSome, (v.takeWhile isSome).length)) ∧
      Entered k en mb v en' := by
  obtain ⟨bits, hbits, hslots⟩ := h.slots
  have hpos := Nat.two_pow_pos k
  have hmod : mb.seqn.toNat % 2 ^ k < 2 ^ k := Nat.mod_lt _ hpos
  have hoff : mb.seqn.toNat - en.rx_deliv < 2 ^ k := by omega
  have hsum : en.rx_deliv + (mb.seqn.toNat - en.rx_deliv) = mb.seqn.toNat := by omega
  obtain ⟨slab, hget, hslab⟩ := hbits.get hmod
  have hclear : slab = 0 := by
    by_contra hne
    have hbit := hslots.bit _ hoff
    rw [hsum, hslot] at hbit
    obtain ⟨m, hm⟩ := hbit.mp (hslab.mp hne)
    exact absurd (some.inj hm) nofun
  have hwithin : Bitmap.Within (2 ^ k) (.set (mb.seqn.toNat % 2 ^ k)) := hmod
  obtain ⟨bmp, hset, hbits'⟩ := hbits.apply hwithin trivial
  have hset' : en.bitmap.set (mb.seqn.toNat % 2 ^ k) = some bmp := hset
  -- The entity with the COUNT noted.
  have hnotes : Notes k { en with
      rx_next := max en.rx_next (mb.seqn.toNat + 1)
      bitmap := bmp } w mb v := by
    refine ⟨h.small, h.cache, h.size, h.inOrder, h.shows, hv, ⟨_, hbits', ?_⟩, h.first, h.active,
      h.inactive, max_lt h.next_lt hmax, max_le h.next_le hlt, hle,
      (Nat.lt_succ_self _).trans_le (le_max_right _ _)⟩
    rw [hv]
    exact hslots.note hle hlt
  have hfront := hnotes.front_le
  rw [pdcpPostProcessUpdateEntityState]
  simp only [noteNext en hmax, if_neg (not_lt.mpr hle)]
  rw [← h.size] at hget hset'
  have hordered : ¬ en.is_out_of_order_delivery = true := by simp [h.inOrder]
  simp only [hget, hset', bind_some, hclear, ne_eq, not_true_eq_false, if_false,
    if_neg hordered]
  by_cases heq : mb.seqn.toNat = en.rx_deliv
  · obtain ⟨en', hdeliver, hkeeps, hdeliv, ⟨hplane, hnext, hreord, hstate⟩, hact⟩ :=
      hnotes.deliverNext heq hcount
    have hone : 1 ≤ (v.takeWhile isSome).length := by
      have hw : 0 < w.length := by rw [h.length]; exact hpos
      rw [hv, heq, Nat.sub_self]
      cases w with
      | nil => exact absurd hw (Nat.lt_irrefl 0)
      | cons x w =>
        rw [set_cons_zero, takeWhile_cons_of_pos rfl]
        exact Nat.succ_le_succ (Nat.zero_le _)
    have hle' : en'.rx_deliv ≤ en'.rx_next := by
      rw [hdeliv, hnext]
      exact hfront
    rw [if_pos heq, hdeliver]
    refine ⟨en', rfl, hkeeps, hdeliv, hle', hplane, hnext, hreord, hstate, fun _ => ⟨hact, ?_⟩,
      fun hne => absurd heq hne⟩
    rw [hdeliv]
    exact Nat.lt_add_of_pos_right hone
  · obtain ⟨en', hbuffer, hkeeps, hdeliv, ⟨hplane, hnext, hreord, hstate⟩, hact⟩ :=
      hnotes.buffer heq
    obtain ⟨htake, hsame⟩ := front_eq_nil hkeeps.first
    have hlt' : en'.rx_deliv < en'.rx_next := by
      rw [hdeliv, hnext]
      exact hle.trans_lt ((Nat.lt_succ_self _).trans_le (le_max_right _ _))
    rw [if_neg heq, hbuffer]
    refine ⟨en', by rw [htake]; rfl, by rw [hsame]; exact hkeeps, ?_, hlt'.le, hplane, hnext, hreord,
      hstate, fun hc => absurd hc heq, fun _ => ⟨hact, hlt'⟩⟩
    rw [htake]
    exact hdeliv

/-- The timer behind a packet that has taken its slot. -/
theorem Entered.timerBehind {en' : DlEntity} {v : List (Option Reorder.Mbuf)}
    (he : Entered k en mb v en') (ht : TimerOk en) : TimerBehind en' := by
  rw [TimerBehind, he.t_reorder]
  rw [TimerOk] at ht
  by_cases heq : mb.seqn.toNat = en.rx_deliv
  · obtain ⟨hact, hmoved⟩ := he.next heq
    have hnext := he.rx_next
    have hle := he.deliv_le
    rw [hact, he.rx_reord]
    cases hstate : en.t_reorder with
    | stop =>
      simp only [hstate] at ht ⊢
      exact Or.inl ⟨ht.1, by omega⟩
    | running =>
      simp only [hstate] at ht ⊢
      exact ⟨ht.1, by omega⟩
    | expired =>
      simp only [hstate] at ht ⊢
      exact ht
  · obtain ⟨hact, hlt⟩ := he.gap heq
    rw [hact, he.rx_reord, he.rx_next]
    cases hstate : en.t_reorder with
    | stop => exact Or.inr ⟨rfl, he.rx_next ▸ hlt⟩
    | running =>
      simp only [hstate] at ht ⊢
      exact ⟨trivial, ht.2.2.trans (le_max_left _ _)⟩
    | expired => exact rfl

/-- **A packet in the window that has not come** is accepted. It takes its slot, and the
packets up to the first gap are delivered. -/
theorem Keeps.accept (h : Keeps k en w) (ht : TimerOk en) (hle : en.rx_deliv ≤ mb.seqn.toNat)
    (hlt : mb.seqn.toNat < en.rx_deliv + 2 ^ k) (hmax : mb.seqn.toNat + 1 < word32)
    (hslot : w[mb.seqn.toNat - en.rx_deliv]? = some none) {v : List (Option Reorder.Mbuf)}
    (hv : v = w.set (mb.seqn.toNat - en.rx_deliv) (some mb))
    (hcount : (v.takeWhile isSome).length < word16) :
    ∃ en', pdcpPostProcessUpdateEntityState en mb = some (en', .ok (v.takeWhile isSome,
        (v.takeWhile isSome).length)) ∧
      Keeps k en' (behind v) ∧ TimerOk en' ∧
      en'.rx_deliv = en.rx_deliv + (v.takeWhile isSome).length ∧
      en'.rx_deliv ≤ en'.rx_next ∧ en'.plane = en.plane ∧ Accepts en mb en' := by
  obtain ⟨en₁, hpost, he⟩ := h.enter hle hlt hmax hslot hv hcount
  obtain ⟨hkeeps, htimer, hd, hn, hp⟩ := he.keeps.timerUpdate he.deliv_le (he.timerBehind ht)
  refine ⟨en₁.timerUpdate, hpost, hkeeps, htimer, hd.trans he.rx_deliv, ?_, hp.trans he.plane, hle,
    ?_, hn.trans he.rx_next, ?_⟩
  · rw [hd, hn]
    exact he.deliv_le
  · rw [hd, he.rx_deliv]
    exact le_add_right _ _
  · rw [timerUpdate_expired, he.t_reorder]

/-- **A packet that has come**, or that is no longer waited for, is an error. -/
theorem Keeps.refuse (h : Keeps k en w) (hmax : mb.seqn.toNat + 1 < word32)
    (hlt : mb.seqn.toNat < en.rx_deliv + 2 ^ k)
    (hcame : mb.seqn.toNat < en.rx_deliv ∨
      w[mb.seqn.toNat - en.rx_deliv]? ≠ some none) :
    ∃ err, pdcpPostProcessUpdateEntityState en mb = some (en, .error err) := by
  rw [pdcpPostProcessUpdateEntityState]
  by_cases hold : mb.seqn.toNat < en.rx_deliv
  · exact ⟨_, if_pos hold⟩
  · obtain ⟨bits, hbits, hslots⟩ := h.slots
    have hoff : mb.seqn.toNat - en.rx_deliv < 2 ^ k := by omega
    have hsum : en.rx_deliv + (mb.seqn.toNat - en.rx_deliv) = mb.seqn.toNat := by omega
    obtain ⟨slab, hget, hslab⟩ := hbits.get (Nat.mod_lt mb.seqn.toNat (Nat.two_pow_pos k))
    obtain ⟨m, hm⟩ : ∃ m, w[mb.seqn.toNat - en.rx_deliv]? = some (some m) := by
      have hin : mb.seqn.toNat - en.rx_deliv < w.length := by rwa [h.length]
      have hne := hcame.resolve_left hold
      rw [getElem?_eq_getElem hin] at hne ⊢
      cases hx : w[mb.seqn.toNat - en.rx_deliv] with
      | none => exact absurd (congrArg some hx) hne
      | some m => exact ⟨m, rfl⟩
    have hne : slab ≠ 0 := by
      have hbit := hslots.bit _ hoff
      rw [hsum] at hbit
      exact hslab.mpr (hbit.mpr ⟨m, hm⟩)
    have hnext := (hslots.number _ m hm).2
    rw [hsum] at hnext
    rw [← h.size] at hget
    refine ⟨-eexist, ?_⟩
    simp only [noteNext en hmax, if_neg hold, max_eq_left (succ_le_of_lt hnext)]
    simp only [hget, bind_some, if_pos hne]

/-! ## The timer expires -/

/-- The slots when the timer has expired: what is in front of `RX_REORD` is given up, and
then what is in front of the first gap. -/
def afterExpiry (w : List (Option Reorder.Mbuf)) (n : ℕ) : List (Option Reorder.Mbuf) :=
  behind (w.drop n ++ replicate n none)

/-- The packets that are delivered. -/
def expired (w : List (Option Reorder.Mbuf)) (n : ℕ) : List Reorder.Mbuf :=
  (w.take n).reduceOption ++
    ((w.drop n ++ replicate n none).takeWhile Option.isSome).reduceOption

/-- A packet is delivered or kept when the timer expires. -/
theorem expired_append (w : List (Option Reorder.Mbuf)) (n : ℕ) :
    expired w n ++ (afterExpiry w n).reduceOption = w.reduceOption := by
  have hrest := reduceOption_split (w.drop n ++ replicate n none)
    ((w.drop n ++ replicate n none).takeWhile isSome).length
  rw [expired, append_assoc, afterExpiry, behind, ← hrest, reduceOption_append,
    reduceOption_replicate_none, append_nil, ← reduceOption_append,
    take_append_drop]

theorem Keeps.length_lt (h : Keeps k en w) : w.reduceOption.length < 2 ^ k := by
  rw [← h.length]
  have hfirst := h.first
  cases w with
  | nil => exact absurd hfirst nofun
  | cons x w =>
    obtain rfl : x = none := some.inj hfirst
    exact lt_succ_of_le (reduceOption_length_le w)

/-- **The timer expires.** What is in front of `RX_REORD` is no longer waited for. -/
theorem Keeps.expire (h : Keeps k en w) (ht : TimerOk en) (hrun : en.t_reorder = .running)
    (hk : 2 ^ k < word16) :
    ∃ en', rtePdcpTReorderingExpiryHandle en =
        some (en', (expired w (en.rx_reord - en.rx_deliv)).map some) ∧
      Keeps k en' (afterExpiry w (en.rx_reord - en.rx_deliv)) ∧ TimerOk en' ∧
      en.rx_reord ≤ en'.rx_deliv ∧ en'.rx_deliv ≤ en'.rx_next ∧ en'.plane = en.plane ∧
      ∀ mb ∈ expired w (en.rx_reord - en.rx_deliv), mb.seqn.toNat < en'.rx_deliv := by
  rw [TimerOk, hrun] at ht
  obtain ⟨hact, hlt, hle⟩ := ht
  obtain ⟨hinit, hmin⟩ := h.active hact
  obtain ⟨rest, hshows⟩ := h.shows
  obtain ⟨bits, hbits, hslots⟩ := h.slots
  have hnext := h.next_lt
  have hwindow := h.next_le
  obtain ⟨n, hn⟩ : ∃ n, n = en.rx_reord - en.rx_deliv := ⟨_, rfl⟩
  have hreord : (UInt32.ofNat en.rx_reord).toNat = en.rx_reord := by
    rw [UInt32.toNat_ofNat']
    exact mod_eq_of_lt (hle.trans_lt hnext)
  have hoff : (UInt32.ofNat en.rx_reord - en.reorder.minSeqn).toNat = n := by
    rw [UInt32.toNat_sub_of_le _ _ (UInt32.le_iff_toNat_le.mpr (by omega)), hreord, hmin, hn]
  have hall := congrArg List.length (expired_append w n)
  rw [length_append, expired, length_append] at hall
  have hfew := h.length_lt
  obtain ⟨buf, rest', hup, hshows', hmin', hinit'⟩ := Reorder.rteReorderDrainUpToSeqn_all hshows
    (2 ^ k) (UInt32.ofNat en.rx_reord)
    (by rw [UInt32.lt_iff_toNat_lt, hreord, hmin]; omega) (by omega) (by rw [hoff]; omega)
  rw [hoff] at hup hshows'
  -- The slots from `RX_REORD` on.
  obtain ⟨u, hu⟩ : ∃ u, u = w.drop n ++ replicate n none := ⟨_, rfl⟩
  rw [← hu] at hall hshows'
  have hlen : (w.take n).length = n := by
    rw [length_take, h.length]
    omega
  have hslide : Slots (2 ^ k) (en.rx_deliv + n)
      (bits \ {x | ∃ i < n, x = (en.rx_deliv + i) % 2 ^ k}) en.rx_next u := by
    have hslots' := hslots
    rw [← take_append_drop n w] at hslots'
    have := hslots'.slide
    rwa [hlen, ← hu] at this
  have hfront : en.rx_deliv + n + (u.takeWhile isSome).length ≤ en.rx_next :=
    hslide.front_le (by omega) (fun m hm => (hslide.of_mem hm).2.2.ne)
  have hslide' : Slots (2 ^ k) (en.rx_deliv + (n + (u.takeWhile isSome).length))
      (bits \ {x | ∃ i < n + (u.takeWhile isSome).length,
        x = (en.rx_deliv + i) % 2 ^ k}) en.rx_next (behind u) := by
    rw [← sdiff_range_add, ← add_assoc]
    refine Slots.slide ?_
    rw [takeWhile_append_dropWhile]
    exact hslide
  have hseq : (u.takeWhile isSome).reduceOption.length =
      (u.takeWhile isSome).length := by
    conv_rhs => rw [takeWhile_eq_map, length_map]
  obtain ⟨hdrain, hshows₂, hmin₂, hinit₂⟩ := Reorder.rteReorderDrain_all hshows'
    (2 ^ k - (w.take n).reduceOption.length) (by omega)
  obtain ⟨bmp, hset, hbits'⟩ := rxDelivSet_spec
    { en with
      reorder := (Reorder.rteReorderDrain buf
        (2 ^ k - (w.take n).reduceOption.length)).2 } hbits h.size
    (n + (u.takeWhile isSome).length)
  have hdeliv : (en.rx_reord + (u.takeWhile isSome).length) % word32 =
      en.rx_deliv + (n + (u.takeWhile isSome).length) := by
    rw [mod_eq_of_lt (by omega)]
    omega
  have hcap : (2 ^ k + word16 - (w.take n).reduceOption.length) % word16 =
      2 ^ k - (w.take n).reduceOption.length := by
    rw [show 2 ^ k + word16 - (w.take n).reduceOption.length =
      2 ^ k - (w.take n).reduceOption.length + word16 by omega, add_mod_right,
      mod_eq_of_lt (by omega)]
  have hkeeps : ∀ (reord : ℕ) (t : TimerState), Keeps k { en with
      bitmap := bmp
      rx_deliv := en.rx_deliv + (n + (u.takeWhile isSome).length)
      reorder := (Reorder.rteReorderDrain buf (2 ^ k - (w.take n).reduceOption.length)).2
      rx_reord := reord
      t_reorder := t } (afterExpiry w n) := by
    intro reord t
    rw [afterExpiry, ← hu]
    refine ⟨h.small, h.cache, h.size, h.inOrder, hshows₂, ⟨_, hbits', hslide'⟩,
      head_dropWhile (ne_nil_of_length_pos (hslide.length ▸ Nat.two_pow_pos k)),
      fun _ => ⟨hinit₂.trans (hinit'.trans hinit), ?_⟩, fun hoffline => ?_, hnext, ?_⟩
    · change (Reorder.rteReorderDrain _ _).2.minSeqn.toNat = _
      rw [hmin₂, hmin', UInt32.toNat_add, hreord, UInt32.toNat_ofNat', add_mod_mod]
      exact hdeliv
    · exact absurd (hact.symm.trans hoffline) (by decide)
    · change en.rx_next ≤ en.rx_deliv + (n + _) + 2 ^ k
      omega
  have hout : (((w.take n).reduceOption.map some).take (w.take n).reduceOption.length ++
      u.takeWhile isSome).take ((w.take n).reduceOption.length +
        (u.takeWhile isSome).length) = (expired w n).map some := by
    rw [take_of_length_le (by simp), take_of_length_le (by simp), expired, map_append,
      ← hu, ← takeWhile_eq_map]
  have hbelow : ∀ mb ∈ expired w n, mb.seqn.toNat <
      en.rx_deliv + (n + (u.takeWhile isSome).length) := by
    intro mb hmb
    rw [expired, ← hu] at hmb
    rcases mem_append.mp hmb with hmb | hmb
    · obtain ⟨i, hi, hget⟩ := mem_iff_getElem.mp (reduceOption_mem_iff.mp hmb)
      rw [length_take] at hi
      have hslot : w[i]? = some (some mb) := by
        rw [getElem?_eq_getElem (by omega), ← hget, getElem_take]
      have hnum := (hslots.number i mb hslot).1
      omega
    · have hmem := (hslide.of_mem_front hmb).2
      omega
  have hge : en.rx_reord ≤ en.rx_deliv + (n + (u.takeWhile isSome).length) := by omega
  have hle' : en.rx_deliv + (n + (u.takeWhile isSome).length) ≤ en.rx_next := by omega
  have hcache : en.max_pkt_cache % word16 = 2 ^ k := by
    rw [h.cache, mod_eq_of_lt hk]
  rw [rtePdcpTReorderingExpiryHandle, ← hn, hcache, hup]
  rw [bind_eq_bind, bind_some]
  simp only [length_map,
    mod_eq_of_lt (show (w.take n).reduceOption.length < word16 by omega), hcap, hdrain,
    mod_eq_of_lt (show (u.takeWhile isSome).length < word16 by omega), hdeliv, hset,
    mod_eq_of_lt (show (w.take n).reduceOption.length +
      (u.takeWhile isSome).length < word16 by omega), hout]
  rw [bind_eq_bind, bind_some]
  by_cases hmore : en.rx_deliv + (n + (u.takeWhile isSome).length) < en.rx_next
  · rw [if_pos hmore]
    exact ⟨_, rfl, hkeeps _ _, ⟨hact, hmore, le_rfl⟩, hge, hmore.le, rfl, hbelow⟩
  · rw [if_neg hmore]
    exact ⟨_, rfl, hkeeps _ _, hact, hge, hle', rfl, hbelow⟩

end Pdcp
