import DpdkStudy.Lib.Runs
import DpdkStudy.Pdcp.Entity

/-!
# In-order delivery

Batches of packets are pre-processed and, in any order, post-processed, and now and then
the timer expires. In every state that is reached the packets have been delivered in the
order of their COUNTs, and none is lost (`Sound`). The numbers of packets are a `uint16_t`
in some places, where the window of a sequence number of 18 bits is larger. So with these
no timer may expire, and no batch complete a run of as many packets (`Fits`).
-/

open List Option Nat

namespace Pdcp

open List (replicate)

/-! ## The COUNTs of a batch -/

theorem pdcpSnCountGet_lt {sn_size : SnSize} {d rsn count : BitVec 32}
    (hrsn : rsn.toNat < 2 ^ sn_size.bits) (h : pdcpSnCountGet d rsn sn_size = some count) :
    count.toNat < d.toNat + (pdcpWindowSizeGet sn_size).toNat := by
  obtain ⟨c, hc⟩ : ∃ c : ℤ, c = (d.toNat : ℤ) - (pdcpWindowSizeGet sn_size).toNat +
      ((rsn.toNat : ℤ) - ((d.toNat : ℤ) - (pdcpWindowSizeGet sn_size).toNat)) %
        2 ^ sn_size.bits := ⟨_, rfl⟩
  have hwin : InWindow sn_size d c := by
    rw [InWindow, hc, pdcpWindowSizeGet_toNat]
    cases sn_size <;> simp only [SnSize.bits] <;> omega
  have hsn : c % 2 ^ sn_size.bits = rsn.toNat := by
    rw [hc]
    cases sn_size <;> simp only [SnSize.bits] at * <;> omega
  have hspec := pdcpSnCountGet_spec hrsn hwin hsn
  rw [h] at hspec
  split_ifs at hspec with hin
  have hcount := some.inj hspec
  have hto : (count.toNat : ℤ) = c := by
    rw [hcount, BitVec.toNat_ofInt]
    omega
  have hlt := hwin.2
  omega

theorem shift_lt {n s m : ℕ} (x : BitVec n) (hm : n + s ≤ m) :
    (x.setWidth 32 <<< s).toNat < 2 ^ m := by
  have hx := x.isLt
  rw [BitVec.toNat_shiftLeft, BitVec.toNat_setWidth, shiftLeft_eq]
  refine (mod_le _ _).trans_lt (lt_of_le_of_lt (mul_le_mul_right _ (mod_le _ _)) ?_)
  refine lt_of_lt_of_le (Nat.mul_lt_mul_of_pos_right hx (Nat.two_pow_pos s)) ?_
  rw [← pow_add]
  exact Nat.pow_le_pow_right Nat.two_pos hm

theorem setWidth_lt {n m : ℕ} (x : BitVec n) (hm : n ≤ m) : (x.setWidth 32).toNat < 2 ^ m := by
  rw [BitVec.toNat_setWidth]
  exact (Nat.mod_le _ _).trans_lt (x.isLt.trans_le (Nat.pow_le_pow_right Nat.two_pos hm))

/-- A received sequence number has as many bits as the entity says. -/
theorem Plane.rsn_lt {plane : Plane} {mb : Mbuf} {rsn : BitVec 32} (h : plane.rsn mb = some rsn) :
    rsn.toNat < 2 ^ plane.snSize.bits := by
  cases plane with
  | cplaneSn12 =>
    obtain rfl := some.inj h
    rw [BitVec.toNat_or]
    exact or_lt_two_pow (shift_lt _ (by decide)) (setWidth_lt _ (by decide))
  | uplaneSn12 =>
    simp only [Plane.rsn] at h
    split_ifs at h
    obtain rfl := some.inj h
    rw [BitVec.toNat_or]
    exact or_lt_two_pow (shift_lt _ (by decide)) (setWidth_lt _ (by decide))
  | uplaneSn18 =>
    simp only [Plane.rsn] at h
    split_ifs at h
    obtain rfl := some.inj h
    rw [BitVec.toNat_or, BitVec.toNat_or]
    exact or_lt_two_pow (or_lt_two_pow (shift_lt _ (by decide))
      (shift_lt _ (by decide))) (setWidth_lt _ (by decide))

/-- **The COUNTs of a batch** are less than a window ahead, and no packet is lost. -/
theorem countGet_spec (plane : Plane) {rx_deliv : ℕ} (hlt : rx_deliv < word32)
    (in_mb : List (ℕ × Mbuf)) :
    (∀ mb ∈ (countGet plane rx_deliv in_mb).1,
      mb.seqn.toNat < rx_deliv + (pdcpWindowSizeGet plane.snSize).toNat) ∧
    (in_mb.map Prod.fst).Perm ((countGet plane rx_deliv in_mb).1.map Reorder.Mbuf.id ++
      (countGet plane rx_deliv in_mb).2) := by
  induction in_mb with
  | nil => exact ⟨nofun, List.Perm.refl _⟩
  | cons p in_mb ih =>
    obtain ⟨id, mb⟩ := p
    obtain ⟨hcount, hperm⟩ := ih
    rw [countGet]
    cases hdl : plane.dlPacket (BitVec.ofNat 32 rx_deliv) mb with
    | none => exact ⟨hcount, (hperm.cons id).trans perm_middle.symm⟩
    | some count =>
      refine ⟨fun m hm => ?_, hperm.cons id⟩
      rcases mem_cons.mp hm with rfl | hm
      · obtain ⟨rsn, hrsn, hget⟩ := bind_eq_some_iff.mp hdl
        have hlt' := pdcpSnCountGet_lt (Plane.rsn_lt hrsn) hget
        rw [BitVec.toNat_ofNat, mod_eq_of_lt (show rx_deliv < 2 ^ 32 from hlt)] at hlt'
        exact hlt'
      · exact hcount m hm

/-! ## A batch -/

variable {k : ℕ} {w : List (Option Reorder.Mbuf)} {O acc D : List Reorder.Mbuf} {d g : ℕ}
  {p : Post}

/-- **A post-process under way**, which has delivered some packets since `RX_DELIV` was at
`d`. A COUNT does not come. -/
structure Batch (k : ℕ) (acc D : List Reorder.Mbuf) (d g : ℕ) (p : Post)
    (w : List (Option Reorder.Mbuf)) (O : List Reorder.Mbuf) : Prop where
  keeps : Keeps k p.en w
  timer : TimerOk p.en
  out : p.out = O.map some
  moved : p.en.rx_deliv = d + O.length
  accepted : (acc ++ p.accepted).Perm (D ++ O ++ w.reduceOption)
  sorted : (D ++ O).Pairwise (fun a b => a.seqn.toNat < b.seqn.toNat)
  below : ∀ mb ∈ D ++ O, mb.seqn.toNat < p.en.rx_deliv
  next : p.en.rx_deliv ≤ p.en.rx_next ∨ acc ++ p.accepted = []
  gap_le : p.en.rx_deliv ≤ g
  gap : ∀ mb ∈ w.reduceOption, mb.seqn.toNat ≠ g

theorem Batch.packet (hb : Batch k acc D d g p w O) (hg : g < d + word16)
    {mb : Reorder.Mbuf × Bool} (hlt : mb.1.seqn.toNat < d + 2 ^ k)
    (hmax : mb.1.seqn.toNat + 1 < word32) (hgap : mb.2 = false → mb.1.seqn.toNat ≠ g) :
    ∃ p' w' O', p.packet mb = some p' ∧ Batch k acc D d g p' w' O' ∧
      p'.en.plane = p.en.plane ∧
      (p'.accepted ++ p'.err).Perm (p.accepted ++ p.err ++ [mb.1]) ∧
      (p'.en = p.en ∧ p'.accepted = p.accepted ∧
          (mb.2 = true ∨ mb.1.seqn.toNat < p.en.rx_deliv ∨
            w[mb.1.seqn.toNat - p.en.rx_deliv]? ≠ some none) ∨
        mb.2 = false ∧ Accepts p.en mb.1 p'.en ∧ p'.accepted = p.accepted ++ [mb.1]) := by
  obtain ⟨mb, failed⟩ := mb
  have hrefused : Batch k acc D d g { p with err := p.err ++ [mb] } w O :=
    ⟨hb.keeps, hb.timer, hb.out, hb.moved, hb.accepted, hb.sorted, hb.below, hb.next, hb.gap_le,
      hb.gap⟩
  have hperm : (p.accepted ++ (p.err ++ [mb])).Perm (p.accepted ++ p.err ++ [mb]) := by
    rw [append_assoc]
  rw [Post.packet]
  cases failed with
  | true => exact ⟨_, w, O, if_pos rfl, hrefused, rfl, hperm, .inl ⟨rfl, rfl, .inl rfl⟩⟩
  | false =>
    have hmoved := hb.moved
    simp only [Bool.false_eq_true, if_false] at hlt hmax ⊢
    have hwin : mb.seqn.toNat < p.en.rx_deliv + 2 ^ k := by omega
    by_cases hcame : mb.seqn.toNat < p.en.rx_deliv ∨
        w[mb.seqn.toNat - p.en.rx_deliv]? ≠ some none
    · obtain ⟨err, hrefuse⟩ := hb.keeps.refuse hmax hwin hcame
      rw [hrefuse]
      exact ⟨_, w, O, rfl, hrefused, rfl, hperm, .inl ⟨rfl, rfl, .inr hcame⟩⟩
    · rw [not_or, not_not, not_lt] at hcame
      obtain ⟨hle, hslot⟩ := hcame
      obtain ⟨v, hv⟩ : ∃ v, v = w.set (mb.seqn.toNat - p.en.rx_deliv) (some mb) := ⟨_, rfl⟩
      obtain ⟨bits, -, hslots⟩ := hb.keeps.slots
      have hset := hslots.note hle hwin
      rw [← hv] at hset
      have hvperm : v.reduceOption.Perm (mb :: w.reduceOption) := by
        rw [hv]
        exact reduceOption_set hslot mb
      have hvgap : ∀ m ∈ v.reduceOption, m.seqn.toNat ≠ g := by
        intro m hm
        rcases mem_cons.mp (hvperm.mem_iff.mp hm) with rfl | hm
        · exact hgap rfl
        · exact hb.gap m hm
      have hfront := hset.front_le hb.gap_le hvgap
      have hsplit := reduceOption_split v (v.takeWhile isSome).length
      obtain ⟨en', hpost, hkeeps, htimer, hdeliv, hnext, hplane, haccepts⟩ :=
        hb.keeps.accept hb.timer hle hwin hmax hslot hv (by omega)
      have hlen : (v.takeWhile isSome).reduceOption.length =
          (v.takeWhile isSome).length := by
        conv_rhs => rw [takeWhile_eq_map, length_map]
      rw [hpost]
      refine ⟨⟨en', (p.out ++ v.takeWhile isSome).take
          (p.out.length + (v.takeWhile isSome).length), p.err, p.accepted ++ [mb]⟩,
        behind v, O ++ (v.takeWhile isSome).reduceOption, rfl,
        ⟨hkeeps, htimer, ?_, ?_, ?_, ?_, fun m hm => ?_, Or.inl hnext, ?_, fun m hm => ?_⟩, hplane,
        ?_, .inr ⟨trivial, haccepts, rfl⟩⟩
      · rw [← length_append, take_length, hb.out, map_append, ← takeWhile_eq_map]
      · rw [hdeliv, length_append, hlen, hmoved, add_assoc]
      · have hadd : (acc ++ p.accepted ++ [mb]).Perm (D ++ O ++ v.reduceOption) := by
          refine (hb.accepted.append_right [mb]).trans ?_
          rw [append_assoc]
          exact ((perm_append_singleton mb _).trans hvperm.symm).append_left _
        rw [behind, ← append_assoc D, append_assoc (D ++ O), ← hsplit,
          ← append_assoc]
        exact hadd
      · rw [← append_assoc]
        refine pairwise_append.mpr ⟨hb.sorted, ?_, fun a ha b hmem => ?_⟩
        · have hpair := hset.pairwise
          rw [hsplit] at hpair
          exact (pairwise_append.mp hpair).1
        · exact (hb.below a ha).trans_le (hset.of_mem_front hmem).1
      · rw [hdeliv]
        rw [← append_assoc] at hm
        rcases mem_append.mp hm with hm | hm
        · exact (hb.below m hm).trans_le (le_add_right _ _)
        · exact (hset.of_mem_front hm).2
      · rw [hdeliv]
        exact hfront
      · refine hvgap m ?_
        rw [hsplit]
        exact mem_append_right _ hm
      · change (p.accepted ++ [mb] ++ p.err).Perm _
        rw [append_assoc, append_assoc]
        exact perm_append_comm.append_left _

theorem Batch.packets (hb : Batch k acc D d g p w O) (hg : g < d + word16)
    {in_mb : List (Reorder.Mbuf × Bool)}
    (hlt : ∀ mb ∈ in_mb, mb.1.seqn.toNat < d + 2 ^ k ∧ mb.1.seqn.toNat + 1 < word32)
    (hgap : ∀ mb ∈ in_mb, mb.2 = false → mb.1.seqn.toNat ≠ g) :
    ∃ p' w' O', p.packets in_mb = some p' ∧ Batch k acc D d g p' w' O' ∧
      p'.en.plane = p.en.plane ∧
      (p'.accepted ++ p'.err).Perm (p.accepted ++ p.err ++ in_mb.map Prod.fst) := by
  induction in_mb generalizing p w O with
  | nil => exact ⟨p, w, O, rfl, hb, rfl, by simp⟩
  | cons mb in_mb ih =>
    obtain ⟨hmb, hmax⟩ := hlt mb mem_cons_self
    obtain ⟨p₁, w₁, O₁, hpacket, hb₁, hplane₁, hperm₁, -⟩ :=
      hb.packet hg hmb hmax (hgap mb mem_cons_self)
    obtain ⟨p', w', O', hpackets, hb', hplane', hperm'⟩ := ih hb₁
      (fun m hm => hlt m (mem_cons_of_mem _ hm))
      (fun m hm => hgap m (mem_cons_of_mem _ hm))
    refine ⟨p', w', O', by rw [Post.packets, hpacket, bind_some, hpackets], hb',
      hplane'.trans hplane₁, hperm'.trans ?_⟩
    have happ := hperm₁.append_right (in_mb.map Prod.fst)
    rwa [append_assoc (p.accepted ++ p.err)] at happ

/-! ## Runs -/

/-- **What a `uint16_t` does not count wrong**: with sequence numbers of 18 bits a batch
leaves one of the next `2 ^ 16` COUNTs open, and no timer expires. -/
def Fits (sys : DlSystem) : DlEvent → Prop
  | .pre _ => True
  | .post in_mb => sys.en.plane.snSize = .size12 ∨ ∃ c, sys.en.rx_deliv ≤ c ∧
    c < sys.en.rx_deliv + word16 ∧ (∀ mb ∈ sys.en.buffered, mb.seqn.toNat ≠ c) ∧
      ∀ mb ∈ in_mb, mb.2 = false → mb.1.seqn.toNat ≠ c
  | .expiry => sys.en.plane.snSize = .size12

/-- **In-order delivery**, as it is after each event. -/
structure Sound (sys : DlSystem) : Prop where
  /-- Packets are delivered in the order of their COUNTs. -/
  delivered : ∃ D : List Reorder.Mbuf, sys.delivered = D.map some ∧
    D.Pairwise (fun a b => a.seqn.toNat < b.seqn.toNat) ∧
    sys.accepted.Perm (D ++ sys.en.buffered)
  /-- A packet waits, is an error, or is accepted. -/
  conserved : ∃ F : List Reorder.Mbuf, sys.failed = F.map some ∧
    sys.offered.Perm (sys.pending.map Reorder.Mbuf.id ++ sys.rejected ++
      F.map Reorder.Mbuf.id ++ sys.accepted.map Reorder.Mbuf.id)
  deliv_le : sys.en.rx_deliv ≤ sys.en.rx_next ∨ sys.accepted = []
  /-- What has come from `RX_DELIV` to `RX_NEXT` is buffered. -/
  buffered : ∀ c, (∃ mb ∈ sys.en.buffered, mb.seqn.toNat = c) ↔
    (∃ mb ∈ sys.accepted, mb.seqn.toNat = c) ∧ sys.en.rx_deliv < c ∧ c < sys.en.rx_next
  /-- The bitmap says so for the whole window. -/
  bitmap : ∀ c, sys.en.rx_deliv ≤ c →
    c < sys.en.rx_deliv + (pdcpWindowSizeGet sys.en.plane.snSize).toNat →
    ∃ slab, sys.en.bitmap.get (c % sys.en.bitmap_size) = some slab ∧
      (slab ≠ 0 ↔ ∃ mb ∈ sys.en.buffered, mb.seqn.toNat = c)

variable {sys sys' : DlSystem} {F : List Reorder.Mbuf}

/-- **What every event keeps.** -/
structure Inv (k : ℕ) (sys : DlSystem) (w : List (Option Reorder.Mbuf))
    (D F : List Reorder.Mbuf) : Prop where
  keeps : Keeps k sys.en w
  timer : TimerOk sys.en
  window : (pdcpWindowSizeGet sys.en.plane.snSize).toNat = 2 ^ k
  deliv_lt : sys.en.rx_deliv < word32
  next : sys.en.rx_deliv ≤ sys.en.rx_next ∨ sys.accepted = []
  delivered : sys.delivered = D.map some
  failed : sys.failed = F.map some
  accepted : sys.accepted.Perm (D ++ w.reduceOption)
  sorted : D.Pairwise (fun a b => a.seqn.toNat < b.seqn.toNat)
  below : ∀ mb ∈ D, mb.seqn.toNat < sys.en.rx_deliv
  pending : ∀ mb ∈ sys.pending,
    mb.seqn.toNat < sys.en.rx_deliv + 2 ^ k ∧ mb.seqn.toNat + 1 < word32
  offered : sys.offered.Perm (sys.pending.map Reorder.Mbuf.id ++ sys.rejected ++
    F.map Reorder.Mbuf.id ++ sys.accepted.map Reorder.Mbuf.id)

/-- The packets in the reorder buffer are those in the slots. -/
theorem Keeps.buffered_eq {en : DlEntity} (h : Keeps k en w) : en.buffered = w.reduceOption := by
  obtain ⟨rest, hshows⟩ := h.shows
  rw [DlEntity.buffered, hshows.readyEntries_eq, hshows.orderEntries_eq]
  rfl

section

variable (hi : Inv k sys w D F)

include hi

/-- What the invariant says to a user of the entity. -/
theorem Inv.sound : Sound sys := by
  have hbuffered := hi.keeps.buffered_eq
  obtain ⟨bits, hbits, hslots⟩ := hi.keeps.slots
  refine ⟨⟨D, hi.delivered, hi.sorted, hbuffered ▸ hi.accepted⟩, ⟨F, hi.failed, hi.offered⟩,
    hi.next, fun c => ?_, fun c hle hlt => ?_⟩
  · rw [hbuffered]
    constructor
    · rintro ⟨mb, hmb, rfl⟩
      obtain ⟨hge, -, hnext⟩ := hslots.of_mem hmb
      refine ⟨⟨mb, hi.accepted.mem_iff.mpr (mem_append_right _ hmb), rfl⟩,
        hge.lt_of_ne (fun heq => ?_), hnext⟩
      -- The slot of `RX_DELIV` is empty.
      obtain ⟨m, hm⟩ := (hslots.mem_iff 0).mpr ⟨mb, hmb, heq.symm⟩
      have hfirst := hi.keeps.first
      rw [head?_eq_getElem?, hm] at hfirst
      exact absurd (some.inj hfirst) nofun
    · rintro ⟨⟨mb, hmb, rfl⟩, hgt, -⟩
      rcases mem_append.mp (hi.accepted.mem_iff.mp hmb) with hD | hw
      · exact absurd (hi.below mb hD) (not_lt.mpr hgt.le)
      · exact ⟨mb, hw, rfl⟩
  · rw [hi.window] at hlt
    obtain ⟨slab, hget, hslab⟩ := hbits.get (Nat.mod_lt c (Nat.two_pow_pos k))
    have hsum : sys.en.rx_deliv + (c - sys.en.rx_deliv) = c := by omega
    have hbit := (hslots.bit (c - sys.en.rx_deliv) (by omega)).trans (hslots.mem_iff _)
    rw [hsum] at hbit
    rw [hi.keeps.size, hbuffered]
    exact ⟨slab, hget, hslab.trans hbit⟩

theorem Inv.pre {in_mb : List (ℕ × Mbuf)} (hlegal : Legal sys (.pre in_mb)) :
    ∃ sys', dlStep sys (.pre in_mb) = some sys' ∧ Inv k sys' w D F ∧
      sys.en.rx_deliv ≤ sys'.en.rx_deliv := by
  obtain ⟨hcount, hperm⟩ := countGet_spec sys.en.plane hi.deliv_lt in_mb
  rw [hi.window] at hcount
  refine ⟨_, rfl, ⟨hi.keeps, hi.timer, hi.window, hi.deliv_lt, hi.next, hi.delivered, hi.failed,
    hi.accepted, hi.sorted, hi.below, fun mb hmb => ?_, ?_⟩, le_rfl⟩
  · rcases mem_append.mp hmb with hmb | hmb
    · exact hi.pending mb hmb
    · exact ⟨hcount mb hmb, hlegal mb hmb⟩
  · have hoffered := hi.offered
    simp only [perm_iff_count, map_append, count_append] at hperm hoffered ⊢
    intro id
    have h₁ := hperm id
    have h₂ := hoffered id
    omega

theorem Inv.gap {in_mb : List (Reorder.Mbuf × Bool)} (hlegal : Legal sys (.post in_mb))
    (hfits : Fits sys (.post in_mb)) :
    ∃ c, sys.en.rx_deliv ≤ c ∧ c < sys.en.rx_deliv + word16 ∧
      (∀ mb ∈ w.reduceOption, mb.seqn.toNat ≠ c) ∧
      ∀ mb ∈ in_mb, mb.2 = false → mb.1.seqn.toNat ≠ c := by
  rw [← hi.keeps.buffered_eq]
  refine hfits.elim (fun hsize => ?_) id
  have hwindow := hi.window
  rw [hsize] at hwindow
  obtain ⟨bits, -, hslots⟩ := hi.keeps.slots
  refine ⟨sys.en.rx_deliv + 2 ^ k, le_add_right _ _, ?_, fun mb hmb => ?_, fun mb hmb _ => ?_⟩
  · rw [← hwindow]
    exact Nat.add_lt_add_left (by decide) _
  · rw [hi.keeps.buffered_eq] at hmb
    exact (hslots.of_mem hmb).2.1.ne
  · exact (hi.pending _ (hlegal.2.subset (mem_map_of_mem hmb))).1.ne

/-- A batch begins, with a COUNT that does not come. -/
theorem Inv.batch (hle : sys.en.rx_deliv ≤ g) (hgap : ∀ mb ∈ w.reduceOption, mb.seqn.toNat ≠ g) :
    Batch k sys.accepted D sys.en.rx_deliv g ⟨sys.en, [], [], []⟩ w [] := by
  refine ⟨hi.keeps, hi.timer, rfl, rfl, ?_, ?_, ?_, ?_, hle, hgap⟩
  · rw [append_nil, append_nil]
    exact hi.accepted
  · rw [append_nil]
    exact hi.sorted
  · rw [append_nil]
    exact hi.below
  · rw [append_nil]
    exact hi.next

theorem Inv.post {in_mb : List (Reorder.Mbuf × Bool)} (hlegal : Legal sys (.post in_mb))
    (hfits : Fits sys (.post in_mb)) :
    ∃ sys' w' D' F', dlStep sys (.post in_mb) = some sys' ∧ Inv k sys' w' D' F' ∧
      sys.en.rx_deliv ≤ sys'.en.rx_deliv := by
  obtain ⟨g, hle, hlt, hgap, hgap'⟩ := hi.gap hlegal hfits
  obtain ⟨p, w', O, hpackets, hb, hplane, hperm⟩ := (hi.batch hle hgap).packets hlt
    (fun mb hmb => hi.pending _ (hlegal.2.subset (mem_map_of_mem hmb))) hgap'
  rw [append_nil, nil_append] at hperm
  -- The numbers of packets fit.
  have hmoved := hb.moved
  have hgap_le := hb.gap_le
  have hout : p.out.length = O.length := by rw [hb.out, length_map]
  have hnum : p.out.length % word16 = p.out.length := mod_eq_of_lt (by omega)
  have herr : p.err.length % word16 = p.err.length := by
    have hlen := hperm.length_eq
    rw [length_append, length_map] at hlen
    have hmany := hlegal.1
    exact mod_eq_of_lt (by omega)
  have hpost : pdcpPostProcessDl sys.en in_mb =
      some ⟨p.en, O.map some, p.err.map some, p.accepted⟩ := by
    rw [pdcpPostProcessDl, hpackets, map_some]
    simp only [hnum, herr, take_left, drop_left]
    rw [take_of_length_le (by simp), hb.out]
  have hpending := (subperm_append_diff_self_of_count_le
    (fun mb _ => List.Subperm.count_le hlegal.2 mb)).symm
  refine ⟨_, w', D ++ O, F ++ p.err, by rw [dlStep, hpost]; rfl,
    ⟨hb.keeps, hb.timer, ?_, ?_, hb.next, ?_, ?_, hb.accepted, hb.sorted, hb.below,
      fun mb hmb => ?_, ?_⟩, ?_⟩
  · rw [hplane]
    exact hi.window
  · rcases hb.next with hnext | hnil
    · exact hnext.trans_lt hb.keeps.next_lt
    · have hacc := hb.accepted
      rw [hnil] at hacc
      have hO : O = [] := by
        have hall := hacc.nil_eq.symm
        simp only [append_eq_nil_iff] at hall
        exact hall.1.2
      rw [hO, length_nil, add_zero] at hmoved
      rw [hmoved]
      exact hi.deliv_lt
  · rw [map_append, ← hi.delivered]
  · rw [map_append, ← hi.failed]
  · obtain ⟨hwin, hmax⟩ := hi.pending mb (diff_subset _ _ hmb)
    refine ⟨?_, hmax⟩
    change mb.seqn.toNat < p.en.rx_deliv + 2 ^ k
    omega
  · have hids := hperm.map Reorder.Mbuf.id
    have hids' := hpending.map Reorder.Mbuf.id
    have hoffered := hi.offered
    simp only [perm_iff_count, map_append, count_append] at hids hids' hoffered ⊢
    intro id
    have h₁ := hids id
    have h₂ := hids' id
    have h₃ := hoffered id
    omega
  · change sys.en.rx_deliv ≤ p.en.rx_deliv
    omega

theorem Inv.expiry (hlegal : Legal sys .expiry) (hfits : Fits sys .expiry) :
    ∃ sys' w' D', dlStep sys .expiry = some sys' ∧ Inv k sys' w' D' F ∧
      sys.en.rx_deliv ≤ sys'.en.rx_deliv := by
  have hwindow := hi.window
  rw [show sys.en.plane.snSize = .size12 from hfits] at hwindow
  obtain ⟨en', hexpire, hkeeps, htimer, hreord, hle, hplane, hbelow⟩ :=
    hi.keeps.expire hi.timer hlegal (hwindow ▸ (by decide))
  have hmoved : sys.en.rx_deliv ≤ en'.rx_deliv := by
    have ht := hi.timer
    rw [TimerOk, show sys.en.t_reorder = .running from hlegal] at ht
    exact ht.2.1.le.trans hreord
  have hsplit := expired_append w (sys.en.rx_reord - sys.en.rx_deliv)
  obtain ⟨bits, -, hslots⟩ := hi.keeps.slots
  refine ⟨{ sys with
    en := en'
    delivered := sys.delivered ++
      (expired w (sys.en.rx_reord - sys.en.rx_deliv)).map some }, _,
    D ++ expired w (sys.en.rx_reord - sys.en.rx_deliv), by rw [dlStep, hexpire]; rfl,
    ⟨hkeeps, htimer, ?_, hle.trans_lt hkeeps.next_lt, Or.inl hle, ?_, hi.failed, ?_, ?_, ?_,
      fun mb hmb => ?_, hi.offered⟩, hmoved⟩
  · rw [hplane]
    exact hi.window
  · rw [map_append, ← hi.delivered]
  · rw [append_assoc, hsplit]
    exact hi.accepted
  · have hpair := hslots.pairwise
    rw [← hsplit] at hpair
    refine pairwise_append.mpr ⟨hi.sorted, (pairwise_append.mp hpair).1,
      fun a ha b hmem => (hi.below a ha).trans_le ?_⟩
    refine (hslots.of_mem ?_).1
    rw [← hsplit]
    exact mem_append_left _ hmem
  · intro mb hmb
    rcases mem_append.mp hmb with hmb | hmb
    · exact (hi.below mb hmb).trans_le hmoved
    · exact hbelow mb hmb
  · obtain ⟨hwin, hmax⟩ := hi.pending mb hmb
    refine ⟨?_, hmax⟩
    change mb.seqn.toNat < en'.rx_deliv + 2 ^ k
    omega

end

/-- A bitmap that has been initialised has no bits. -/
theorem rteBitmapInit_inv {n mem size : ℕ} {bmp : Bitmap.RteBitmap} (hpos : 0 < n)
    (hmax : n ≤ Bitmap.maxBits) (hbmp : Bitmap.rteBitmapInit n mem size = some bmp) :
    Bitmap.Inv n bmp ∅ := by
  simp only [Bitmap.rteBitmapInit] at hbmp
  split_ifs at hbmp
  obtain rfl := some.inj hbmp
  exact ⟨Bitmap.setup_sized hpos hmax _ _, Bitmap.summary_zero rfl rfl,
    Bitmap.setup_cursor hpos hmax _ _,
    fun p => iff_of_false (Bitmap.not_has_zero rfl p) (Set.notMem_empty p)⟩

/-- An entity that has been established has an empty window. -/
theorem Inv.start {plane : Plane} {hfn sn : BitVec 32} {mem : ℕ} {en : DlEntity}
    (hen : rtePdcpEntityEstablish plane false hfn sn mem = some en) :
    Inv (plane.snSize.bits - 1) (DlSystem.start en)
      (replicate (2 ^ (plane.snSize.bits - 1)) none) [] [] := by
  obtain ⟨bmp, hbmp, rfl⟩ := map_eq_some_iff.mp hen
  rw [pdcpWindowSizeGet_toNat] at hbmp
  have hpos := Nat.two_pow_pos (plane.snSize.bits - 1)
  have hmax : 2 ^ (plane.snSize.bits - 1) ≤ Bitmap.maxBits := by
    cases plane <;> decide
  have hbits := rteBitmapInit_inv hpos hmax hbmp
  have hnone : ∀ (i : ℕ) (mb : Reorder.Mbuf),
      (replicate (2 ^ (plane.snSize.bits - 1)) (none : Option Reorder.Mbuf))[i]? ≠
        some (some mb) := by
    intro i mb h
    exact absurd (eq_of_mem_replicate (mem_of_getElem? h)) nofun
  have hempty : (replicate (2 ^ (plane.snSize.bits - 1))
      (none : Option Reorder.Mbuf)).reduceOption = [] := reduceOption_replicate_none
  refine ⟨⟨by cases plane <;> decide, ?_, pdcpWindowSizeGet_toNat _, rfl, ?_,
    ⟨∅, hbits, length_replicate, fun i _ => ?_, fun i mb h => absurd h (hnone i mb)⟩, ?_, nofun,
    fun _ x hx => eq_of_mem_replicate hx, Nat.two_pow_pos 32, Nat.zero_le _⟩,
    ⟨rfl, Nat.zero_le _⟩,
    pdcpWindowSizeGet_toNat _, BitVec.isLt _, Or.inr rfl, rfl, rfl, ?_, List.Pairwise.nil, nofun,
    nofun, List.Perm.refl _⟩
  · change max 0 _ = _
    rw [Nat.zero_max, pdcpWindowSizeGet_toNat]
  · change ∃ rest, Reorder.Shows _ (Reorder.rteReorderInit _) [] rest _
    rw [pdcpWindowSizeGet_toNat]
    exact ⟨_, Reorder.shows_fresh _⟩
  · exact iff_of_false (Set.notMem_empty _) (fun ⟨mb, h⟩ => hnone i mb h)
  · obtain ⟨m, hm⟩ := Nat.exists_eq_succ_of_ne_zero hpos.ne'
    rw [hm]
    rfl
  · rw [hempty]
    exact List.Perm.refl _

/-- Every event keeps the invariant, and `RX_DELIV` does not go back. -/
theorem Inv.step (hi : Inv k sys w D F) {e : DlEvent} (hlegal : Legal sys e)
    (hfits : Fits sys e) : ∃ sys' w' D' F', dlStep sys e = some sys' ∧ Inv k sys' w' D' F' ∧
      sys.en.rx_deliv ≤ sys'.en.rx_deliv := by
  cases e with
  | pre in_mb =>
    obtain ⟨sys', hstep, hi', hle⟩ := hi.pre hlegal
    exact ⟨sys', w, D, F, hstep, hi', hle⟩
  | post in_mb => exact hi.post hlegal hfits
  | expiry =>
    obtain ⟨sys', w', D', hstep, hi', hle⟩ := hi.expiry hlegal hfits
    exact ⟨sys', w', D', F, hstep, hi', hle⟩

/-- A run of events that may happen, and that fit. -/
theorem Inv.run {es : List DlEvent} (hi : Inv k sys w D F)
    (hes : Runs.AlongOption dlStep (fun sys e => Legal sys e ∧ Fits sys e) sys es) :
    ∃ sys' w' D' F', Runs.runOption dlStep sys es = some sys' ∧ Inv k sys' w' D' F' := by
  induction es generalizing sys w D F with
  | nil => exact ⟨sys, w, D, F, rfl, hi⟩
  | cons e es ih =>
    obtain ⟨⟨hlegal, hfits⟩, hrest⟩ := hes
    obtain ⟨sys₁, w₁, D₁, F₁, hstep, hi₁, -⟩ := hi.step hlegal hfits
    obtain ⟨sys', w', D', F', hrun, hi'⟩ := ih hi₁ (hrest sys₁ hstep)
    exact ⟨sys', w', D', F', by rw [Runs.runOption, hstep, bind_some, hrun], hi'⟩

/-- **In-order delivery of a downlink entity.** In every run of events that may happen and
that fit, no check fails, the entity is sound, and `RX_DELIV` does not go back. -/
theorem in_order_delivery {plane : Plane} {hfn sn : BitVec 32} {mem : ℕ} {en : DlEntity}
    (hen : rtePdcpEntityEstablish plane false hfn sn mem = some en) {es : List DlEvent}
    (hes : Runs.AlongOption dlStep (fun sys e => Legal sys e ∧ Fits sys e)
      (DlSystem.start en) es) :
    ∃ sys, Runs.runOption dlStep (DlSystem.start en) es = some sys ∧ Sound sys ∧
      ∀ e, Legal sys e → Fits sys e →
        ∃ sys', dlStep sys e = some sys' ∧ sys.en.rx_deliv ≤ sys'.en.rx_deliv := by
  obtain ⟨sys, w, D, F, hrun, hi⟩ := (Inv.start hen).run hes
  refine ⟨sys, hrun, hi.sound, fun e hlegal hfits => ?_⟩
  obtain ⟨sys', w', D', F', hstep, -, hle⟩ := hi.step hlegal hfits
  exact ⟨sys', hstep, hle⟩

/-! ## Runs that can be computed -/

instance Legal.decidable (sys : DlSystem) : (e : DlEvent) → Decidable (Legal sys e)
  | .pre in_mb => inferInstanceAs
      (Decidable (∀ mb ∈ (countGet sys.en.plane sys.en.rx_deliv in_mb).1,
        mb.seqn.toNat + 1 < word32))
  | .post in_mb => inferInstanceAs
      (Decidable (in_mb.length < word16 ∧ (in_mb.map Prod.fst).Subperm sys.pending))
  | .expiry => inferInstanceAs (Decidable (sys.en.t_reorder = .running))

instance Fits.decidable (sys : DlSystem) : (e : DlEvent) → Decidable (Fits sys e)
  | .pre _ => inferInstanceAs (Decidable True)
  | .post in_mb => decidable_of_iff (sys.en.plane.snSize = .size12 ∨
      ∃ c < sys.en.rx_deliv + word16, sys.en.rx_deliv ≤ c ∧
        (∀ mb ∈ sys.en.buffered, mb.seqn.toNat ≠ c) ∧
        ∀ mb ∈ in_mb, mb.2 = false → mb.1.seqn.toNat ≠ c)
      (or_congr_right (exists_congr fun _ => and_left_comm))
  | .expiry => inferInstanceAs (Decidable (sys.en.plane.snSize = .size12))

/-- Three of four packets come, the last one first, and the timer expires. -/
def threeOfFour : List DlEvent :=
  [.pre [(3, ⟨0, [0x80#8, 3#8], 0⟩), (0, ⟨0, [0x80#8, 0#8], 0⟩), (1, ⟨0, [0x80#8, 1#8], 0⟩)],
    .post [(⟨3, 3⟩, false), (⟨1, 1⟩, false)], .post [(⟨0, 0⟩, false)], .expiry]

theorem in_order_delivery_three_of_four :
    ∃ en sys, rtePdcpEntityEstablish .uplaneSn12 false 0 0 64 = some en ∧
      Runs.runOption dlStep (DlSystem.start en) threeOfFour = some sys ∧ Sound sys := by
  have hrun : ((rtePdcpEntityEstablish .uplaneSn12 false 0 0 64).bind fun en =>
      Runs.runOption (fun sys e => if Legal sys e ∧ Fits sys e then dlStep sys e else none)
        (DlSystem.start en) threeOfFour).isSome = true := by
    decide +kernel
  obtain ⟨sys, hsys⟩ := isSome_iff_exists.mp hrun
  obtain ⟨en, hen, hguard⟩ := bind_eq_some_iff.mp hsys
  obtain ⟨sys', hrun', hsound, -⟩ := in_order_delivery hen (Runs.runOption_guard hguard).1
  exact ⟨en, sys', hen, hrun', hsound⟩

/-- **Nothing is held back**: once the packets with all COUNTs from the first one on have
been accepted, in whatever order and batches, they have been delivered in their order, and
the reorder buffer is empty. -/
theorem delivered_without_gaps {plane : Plane} {hfn sn : BitVec 32} {mem : ℕ} {en : DlEntity}
    (hen : rtePdcpEntityEstablish plane false hfn sn mem = some en) {es : List DlEvent}
    (hes : Runs.AlongOption dlStep (fun sys e => Legal sys e ∧ Fits sys e)
      (DlSystem.start en) es) (hrun : Runs.runOption dlStep (DlSystem.start en) es = some sys)
    {n : ℕ} (hall : ∀ c, (∃ mb ∈ sys.accepted, mb.seqn.toNat = c) ↔
      en.rx_deliv ≤ c ∧ c < en.rx_deliv + n) :
    sys.en.buffered = [] ∧ ∃ D : List Reorder.Mbuf, sys.delivered = D.map some ∧
      sys.accepted.Perm D ∧ D.map (fun mb => mb.seqn.toNat) = range' en.rx_deliv n := by
  obtain ⟨⟨w, D, F, hi⟩, hle⟩ : (∃ w D F, Inv (plane.snSize.bits - 1) sys w D F) ∧
      en.rx_deliv ≤ sys.en.rx_deliv :=
    hes.invariant (P := fun s => (∃ w D F, Inv (plane.snSize.bits - 1) s w D F) ∧
      en.rx_deliv ≤ s.en.rx_deliv) (fun s e s' h hok hstep => by
        obtain ⟨⟨w, D, F, hi⟩, hle⟩ := h
        obtain ⟨s'', w', D', F', hstep', hi', hle'⟩ := hi.step hok.1 hok.2
        obtain rfl := some.inj (hstep'.symm.trans hstep)
        exact ⟨⟨w', D', F', hi'⟩, hle.trans hle'⟩) hrun ⟨⟨_, _, _, Inv.start hen⟩, Nat.le_refl _⟩
  have hbuffered := hi.sound.buffered
  rw [hi.keeps.buffered_eq] at hbuffered ⊢
  -- the packet that a buffered one waits for has been accepted, and is neither here nor there
  have hnil : w.reduceOption = [] := by
    refine eq_nil_iff_forall_not_mem.mpr fun mb hmb => ?_
    obtain ⟨hmem, hlt, -⟩ := (hbuffered _).mp ⟨mb, hmb, rfl⟩
    obtain ⟨mb', hmb', heq⟩ := (hall sys.en.rx_deliv).mpr ⟨hle, hlt.trans ((hall _).mp hmem).2⟩
    rcases mem_append.mp (hi.accepted.mem_iff.mp hmb') with hD | hw
    · exact absurd (hi.below mb' hD) (by omega)
    · exact absurd ((hbuffered _).mp ⟨mb', hw, rfl⟩).2.1 (by omega)
  have hperm := hi.accepted
  rw [hnil, append_nil] at hperm
  have hsorted := pairwise_map.mpr hi.sorted
  refine ⟨hnil, D, hi.delivered, hperm, Perm.eq_of_pairwise (fun _ _ _ _ h h' => absurd h h'.asymm)
    hsorted pairwise_lt_range' ?_⟩
  refine (perm_ext_iff_of_nodup (hsorted.imp Nat.ne_of_lt) nodup_range').mpr fun c => ?_
  rw [mem_range'_1, ← hall c, List.mem_map]
  exact exists_congr fun mb => and_congr_left' hperm.mem_iff.symm

/-- Two packets, the second one first. -/
def swappedPdus : List DlEvent :=
  [.pre [(1, ⟨0, [0x80#8, 1#8], 0⟩), (0, ⟨0, [0x80#8, 0#8], 0⟩)],
    .post [(⟨1, 1⟩, false), (⟨0, 0⟩, false)]]

theorem delivered_without_gaps_swapped :
    ∃ en sys, rtePdcpEntityEstablish .uplaneSn12 false 0 0 64 = some en ∧
      Runs.runOption dlStep (DlSystem.start en) swappedPdus = some sys ∧
      sys.en.buffered = [] := by
  have hrun : ((rtePdcpEntityEstablish .uplaneSn12 false 0 0 64).bind fun en =>
      (Runs.runOption (fun sys e => if Legal sys e ∧ Fits sys e then dlStep sys e else none)
        (DlSystem.start en) swappedPdus).map fun sys => (en.rx_deliv, sys.accepted)) =
      some (0, [⟨1, 1⟩, ⟨0, 0⟩]) := by
    decide +kernel
  obtain ⟨en, hen, hrun⟩ := bind_eq_some_iff.mp hrun
  obtain ⟨sys, hguard, heq⟩ := map_eq_some_iff.mp hrun
  obtain ⟨hdeliv, haccepted⟩ := Prod.mk.inj heq
  obtain ⟨hes, hsys⟩ := Runs.runOption_guard hguard
  have hcounts : ∀ c, (∃ mb ∈ sys.accepted, mb.seqn.toNat = c) ↔
      en.rx_deliv ≤ c ∧ c < en.rx_deliv + 2 := by
    intro c
    rw [hdeliv, haccepted]
    simp
    omega
  exact ⟨en, sys, hen, hsys, (delivered_without_gaps hen hes hsys hcounts).1⟩

/-- A buffer that nothing has been put into is started. -/
theorem reorderStart_init {en : DlEntity} {size : ℕ}
    (hinit : en.reorder = Reorder.rteReorderInit size) :
    en.reorderStart = some { en with
      reorder := { Reorder.rteReorderInit size with
        minSeqn := UInt32.ofNat en.rx_deliv
        isInitialized := true }
      is_active := true } := by
  have hempty : Reorder.rteReorderIsEmpty (Reorder.rteReorderInit size) = true :=
    decide_eq_true ⟨rfl, Reorder.CirBuffer.noneBelow_of_forall fun _ _ => rfl⟩
  rw [DlEntity.reorderStart, hinit, Reorder.rteReorderMinSeqnSet, if_pos hempty]

/-- A packet that is not the next one comes, and the timer expires. -/
def notTheNext : List DlEvent :=
  [.pre [(7, ⟨0, [0x80#8, 0#8, 1#8], 0⟩)], .post [(⟨7, 1⟩, false)], .expiry]

/-- **An expiry delivers nothing** when sequence numbers have 18 bits, as the window is
`2 ^ 17`, and `0` as a `uint16_t`. `RX_DELIV` moves on over a packet that is buffered. -/
theorem expiry_leaves_packet_behind :
    ¬ ∀ {plane : Plane} {hfn sn : BitVec 32} {mem : ℕ} {en : DlEntity},
      rtePdcpEntityEstablish plane false hfn sn mem = some en → ∀ {es : List DlEvent},
        Runs.AlongOption dlStep Legal (DlSystem.start en) es →
          ∃ sys, Runs.runOption dlStep (DlSystem.start en) es = some sys ∧ Sound sys := by
  intro h
  have hrun : ((rtePdcpEntityEstablish .uplaneSn18 false 0 0 64).bind fun en =>
      Runs.runOption (fun sys e => if Legal sys e then dlStep sys e else none)
        (DlSystem.start en) notTheNext).map
      (fun sys => (sys.en.rx_deliv, sys.delivered, sys.accepted)) = some (2, [], [⟨7, 1⟩]) := by
    obtain ⟨en, hen, hreorder, hpre⟩ : ∃ en,
        rtePdcpEntityEstablish .uplaneSn18 false 0 0 64 = some en ∧
        en.reorder = Reorder.rteReorderInit (2 ^ 17) ∧
        (if Legal (DlSystem.start en) (.pre [(7, ⟨0, [0x80#8, 0#8, 1#8], 0⟩)]) then
          dlStep (DlSystem.start en) (.pre [(7, ⟨0, [0x80#8, 0#8, 1#8], 0⟩)]) else none) =
        some ⟨en, [⟨7, 1⟩], [7], [], [], [], []⟩ := ⟨_, rfl, rfl, rfl⟩
    rw [hen, bind_some, notTheNext, Runs.runOption, hpre, bind_some]
    -- the slots are not looked at one by one
    simp only [Runs.runOption, dlStep, pdcpPostProcessDl, Post.packets, Post.packet,
      pdcpPostProcessUpdateEntityState, DlEntity.buffer, hreorder, apply_ite DlEntity.reorder,
      ite_self, @reorderStart_init _ (2 ^ 17)]
    cases hen
    decide +kernel
  obtain ⟨sys, hsys, heq⟩ := map_eq_some_iff.mp hrun
  obtain ⟨en, hen, hguard⟩ := bind_eq_some_iff.mp hsys
  obtain ⟨hlegal, hdl⟩ := Runs.runOption_guard hguard
  obtain ⟨sys', hsys', hsound⟩ := h hen hlegal
  obtain rfl := some.inj (hsys'.symm.trans hdl)
  simp only [Prod.mk.injEq] at heq
  obtain ⟨hdeliv, hdelivered, haccepted⟩ := heq
  obtain ⟨D, hD, -, hperm⟩ := hsound.delivered
  rw [hdelivered] at hD
  rw [map_eq_nil_iff.mp hD.symm, haccepted, nil_append] at hperm
  have hlt := ((hsound.buffered 1).mp ⟨_, hperm.subset mem_cons_self, rfl⟩).2.1
  rw [hdeliv] at hlt
  exact absurd hlt (by decide)

end Pdcp
