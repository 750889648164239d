import DpdkStudy.Ipsec.AntiReplay
import DpdkStudy.Ipsec.Outbound

/-!
# From an outbound SA to the inbound SA of its peer

An outbound SA numbers its packets with 64 bits and sends the low halves. The
peer makes up the number twice: before the packet goes to the crypto device,
which needs it to check the ICV (`inbGetSqn`), and when the packet has come
back and the window is updated, which may have moved on by then.

Packets may be lost, but do not overtake each other. As long as none is too
far ahead of the window when it is prepared, the two ends stay in step
(`InStep`), whatever the order of their steps.
-/

open Nat

namespace Ipsec

open Runs

/-- **`inb_get_sqn`**: what the check of the window returns, and the number. -/
def inbGetSqn (sa : RteIpsecSa) (rsn : ReplaySqn) (sqn : UInt32) : Int × UInt64 :=
  let sqn := seqNumber sa rsn sqn.toUInt64
  (esnInbCheckSqn rsn sa sqn, sqn)

/-- **The two ends**: the counter of the outbound SA, the packets on their way,
those at the crypto device of the peer, with the numbers it has made up, and
its window; the packets that came back, and those turned down before. -/
structure Link where
  outb : UInt64
  onTheWay : List UInt64
  prepared : List (UInt64 × UInt64)
  inb : InbState
  processed : List ℕ
  refused : List UInt64

/-- A batch of packets is sent, the first packet on the way is lost or comes to
the peer, or the first packet at the crypto device comes back. -/
inductive LinkEvent
  | send (num : UInt32)
  | lose
  | prepare
  | process

/-- **A step of one of the two ends.** -/
def linkStep (out sa : RteIpsecSa) (s : Link) : LinkEvent → Link
  | .send num =>
    let r := esnOutbUpdateSqn out s.outb num
    { s with
      outb := r.2
      onTheWay := s.onTheWay ++ (List.range r.1.2.toNat).map fun i => r.1.1 + UInt64.ofNat i }
  | .lose => { s with onTheWay := s.onTheWay.tail }
  | .prepare =>
    match s.onTheWay with
    | [] => s
    | n :: rest =>
      let r := inbGetSqn sa s.inb.rsn n.toUInt32
      if r.1 = 0 then { s with onTheWay := rest, prepared := s.prepared ++ [(n, r.2)] }
      else { s with onTheWay := rest, refused := n :: s.refused }
  | .process =>
    match s.prepared with
    | [] => s
    | (n, _) :: rest =>
      { s with
        prepared := rest
        inb := inbStep sa s.inb n.toUInt32
        processed := n.toNat :: s.processed }

/-- **A number that can be made up**, after the last one, with room for the
window. -/
structure Near (sa : RteIpsecSa) (last n : ℕ) : Prop where
  ahead : n + sa.replay.winSz.toNat ≤ last + 2 ^ 32
  room : n + sa.replay.winSz.toNat < 2 ^ 64

/-- The counter does not wrap, and a packet is near when it is prepared. -/
def LinkOk (sa : RteIpsecSa) (s : Link) : LinkEvent → Prop
  | .send num => s.outb.toNat + num.toNat < 2 ^ 64
  | .prepare => ∀ n ∈ s.onTheWay.head?, Near sa s.inb.rsn.sqn.toNat n.toNat
  | _ => True

/-- The numbers of the packets that the peer still has to accept. -/
def Link.line (s : Link) : List ℕ := (s.prepared.map Prod.fst ++ s.onTheWay).map UInt64.toNat

/-- **The two ends are in step.** -/
structure InStep (sa : RteIpsecSa) (k : ℕ) (s : Link) : Prop where
  shows : Shows k s.inb.rsn s.inb.accepted
  last : s.inb.rsn.sqn.toNat < s.outb.toNat
  ordered : s.line.Pairwise (· < ·)
  between : ∀ n ∈ s.line, s.inb.rsn.sqn.toNat < n ∧ n < s.outb.toNat
  madeUp : ∀ p ∈ s.prepared, p.2 = p.1 ∧ Near sa s.inb.rsn.sqn.toNat p.1.toNat
  accepted : s.inb.accepted = s.processed
  sorted : s.processed.Pairwise (· > ·)
  refused : s.refused = []

/-- A number ahead of the last one is made up from its low half. -/
theorem seqNumber_ahead {sa : RteIpsecSa} {rsn : ReplaySqn} {n : UInt64}
    (hw : sa.replay.winSz ≠ 0) (hesn : sa.isEsn = true) (hlt : rsn.sqn.toNat < n.toNat)
    (hnear : Near sa rsn.sqn.toNat n.toNat) : seqNumber sa rsn n.toUInt32.toUInt64 = n := by
  obtain ⟨hle, -⟩ := hnear
  unfold seqNumber
  rw [if_pos hesn, UInt32.toUInt32_toUInt64]
  generalize rsn.sqn = t at *
  generalize sa.replay.winSz = w at *
  have hwpos : 1 ≤ w.toNat := Nat.pos_of_ne_zero fun hc => hw (UInt32.toNat_inj.mp hc)
  have hn := n.toNat_lt
  have htl : t.toUInt32.toNat = t.toNat % 2 ^ 32 := UInt64.toNat_toUInt32 t
  have hnl : n.toUInt32.toNat = n.toNat % 2 ^ 32 := UInt64.toNat_toUInt32 n
  have hth := toNat_high t
  have hw1 : (w - 1).toNat = w.toNat - 1 :=
    UInt32.toNat_sub_of_le _ _ (UInt32.le_iff_toNat_le.mpr hwpos)
  refine UInt64.toNat_inj.mp ?_
  unfold reconstructEsn
  dsimp only
  rw [toNat_high_or_low, hnl]
  generalize (t >>> 32).toUInt32 = th at *
  generalize t.toUInt32 = tl at *
  have hin := @toNat_sub_add_one tl w hwpos
  have hacross := @toNat_sub_add_one_of_lt tl w
  -- across two subspaces, a number ahead is below the bottom of the window
  simp only [ge_iff_le, UInt32.le_iff_toNat_le, UInt32.lt_iff_toNat_lt, hw1]
  split_ifs
  · rw [UInt32.toNat_add]
    show (th.toNat + 1) % 2 ^ 32 * 2 ^ 32 + _ = _
    omega
  · rw [UInt32.add_zero]
    omega
  · omega
  · rw [UInt32.sub_zero]
    omega
  · omega

section Step

variable {out sa : RteIpsecSa} {k : ℕ} {s : Link}

/-- The numbers of a batch are above those of all packets before. -/
theorem InStep.send (h : InStep sa k s) {num : UInt32} (hok : s.outb.toNat + num.toNat < 2 ^ 64) :
    InStep sa k (linkStep out sa s (.send num)) := by
  have hend : (s.outb + num.toUInt64).toNat = s.outb.toNat + num.toNat := by
    rw [UInt64.toNat_add, UInt32.toNat_toUInt64, mod_eq_of_lt hok]
  have hgranted : (granted out (s.outb + num.toUInt64) num).toNat ≤ num.toNat := by
    rw [toNat_granted (by omega)]
    exact min_le_left _ _
  have hline : (linkStep out sa s (.send num)).line
      = s.line ++ List.range' s.outb.toNat (granted out (s.outb + num.toUInt64) num).toNat := by
    unfold linkStep esnOutbUpdateSqn Link.line
    dsimp only
    rw [UInt64.add_sub_cancel, ← List.append_assoc, List.map_append, List.map_map,
      List.range'_eq_map_range]
    refine congrArg _ (List.map_congr_left fun i hi => ?_)
    have hlt := List.mem_range.mp hi
    show (s.outb + UInt64.ofNat i).toNat = _
    rw [UInt64.toNat_add, UInt64.toNat_ofNat_of_lt' (show i < 2 ^ 64 by omega),
      mod_eq_of_lt (by omega)]
  have houtb : (linkStep out sa s (.send num)).outb.toNat = s.outb.toNat + num.toNat := hend
  have hlast := h.last
  refine ⟨h.shows, ?_, ?_, fun n hn => ?_, h.madeUp, h.accepted, h.sorted, h.refused⟩
  · exact lt_of_lt_of_le hlast (houtb ▸ le_add_right _ _)
  · rw [hline, List.pairwise_append]
    refine ⟨h.ordered, List.pairwise_lt_range', fun a ha b hb => ?_⟩
    exact lt_of_lt_of_le (h.between a ha).2 (List.mem_range'_1.mp hb).1
  · rw [hline] at hn
    rw [houtb]
    rcases List.mem_append.mp hn with hn | hn
    · have := h.between n hn
      exact ⟨this.1, by omega⟩
    · have := List.mem_range'_1.mp hn
      exact ⟨lt_of_lt_of_le hlast this.1, by omega⟩

theorem InStep.lose (h : InStep sa k s) : InStep sa k (linkStep out sa s .lose) := by
  have hsub : (linkStep out sa s .lose).line.Sublist s.line :=
    ((List.tail_sublist _).append_left _).map _
  exact ⟨h.shows, h.last, h.ordered.sublist hsub, fun n hn => h.between n (hsub.subset hn),
    h.madeUp, h.accepted, h.sorted, h.refused⟩

/-- The number of a packet that is prepared is made up as it was sent. -/
theorem InStep.prepare (h : InStep sa k s) (hw : sa.replay.winSz ≠ 0) (hesn : sa.isEsn = true)
    (hok : LinkOk sa s .prepare) : InStep sa k (linkStep out sa s .prepare) := by
  unfold linkStep
  cases hp : s.onTheWay with
  | nil => exact h
  | cons n rest =>
    have hnear : Near sa s.inb.rsn.sqn.toNat n.toNat := hok n (by rw [hp]; rfl)
    have hline : s.line = (s.prepared.map Prod.fst ++ n :: rest).map UInt64.toNat := by
      rw [Link.line, hp]
    obtain ⟨hgt, -⟩ := h.between n.toNat (hline ▸ List.mem_map_of_mem (by simp))
    have hget : inbGetSqn sa s.inb.rsn n.toUInt32 = (0, n) := by
      unfold inbGetSqn
      rw [seqNumber_ahead hw hesn hgt hnear]
      exact congrArg (·, n) ((if_neg hw).trans (if_pos hgt))
    dsimp only
    rw [hget, if_pos rfl]
    have hline' : Link.line { s with onTheWay := rest, prepared := s.prepared ++ [(n, n)] }
        = s.line := by
      rw [hline]
      simp [Link.line]
    refine ⟨h.shows, h.last, hline' ▸ h.ordered, fun a ha => h.between a (hline' ▸ ha),
      fun p hpr => ?_, h.accepted, h.sorted, h.refused⟩
    rcases List.mem_append.mp hpr with hpr | hpr
    · exact h.madeUp p hpr
    · rw [List.mem_singleton.mp hpr]
      exact ⟨rfl, hnear⟩

/-- A packet that comes back is accepted, and its number is the last one then. -/
theorem InStep.process (h : InStep sa k s) (hsa : HasBuckets sa k) (hw : sa.replay.winSz ≠ 0)
    (hesn : sa.isEsn = true) : InStep sa k (linkStep out sa s .process) := by
  unfold linkStep
  cases hp : s.prepared with
  | nil => exact h
  | cons p rest =>
    obtain ⟨n, m⟩ := p
    obtain ⟨hordered, hbetween⟩ := And.intro h.ordered h.between
    rw [Link.line, hp] at hordered hbetween
    obtain ⟨hfirst, hrest⟩ := List.pairwise_cons.mp hordered
    obtain ⟨hgt, hlt⟩ := hbetween n.toNat List.mem_cons_self
    have hnear := (h.madeUp (n, m) (hp ▸ List.mem_cons_self)).2
    have hseq := seqNumber_ahead hw hesn hgt hnear
    have hpos := Nat.two_pow_pos k
    have hnew : n.toNat ∉ s.inb.accepted := fun hc => absurd (h.shows.le _ hc) (by omega)
    have hjudged : StepJudged sa s.inb n.toUInt32 := by
      unfold StepJudged
      rw [hseq]
      have hdiv := Nat.div_le_div_right (c := 64) (le_of_lt hgt)
      exact Or.inr ⟨by omega, hnear.room, fun _ => by rw [hsa.nbBucket]; omega, fun _ => hnew⟩
    obtain ⟨hiff, hshows⟩ := esnInbUpdateSqn_spec hsa h.shows (seqNumber_lt sa s.inb.rsn n.toUInt32)
      hjudged
    rw [hseq] at hiff hshows
    have hr := hiff.mpr ⟨hnew, by omega⟩
    have hlast : (esnInbUpdateSqn s.inb.rsn sa n.toUInt32.toUInt64).2.sqn = n := by
      unfold seqNumber at hseq
      unfold esnInbUpdateSqn at hr ⊢
      rw [hseq] at hr ⊢
      dsimp only at hr ⊢
      rw [if_pos (show n > s.inb.rsn.sqn from hgt)] at hr ⊢
      split at hr
      · exact absurd (show -einval = 0 from hr) (by decide)
      · next hin =>
        rw [if_neg hin]
        split <;> rfl
    have hinb : inbStep sa s.inb n.toUInt32
        = ⟨(esnInbUpdateSqn s.inb.rsn sa n.toUInt32.toUInt64).2, n.toNat :: s.inb.accepted⟩ := by
      unfold inbStep
      dsimp only
      rw [if_pos hr, hseq]
    rw [if_pos hr] at hshows
    dsimp only
    rw [hinb]
    generalize (esnInbUpdateSqn s.inb.rsn sa n.toUInt32.toUInt64).2 = rsn at hshows hlast
    subst hlast
    refine ⟨hshows, hlt, hrest, fun a ha => ?_, fun p hpr => ?_,
      congrArg (rsn.sqn.toNat :: ·) h.accepted, List.pairwise_cons.mpr ⟨fun a ha => ?_, h.sorted⟩,
      h.refused⟩
    · exact ⟨hfirst a ha, (hbetween a (List.mem_cons_of_mem _ ha)).2⟩
    · obtain ⟨heq, hahead, hroom⟩ := h.madeUp p (hp ▸ List.mem_cons_of_mem _ hpr)
      exact ⟨heq, hahead.trans (Nat.add_le_add_right (le_of_lt hgt) _), hroom⟩
    · exact lt_of_le_of_lt (h.shows.le a (h.accepted ▸ ha)) hgt

end Step

end Ipsec
