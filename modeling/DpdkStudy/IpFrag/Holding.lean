import DpdkStudy.IpFrag.Fragmentation
import Mathlib.Data.List.Count

/-!
# What fragmentation holds

A fragment is made of an mbuf of one pool and of mbufs of another one, which are
attached to the buffers of the segments of the packet: each of these counts how
often it is referred to. Where there are no more mbufs in the middle of it, all
that was taken is given back (`rteIpv4FragmentPacketHeld`, which does what
`rteIpv4FragmentPacket` does and keeps account of the mbufs beside).
-/

open List

namespace IpFrag

open Function Mbuf

/-- **The mbufs that are in the two pools**, how often each mbuf with a buffer is
referred to, and the mbufs that were put back into pools of others. -/
structure Held where
  direct : List ℕ
  indirect : List ℕ
  refcnt : ℕ → ℕ
  released : List ℕ

namespace Held

/-- **`rte_pktmbuf_attach`**, to a buffer of the given mbuf. -/
def attach (h : Held) (md : ℕ) : Held :=
  { h with refcnt := update h.refcnt md (h.refcnt md + 1) }

@[simp]
theorem indirect_attach (h : Held) (md : ℕ) : (h.attach md).indirect = h.indirect := rfl

/-- **`rte_pktmbuf_detach`**: an mbuf that nobody refers to any more goes back into
its pool, with one reference. -/
def detach (h : Held) (md : ℕ) : Held :=
  if h.refcnt md = 1 then { h with released := md :: h.released }
  else { h with refcnt := update h.refcnt md (h.refcnt md - 1) }

/-- **`rte_pktmbuf_free_seg`** of an mbuf that is attached. -/
def freeSeg (h : Held) (a : Seg × ℕ) : Held :=
  { h.detach a.2 with indirect := a.1.mbuf :: h.indirect }

/-- **`rte_pktmbuf_free`** of a fragment: its first mbuf, and those attached to the
mbufs of the packet. -/
def free (h : Held) (mbuf : ℕ) (attached : List (Seg × ℕ)) : Held :=
  attached.foldl freeSeg { h with direct := mbuf :: h.direct }

end Held

/-- **A fragment in the array of the caller**, with the mbufs its segments are
attached to. -/
structure OutPkt where
  pkt : Mbuf
  attached : List (Seg × ℕ)

/-- **`__free_fragments`**. -/
def freeFragments (h : Held) (pkts_out : List OutPkt) : Held :=
  pkts_out.foldl (fun h p => h.free p.pkt.seg.mbuf p.attached) h

variable (rteMbufFromIndirect : ℕ → ℕ)

/-- **The inner loop of `rte_ipv4_fragment_packet`**, with what is attached even
where there is no mbuf for the rest of it. -/
def attachHeld : ℕ → ℕ → List Seg → Held → List (Seg × ℕ) × Option (List Seg × ℕ) × Held
  | _, _, [], h => ([], some ([], 0), h)
  | remaining, pos, s :: rest, h =>
    match h.indirect with
    | [] => ([], none, h)
    | id :: indirect =>
      let md := rteMbufFromIndirect s.mbuf
      let h := { h with indirect := indirect }.attach md
      let len := min remaining (s.dataLen - pos)
      let out : Seg := ⟨id, (s.data.drop pos).take len⟩
      -- current input segment done
      if pos + len = s.dataLen then
        -- current fragment done
        if remaining - len = 0 then ([(out, md)], some (rest, 0), h)
        else
          let r := attachHeld (remaining - len) 0 rest h
          ((out, md) :: r.1, r.2)
      else ([(out, md)], some (s :: rest, pos + len), h)

/-- **The outer loop of `rte_ipv4_fragment_packet`**, over the mbufs of the first
pool. -/
def cutHeld (frag_size : ℕ) (flag_offset : UInt16) : List ℕ → List OutPkt → Held → Cutting →
    Except FragError (List Mbuf) × Held
  | direct, pkts_out, h, st =>
    if st.in_segs = [] then (.ok (pkts_out.map OutPkt.pkt), { h with direct := direct })
    else
      match direct with
      | [] => (.error .enomem, freeFragments { h with direct := [] } pkts_out)
      | mbuf :: direct =>
        match attachHeld rteMbufFromIndirect frag_size st.in_seg_data_pos st.in_segs
          { h with direct := direct } with
        | (out, none, h) => (.error .enomem, freeFragments (h.free mbuf out) pkts_out)
        | (out, some (in_segs, pos), h) =>
          let out_pkt := fragmentOf st mbuf (out.map Prod.fst) flag_offset (in_segs ≠ [])
          cutHeld frag_size flag_offset direct (pkts_out ++ [⟨out_pkt, out⟩]) h
            (st.next out_pkt flag_offset in_segs pos)

/-- **`rte_ipv4_fragment_packet`**, with the mbufs that it holds. -/
def rteIpv4FragmentPacketHeld (pkt_in : Mbuf) (nb_pkts_out mtu_size : ℕ) (h : Held) :
    Except FragError (List Mbuf) × Held :=
  let in_hdr := pkt_in.ip
  let header_len := in_hdr.headerLen
  if nb_pkts_out = 0 ∨ mtu_size < etherMinMtu then (.error .einval, h)
  else if pkt_in.seg.dataLen < header_len ∨ mtu_size < header_len then (.error .einval, h)
  else
    let frag_size := (mtu_size - header_len) / hdrOffsetUnits * hdrOffsetUnits
    let flag_offset := in_hdr.fragment_offset
    if flag_offset &&& hdrDfFlag ≠ 0 then (.error .enotsup, h)
    else if frag_size * nb_pkts_out < (pkt_in.pkt_len + 2 ^ 32 - header_len) % 2 ^ 16 then
      (.error .einval, h)
    else if header_len < ipv4HdrSize ∨ hdrOptMaxLen < header_len - ipv4HdrSize then
      (.error .einval, h)
    else
      cutHeld rteMbufFromIndirect frag_size flag_offset h.direct [] h
        { in_segs := pkt_in.segs
          in_seg_data_pos := header_len
          fragment_offset := 0
          in_hdr := in_hdr
          header_len := header_len
          ipopt_len := header_len - ipv4HdrSize }

/-! ## The fragments are the same -/

variable {rteMbufFromIndirect}

/-- What is attached does not depend on the account of it. -/
theorem attachSegs_eq (remaining pos : ℕ) (segs : List Seg) (h : Held) :
    attachSegs remaining pos segs h.indirect =
      (attachHeld rteMbufFromIndirect remaining pos segs h).2.1.map (fun r =>
        ((attachHeld rteMbufFromIndirect remaining pos segs h).1.map Prod.fst, r.1, r.2,
          (attachHeld rteMbufFromIndirect remaining pos segs h).2.2.indirect)) := by
  induction segs generalizing remaining pos h with
  | nil => rfl
  | cons s rest ih =>
    rw [attachHeld]
    cases hpool : h.indirect with
    | nil => rfl
    | cons id indirect =>
      simp only [attachSegs]
      by_cases hseg : pos + min remaining (s.dataLen - pos) = s.dataLen
      · by_cases hdone : remaining - min remaining (s.dataLen - pos) = 0
        · simp only [if_pos hseg, if_pos hdone]
          rfl
        · simp only [if_pos hseg, if_neg hdone]
          have hrest := ih (remaining - min remaining (s.dataLen - pos)) 0
            (Held.attach { h with indirect := indirect } (rteMbufFromIndirect s.mbuf))
          rw [Held.indirect_attach] at hrest
          rw [hrest, Option.map_map]
          rfl
      · simp only [if_neg hseg]
        rfl

/-- The fragments are those of the outer loop, behind the ones before. -/
theorem cutHeld_fst (frag_size : ℕ) (flag_offset : UInt16) (direct : List ℕ)
    (pkts_out : List OutPkt) (h : Held) (st : Cutting) :
    (cutHeld rteMbufFromIndirect frag_size flag_offset direct pkts_out h st).1 =
      (cut frag_size flag_offset direct h.indirect st).map
        (fun pkts => pkts_out.map OutPkt.pkt ++ pkts) := by
  induction direct generalizing pkts_out h st with
  | nil =>
    rw [cutHeld, cut]
    split
    · simp [Except.map]
    · rfl
  | cons mbuf direct ih =>
    rw [cutHeld, cut]
    split
    · simp [Except.map]
    · have hattach := @attachSegs_eq rteMbufFromIndirect frag_size
        st.in_seg_data_pos st.in_segs { h with direct := direct }
      simp only at hattach ⊢
      rw [hattach]
      split
      · rename_i heq
        rw [heq]
        rfl
      · rename_i heq
        rw [heq]
        simp only [Option.map_some]
        rw [ih]
        cases cut frag_size flag_offset direct _ _ <;> simp [Except.map]

theorem rteIpv4FragmentPacketHeld_fst (pkt_in : Mbuf) (nb_pkts_out mtu_size : ℕ) (h : Held) :
    (rteIpv4FragmentPacketHeld rteMbufFromIndirect pkt_in nb_pkts_out mtu_size h).1 =
      rteIpv4FragmentPacket pkt_in nb_pkts_out mtu_size h.direct h.indirect := by
  rw [rteIpv4FragmentPacketHeld, rteIpv4FragmentPacket]
  simp only
  split_ifs
  · rfl
  · rfl
  · rfl
  · rfl
  · rfl
  · rw [cutHeld_fst]
    cases cut _ _ h.direct h.indirect _ <;> rfl

/-- What is held after a call of which the result is known. -/
theorem rteIpv4FragmentPacketHeld_eq {pkt_in : Mbuf} {nb_pkts_out mtu_size : ℕ} {h : Held}
    {r : Except FragError (List Mbuf)}
    (hr : rteIpv4FragmentPacket pkt_in nb_pkts_out mtu_size h.direct h.indirect = r) :
    rteIpv4FragmentPacketHeld rteMbufFromIndirect pkt_in nb_pkts_out mtu_size h =
      (r, (rteIpv4FragmentPacketHeld rteMbufFromIndirect pkt_in nb_pkts_out mtu_size h).2) :=
  Prod.ext ((rteIpv4FragmentPacketHeld_fst _ _ _ _).trans hr) rfl

/-! ## What is given back -/

/-- **Mbufs are lent** for some fragments: the first mbufs of these are missing in
one pool, the attached ones in the other, and the mbufs they are attached to are
referred to as much more often. -/
structure Lent (h₀ h : Held) (heads : List ℕ) (attached : List (Seg × ℕ)) : Prop where
  direct : (heads ++ h.direct).Perm h₀.direct
  indirect : (attached.map (fun a => a.1.mbuf) ++ h.indirect).Perm h₀.indirect
  refcnt : ∀ md, h.refcnt md = h₀.refcnt md + (attached.map Prod.snd).count md
  released : h.released = h₀.released
  live : ∀ a ∈ attached, 1 ≤ h₀.refcnt a.2

/-- **Everything is as it was**: the pools have the same mbufs, and nothing is
referred to more often or less. -/
structure Restored (h₀ h : Held) : Prop where
  direct : h.direct.Perm h₀.direct
  indirect : h.indirect.Perm h₀.indirect
  refcnt : h.refcnt = h₀.refcnt
  released : h.released = h₀.released

theorem Lent.refl (h : Held) : Lent h h [] [] :=
  ⟨List.Perm.refl _, List.Perm.refl _, fun md => by simp, rfl, fun a ha => by simp at ha⟩

theorem Lent.restored {h₀ h : Held} (hl : Lent h₀ h [] []) : Restored h₀ h :=
  ⟨hl.direct, hl.indirect, funext fun md => by simpa using hl.refcnt md, hl.released⟩

theorem Lent.perm {h₀ h : Held} {heads heads' : List ℕ} {attached attached' : List (Seg × ℕ)}
    (hl : Lent h₀ h heads attached) (hheads : heads'.Perm heads)
    (hattached : attached'.Perm attached) : Lent h₀ h heads' attached' where
  direct := (hheads.append_right _).trans hl.direct
  indirect := ((hattached.map _).append_right _).trans hl.indirect
  refcnt md := by rw [hl.refcnt, (hattached.map Prod.snd).count_eq]
  released := hl.released
  live a ha := hl.live a (hattached.mem_iff.mp ha)

theorem Lent.attach {h₀ h : Held} {heads : List ℕ} {attached : List (Seg × ℕ)}
    (hl : Lent h₀ h heads attached) {id : ℕ} {indirect : List ℕ}
    (hpool : h.indirect = id :: indirect) {md : ℕ} (hlive : 1 ≤ h₀.refcnt md) (data : List UInt8) :
    Lent h₀ (Held.attach { h with indirect := indirect } md) heads
      ((⟨id, data⟩, md) :: attached) where
  direct := hl.direct
  indirect := by
    have hperm := hl.indirect
    rw [hpool] at hperm
    exact perm_middle.symm.trans hperm
  refcnt m := by
    have hm := hl.refcnt m
    simp only [Held.attach, update_apply, map_cons, count_cons, beq_iff_eq]
    by_cases heq : m = md
    · subst heq
      rw [if_pos rfl, if_pos rfl]
      omega
    · rw [if_neg heq, if_neg (Ne.symm heq)]
      exact hm
  released := hl.released
  live a ha := by
    rcases mem_cons.mp ha with rfl | ha
    · exact hlive
    · exact hl.live a ha

/-- **An mbuf that is freed** is not lent any more: the one it was attached to is
still referred to by its packet. -/
theorem Lent.freeSeg {h₀ h : Held} {heads : List ℕ} {attached : List (Seg × ℕ)} {a : Seg × ℕ}
    (hl : Lent h₀ h heads (a :: attached)) : Lent h₀ (h.freeSeg a) heads attached := by
  have hlive := hl.live a mem_cons_self
  have hcnt := hl.refcnt a.2
  rw [map_cons, count_cons_self] at hcnt
  have hdetach : h.detach a.2 = { h with refcnt := update h.refcnt a.2 (h.refcnt a.2 - 1) } :=
    if_neg (by omega)
  rw [Held.freeSeg, hdetach]
  refine ⟨hl.direct, perm_middle.trans hl.indirect, fun md => ?_, hl.released,
    fun b hb => hl.live b (mem_cons_of_mem a hb)⟩
  have hmd := hl.refcnt md
  rw [map_cons, count_cons] at hmd
  simp only [update_apply]
  by_cases heq : md = a.2
  · rw [if_pos heq, heq]
    omega
  · rw [if_neg heq, hmd, if_neg (by simpa using Ne.symm heq), Nat.add_zero]

/-- The mbufs that are attached for a fragment are freed one by one. -/
theorem Lent.freeSegs {h₀ h : Held} {heads : List ℕ} {out attached : List (Seg × ℕ)}
    (hl : Lent h₀ h heads (out ++ attached)) :
    Lent h₀ (out.foldl Held.freeSeg h) heads attached := by
  induction out generalizing h with
  | nil => exact hl
  | cons a out ih => exact ih hl.freeSeg

/-- A fragment that is freed is not lent any more. -/
theorem Lent.free {h₀ h : Held} {mbuf : ℕ} {heads : List ℕ} {out attached : List (Seg × ℕ)}
    (hl : Lent h₀ h (mbuf :: heads) (out ++ attached)) :
    Lent h₀ (h.free mbuf out) heads attached :=
  Lent.freeSegs
    ⟨perm_middle.trans hl.direct, hl.indirect, hl.refcnt, hl.released, hl.live⟩

/-- The first mbufs of some fragments. -/
def heads (pkts_out : List OutPkt) : List ℕ := pkts_out.map (fun p => p.pkt.seg.mbuf)

/-- The mbufs that are attached for some fragments. -/
def attachments (pkts_out : List OutPkt) : List (Seg × ℕ) := pkts_out.flatMap OutPkt.attached

/-- All fragments are freed: everything is as it was. -/
theorem Lent.freeFragments {h₀ h : Held} {pkts_out : List OutPkt}
    (hl : Lent h₀ h (heads pkts_out) (attachments pkts_out)) :
    Restored h₀ (IpFrag.freeFragments h pkts_out) := by
  induction pkts_out generalizing h with
  | nil => exact hl.restored
  | cons p pkts_out ih => exact ih hl.free

/-- **The inner loop** lends what it attaches, even where it does not get to the
end of it. -/
theorem Lent.attachHeld {h₀ h : Held} {heads : List ℕ} {attached : List (Seg × ℕ)}
    (hl : Lent h₀ h heads attached) {remaining pos : ℕ} {segs : List Seg}
    (hlive : ∀ s ∈ segs, 1 ≤ h₀.refcnt (rteMbufFromIndirect s.mbuf)) :
    Lent h₀ (IpFrag.attachHeld rteMbufFromIndirect remaining pos segs h).2.2 heads
      ((IpFrag.attachHeld rteMbufFromIndirect remaining pos segs h).1 ++ attached) := by
  induction segs generalizing remaining pos h attached with
  | nil => exact hl
  | cons s rest ih =>
    rw [IpFrag.attachHeld]
    cases hpool : h.indirect with
    | nil => exact hl
    | cons id indirect =>
      have hs := hl.attach hpool (hlive s mem_cons_self)
        ((s.data.drop pos).take (min remaining (s.dataLen - pos)))
      simp only
      split_ifs
      · exact hs
      · have hrest := @ih _ _ hs (remaining - min remaining (s.dataLen - pos)) 0
          (fun t ht => hlive t (mem_cons_of_mem s ht))
        exact hrest.perm (List.Perm.refl _) perm_middle.symm
      · exact hs

/-- The inner loop takes no mbuf of the first pool. -/
theorem direct_attachHeld (remaining pos : ℕ) (segs : List Seg) (h : Held) :
    (attachHeld rteMbufFromIndirect remaining pos segs h).2.2.direct = h.direct := by
  induction segs generalizing remaining pos h with
  | nil => rfl
  | cons s rest ih =>
    rw [attachHeld]
    cases h.indirect with
    | nil => rfl
    | cons id indirect =>
      simp only
      split_ifs
      · rfl
      · exact ih _ _ _
      · rfl

/-- The segments that are left are some of those there were. -/
theorem attachHeld_subset {remaining pos : ℕ} {segs : List Seg} {h : Held} {r : List Seg × ℕ}
    (heq : (attachHeld rteMbufFromIndirect remaining pos segs h).2.1 = some r) :
    ∀ s ∈ r.1, s ∈ segs := by
  induction segs generalizing remaining pos h with
  | nil =>
    obtain rfl := Option.some.inj heq
    exact fun s hs => hs
  | cons s rest ih =>
    rw [attachHeld] at heq
    cases hpool : h.indirect with
    | nil =>
      rw [hpool] at heq
      simp at heq
    | cons id indirect =>
      rw [hpool] at heq
      simp only at heq
      split_ifs at heq
      · obtain rfl := Option.some.inj heq
        exact fun t ht => mem_cons_of_mem s ht
      · exact fun t ht => mem_cons_of_mem s (ih heq t ht)
      · obtain rfl := Option.some.inj heq
        exact fun t ht => ht

/-- The segments of the next state are those that are left. -/
theorem in_segs_next (st : Cutting) (out_pkt : Mbuf) (flag_offset : UInt16) (in_segs : List Seg)
    (pos : ℕ) : (st.next out_pkt flag_offset in_segs pos).in_segs = in_segs := by
  rw [Cutting.next]
  split <;> rfl

/-- The outer loop returns all that it took, if it fails. -/
theorem Lent.cutHeld {frag_size : ℕ} {flag_offset : UInt16} {direct : List ℕ}
    {pkts_out : List OutPkt} {h₀ h : Held} {st : Cutting}
    (hl : Lent h₀ { h with direct := direct } (heads pkts_out) (attachments pkts_out))
    (hlive : ∀ s ∈ st.in_segs, 1 ≤ h₀.refcnt (rteMbufFromIndirect s.mbuf)) {e : FragError}
    {h' : Held}
    (hcut : IpFrag.cutHeld rteMbufFromIndirect frag_size flag_offset direct pkts_out h st =
      (.error e, h')) : Restored h₀ h' := by
  induction direct generalizing pkts_out h st with
  | nil =>
    rw [IpFrag.cutHeld] at hcut
    split_ifs at hcut
    · simp at hcut
    · obtain ⟨-, rfl⟩ := Prod.mk.inj hcut
      exact hl.freeFragments
  | cons mbuf direct ih =>
    rw [IpFrag.cutHeld] at hcut
    split_ifs at hcut
    · simp at hcut
    · -- the first mbuf of the fragment is taken
      have hhead : Lent h₀ { h with direct := direct } (mbuf :: heads pkts_out)
          (attachments pkts_out) :=
        ⟨perm_middle.symm.trans hl.direct, hl.indirect, hl.refcnt, hl.released, hl.live⟩
      have hattach := @Lent.attachHeld _ _ _ _ _ hhead frag_size st.in_seg_data_pos _ hlive
      simp only at hcut
      split at hcut
      · rename_i out h' heq
        rw [heq] at hattach
        obtain ⟨-, rfl⟩ := Prod.mk.inj hcut
        exact hattach.free.freeFragments
      · rename_i out in_segs pos h' heq
        have hdirect : h'.direct = direct := by
          have hsame := @direct_attachHeld rteMbufFromIndirect frag_size
            st.in_seg_data_pos st.in_segs { h with direct := direct }
          rwa [heq] at hsame
        have hsegs := @attachHeld_subset _ _ _ _ _ (in_segs, pos) (congrArg (fun r => r.2.1) heq)
        rw [heq] at hattach
        refine @ih (pkts_out ++ [⟨_, out⟩]) _ _ ?_ ?_ hcut
        · rw [show { h' with direct := direct } = h' by rw [← hdirect]]
          refine hattach.perm ?_ ?_
          · rw [heads, map_append]
            exact perm_append_singleton _ _
          · rw [attachments, flatMap_append, flatMap_singleton]
            exact perm_append_comm
        · intro s hs
          rw [in_segs_next] at hs
          exact hlive s (hsegs s hs)

/-- What fragmentation took is given back, if it fails. -/
theorem rteIpv4FragmentPacketHeld_restored {pkt_in : Mbuf} {nb_pkts_out mtu_size : ℕ} {h : Held}
    (hlive : ∀ s ∈ pkt_in.segs, 1 ≤ h.refcnt (rteMbufFromIndirect s.mbuf)) {e : FragError}
    {h' : Held}
    (hcall : rteIpv4FragmentPacketHeld rteMbufFromIndirect pkt_in nb_pkts_out mtu_size h =
      (.error e, h')) : Restored h h' := by
  rw [rteIpv4FragmentPacketHeld] at hcall
  simp only at hcall
  have hrefl := (Lent.refl h).restored
  split_ifs at hcall
  · exact (Prod.mk.inj hcall).2 ▸ hrefl
  · exact (Prod.mk.inj hcall).2 ▸ hrefl
  · exact (Prod.mk.inj hcall).2 ▸ hrefl
  · exact (Prod.mk.inj hcall).2 ▸ hrefl
  · exact (Prod.mk.inj hcall).2 ▸ hrefl
  · exact Lent.cutHeld (Lent.refl h) hlive hcall

end IpFrag
