import DpdkStudy.IpFrag.Partition

/-!
# Fragmentation by copy

The bytes of a fragment can be copied into one mbuf instead of being attached to
it. The loops are the same, and so are the headers and the number of fragments;
but the room in an mbuf is compared with the payload of a fragment only, and the
header is put in front of it: what does not fit is written behind the end of the
buffer.
-/

open List

namespace IpFrag

open Function Mbuf

/-- **The inner loop of `rte_ipv4_fragment_copy_nonseg_packet`**: the bytes that are
copied, and what is left of the segments. -/
def copySegs : ℕ → ℕ → List Seg → List UInt8 × List Seg × ℕ
  | _, _, [] => ([], [], 0)
  | remaining, pos, s :: rest =>
    let len := min remaining (s.dataLen - pos)
    let copied := (s.data.drop pos).take len
    -- current input segment done
    if pos + len = s.dataLen then
      -- current fragment done
      if remaining - len = 0 then (copied, rest, 0)
      else
        let r := copySegs (remaining - len) 0 rest
        (copied ++ r.1, r.2)
    else (copied, s :: rest, pos + len)

/-- **One fragment**: an mbuf with a header and a copy of some bytes. What is behind
the end of the buffer is not in the mbuf. -/
def copyOf (st : Cutting) (tailroom mbuf : ℕ) (copied : List UInt8) (flag_offset : UInt16)
    (more : Bool) : Mbuf :=
  let data_len := (st.header_len + copied.length) % 2 ^ 16
  { ip := fillIpv4hdrFrag st.in_hdr data_len flag_offset st.fragment_offset more
    l2_len := 0
    l3_len := st.header_len
    pkt_len := data_len
    nb_segs := 1
    seg := ⟨mbuf, (List.replicate st.header_len 0 ++ copied).take tailroom⟩
    next := [] }

/-- **The outer loop of `rte_ipv4_fragment_copy_nonseg_packet`**, over the mbufs of a
pool that have some room each. -/
def copyCut (frag_size : ℕ) (flag_offset : UInt16) (tailroom : ℕ) : List ℕ → Cutting →
    Except FragError (List Mbuf)
  | direct, st =>
    if st.in_segs = [] then .ok []
    else
      match direct with
      | [] => .error .enomem
      | mbuf :: direct =>
        if tailroom < frag_size then .error .einval
        else
          let r := copySegs frag_size st.in_seg_data_pos st.in_segs
          let out_pkt := copyOf st tailroom mbuf r.1 flag_offset (r.2.1 ≠ [])
          (copyCut frag_size flag_offset tailroom direct
              (st.next out_pkt flag_offset r.2.1 r.2.2)).map
            (fun pkts => out_pkt :: pkts)

/-- **`rte_ipv4_fragment_copy_nonseg_packet`**, with the mbufs of a pool and the room
in each of them. -/
def rteIpv4FragmentCopyNonsegPacket (pkt_in : Mbuf) (nb_pkts_out mtu_size tailroom : ℕ)
    (pool_direct : List ℕ) : Except FragError (List Mbuf) :=
  let in_hdr := pkt_in.ip
  let header_len := in_hdr.headerLen
  if nb_pkts_out = 0 ∨ mtu_size < etherMinMtu then .error .einval
  else if pkt_in.seg.dataLen < header_len ∨ mtu_size < header_len then .error .einval
  else
    let frag_size := (mtu_size - header_len) / hdrOffsetUnits * hdrOffsetUnits
    let flag_offset := in_hdr.fragment_offset
    if flag_offset &&& hdrDfFlag ≠ 0 then .error .enotsup
    else if frag_size * nb_pkts_out < (pkt_in.pkt_len + 2 ^ 32 - header_len) % 2 ^ 16 then
      .error .einval
    else if header_len < ipv4HdrSize ∨ hdrOptMaxLen < header_len - ipv4HdrSize then .error .einval
    else
      copyCut frag_size flag_offset tailroom pool_direct
        { in_segs := pkt_in.segs
          in_seg_data_pos := header_len
          fragment_offset := 0
          in_hdr := in_hdr
          header_len := header_len
          ipopt_len := header_len - ipv4HdrSize }

/-! ## One step -/

/-- The same bytes are copied as would be attached. -/
theorem copySegs_eq {remaining pos : ℕ} {segs : List Seg} {pool : List ℕ} {out segs' : List Seg}
    {pos' : ℕ} {pool' : List ℕ}
    (h : attachSegs remaining pos segs pool = some (out, segs', pos', pool')) :
    copySegs remaining pos segs = (out.flatMap Seg.data, segs', pos') := by
  induction segs generalizing remaining pos pool out with
  | nil =>
    simp only [attachSegs, Option.some.injEq, Prod.mk.injEq] at h
    obtain ⟨rfl, rfl, rfl, rfl⟩ := h
    rfl
  | cons s rest ih =>
    cases pool with
    | nil => simp [attachSegs] at h
    | cons id pool =>
      simp only [attachSegs] at h
      rw [copySegs]
      split_ifs at h with hseg hdone
      · simp only [Option.some.injEq, Prod.mk.injEq] at h
        obtain ⟨rfl, rfl, rfl, rfl⟩ := h
        simp only [if_pos hseg, if_pos hdone, flatMap_singleton]
      · obtain ⟨⟨out', r⟩, hrec, heq⟩ := Option.map_eq_some_iff.mp h
        simp only [Prod.mk.injEq] at heq
        obtain ⟨rfl, rfl⟩ := heq
        simp only [if_pos hseg, if_neg hdone, ih hrec, flatMap_cons]
      · simp only [Option.some.injEq, Prod.mk.injEq] at h
        obtain ⟨rfl, rfl, rfl, rfl⟩ := h
        simp only [if_neg hseg, flatMap_singleton]

variable {frag_size mtu_size tailroom dofs : ℕ} {flag_offset : UInt16} {st : Cutting}

/-- The outer loop takes a step, or there are no more segments. -/
theorem copyCut_step {direct : List ℕ} {frags : List Mbuf}
    (h : copyCut frag_size flag_offset tailroom direct st = .ok frags) {copied : List UInt8}
    {in_segs : List Seg} {pos : ℕ}
    (hcopy : copySegs frag_size st.in_seg_data_pos st.in_segs = (copied, in_segs, pos)) :
    st.in_segs = [] ∧ frags = [] ∨
      st.in_segs ≠ [] ∧ ∃ mbuf direct' fs,
        frags = copyOf st tailroom mbuf copied flag_offset (in_segs ≠ []) :: fs ∧
        copyCut frag_size flag_offset tailroom direct' (st.next
          (copyOf st tailroom mbuf copied flag_offset (in_segs ≠ [])) flag_offset in_segs pos) =
            .ok fs := by
  rw [copyCut.eq_def] at h
  simp only at h
  by_cases hnil : st.in_segs = []
  · rw [if_pos hnil] at h
    exact Or.inl ⟨hnil, (Except.ok.inj h).symm⟩
  rw [if_neg hnil] at h
  refine Or.inr ⟨hnil, ?_⟩
  cases direct with
  | nil => simp at h
  | cons mbuf direct =>
    simp only [hcopy] at h
    split_ifs at h
    cases hrec : copyCut frag_size flag_offset tailroom direct (st.next
        (copyOf st tailroom mbuf copied flag_offset (decide (in_segs ≠ []))) flag_offset in_segs
          pos) with
    | error e => rw [hrec] at h; simp [Except.map] at h
    | ok fs =>
      rw [hrec] at h
      exact ⟨mbuf, direct, fs, (Except.ok.inj h).symm, hrec⟩

/-- Only the length of a fragment matters for the next state. -/
theorem next_congr {p q : Mbuf} (hpkt : p.pkt_len = q.pkt_len) (in_segs : List Seg) (pos : ℕ) :
    st.next p flag_offset in_segs pos = st.next q flag_offset in_segs pos := by
  rw [Cutting.next, Cutting.next, hpkt]

/-- **A fragment is copied**: its header and its lengths are the same, and its bytes
as far as there is room. -/
structure Copied (tailroom : ℕ) (f g : Mbuf) : Prop where
  ip : g.ip = f.ip
  pkt_len : g.pkt_len = f.pkt_len
  l3_len : g.l3_len = f.l3_len
  bytes : g.bytes = f.bytes.take tailroom

/-- The bytes of a fragment are those of its header and those that are attached. -/
theorem bytes_fragmentOf (st : Cutting) (mbuf : ℕ) (out : List Seg) (flag_offset : UInt16)
    (more : Bool) : (fragmentOf st mbuf out flag_offset more).bytes =
      replicate st.header_len 0 ++ out.flatMap Seg.data := rfl

theorem copied_copyOf (st : Cutting) (tailroom mbuf mbuf' : ℕ) (out : List Seg)
    (flag_offset : UInt16) (more : Bool) :
    Copied tailroom (fragmentOf st mbuf out flag_offset more)
      (copyOf st tailroom mbuf' (out.flatMap Seg.data) flag_offset more) where
  ip := rfl
  pkt_len := rfl
  l3_len := rfl
  bytes := by
    rw [bytes_fragmentOf, Mbuf.bytes, Mbuf.segs]
    simp [copyOf]

/-! ## All fragments -/

/-- Every fragment is copied, and there are no more of them. -/
theorem cut_copied {direct indirect pool : List ℕ} {frags copies : List Mbuf}
    (h : cut frag_size flag_offset direct indirect st = .ok frags)
    (hcopy : copyCut frag_size flag_offset tailroom pool st = .ok copies) :
    List.Forall₂ (Copied tailroom) frags copies := by
  induction frags generalizing direct indirect pool copies st with
  | nil =>
    have hnil := (cut_eq_nil_iff h).mp rfl
    obtain ⟨-, rfl⟩ | ⟨hne, -⟩ := copyCut_step hcopy rfl
    · exact List.Forall₂.nil
    · exact absurd hnil hne
  | cons f fs ih =>
    obtain ⟨-, h0⟩ | ⟨hne, mbuf, direct', indirect', out, in_segs, pos, fs', hattach, heq, hrec⟩ :=
      cut_step h
    · exact absurd h0 (cons_ne_nil _ _)
    obtain ⟨hf, rfl⟩ := cons.inj heq
    obtain ⟨h0, -⟩ | ⟨-, mbuf', pool', gs, rfl, hrec'⟩ := copyCut_step hcopy (copySegs_eq hattach)
    · exact absurd h0 hne
    have hcopied := copied_copyOf st tailroom mbuf mbuf' out flag_offset (decide (in_segs ≠ []))
    rw [next_congr hcopied.pkt_len] at hrec'
    rw [hf]
    exact List.Forall₂.cons hcopied (ih hrec hrec')

/-- **The first fragment is the longest**: it has the longest header, and as many
bytes as there are for it. -/
theorem cut_first (hmtu : mtu_size < 2 ^ 16) (hpos : 0 < frag_size) {direct indirect : List ℕ}
    (hin : st.Apt frag_size mtu_size dofs) {f : Mbuf} {fs : List Mbuf}
    (h : cut frag_size flag_offset direct indirect st = .ok (f :: fs)) :
    f.bytes.length =
        st.header_len + min frag_size (restBytes st.in_seg_data_pos st.in_segs).length ∧
      ∀ g ∈ fs, g.bytes.length ≤ f.bytes.length := by
  have hheader := hin.header
  obtain ⟨-, h0⟩ | ⟨-, mbuf, direct', indirect', out, in_segs, pos, fs', hattach, heq, hrec⟩ :=
    cut_step h
  · exact absurd h0 (cons_ne_nil _ _)
  obtain ⟨hf, rfl⟩ := cons.inj heq
  obtain ⟨hbytes, hle, hfull, -, hend, -⟩ := attachSegs_spec hattach hin.pos hin.nil hpos
  have hlen : f.bytes.length = st.header_len + (out.flatMap Seg.data).length := by
    rw [hf, bytes_fragmentOf, length_append, length_replicate]
  have hsplit := congrArg length hbytes
  rw [length_append] at hsplit
  constructor
  · by_cases hsegs : in_segs = []
    · rw [hsegs, hend hsegs, restBytes, flatMap_nil, drop_nil, length_nil] at hsplit
      omega
    · have := hfull hsegs
      omega
  · intro g hg
    -- there are more fragments, and the first one is full
    have hin' : st.Apt frag_size (st.header_len + frag_size) dofs := { hin with header := le_refl _ }
    obtain ⟨-, hall⟩ := cut_portions (lt_of_le_of_lt hheader hmtu) hpos hin' h
    have hsegs : in_segs ≠ [] := by
      intro h0
      have hnil := (cut_eq_nil_iff hrec).mpr (by rw [in_segs_next, h0])
      rw [hnil] at hg
      exact absurd hg not_mem_nil
    obtain ⟨k, hk⟩ := getElem?_of_mem (mem_cons_of_mem f hg)
    rw [hlen, hfull hsegs]
    exact (hall k g hk).le

/-! ## A packet -/

/-- **Two fragments are the same**: their headers, their bytes, and their lengths. -/
structure Same (f g : Mbuf) : Prop where
  ip : g.ip = f.ip
  bytes : g.bytes = f.bytes
  pkt_len : g.pkt_len = f.pkt_len
  l3_len : g.l3_len = f.l3_len

theorem Copied.same_iff {f g : Mbuf} (h : Copied tailroom f g) :
    Same f g ↔ f.bytes.length ≤ tailroom := by
  constructor
  · intro hsame
    have hbytes := h.bytes
    rw [hsame.bytes] at hbytes
    exact take_eq_self_iff _ |>.mp hbytes.symm
  · intro hle
    exact ⟨h.ip, by rw [h.bytes, take_of_length_le hle], h.pkt_len, h.l3_len⟩

/-- All copies are the same if there is room for each. -/
theorem forall₂_same_iff {frags copies : List Mbuf}
    (h : List.Forall₂ (Copied tailroom) frags copies) :
    List.Forall₂ Same frags copies ↔ ∀ f ∈ frags, f.bytes.length ≤ tailroom := by
  induction h with
  | nil => simp
  | cons hfg _ ih => rw [forall₂_cons, forall_mem_cons, hfg.same_iff, ih]

/-- A packet that is copied goes through the loop from its start. -/
theorem rteIpv4FragmentCopyNonsegPacket_cut {pkt : Mbuf} {nb_pkts_out mtu_size tailroom : ℕ}
    {pool_direct : List ℕ} {copies : List Mbuf}
    (h : rteIpv4FragmentCopyNonsegPacket pkt nb_pkts_out mtu_size tailroom pool_direct =
      .ok copies) :
    copyCut (pkt.fragSize mtu_size) pkt.ip.fragment_offset tailroom pool_direct pkt.cutting =
      .ok copies := by
  rw [rteIpv4FragmentCopyNonsegPacket] at h
  simp only at h
  split_ifs at h
  exact h

/-- **Copying and attaching agree** on the number of fragments, and on the fragments
exactly if the first of these has room in an mbuf, with its header. -/
theorem copies_agree (pkt : Mbuf) (mtu_size : UInt16) (nb_pkts_out nb_pkts_out' tailroom : ℕ)
    (pool_direct pool_indirect pool : List ℕ) (frags copies : List Mbuf)
    (hoptions : pkt.ip.options.length = pkt.ip.headerLen - ipv4HdrSize)
    (hfrags : rteIpv4FragmentPacket pkt nb_pkts_out mtu_size.toNat pool_direct pool_indirect =
      .ok frags)
    (hcopies : rteIpv4FragmentCopyNonsegPacket pkt nb_pkts_out' mtu_size.toNat tailroom pool =
      .ok copies) :
    copies.length = frags.length ∧
      (List.Forall₂ Same frags copies ↔
        pkt.ip.headerLen + min (pkt.fragSize mtu_size.toNat) pkt.datagram.length ≤ tailroom) := by
  obtain ⟨hcut, hin, hpos⟩ := rteIpv4FragmentPacket_apt hoptions hfrags
  have hcopied := cut_copied hcut (rteIpv4FragmentCopyNonsegPacket_cut hcopies)
  refine ⟨hcopied.length_eq.symm, ?_⟩
  rw [forall₂_same_iff hcopied]
  cases frags with
  | nil => exact absurd ((cut_eq_nil_iff hcut).mp rfl) (cons_ne_nil _ _)
  | cons f fs =>
    obtain ⟨hfirst, hrest⟩ := cut_first mtu_size.toNat_lt hpos hin hcut
    rw [forall_mem_cons, show pkt.ip.headerLen + min (pkt.fragSize mtu_size.toNat)
      pkt.datagram.length = f.bytes.length from hfirst.symm]
    exact ⟨fun h => h.1, fun h => ⟨h, fun g hg => le_trans (hrest g hg) h⟩⟩

theorem map_bytes_eq {frags copies : List Mbuf} (h : List.Forall₂ Same frags copies) :
    copies.map Mbuf.bytes = frags.map Mbuf.bytes := by
  induction h with
  | nil => rfl
  | cons hfg _ ih => rw [map_cons, map_cons, hfg.bytes, ih]

/-- The copies of the fragments of a packet, in mbufs with some room. -/
def copiesOf (pkt : Mbuf) (nb_pkts_out mtu_size tailroom : ℕ) : List Mbuf :=
  (rteIpv4FragmentCopyNonsegPacket pkt nb_pkts_out mtu_size tailroom [10, 11]).toOption.getD []

/-- Two fragments are copied into mbufs that have room for sixty-eight bytes. -/
theorem copies_agree_two :
    List.Forall₂ Same (fragmentsOf (packetOf 72 0) 2 68) (copiesOf (packetOf 72 0) 2 68 68) := by
  have hfrags : rteIpv4FragmentPacket (packetOf 72 0) 2 68 [10, 11] [20, 21] =
      .ok (fragmentsOf (packetOf 72 0) 2 68) := by decide +kernel
  have hcopies : rteIpv4FragmentCopyNonsegPacket (packetOf 72 0) 2 68 68 [10, 11] =
      .ok (copiesOf (packetOf 72 0) 2 68 68) := by decide +kernel
  exact (copies_agree (packetOf 72 0) 68 2 2 68 [10, 11] [20, 21] [10, 11] _ _ rfl hfrags
    hcopies).2.mpr (by decide +kernel)

/-- **The header is forgotten**: a fragment of sixty-eight bytes is written into an
mbuf that has room for forty-eight. -/
theorem copies_agree_fails :
    ∃ frags copies, (packetOf 48 0).Valid ∧
      rteIpv4FragmentPacket (packetOf 48 0) 1 68 [10, 11] [20, 21] = .ok frags ∧
      rteIpv4FragmentCopyNonsegPacket (packetOf 48 0) 1 68 48 [10, 11] = .ok copies ∧
      ¬ List.Forall₂ Same frags copies := by
  refine ⟨fragmentsOf (packetOf 48 0) 1 68, copiesOf (packetOf 48 0) 1 68 48,
    ⟨rfl, by decide, rfl, by decide +kernel⟩, by decide +kernel, by decide +kernel, fun hall => ?_⟩
  exact absurd (map_bytes_eq hall) (by decide +kernel)

end IpFrag
