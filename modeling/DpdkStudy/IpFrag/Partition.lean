import DpdkStudy.IpFrag.Holding

/-!
# The fragments partition the payload

Every packet is cut into pieces of its payload, whatever its length, its flags
and the offset it has itself: all but the last are as long as a fragment may be
(`cut_portions`). How many there are depends on the length of the payload and on
whether the last segment is empty (`pieceCount`); the capacity of the array of
the caller is compared with 16 bits of the length only.
-/

open List Nat

namespace IpFrag

open Function Mbuf

/-! ## One fragment -/

/-- **A fragment that starts so many bytes behind the first one**: its header is
one that is filled in for these, it is as long as it says, and not longer than
the link allows. -/
structure Portion (flag_offset : UInt16) (frag_size mtu_size dofs : ℕ) (more : Bool) (f : Mbuf) :
    Prop where
  header : ∃ src len, f.ip = fillIpv4hdrFrag src len flag_offset (dofs % 2 ^ 16) more
  pkt_len : f.pkt_len = f.bytes.length
  le : f.bytes.length ≤ mtu_size
  full : more = true → f.payload.length = frag_size

/-- **The outer loop can go on** so many bytes behind the start of the payload. -/
structure Cutting.Apt (st : Cutting) (frag_size mtu_size dofs : ℕ) : Prop where
  pos : ∀ s rest, st.in_segs = s :: rest → st.in_seg_data_pos ≤ s.dataLen
  nil : st.in_segs = [] → st.in_seg_data_pos = 0
  offset : st.fragment_offset = dofs % 2 ^ 16
  header : st.header_len + frag_size ≤ mtu_size
  header_len : st.header_len = ipv4HdrSize + st.in_hdr.options.length
  options : ihlMultiplier ∣ st.in_hdr.options.length

variable {frag_size mtu_size dofs : ℕ} {flag_offset : UInt16} {st : Cutting}

/-- The next state has the segments that are left, and is apt for them. -/
theorem Cutting.Apt.next (hin : st.Apt frag_size mtu_size dofs) {out_pkt : Mbuf} {bytes : ℕ}
    (hpkt : out_pkt.pkt_len = st.header_len + bytes) {in_segs : List Seg} {pos : ℕ}
    (hsegs : ∀ s rest, in_segs = s :: rest → pos ≤ s.dataLen) (hnil : in_segs = [] → pos = 0) :
    (st.next out_pkt flag_offset in_segs pos).Apt frag_size mtu_size (dofs + bytes) ∧
      (st.next out_pkt flag_offset in_segs pos).in_segs = in_segs ∧
      (st.next out_pkt flag_offset in_segs pos).in_seg_data_pos = pos := by
  have hofs : (st.fragment_offset + (out_pkt.pkt_len - st.header_len)) % 2 ^ 16 =
      (dofs + bytes) % 2 ^ 16 := by
    rw [hpkt, Nat.add_sub_cancel_left, hin.offset, Nat.mod_add_mod]
  obtain ⟨hle, hoptions⟩ := createIpoptFragHdr_spec st.in_hdr hin.options
  have hlen := hin.header_len
  have hheader := hin.header
  rw [Cutting.next]
  split
  · exact ⟨⟨hsegs, hnil, hofs, by simp only; omega, rfl, hoptions⟩, rfl, rfl⟩
  · exact ⟨⟨hsegs, hnil, hofs, hheader, hlen, hin.options⟩, rfl, rfl⟩

theorem Cutting.Apt.portion (hin : st.Apt frag_size mtu_size dofs) (hmtu : mtu_size < 2 ^ 16)
    (mbuf : ℕ) {out : List Seg} (more : Bool)
    (hle : (out.flatMap Seg.data).length ≤ frag_size)
    (hfull : more = true → (out.flatMap Seg.data).length = frag_size) :
    Portion flag_offset frag_size mtu_size dofs more (fragmentOf st mbuf out flag_offset more) ∧
      (fragmentOf st mbuf out flag_offset more).payload = out.flatMap Seg.data ∧
      (fragmentOf st mbuf out flag_offset more).pkt_len =
        st.header_len + (out.flatMap Seg.data).length := by
  have hheader := hin.header
  have hpayload := payload_fragmentOf st mbuf out flag_offset more
  have hbytes : (fragmentOf st mbuf out flag_offset more).bytes.length =
      st.header_len + (out.flatMap Seg.data).length := by
    show (replicate st.header_len 0 ++ out.flatMap Seg.data).length = _
    rw [length_append, length_replicate]
  have hpkt : (fragmentOf st mbuf out flag_offset more).pkt_len =
      st.header_len + (out.flatMap Seg.data).length := mod_eq_of_lt (by omega)
  have hip : (fragmentOf st mbuf out flag_offset more).ip = fillIpv4hdrFrag st.in_hdr
      (fragmentOf st mbuf out flag_offset more).pkt_len flag_offset (dofs % 2 ^ 16) more := by
    rw [← hin.offset]
    rfl
  exact ⟨⟨⟨_, _, hip⟩, by rw [hpkt, hbytes], by omega, fun h => by rw [hpayload, hfull h]⟩,
    hpayload, hpkt⟩

/-- One step of the outer loop makes a fragment of the bytes in front. -/
theorem Cutting.Apt.step (hin : st.Apt frag_size mtu_size dofs) (hmtu : mtu_size < 2 ^ 16)
    (hpos : 0 < frag_size) (mbuf : ℕ) {indirect indirect' : List ℕ} {out in_segs : List Seg}
    {pos : ℕ}
    (hattach : attachSegs frag_size st.in_seg_data_pos st.in_segs indirect =
      some (out, in_segs, pos, indirect')) {f : Mbuf}
    (hf : f = fragmentOf st mbuf out flag_offset (in_segs ≠ [])) :
    Portion flag_offset frag_size mtu_size dofs (decide (in_segs ≠ [])) f ∧
      f.payload = out.flatMap Seg.data ∧
      f.payload ++ restBytes pos in_segs = restBytes st.in_seg_data_pos st.in_segs ∧
      (st.next f flag_offset in_segs pos).Apt frag_size mtu_size (dofs + f.payload.length) ∧
      (st.next f flag_offset in_segs pos).in_segs = in_segs ∧
      (st.next f flag_offset in_segs pos).in_seg_data_pos = pos := by
  subst hf
  obtain ⟨hbytes, hle, hfull, hnext, hend, -⟩ := attachSegs_spec hattach hin.pos hin.nil hpos
  obtain ⟨hportion, hpayload, hpkt⟩ := hin.portion hmtu mbuf
    (decide (in_segs ≠ [])) hle (fun hmore => hfull (by simpa using hmore))
  refine ⟨hportion, hpayload, by rw [hpayload, hbytes], ?_⟩
  rw [hpayload]
  refine hin.next hpkt (fun s rest heq => ?_) hend
  rcases hnext s rest heq with h | h <;> omega

/-! ## All fragments -/

/-- The fragments are pieces of what is left, one behind the other. -/
theorem cut_portions (hmtu : mtu_size < 2 ^ 16) (hpos : 0 < frag_size) {direct indirect : List ℕ}
    (hin : st.Apt frag_size mtu_size dofs) {frags : List Mbuf}
    (h : cut frag_size flag_offset direct indirect st = .ok frags) :
    frags.flatMap payload = restBytes st.in_seg_data_pos st.in_segs ∧
      ∀ k f, frags[k]? = some f → Portion flag_offset frag_size mtu_size (dofs + k * frag_size)
        (decide (k + 1 < frags.length)) f := by
  induction frags generalizing direct indirect st dofs with
  | nil =>
    have hnil := (cut_eq_nil_iff h).mp rfl
    rw [hnil, hin.nil hnil]
    exact ⟨rfl, fun k f hk => by simp at hk⟩
  | cons f fs ih =>
    obtain ⟨-, h0⟩ | ⟨-, mbuf, direct', indirect', out, in_segs, pos, fs', hattach, heq, hrec⟩ :=
      cut_step h
    · exact absurd h0 (cons_ne_nil _ _)
    obtain ⟨hf, rfl⟩ := cons.inj heq
    rw [← hf] at hrec
    obtain ⟨hportion, -, hbytes, hin', hsegs, hpos'⟩ := hin.step hmtu hpos mbuf hattach hf
    have hmore : decide (in_segs ≠ []) = decide (0 + 1 < (f :: fs).length) := by
      have hfs := cut_eq_nil_iff hrec
      rw [hsegs] at hfs
      rw [decide_eq_decide, ne_eq, ← hfs, length_cons, add_lt_add_iff_right,
        length_pos_iff]
    obtain ⟨hpayload, hall⟩ := ih hin' hrec
    rw [hsegs, hpos'] at hpayload
    refine ⟨by rw [flatMap_cons, hpayload, hbytes], fun k g hk => ?_⟩
    cases k with
    | zero =>
      obtain rfl := Option.some.inj hk
      rw [zero_mul, add_zero, ← hmore]
      exact hportion
    | succ k =>
      rw [getElem?_cons_succ] at hk
      have hlt := (List.getElem?_eq_some_iff.mp hk).1
      -- there are more fragments, and the first one is full
      have hfull : f.payload.length = frag_size := by
        refine hportion.full ?_
        rw [hmore, decide_eq_true_iff, length_cons]
        omega
      have hg := hall k g hk
      rw [hfull, add_assoc, add_comm frag_size, ← succ_mul] at hg
      simpa using hg

/-- **How many fragments there are** of so many bytes: an empty segment at the end
is put in a fragment of its own, if the one before is full. -/
def pieceCount (frag_size bytes : ℕ) (empty : Bool) : ℕ :=
  (if empty then bytes else bytes - 1) / frag_size + 1

/-- The last of some segments is empty. -/
def lastEmpty (segs : List Seg) : Bool := segs.getLast?.any (fun s => s.dataLen = 0)

/-- **The number of fragments** depends on what is left, and on the last segment. -/
theorem cut_length (hmtu : mtu_size < 2 ^ 16) (hpos : 0 < frag_size) {direct indirect : List ℕ}
    (hin : st.Apt frag_size mtu_size dofs) (hne : st.in_segs ≠ []) {frags : List Mbuf}
    (h : cut frag_size flag_offset direct indirect st = .ok frags) :
    frags.length = pieceCount frag_size (restBytes st.in_seg_data_pos st.in_segs).length
      (lastEmpty st.in_segs) := by
  induction frags generalizing direct indirect st dofs with
  | nil => exact absurd ((cut_eq_nil_iff h).mp rfl) hne
  | cons f fs ih =>
    obtain ⟨h0, -⟩ | ⟨-, mbuf, direct', indirect', out, in_segs, pos, fs', hattach, heq, hrec⟩ :=
      cut_step h
    · exact absurd h0 hne
    obtain ⟨hf, rfl⟩ := cons.inj heq
    rw [← hf] at hrec
    obtain ⟨hportion, hpayload, hbytes, hin', hsegs, hpos'⟩ := hin.step hmtu hpos mbuf hattach hf
    obtain ⟨-, hle, -, hnext, hend, pre, hpre⟩ := attachSegs_spec hattach hin.pos hin.nil hpos
    rw [← hbytes, length_append, length_cons]
    by_cases hlast : in_segs = []
    · have hfs := (cut_eq_nil_iff hrec).mpr (by rw [hsegs, hlast])
      rw [hfs, hlast, hend hlast, pieceCount, hpayload]
      have hzero : (if lastEmpty st.in_segs then (out.flatMap Seg.data).length
          else (out.flatMap Seg.data).length - 1) / frag_size = 0 := by
        refine div_eq_of_lt ?_
        split
        · rename_i hempty
          obtain ⟨s, hs, hzero⟩ := (Option.any_eq_true _ _).mp hempty
          rw [hlast] at hattach
          exact attachSegs_lt hattach hpos hs (by simpa using hzero)
        · omega
      simpa [restBytes] using hzero
    · have hsame : lastEmpty in_segs = lastEmpty st.in_segs := by
        rw [← hpre, lastEmpty, lastEmpty, getLast?_append,
          getLast?_eq_some_getLast hlast]
        rfl
      have hfull := hportion.full (by simpa using hlast)
      have hrest := ih hin' (by rwa [hsegs]) hrec
      rw [hsegs, hpos', hsame] at hrest
      rw [hrest, hfull, pieceCount, pieceCount]
      cases hempty : lastEmpty st.in_segs with
      | true => rw [if_pos rfl, if_pos rfl, add_div_left _ hpos]
      | false =>
        -- some bytes are left, since the last segment has some
        have hleft : restBytes pos in_segs ≠ [] := by
          refine restBytes_ne_nil hlast hnext (fun s hs => ?_)
          rw [← hsame, lastEmpty, hs] at hempty
          simpa [pos_iff_ne_zero] using hempty
        have hlen := length_pos_of_ne_nil hleft
        rw [if_neg Bool.false_ne_true, if_neg Bool.false_ne_true, Nat.add_sub_assoc hlen,
          add_div_left _ hpos]

/-! ## A packet -/

/-- **The number of fragments of a packet**, on a link of some size. -/
def Mbuf.fragCount (pkt : Mbuf) (mtu_size : ℕ) : ℕ :=
  pieceCount (pkt.fragSize mtu_size) pkt.datagram.length (lastEmpty pkt.segs)

/-- **There is room for the fragments of a packet** in the array of the caller, and
for the offset of the last one in its header. -/
structure RoomFor (pkt : Mbuf) (nb_pkts_out mtu_size : ℕ) : Prop where
  capacity : pkt.fragCount mtu_size ≤ nb_pkts_out
  offset : pkt.ip.ofs + (pkt.fragCount mtu_size - 1) * pkt.fragSize mtu_size < 2 ^ 16

/-- **The fragments partition the payload**, within the array of the caller: they
are as long as they say and the link allows, all but the last have whole units,
each one is where its offset says, and all but the last have more behind them. -/
structure ExactPartition (pkt : Mbuf) (nb_pkts_out mtu_size : ℕ) (frags : List Mbuf) : Prop where
  capacity : frags.length ≤ nb_pkts_out
  payload : frags.flatMap payload = pkt.datagram
  le : ∀ f ∈ frags, f.pkt_len = f.bytes.length ∧ f.bytes.length ≤ mtu_size
  units : ∀ k f, frags[k]? = some f → k + 1 < frags.length → hdrOffsetUnits ∣ f.payload.length
  offset : ∀ k f, frags[k]? = some f →
    f.ip.ofs = pkt.ip.ofs + ((frags.take k).flatMap Mbuf.payload).length
  more : ∀ k f, frags[k]? = some f →
    f.ip.moreFrags = (decide (k + 1 < frags.length) || pkt.ip.moreFrags)

/-- **A packet that is cut** may be, and the outer loop can go on from its start. -/
theorem rteIpv4FragmentPacket_apt {pkt : Mbuf}
    (hoptions : pkt.ip.options.length = pkt.ip.headerLen - ipv4HdrSize) {nb_pkts_out mtu_size : ℕ}
    {pool_direct pool_indirect : List ℕ} {frags : List Mbuf}
    (h : rteIpv4FragmentPacket pkt nb_pkts_out mtu_size pool_direct pool_indirect = .ok frags) :
    cut (pkt.fragSize mtu_size) pkt.ip.fragment_offset pool_direct pool_indirect pkt.cutting =
        .ok frags ∧
      pkt.cutting.Apt (pkt.fragSize mtu_size) mtu_size 0 ∧ 0 < pkt.fragSize mtu_size := by
  rw [rteIpv4FragmentPacket] at h
  simp only at h
  split_ifs at h with hmtu hheader hdf hroom hlen
  simp only [not_or, not_lt] at hmtu hheader hlen
  have hsize : pkt.fragSize mtu_size ≤ mtu_size - pkt.ip.headerLen := div_mul_le_self _ _
  refine ⟨h, ⟨fun s rest heq => ?_, fun heq => absurd heq (cons_ne_nil _ _), rfl, ?_, ?_, ?_⟩,
    ?_⟩
  · obtain ⟨rfl, -⟩ := cons.inj heq
    exact hheader.1
  · show pkt.ip.headerLen + pkt.fragSize mtu_size ≤ mtu_size
    omega
  · show pkt.ip.headerLen = ipv4HdrSize + pkt.ip.options.length
    omega
  · show ihlMultiplier ∣ pkt.ip.options.length
    rw [Ipv4Hdr.headerLen, ihlMultiplier, ipv4HdrSize] at hoptions
    rw [ihlMultiplier]
    omega
  · rw [etherMinMtu] at hmtu
    rw [ipv4HdrSize, hdrOptMaxLen] at hlen
    rw [fragSize, hdrOffsetUnits]
    omega

/-- The bytes before a fragment are those of full ones. -/
theorem length_before {frag_size : ℕ} {frags : List Mbuf}
    (hfull : ∀ k f, frags[k]? = some f → k + 1 < frags.length → f.payload.length = frag_size)
    {k : ℕ} (hk : k < frags.length) :
    ((frags.take k).flatMap Mbuf.payload).length = k * frag_size := by
  have hmap : (frags.take k).map (fun f => f.payload.length) = replicate k frag_size := by
    refine ext_getElem? fun j => ?_
    rw [getElem?_map, getElem?_replicate]
    by_cases hj : j < k
    · rw [getElem?_take_of_lt hj, if_pos hj, getElem?_eq_getElem (by omega),
        Option.map_some, hfull j _ (getElem?_eq_getElem (by omega)) (by omega)]
    · rw [if_neg hj, getElem?_take_eq_none (Nat.le_of_not_lt hj), Option.map_none]
  rw [length_flatMap, hmap, sum_replicate, Nat.nsmul_eq_mul]

/-- **The fragments of a packet partition its payload exactly if there is room.** -/
theorem exactPartition_iff {pkt : Mbuf}
    (hoptions : pkt.ip.options.length = pkt.ip.headerLen - ipv4HdrSize) {nb_pkts_out : ℕ}
    {mtu_size : ℕ} (hmtu : mtu_size < 2 ^ 16) {pool_direct pool_indirect : List ℕ}
    {frags : List Mbuf}
    (h : rteIpv4FragmentPacket pkt nb_pkts_out mtu_size pool_direct pool_indirect = .ok frags) :
    ExactPartition pkt nb_pkts_out mtu_size frags ↔ RoomFor pkt nb_pkts_out mtu_size := by
  obtain ⟨hcut, hin, hpos⟩ := rteIpv4FragmentPacket_apt hoptions h
  obtain ⟨hpayload, hall⟩ := cut_portions hmtu hpos hin hcut
  have hlength : frags.length = pkt.fragCount mtu_size :=
    cut_length hmtu hpos hin (cons_ne_nil _ _) hcut
  have hcount : 0 < frags.length := by
    rw [hlength]
    exact succ_pos _
  have hbefore : ∀ k f, frags[k]? = some f →
      ((frags.take k).flatMap Mbuf.payload).length = k * pkt.fragSize mtu_size := fun k f hk =>
    length_before (fun j g hj hlt => (hall j g hj).full (by simpa using hlt))
      (List.getElem?_eq_some_iff.mp hk).1
  have hdvd : ∀ k, hdrOffsetUnits ∣ k * pkt.fragSize mtu_size := fun k =>
    (dvd_mul_left _ _).mul_left k
  constructor
  · intro hexact
    refine ⟨hlength ▸ hexact.capacity, ?_⟩
    -- the offset of the last fragment is one of a header
    have hlast : frags[frags.length - 1]? = some frags[frags.length - 1] :=
      getElem?_eq_getElem (by omega)
    have hofs := hexact.offset _ _ hlast
    rw [hbefore _ _ hlast] at hofs
    rw [← hlength, ← hofs]
    exact Ipv4Hdr.ofs_lt _
  · intro hroomfor
    have hroom := hroomfor.offset
    rw [← hlength] at hroom
    have hfields : ∀ k f, frags[k]? = some f →
        f.ip.ofs = pkt.ip.ofs + k * pkt.fragSize mtu_size ∧
          f.ip.moreFrags = (decide (k + 1 < frags.length) || pkt.ip.moreFrags) := fun k f hk => by
      have hlt := (List.getElem?_eq_some_iff.mp hk).1
      have hle : k * pkt.fragSize mtu_size ≤ (frags.length - 1) * pkt.fragSize mtu_size :=
        mul_le_mul_right _ (by omega)
      obtain ⟨src, len, hip⟩ := (hall k f hk).header
      rw [zero_add, mod_eq_of_lt (by omega)] at hip
      rw [hip]
      exact fillIpv4hdrFrag_fields src len _ (hdvd k)
        (lt_of_le_of_lt (Nat.add_le_add_left hle _) hroom)
    exact
      { capacity := hlength ▸ hroomfor.capacity
        payload := hpayload
        le := fun f hf => by
          obtain ⟨k, hk⟩ := getElem?_of_mem hf
          exact ⟨(hall k f hk).pkt_len, (hall k f hk).le⟩
        units := fun k f hk hlt => by
          rw [(hall k f hk).full (by simpa using hlt)]
          exact dvd_mul_left _ _
        offset := fun k f hk => by rw [hbefore k f hk, (hfields k f hk).1]
        more := fun k f hk => (hfields k f hk).2 }

/-- **What `rte_ipv4_fragment_packet` does**: the fragments partition the payload of
the packet exactly if there is room for them, which is not what is checked; and if
it fails, all that it took is given back. -/
theorem fragments_partition (rteMbufFromIndirect : ℕ → ℕ) (pkt : Mbuf)
    (nb_pkts_out mtu_size : UInt16) (h : Held)
    (hoptions : pkt.ip.options.length = pkt.ip.headerLen - ipv4HdrSize)
    (hlive : ∀ s ∈ pkt.segs, 1 ≤ h.refcnt (rteMbufFromIndirect s.mbuf)) :
    (∀ frags h', rteIpv4FragmentPacketHeld rteMbufFromIndirect pkt nb_pkts_out.toNat
        mtu_size.toNat h = (.ok frags, h') →
      (ExactPartition pkt nb_pkts_out.toNat mtu_size.toNat frags ↔
        RoomFor pkt nb_pkts_out.toNat mtu_size.toNat)) ∧
    ∀ e h', rteIpv4FragmentPacketHeld rteMbufFromIndirect pkt nb_pkts_out.toNat mtu_size.toNat h =
      (.error e, h') → Restored h h' := by
  refine ⟨fun frags h' hcall => ?_, fun e h' hcall =>
    rteIpv4FragmentPacketHeld_restored hlive hcall⟩
  have hfst := @rteIpv4FragmentPacketHeld_fst rteMbufFromIndirect pkt
    nb_pkts_out.toNat mtu_size.toNat h
  rw [hcall] at hfst
  exact exactPartition_iff hoptions mtu_size.toNat_lt hfst.symm

/-- **A packet of some bytes** behind its header, in one segment, with some empty
segments at the end. -/
def packetOf (bytes empty : ℕ) : Mbuf where
  ip := ⟨0x45, 0, UInt16.ofNat (20 + bytes), 0, 0, 64, 17, 0, 0, 0, []⟩
  l2_len := 0
  l3_len := 20
  pkt_len := 20 + bytes
  nb_segs := 1 + empty
  seg := ⟨0, List.replicate (20 + bytes) 0⟩
  next := List.replicate empty ⟨1, []⟩

/-- Two pools of some mbufs, and packets that are referred to once. -/
def somePools : Held := ⟨[10, 11], [20, 21], fun _ => 1, []⟩

/-- One mbuf less in the second pool. -/
def onePool : Held := ⟨[10, 11], [20], fun _ => 1, []⟩

/-- The fragments of a packet with two pools. -/
def fragmentsOf (pkt : Mbuf) (nb_pkts_out mtu_size : ℕ) : List Mbuf :=
  (rteIpv4FragmentPacket pkt nb_pkts_out mtu_size [10, 11] [20, 21]).toOption.getD []

/-- Seventy-two bytes are cut into two fragments, and with one mbuf less in a pool
everything is given back. -/
theorem fragments_partition_two :
    ExactPartition (packetOf 72 0) 2 68 (fragmentsOf (packetOf 72 0) 2 68) ∧
      Restored onePool (rteIpv4FragmentPacketHeld id (packetOf 72 0) 2 68 onePool).2 := by
  have hcall : rteIpv4FragmentPacket (packetOf 72 0) 2 68 [10, 11] [20, 21] =
      .ok (fragmentsOf (packetOf 72 0) 2 68) := by decide +kernel
  have hfail : rteIpv4FragmentPacket (packetOf 72 0) 2 68 [10, 11] [20] = .error .enomem := by
    decide +kernel
  exact ⟨((fragments_partition id (packetOf 72 0) 2 68 somePools rfl (fun _ _ => le_refl 1)).1 _ _
      (rteIpv4FragmentPacketHeld_eq hcall)).mpr ⟨by decide +kernel, by decide +kernel⟩,
    (fragments_partition id (packetOf 72 0) 2 68 onePool rfl (fun _ _ => le_refl 1)).2 _ _
      (rteIpv4FragmentPacketHeld_eq hfail)⟩

/-- **One fragment too many**: forty-eight bytes fill a fragment, and the empty
segment behind them is put in another one, although there is room for one only. -/
theorem fragments_partition_fails :
    ∃ frags h', (packetOf 48 1).Valid ∧
      rteIpv4FragmentPacketHeld id (packetOf 48 1) 1 68 somePools = (.ok frags, h') ∧
      frags.length = 2 ∧ ¬ ExactPartition (packetOf 48 1) 1 68 frags := by
  have hlen : (fragmentsOf (packetOf 48 1) 1 68).length = 2 := by decide +kernel
  refine ⟨fragmentsOf (packetOf 48 1) 1 68, _, ⟨rfl, by decide, rfl, by decide +kernel⟩,
    rteIpv4FragmentPacketHeld_eq (by decide +kernel), hlen, fun hexact => ?_⟩
  have hcapacity := hexact.capacity
  rw [hlen] at hcapacity
  exact absurd hcapacity (by decide)

end IpFrag
