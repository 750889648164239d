import DpdkStudy.IpFrag.Soundness

/-!
# Fragmentation

A datagram that is too long for a link is cut
(`lib/ip_frag/rte_ipv4_fragmentation.c`): each fragment gets a header of its own
and refers to a part of the segments of the datagram. The options that are not
to be copied are in the first header only.
-/

open List Option Nat

namespace IpFrag

open Function Mbuf

variable {pos pos' remaining : ℕ} {s : Seg} {out segs : List Seg}
  {direct indirect pool pool' : List ℕ} {frags : List Mbuf}

/-- **Why a datagram is not cut**: the codes that are returned. -/
inductive FragError
  | einval
  | enotsup
  | enomem
deriving DecidableEq

/-- `RTE_ETHER_MIN_MTU`. -/
def etherMinMtu : ℕ := 68

/-- The size of a header without options. -/
def ipv4HdrSize : ℕ := 20

/-- `RTE_IPV4_HDR_OPT_MAX_LEN`. -/
def hdrOptMaxLen : ℕ := 40

/-- `RTE_IPV4_IHL_MULTIPLIER`. -/
def ihlMultiplier : ℕ := 4

/-- The length a header says it has. -/
def Ipv4Hdr.headerLen (ip : Ipv4Hdr) : ℕ := (ip.version_ihl &&& 0x0f).toNat * ihlMultiplier

/-- **`__fill_ipv4hdr_frag`**. -/
def fillIpv4hdrFrag (src : Ipv4Hdr) (len : ℕ) (fofs : UInt16) (dofs : ℕ) (mf : Bool) : Ipv4Hdr :=
  { src with
    fragment_offset := (fofs + UInt16.ofNat (dofs / hdrOffsetUnits)) |||
      (if mf then hdrMfFlag else 0)
    total_length := UInt16.ofNat len
    hdr_checksum := 0 }

/-- The loop of `__create_ipopt_frag_hdr`: the options that are to be copied.
The bound is on the options passed. -/
def copiedOptions : ℕ → List UInt8 → List UInt8
  | 0, _ => []
  | _, [] => []
  | fuel + 1, p :: rest =>
    -- no operation
    if p = 1 then copiedOptions fuel rest
    -- end of the options
    else if p = 0 then []
    else
      match rest with
      | [] => []
      | n :: _ =>
        if n.toNat < 2 ∨ rest.length + 1 < n.toNat then []
        else
          (if p &&& 0x80 ≠ 0 then (p :: rest).take n.toNat else []) ++
            copiedOptions fuel ((p :: rest).drop n.toNat)

/-- **`__create_ipopt_frag_hdr`**: the header of the fragments behind the first
one. -/
def createIpoptFragHdr (iph : Ipv4Hdr) : Ipv4Hdr :=
  let copied := copiedOptions iph.options.length iph.options
  let len := (copied.length + (ihlMultiplier - 1)) / ihlMultiplier * ihlMultiplier
  { iph with
    options := copied ++ List.replicate (len - copied.length) 0
    version_ihl := (iph.version_ihl &&& 0xf0) |||
      UInt8.ofNat ((ipv4HdrSize + len) / ihlMultiplier) }

/-- **The inner loop of `rte_ipv4_fragment_packet`**: mbufs of a pool are
attached to what is left of the segments until a fragment has all its bytes, or
there are no more segments. -/
def attachSegs : ℕ → ℕ → List Seg → List ℕ → Option (List Seg × List Seg × ℕ × List ℕ)
  | _, _, [], pool => some ([], [], 0, pool)
  | _, _, _ :: _, [] => none
  | remaining, pos, s :: rest, id :: pool =>
    let len := min remaining (s.dataLen - pos)
    let out : Seg := ⟨id, (s.data.drop pos).take len⟩
    -- current input segment done
    if pos + len = s.dataLen then
      -- current fragment done
      if remaining - len = 0 then some ([out], rest, 0, pool)
      else (attachSegs (remaining - len) 0 rest pool).map (fun r => (out :: r.1, r.2))
    else some ([out], s :: rest, pos + len, pool)

/-- **The state of the outer loop**. -/
structure Cutting where
  in_segs : List Seg
  in_seg_data_pos : ℕ
  fragment_offset : ℕ
  in_hdr : Ipv4Hdr
  header_len : ℕ
  ipopt_len : ℕ

/-- **One fragment**: an mbuf with a header, chained to those that are attached. -/
def fragmentOf (st : Cutting) (mbuf : ℕ) (out : List Seg) (flag_offset : UInt16) (more : Bool) :
    Mbuf :=
  let pkt_len := (st.header_len + (out.flatMap Seg.data).length) % 2 ^ 16
  { ip := fillIpv4hdrFrag st.in_hdr pkt_len flag_offset st.fragment_offset more
    l2_len := 0
    l3_len := st.header_len
    pkt_len := pkt_len
    nb_segs := (1 + out.length) % 2 ^ 16
    seg := ⟨mbuf, List.replicate st.header_len 0⟩
    next := out }

/-- The state for the next fragment. -/
def Cutting.next (st : Cutting) (out_pkt : Mbuf) (flag_offset : UInt16) (in_segs : List Seg)
    (pos : ℕ) : Cutting :=
  let fragment_offset := (st.fragment_offset + (out_pkt.pkt_len - st.header_len)) % 2 ^ 16
  if st.fragment_offset = 0 ∧ st.ipopt_len ≠ 0 ∧ flag_offset &&& hdrOffsetMask = 0 then
    let in_hdr := createIpoptFragHdr st.in_hdr
    { in_segs := in_segs
      in_seg_data_pos := pos
      fragment_offset := fragment_offset
      in_hdr := in_hdr
      header_len := ipv4HdrSize + in_hdr.options.length
      ipopt_len := in_hdr.options.length }
  else
    { st with
      in_segs := in_segs
      in_seg_data_pos := pos
      fragment_offset := fragment_offset }

/-- **The outer loop of `rte_ipv4_fragment_packet`**, over the mbufs of a pool. -/
def cut (frag_size : ℕ) (flag_offset : UInt16) : List ℕ → List ℕ → Cutting →
    Except FragError (List Mbuf)
  | direct, indirect, st =>
    if st.in_segs = [] then .ok []
    else
      match direct with
      | [] => .error .enomem
      | mbuf :: direct =>
        match attachSegs frag_size st.in_seg_data_pos st.in_segs indirect with
        | none => .error .enomem
        | some (out, in_segs, pos, indirect) =>
          let out_pkt := fragmentOf st mbuf out flag_offset (in_segs ≠ [])
          (cut frag_size flag_offset direct indirect (st.next out_pkt flag_offset in_segs pos)).map
            (fun pkts => out_pkt :: pkts)

/-- **`rte_ipv4_fragment_packet`**, with the mbufs of two pools. -/
def rteIpv4FragmentPacket (pkt_in : Mbuf) (nb_pkts_out mtu_size : ℕ)
    (pool_direct pool_indirect : List ℕ) : Except FragError (List Mbuf) :=
  let in_hdr := pkt_in.ip
  let header_len := in_hdr.headerLen
  if nb_pkts_out = 0 ∨ mtu_size < etherMinMtu then .error .einval
  else if pkt_in.seg.dataLen < header_len ∨ mtu_size < header_len then .error .einval
  else
    let frag_size := (mtu_size - header_len) / hdrOffsetUnits * hdrOffsetUnits
    let flag_offset := in_hdr.fragment_offset
    if flag_offset &&& hdrDfFlag ≠ 0 then .error .enotsup
    -- the difference is 32 bits long, and 16 of them are compared
    else if frag_size * nb_pkts_out < (pkt_in.pkt_len + 2 ^ 32 - header_len) % 2 ^ 16 then
      .error .einval
    -- the difference is 16 bits long: too short a header is one with too many options
    else if header_len < ipv4HdrSize ∨ hdrOptMaxLen < header_len - ipv4HdrSize then .error .einval
    else
      cut frag_size flag_offset pool_direct pool_indirect
        { in_segs := pkt_in.segs
          in_seg_data_pos := header_len
          fragment_offset := 0
          in_hdr := in_hdr
          header_len := header_len
          ipopt_len := header_len - ipv4HdrSize }

/-! ## The flags and the offset -/

theorem testBit_of_and_two_pow {x i : ℕ} (h : x &&& 2 ^ i = 0) : x.testBit i = false := by
  have hbit := congrArg (fun y => y.testBit i) h
  simpa [testBit_and, testBit_two_pow_self] using hbit

/-- The flags and the offset of a datagram that is not a fragment. -/
theorem flag_eq {flag_offset : UInt16} (hdf : flag_offset &&& hdrDfFlag = 0)
    (hmf : flag_offset &&& hdrMfFlag = 0) (hofs : flag_offset &&& hdrOffsetMask = 0) :
    flag_offset.toNat = 0 ∨ flag_offset.toNat = 2 ^ 15 := by
  have hlt := flag_offset.toNat_lt
  have hdf' := testBit_of_and_two_pow (x := flag_offset.toNat) (i := 14)
    (congrArg UInt16.toNat hdf)
  have hmf' := testBit_of_and_two_pow (x := flag_offset.toNat) (i := 13)
    (congrArg UInt16.toNat hmf)
  have hofs' : flag_offset.toNat &&& (2 ^ 13 - 1) = 0 := congrArg UInt16.toNat hofs
  rw [testBit_eq_decide_div_mod_eq, decide_eq_false_iff_not] at hdf' hmf'
  rw [and_two_pow_sub_one_eq_mod] at hofs'
  omega

theorem toNat_and_offsetMask (x : UInt16) : (x &&& hdrOffsetMask).toNat = x.toNat % 2 ^ 13 := by
  rw [UInt16.toNat_and]
  exact and_two_pow_sub_one_eq_mod _ 13

/-- The flag of the fragments that have more behind them is the bit above. -/
theorem and_mfFlag_ne_zero (x : UInt16) : decide (x &&& hdrMfFlag ≠ 0) = x.toNat.testBit 13 := by
  have hand : (x &&& hdrMfFlag).toNat = (x.toNat.testBit 13).toNat * 2 ^ 13 := by
    rw [UInt16.toNat_and]
    exact and_two_pow _ 13
  cases hbit : x.toNat.testBit 13
  · rw [hbit] at hand
    rw [decide_eq_false_iff_not, not_not]
    exact UInt16.toNat_inj.mp (by simpa using hand)
  · rw [hbit] at hand
    rw [decide_eq_true_iff]
    intro h0
    rw [h0] at hand
    exact absurd hand (by decide)

/-- An offset is a field of a header, in units of eight bytes. -/
theorem Ipv4Hdr.ofs_lt (ip : Ipv4Hdr) : ip.ofs < 2 ^ 16 := by
  rw [Ipv4Hdr.ofs, toNat_and_offsetMask, hdrOffsetUnits]
  omega

/-- **What a fragment's header says** of its offset, and of those behind it: the
offset is added to that of the packet, and the flag is not taken away. -/
theorem fillIpv4hdrFrag_fields (src : Ipv4Hdr) (len : ℕ) {fofs : UInt16} {dofs : ℕ} (mf : Bool)
    (hdvd : hdrOffsetUnits ∣ dofs)
    (hroom : (fofs &&& hdrOffsetMask).toNat * hdrOffsetUnits + dofs < 2 ^ 16) :
    (fillIpv4hdrFrag src len fofs dofs mf).ofs =
        (fofs &&& hdrOffsetMask).toNat * hdrOffsetUnits + dofs ∧
      (fillIpv4hdrFrag src len fofs dofs mf).moreFrags =
        (mf || decide (fofs &&& hdrMfFlag ≠ 0)) := by
  have hlt := fofs.toNat_lt
  rw [toNat_and_offsetMask] at hroom ⊢
  rw [hdrOffsetUnits] at hroom hdvd ⊢
  -- nothing is carried into the flags
  have hsum : (fofs + UInt16.ofNat (dofs / 8)).toNat = fofs.toNat + dofs / 8 := by
    rw [UInt16.toNat_add, UInt16.toNat_ofNat_of_lt' (by rw [UInt16.size]; omega)]
    exact mod_eq_of_lt (by omega)
  have hbit : (fofs.toNat + dofs / 8).testBit 13 = fofs.toNat.testBit 13 := by
    rw [testBit_eq_decide_div_mod_eq, testBit_eq_decide_div_mod_eq]
    congr 2
    omega
  have hfield : (fillIpv4hdrFrag src len fofs dofs mf).fragment_offset.toNat =
      (fofs.toNat + dofs / 8) ||| (if mf then 2 ^ 13 else 0) := by
    show ((fofs + UInt16.ofNat (dofs / 8)) ||| (if mf then hdrMfFlag else 0)).toNat = _
    rw [UInt16.toNat_or, hsum]
    cases mf <;> rfl
  constructor
  · rw [Ipv4Hdr.ofs, toNat_and_offsetMask, hfield, or_mod_two_pow, hdrOffsetUnits]
    cases mf
    · simp only [Bool.false_eq_true, if_false, zero_mod, or_zero]
      omega
    · simp only [if_true, mod_self, or_zero]
      omega
  · rw [Ipv4Hdr.moreFrags, and_mfFlag_ne_zero, and_mfFlag_ne_zero, hfield, testBit_or, hbit,
      Bool.or_comm]
    cases mf
    · simp
    · rw [if_pos rfl, testBit_two_pow_self, Bool.true_or]

/-- **What a fragment's header says** of its offset, and of those behind it. -/
theorem fillIpv4hdrFrag_spec (src : Ipv4Hdr) (len : ℕ) {fofs : UInt16} {dofs : ℕ} (mf : Bool)
    (hflag : fofs.toNat = 0 ∨ fofs.toNat = 2 ^ 15) (hdvd : hdrOffsetUnits ∣ dofs)
    (hlt : dofs < 2 ^ 16) :
    (fillIpv4hdrFrag src len fofs dofs mf).ofs = dofs ∧
      (fillIpv4hdrFrag src len fofs dofs mf).moreFrags = mf := by
  have hofs : (fofs &&& hdrOffsetMask).toNat = 0 := by
    rw [toNat_and_offsetMask]
    omega
  have hmf : decide (fofs &&& hdrMfFlag ≠ 0) = false := by
    rw [and_mfFlag_ne_zero]
    rcases hflag with h | h <;> rw [h] <;> decide
  have hfields := fillIpv4hdrFrag_fields src len mf hdvd (by rw [hofs]; omega)
  rwa [hofs, hmf, zero_mul, zero_add, Bool.or_false] at hfields
/-! ## The options -/

theorem length_copiedOptions_le (fuel : ℕ) (opts : List UInt8) :
    (copiedOptions fuel opts).length ≤ opts.length := by
  induction fuel generalizing opts with
  | zero => exact zero_le _
  | succ fuel ih =>
    cases opts with
    | nil => exact zero_le _
    | cons p rest =>
      simp only [copiedOptions]
      by_cases hnop : p = 1
      · rw [if_pos hnop]
        exact le_trans (ih rest) (le_succ _)
      rw [if_neg hnop]
      by_cases heol : p = 0
      · rw [if_pos heol]
        exact zero_le _
      rw [if_neg heol]
      cases rest with
      | nil => exact zero_le _
      | cons n rest =>
        simp only
        split
        · exact zero_le _
        · rename_i hbad
          have hrest := ih ((p :: n :: rest).drop n.toNat)
          have hhead : (if p &&& 0x80 ≠ 0 then (p :: n :: rest).take n.toNat else []).length ≤
              n.toNat := by
            split
            · exact length_take_le _ _
            · exact zero_le _
          rw [length_drop] at hrest
          rw [length_append]
          simp only [length_cons] at hrest hbad ⊢
          omega

/-- The header of the later fragments is not longer than the first one. -/
theorem createIpoptFragHdr_spec (iph : Ipv4Hdr) (hdvd : ihlMultiplier ∣ iph.options.length) :
    (createIpoptFragHdr iph).options.length ≤ iph.options.length ∧
      ihlMultiplier ∣ (createIpoptFragHdr iph).options.length := by
  have hle := length_copiedOptions_le iph.options.length iph.options
  rw [ihlMultiplier] at hdvd ⊢
  simp only [createIpoptFragHdr, length_append, length_replicate, ihlMultiplier]
  constructor <;> omega

/-! ## The segments -/

/-- The bytes that are left of some segments, of the first of which some are
used. -/
def restBytes (pos : ℕ) (segs : List Seg) : List UInt8 := (segs.flatMap Seg.data).drop pos

theorem restBytes_cons (rest : List Seg) (h : pos ≤ s.dataLen) :
    restBytes pos (s :: rest) = s.data.drop pos ++ restBytes 0 rest := by
  rw [restBytes, flatMap_cons, drop_append_of_le_length h]
  rfl

/-- What is attached is as much as a fragment holds, or all there is. -/
theorem attachSegs_spec {segs' : List Seg}
    (h : attachSegs remaining pos segs pool = some (out, segs', pos', pool'))
    (hpos : ∀ s rest, segs = s :: rest → pos ≤ s.dataLen) (hnil : segs = [] → pos = 0)
    (hremaining : 0 < remaining) :
    out.flatMap Seg.data ++ restBytes pos' segs' = restBytes pos segs ∧
      (out.flatMap Seg.data).length ≤ remaining ∧
      (segs' ≠ [] → (out.flatMap Seg.data).length = remaining) ∧
      (∀ s rest, segs' = s :: rest → pos' = 0 ∨ pos' < s.dataLen) ∧
      (segs' = [] → pos' = 0) ∧ segs' <:+ segs := by
  induction segs generalizing remaining pos pool out with
  | nil =>
    simp only [attachSegs, some.injEq, Prod.mk.injEq] at h
    obtain ⟨rfl, rfl, rfl, rfl⟩ := h
    simp [hnil rfl]
  | cons s rest ih =>
    have hle := hpos s rest rfl
    cases pool with
    | nil => simp [attachSegs] at h
    | cons id pool =>
      simp only [attachSegs] at h
      by_cases hseg : pos + min remaining (s.dataLen - pos) = s.dataLen
      · have hlen : min remaining (s.dataLen - pos) = s.dataLen - pos := by omega
        have hpiece : (s.data.drop pos).take (min remaining (s.dataLen - pos)) = s.data.drop pos := by
          refine take_of_length_le ?_
          rw [length_drop, hlen, Seg.dataLen]
        have hdrop : (s.data.drop pos).length = s.dataLen - pos := by
          rw [length_drop, Seg.dataLen]
        rw [if_pos hseg, hpiece] at h
        by_cases hdone : remaining - min remaining (s.dataLen - pos) = 0
        · simp only [if_pos hdone, some.injEq, Prod.mk.injEq] at h
          obtain ⟨rfl, rfl, rfl, rfl⟩ := h
          rw [flatMap_singleton, restBytes_cons rest hle, hdrop]
          exact ⟨rfl, by omega, fun _ => by omega, fun _ _ _ => Or.inl rfl, fun _ => rfl,
            suffix_cons s rest⟩
        · rw [if_neg hdone] at h
          obtain ⟨⟨out', r⟩, hrec, heq⟩ := map_eq_some_iff.mp h
          simp only [Prod.mk.injEq] at heq
          obtain ⟨rfl, rfl⟩ := heq
          obtain ⟨hbytes, hlength, hfull, hnext, hend, hsuffix⟩ := ih hrec
            (fun _ _ _ => zero_le _) (fun _ => rfl) (by omega)
          rw [flatMap_cons, length_append, hdrop, restBytes_cons rest hle,
            append_assoc, hbytes]
          exact ⟨rfl, by omega, fun hne => by have := hfull hne; omega, hnext, hend,
            hsuffix.trans (suffix_cons s rest)⟩
      · rw [if_neg hseg] at h
        simp only [some.injEq, Prod.mk.injEq] at h
        obtain ⟨rfl, rfl, rfl, rfl⟩ := h
        have hlen : min remaining (s.dataLen - pos) = remaining := by omega
        have htake : ((s.data.drop pos).take remaining).length = remaining := by
          rw [length_take, length_drop, ← Seg.dataLen]
          omega
        rw [hlen, flatMap_singleton, htake, restBytes_cons rest hle,
          restBytes_cons rest (by omega), ← append_assoc, ← drop_drop,
          take_append_drop]
        refine ⟨rfl, le_refl _, fun _ => rfl, fun s' rest' heq => Or.inr ?_, fun h => by simp at h,
          suffix_refl _⟩
        obtain ⟨rfl, -⟩ := cons.inj heq
        omega

/-! ## The fragments -/

/-- **A fragment of a datagram** at an offset: its header says where it is and
how long, and whether there are more behind it. -/
structure Piece (k : FragKey) (frag_size ofs : ℕ) (more_frags : Bool) (f : Mbuf) : Prop where
  key : f.ip.key = k
  ofs_eq : f.ip.ofs = ofs
  more : f.ip.moreFrags = more_frags
  l2_len : f.l2_len = 0
  header : f.seg.dataLen = f.l3_len
  fragLen : f.fragLen = f.payload.length
  pkt_len : f.pkt_len = f.ip.total_length.toNat
  le : f.fragLen ≤ frag_size
  full : more_frags = true → f.fragLen = frag_size

/-- **The fragments of some bytes**, one after the other. -/
def Pieces (k : FragKey) (frag_size : ℕ) : ℕ → List UInt8 → List Mbuf → Prop
  | _, rest, [] => rest = []
  | ofs, rest, f :: fs => Piece k frag_size ofs (decide (fs ≠ [])) f ∧
      ∃ rest', f.payload ++ rest' = rest ∧ Pieces k frag_size (ofs + f.fragLen) rest' fs

/-- **The outer loop is in order**: the offset is one of a fragment, and there
is room for what is left. -/
structure Cutting.InOrder (st : Cutting) (frag_size : ℕ) : Prop where
  pos : ∀ s rest, st.in_segs = s :: rest → st.in_seg_data_pos ≤ s.dataLen
  nil : st.in_segs = [] → st.in_seg_data_pos = 0
  dvd : frag_size ∣ st.fragment_offset
  room : st.fragment_offset + (restBytes st.in_seg_data_pos st.in_segs).length < 2 ^ 16
  header : st.header_len + frag_size < 2 ^ 16
  header_len : st.header_len = ipv4HdrSize + st.in_hdr.options.length
  options : ihlMultiplier ∣ st.in_hdr.options.length

variable {frag_size : ℕ} {flag_offset : UInt16} {st : Cutting}

/-- The payload of a fragment is what is attached to its header. -/
theorem payload_fragmentOf (st : Cutting) (mbuf : ℕ) (out : List Seg) (flag_offset : UInt16)
    (more : Bool) : (fragmentOf st mbuf out flag_offset more).payload = out.flatMap Seg.data := by
  show (replicate st.header_len 0 ++ out.flatMap Seg.data).drop (0 + st.header_len) = _
  rw [Nat.zero_add, drop_append_of_le_length (by simp), drop_replicate, Nat.sub_self]
  rfl

theorem Cutting.InOrder.piece (hin : st.InOrder frag_size)
    (hflag : flag_offset.toNat = 0 ∨ flag_offset.toNat = 2 ^ 15) (hdvd : hdrOffsetUnits ∣ frag_size)
    (mbuf : ℕ) (more : Bool) (hle : (out.flatMap Seg.data).length ≤ frag_size)
    (hfull : more = true → (out.flatMap Seg.data).length = frag_size) :
    Piece st.in_hdr.key frag_size st.fragment_offset more
        (fragmentOf st mbuf out flag_offset more) ∧
      (fragmentOf st mbuf out flag_offset more).payload = out.flatMap Seg.data := by
  have hroom := hin.room
  have hheader := hin.header
  have hpayload := payload_fragmentOf st mbuf out flag_offset more
  have hpkt : (fragmentOf st mbuf out flag_offset more).pkt_len =
      st.header_len + (out.flatMap Seg.data).length := mod_eq_of_lt (by omega)
  have htotal : (fragmentOf st mbuf out flag_offset more).ip.total_length.toNat =
      st.header_len + (out.flatMap Seg.data).length := by
    show (UInt16.ofNat (fragmentOf st mbuf out flag_offset more).pkt_len).toNat = _
    rw [hpkt, UInt16.toNat_ofNat_of_lt' (by rw [UInt16.size]; omega)]
  have hlen : (fragmentOf st mbuf out flag_offset more).fragLen =
      (out.flatMap Seg.data).length := by
    rw [Mbuf.fragLen, htotal]
    exact Nat.add_sub_cancel_left _ _
  obtain ⟨hofs, hmore⟩ := fillIpv4hdrFrag_spec st.in_hdr
    (fragmentOf st mbuf out flag_offset more).pkt_len more hflag (hdvd.trans hin.dvd) (by omega)
  exact ⟨⟨rfl, hofs, hmore, rfl, length_replicate, by rw [hlen, hpayload],
    by rw [hpkt, htotal], by rw [hlen]; exact hle, fun h => by rw [hlen, hfull h]⟩, hpayload⟩

/-- The loop stays in order as long as there is something left. -/
theorem Cutting.InOrder.next (hin : st.InOrder frag_size) {out_pkt : Mbuf} {bytes : ℕ}
    (hpkt : out_pkt.pkt_len = st.header_len + frag_size) {in_segs : List Seg} (hne : in_segs ≠ [])
    (hsegs : ∀ s rest, in_segs = s :: rest → pos ≤ s.dataLen)
    (hrest : bytes = (restBytes pos in_segs).length)
    (hsplit : frag_size + bytes = (restBytes st.in_seg_data_pos st.in_segs).length) :
    (st.next out_pkt flag_offset in_segs pos).InOrder frag_size ∧
      (st.next out_pkt flag_offset in_segs pos).in_hdr.key = st.in_hdr.key ∧
      (st.next out_pkt flag_offset in_segs pos).fragment_offset =
        st.fragment_offset + frag_size ∧
      (st.next out_pkt flag_offset in_segs pos).in_segs = in_segs ∧
      (st.next out_pkt flag_offset in_segs pos).in_seg_data_pos = pos := by
  have hroom := hin.room
  have hheader := hin.header
  have hofs : (st.fragment_offset + (out_pkt.pkt_len - st.header_len)) % 2 ^ 16 =
      st.fragment_offset + frag_size := by
    rw [hpkt, Nat.add_sub_cancel_left]
    exact mod_eq_of_lt (by omega)
  have hdvd : frag_size ∣ st.fragment_offset + frag_size := Nat.dvd_add hin.dvd (dvd_refl _)
  have hroom' : (st.fragment_offset + (out_pkt.pkt_len - st.header_len)) % 2 ^ 16 +
      (restBytes pos in_segs).length < 2 ^ 16 := by
    rw [hofs, ← hrest]
    omega
  obtain ⟨hle, hoptions⟩ := createIpoptFragHdr_spec st.in_hdr hin.options
  have hlen := hin.header_len
  rw [Cutting.next]
  split
  · exact ⟨⟨hsegs, fun h => absurd h hne, by rw [hofs]; exact hdvd, hroom', by simp only; omega,
      rfl, hoptions⟩, rfl, hofs, rfl, rfl⟩
  · exact ⟨⟨hsegs, fun h => absurd h hne, by rw [hofs]; exact hdvd, hroom', hheader, hlen,
      hin.options⟩, rfl, hofs, rfl, rfl⟩

/-- Some bytes are left where the last segment is not empty. -/
theorem restBytes_ne_nil (hne : segs ≠ [])
    (hpos : ∀ s rest, segs = s :: rest → pos = 0 ∨ pos < s.dataLen)
    (hlast : ∀ s, segs.getLast? = some s → 0 < s.dataLen) : restBytes pos segs ≠ [] := by
  obtain ⟨s, rest, rfl⟩ := exists_cons_of_ne_nil hne
  intro hnil
  have hle : pos ≤ s.dataLen := by
    rcases hpos s rest rfl with h | h <;> omega
  rw [restBytes_cons rest hle, append_eq_nil_iff] at hnil
  have hlength := congrArg length hnil.1
  rw [length_drop, ← Seg.dataLen, length_nil] at hlength
  have hzero : s.dataLen = 0 := by
    rcases hpos s rest rfl with h | h <;> omega
  cases rest with
  | nil => exact absurd (hlast s rfl) (by omega)
  | cons t rest =>
    obtain ⟨u, hu⟩ : ∃ u, (t :: rest).getLast? = some u :=
      ⟨_, getLast?_eq_some_getLast (cons_ne_nil t rest)⟩
    have hmem : u ∈ t :: rest := mem_of_getLast? hu
    have hempty : u.data = [] := by
      have hflat : (t :: rest).flatMap Seg.data = [] := by simpa [restBytes] using hnil.2
      exact flatMap_eq_nil_iff.mp hflat u hmem
    have hu' := hlast u (by rw [getLast?_cons_cons]; exact hu)
    rw [Seg.dataLen, hempty] at hu'
    exact absurd hu' (lt_irrefl 0)

/-- The outer loop takes a step, or there are no more segments. -/
theorem cut_step (h : cut frag_size flag_offset direct indirect st = .ok frags) :
    st.in_segs = [] ∧ frags = [] ∨
      st.in_segs ≠ [] ∧ ∃ mbuf direct' indirect' out in_segs pos fs,
        attachSegs frag_size st.in_seg_data_pos st.in_segs indirect =
          some (out, in_segs, pos, indirect') ∧
        frags = fragmentOf st mbuf out flag_offset (in_segs ≠ []) :: fs ∧
        cut frag_size flag_offset direct' indirect' (st.next
          (fragmentOf st mbuf out flag_offset (in_segs ≠ [])) flag_offset in_segs pos) = .ok fs := by
  rw [cut.eq_def] at h
  simp only at h
  by_cases hnil : st.in_segs = []
  · rw [if_pos hnil] at h
    exact Or.inl ⟨hnil, (Except.ok.inj h).symm⟩
  rw [if_neg hnil] at h
  refine Or.inr ⟨hnil, ?_⟩
  cases direct with
  | nil => simp at h
  | cons mbuf direct =>
    simp only at h
    split at h
    · simp at h
    · rename_i out in_segs pos indirect' hattach
      cases hrec : cut frag_size flag_offset direct indirect' (st.next
          (fragmentOf st mbuf out flag_offset (decide (in_segs ≠ []))) flag_offset in_segs pos) with
      | error e => rw [hrec] at h; simp [Except.map] at h
      | ok fs =>
        rw [hrec] at h
        exact ⟨mbuf, direct, indirect', out, in_segs, pos, fs, hattach, (Except.ok.inj h).symm,
          hrec⟩

/-- The loop ends where there are no more segments, and there only. -/
theorem cut_eq_nil_iff (h : cut frag_size flag_offset direct indirect st = .ok frags) :
    frags = [] ↔ st.in_segs = [] := by
  rcases cut_step h with ⟨hnil, rfl⟩ | ⟨hne, _, _, _, _, _, _, _, -, rfl, -⟩
  · exact iff_of_true rfl hnil
  · exact iff_of_false (cons_ne_nil _ _) hne

/-- **What one step of the loop makes**: a piece of what is left, and a state
that is in order, if there are more segments. -/
theorem Cutting.InOrder.step (hin : st.InOrder frag_size)
    (hflag : flag_offset.toNat = 0 ∨ flag_offset.toNat = 2 ^ 15) (hdvd : hdrOffsetUnits ∣ frag_size)
    (hpos : 0 < frag_size) (mbuf : ℕ) {indirect' : List ℕ} {in_segs : List Seg}
    (hattach : attachSegs frag_size st.in_seg_data_pos st.in_segs indirect =
      some (out, in_segs, pos, indirect')) {f : Mbuf}
    (hf : f = fragmentOf st mbuf out flag_offset (in_segs ≠ [])) :
    Piece st.in_hdr.key frag_size st.fragment_offset (decide (in_segs ≠ [])) f ∧
      f.payload = out.flatMap Seg.data ∧
      f.payload ++ restBytes pos in_segs = restBytes st.in_seg_data_pos st.in_segs ∧
      (in_segs = [] → pos = 0 ∧ (st.next f flag_offset in_segs pos).in_segs = []) ∧
      (in_segs ≠ [] → f.fragLen = frag_size ∧
        (st.next f flag_offset in_segs pos).InOrder frag_size ∧
        (st.next f flag_offset in_segs pos).in_hdr.key = st.in_hdr.key ∧
        (st.next f flag_offset in_segs pos).fragment_offset = st.fragment_offset + frag_size ∧
        (st.next f flag_offset in_segs pos).in_segs = in_segs ∧
        (st.next f flag_offset in_segs pos).in_seg_data_pos = pos) := by
  subst hf
  obtain ⟨hbytes, hle, hfull, hnext, hend, -⟩ := attachSegs_spec hattach hin.pos hin.nil hpos
  obtain ⟨hpiece, hpayload⟩ := hin.piece hflag hdvd mbuf (decide (in_segs ≠ [])) hle
    (fun hmore => hfull (by simpa using hmore))
  have hlen : (fragmentOf st mbuf out flag_offset (decide (in_segs ≠ []))).fragLen =
      (out.flatMap Seg.data).length := by rw [hpiece.fragLen, hpayload]
  refine ⟨hpiece, hpayload, by rw [hpayload, hbytes], fun hnil => ⟨hend hnil, ?_⟩,
    fun hne => ⟨by rw [hlen, hfull hne], ?_⟩⟩
  · rw [Cutting.next]
    split <;> exact hnil
  · have hlength := congrArg length hbytes
    rw [length_append, hfull hne] at hlength
    refine hin.next ?_ hne (fun s rest heq => ?_) rfl hlength
    · show (st.header_len + (out.flatMap Seg.data).length) % 2 ^ 16 = _
      rw [hfull hne]
      exact mod_eq_of_lt hin.header
    · rcases hnext s rest heq with h | h <;> omega

theorem cut_pieces (hflag : flag_offset.toNat = 0 ∨ flag_offset.toNat = 2 ^ 15)
    (hdvd : hdrOffsetUnits ∣ frag_size) (hpos : 0 < frag_size) (hin : st.InOrder frag_size)
    (h : cut frag_size flag_offset direct indirect st = .ok frags) :
    Pieces st.in_hdr.key frag_size st.fragment_offset
      (restBytes st.in_seg_data_pos st.in_segs) frags := by
  induction frags generalizing direct indirect st with
  | nil =>
    have hnil := (cut_eq_nil_iff h).mp rfl
    rw [hnil, hin.nil hnil]
    rfl
  | cons f fs ih =>
    obtain ⟨-, h0⟩ | ⟨-, mbuf, direct', indirect', out, in_segs, pos, fs', hattach, heq, hrec⟩ :=
      cut_step h
    · exact absurd h0 (cons_ne_nil _ _)
    obtain ⟨hf, rfl⟩ := cons.inj heq
    rw [← hf] at hrec
    obtain ⟨hpiece, -, hbytes, hnil, hne⟩ := hin.step hflag hdvd hpos mbuf hattach hf
    have hfs := cut_eq_nil_iff hrec
    by_cases hsegs : in_segs = []
    · obtain ⟨hpos', hnext⟩ := hnil hsegs
      rw [hnext] at hfs
      rw [hsegs, hpos'] at hbytes
      obtain rfl := hfs.mpr rfl
      exact ⟨by simpa [hsegs] using hpiece, _, hbytes, rfl⟩
    · obtain ⟨hlen, hin', hkey, hofs, hsegs', hpos'⟩ := hne hsegs
      have hpieces := ih hin' hrec
      rw [hkey, hofs, hsegs', hpos'] at hpieces
      rw [hsegs'] at hfs
      have hfs' : fs ≠ [] := fun h0 => hsegs (hfs.mp h0)
      exact ⟨by simpa [hsegs, hfs'] using hpiece, _, hbytes, by rw [hlen]; exact hpieces⟩

/-- **No fragment is empty**, unless the bytes end where a fragment does and an
empty segment is still to come. -/
theorem cut_pos (hflag : flag_offset.toNat = 0 ∨ flag_offset.toNat = 2 ^ 15)
    (hdvd : hdrOffsetUnits ∣ frag_size) (hpos : 0 < frag_size) (hin : st.InOrder frag_size)
    (h : cut frag_size flag_offset direct indirect st = .ok frags)
    (hcond : (∀ s, st.in_segs.getLast? = some s → 0 < s.dataLen) ∨
      ¬ frag_size ∣ st.fragment_offset + (restBytes st.in_seg_data_pos st.in_segs).length)
    (hrest : restBytes st.in_seg_data_pos st.in_segs ≠ []) : ∀ f ∈ frags, 0 < f.fragLen := by
  induction frags generalizing direct indirect st with
  | nil => exact fun f hf => absurd hf not_mem_nil
  | cons f fs ih =>
    obtain ⟨-, h0⟩ | ⟨-, mbuf, direct', indirect', out, in_segs, pos, fs', hattach, heq, hrec⟩ :=
      cut_step h
    · exact absurd h0 (cons_ne_nil _ _)
    obtain ⟨hf, rfl⟩ := cons.inj heq
    rw [← hf] at hrec
    obtain ⟨hpiece, -, hbytes, hnil, hne⟩ := hin.step hflag hdvd hpos mbuf hattach hf
    obtain ⟨-, -, -, hnext, -, pre, hpre⟩ := attachSegs_spec hattach hin.pos hin.nil hpos
    intro g hg
    by_cases hsegs : in_segs = []
    · obtain ⟨hpos', hnext⟩ := hnil hsegs
      rw [(cut_eq_nil_iff hrec).mpr hnext, mem_singleton] at hg
      rw [hsegs, hpos', restBytes, flatMap_nil, drop_nil, append_nil] at hbytes
      rw [hg, hpiece.fragLen, hbytes]
      exact length_pos_of_ne_nil hrest
    · obtain ⟨hlen, hin', -, hofs, hsegs', hpos'⟩ := hne hsegs
      rcases mem_cons.mp hg with rfl | hg
      · rw [hlen]
        exact hpos
      have hlength := congrArg length hbytes
      rw [length_append, ← hpiece.fragLen, hlen] at hlength
      have hcond' : (∀ s, in_segs.getLast? = some s → 0 < s.dataLen) ∨
          ¬ frag_size ∣ st.fragment_offset + frag_size + (restBytes pos in_segs).length := by
        refine hcond.imp (fun h s hs => h s ?_) (fun h => by rwa [add_assoc, hlength])
        rw [← hpre, getLast?_append, hs]
        rfl
      refine ih hin' hrec (by rwa [hofs, hsegs', hpos']) ?_ g hg
      rw [hsegs', hpos']
      rcases hcond' with hlast | hnot
      · exact restBytes_ne_nil hsegs hnext hlast
      · intro h0
        rw [h0, length_nil, add_zero] at hnot
        exact hnot (Nat.dvd_add hin.dvd (dvd_refl _))

/-- An empty segment at the end is not needed to fill a fragment. -/
theorem attachSegs_lt (h : attachSegs remaining pos segs pool = some (out, [], pos', pool'))
    (hremaining : 0 < remaining) (hlast : segs.getLast? = some s) (hempty : s.dataLen = 0) :
    (out.flatMap Seg.data).length < remaining := by
  induction segs generalizing remaining pos pool out with
  | nil => simp at hlast
  | cons t rest ih =>
    cases pool with
    | nil => simp [attachSegs] at h
    | cons id pool =>
      simp only [attachSegs] at h
      split_ifs at h with hseg hdone
      · simp only [some.injEq, Prod.mk.injEq] at h
        obtain ⟨-, rfl, -⟩ := h
        have heq : t = s := some.inj hlast
        rw [← heq] at hempty
        omega
      · obtain ⟨⟨out', r⟩, hrec, heq⟩ := map_eq_some_iff.mp h
        simp only [Prod.mk.injEq] at heq
        obtain ⟨rfl, rfl⟩ := heq
        have hpiece : ((t.data.drop pos).take (min remaining (t.dataLen - pos))).length ≤
            min remaining (t.dataLen - pos) := length_take_le _ _
        rw [flatMap_cons, length_append]
        cases rest with
        | nil =>
          simp only [attachSegs, some.injEq, Prod.mk.injEq] at hrec
          rw [← hrec.1, flatMap_nil, length_nil]
          simp only
          omega
        | cons u rest =>
          rw [getLast?_cons_cons] at hlast
          have hlt := ih hrec (by omega) hlast
          simp only
          omega
      · simp at h

/-- **The last fragment is empty** where the bytes end where a fragment does and
the last segment is empty. -/
theorem cut_last_empty (hflag : flag_offset.toNat = 0 ∨ flag_offset.toNat = 2 ^ 15)
    (hdvd : hdrOffsetUnits ∣ frag_size) (hpos : 0 < frag_size) (hin : st.InOrder frag_size)
    (h : cut frag_size flag_offset direct indirect st = .ok frags)
    (hlast : st.in_segs.getLast? = some s) (hempty : s.dataLen = 0)
    (hend : frag_size ∣ st.fragment_offset + (restBytes st.in_seg_data_pos st.in_segs).length) :
    ∀ f ∈ frags, f.ip.moreFrags = false → f.fragLen = 0 := by
  induction frags generalizing direct indirect st with
  | nil => exact fun f hf => absurd hf not_mem_nil
  | cons f fs ih =>
    obtain ⟨-, h0⟩ | ⟨-, mbuf, direct', indirect', out, in_segs, pos, fs', hattach, heq, hrec⟩ :=
      cut_step h
    · exact absurd h0 (cons_ne_nil _ _)
    obtain ⟨hf, rfl⟩ := cons.inj heq
    rw [← hf] at hrec
    obtain ⟨hpiece, hpayload, hbytes, hnil, hne⟩ := hin.step hflag hdvd hpos mbuf hattach hf
    obtain ⟨-, -, -, -, -, pre, hpre⟩ := attachSegs_spec hattach hin.pos hin.nil hpos
    intro g hg hmore
    by_cases hsegs : in_segs = []
    · obtain ⟨hpos', hnext⟩ := hnil hsegs
      rw [(cut_eq_nil_iff hrec).mpr hnext, mem_singleton] at hg
      rw [hsegs, hpos', restBytes, flatMap_nil, drop_nil, append_nil] at hbytes
      rw [hsegs] at hattach
      have hlt := attachSegs_lt hattach hpos hlast hempty
      rw [← hbytes, hpayload] at hend
      rw [hg, hpiece.fragLen, hpayload]
      exact Nat.eq_zero_of_dvd_of_lt ((Nat.dvd_add_right hin.dvd).mp hend) hlt
    · obtain ⟨hlen, hin', -, hofs, hsegs', hpos'⟩ := hne hsegs
      rcases mem_cons.mp hg with rfl | hg
      · rw [hpiece.more] at hmore
        exact absurd hsegs (by simpa using hmore)
      have hlength := congrArg length hbytes
      rw [length_append, ← hpiece.fragLen, hlen] at hlength
      refine ih hin' hrec ?_ ?_ g hg hmore
      · rw [hsegs']
        rw [← hpre, getLast?_append] at hlast
        obtain ⟨t, ht⟩ : ∃ t, in_segs.getLast? = some t :=
          ⟨_, getLast?_eq_some_getLast hsegs⟩
        rw [ht] at hlast ⊢
        exact hlast
      · rwa [hofs, hsegs', hpos', add_assoc, hlength]

/-! ## How many mbufs it takes -/

/-- **The mbufs that are attached to some segments** from an offset on: one for
each, and one more for each fragment that ends inside of it. -/
def attachedFor (frag_size : ℕ) : ℕ → List ℕ → ℕ
  | _, [] => 0
  | ofs, len :: lens =>
    1 + ((ofs + len - 1) / frag_size - ofs / frag_size) + attachedFor frag_size (ofs + len) lens

/-- The lengths of what is left of some segments. -/
def restLens (pos : ℕ) : List Seg → List ℕ
  | [] => []
  | s :: rest => (s.dataLen - pos) :: rest.map Seg.dataLen

@[simp]
theorem restLens_zero (segs : List Seg) : restLens 0 segs = segs.map Seg.dataLen := by
  cases segs <;> simp [restLens]

/-- One fragment takes as many mbufs as are not needed any more. -/
theorem attachSegs_length (ofs : ℕ) {segs' : List Seg}
    (h : attachSegs remaining pos segs pool = some (out, segs', pos', pool'))
    (hpos : ∀ s rest, segs = s :: rest → pos ≤ s.dataLen) (hremaining : 0 < remaining)
    (hle : remaining ≤ frag_size) (hdvd : frag_size ∣ ofs + remaining) :
    out.length + attachedFor frag_size (ofs + (out.flatMap Seg.data).length) (restLens pos' segs') =
      attachedFor frag_size ofs (restLens pos segs) := by
  induction segs generalizing remaining pos ofs pool out with
  | nil =>
    simp only [attachSegs, some.injEq, Prod.mk.injEq] at h
    obtain ⟨rfl, rfl, rfl, rfl⟩ := h
    simp [restLens, attachedFor]
  | cons s rest ih =>
    have hpos' := hpos s rest rfl
    obtain ⟨c, hc⟩ := hdvd
    have hc0 : 0 < c := by
      rcases Nat.eq_zero_or_pos c with rfl | h0
      · rw [Nat.mul_zero] at hc
        omega
      · exact h0
    obtain ⟨b, rfl⟩ : ∃ b, c = b + 1 := ⟨c - 1, by omega⟩
    rw [Nat.mul_succ] at hc
    -- the offset is in the fragment with number `b`
    have hdiv : ∀ x, frag_size * b ≤ x → x < frag_size * b + frag_size → x / frag_size = b := by
      intro x hlo hhi
      refine Nat.div_eq_of_lt_le (by rw [Nat.mul_comm]; exact hlo) ?_
      rw [Nat.mul_comm, Nat.mul_succ]
      exact hhi
    cases pool with
    | nil => simp [attachSegs] at h
    | cons id pool =>
      simp only [attachSegs] at h
      by_cases hseg : pos + min remaining (s.dataLen - pos) = s.dataLen
      · have hlen : min remaining (s.dataLen - pos) = s.dataLen - pos := by omega
        have hpiece : ((s.data.drop pos).take (min remaining (s.dataLen - pos))).length =
            s.dataLen - pos := by
          rw [length_take, length_drop, ← Seg.dataLen]
          omega
        have hinside : (ofs + (s.dataLen - pos) - 1) / frag_size - ofs / frag_size = 0 := by
          rw [hdiv ofs (by omega) (by omega)]
          rcases Nat.eq_zero_or_pos (s.dataLen - pos) with h0 | h0
          · rw [h0, Nat.add_zero]
            have := Nat.div_le_div_right (c := frag_size) (Nat.sub_le ofs 1)
            rw [hdiv ofs (by omega) (by omega)] at this
            omega
          · rw [hdiv (ofs + (s.dataLen - pos) - 1) (by omega) (by omega)]
            omega
        rw [if_pos hseg] at h
        rw [restLens, attachedFor, hinside]
        by_cases hdone : remaining - min remaining (s.dataLen - pos) = 0
        · simp only [if_pos hdone, some.injEq, Prod.mk.injEq] at h
          obtain ⟨rfl, rfl, rfl, rfl⟩ := h
          rw [flatMap_singleton, hpiece, length_singleton, restLens_zero]
        · rw [if_neg hdone] at h
          obtain ⟨⟨out', r⟩, hrec, heq⟩ := map_eq_some_iff.mp h
          simp only [Prod.mk.injEq] at heq
          obtain ⟨rfl, rfl⟩ := heq
          have hrest := ih (ofs + (s.dataLen - pos)) hrec (fun _ _ _ => Nat.zero_le _)
            (by omega) (by omega) ⟨b + 1, by rw [Nat.mul_succ]; omega⟩
          rw [restLens_zero] at hrest
          rw [flatMap_cons, length_append, hpiece, length_cons, ← hrest,
            Nat.add_assoc ofs]
          omega
      · rw [if_neg hseg] at h
        simp only [some.injEq, Prod.mk.injEq] at h
        obtain ⟨rfl, rfl, rfl, rfl⟩ := h
        have hlen : min remaining (s.dataLen - pos) = remaining := by omega
        have htake : ((s.data.drop pos).take remaining).length = remaining := by
          rw [length_take, length_drop, ← Seg.dataLen]
          omega
        have hfrag : 0 < frag_size := by omega
        have hend : ofs + remaining = frag_size * (b + 1) := by rw [Nat.mul_succ]; exact hc
        rw [hlen, flatMap_singleton, htake, length_singleton, restLens, restLens,
          attachedFor, attachedFor, hdiv ofs (by omega) (by omega)]
        have hsum : ofs + remaining + (s.dataLen - (pos + remaining)) = ofs + (s.dataLen - pos) := by
          omega
        have hquot : (ofs + remaining) / frag_size = b + 1 := by
          rw [hend, Nat.mul_div_cancel_left _ hfrag]
        have hmore : b + 1 ≤ (ofs + (s.dataLen - pos) - 1) / frag_size := by
          rw [Nat.le_div_iff_mul_le hfrag, Nat.mul_comm, ← hend]
          omega
        rw [hsum, hquot]
        omega

/-- **All fragments together** have one mbuf each for the header and those that
are attached. -/
theorem cut_segs (hflag : flag_offset.toNat = 0 ∨ flag_offset.toNat = 2 ^ 15)
    (hdvd : hdrOffsetUnits ∣ frag_size) (hpos : 0 < frag_size) (hin : st.InOrder frag_size)
    (h : cut frag_size flag_offset direct indirect st = .ok frags) :
    (frags.map (fun f => f.segs.length)).sum = frags.length +
        attachedFor frag_size st.fragment_offset (restLens st.in_seg_data_pos st.in_segs) ∧
      ∀ f ∈ frags, f.nb_segs = f.segs.length % 2 ^ 16 := by
  induction frags generalizing direct indirect st with
  | nil =>
    have hnil := (cut_eq_nil_iff h).mp rfl
    rw [hnil]
    exact ⟨rfl, fun f hf => absurd hf not_mem_nil⟩
  | cons f fs ih =>
    obtain ⟨-, h0⟩ | ⟨-, mbuf, direct', indirect', out, in_segs, pos, fs', hattach, heq, hrec⟩ :=
      cut_step h
    · exact absurd h0 (cons_ne_nil _ _)
    obtain ⟨hf, rfl⟩ := cons.inj heq
    rw [← hf] at hrec
    obtain ⟨hpiece, hpayload, -, hnil, hne⟩ := hin.step hflag hdvd hpos mbuf hattach hf
    have hattached := attachSegs_length st.fragment_offset hattach hin.pos hpos (le_refl frag_size)
      (Nat.dvd_add hin.dvd (dvd_refl _))
    rw [← hpayload, ← hpiece.fragLen] at hattached
    have hnb : f.nb_segs = f.segs.length % 2 ^ 16 := by
      rw [hf]
      show (1 + out.length) % 2 ^ 16 = (out.length + 1) % 2 ^ 16
      rw [add_comm]
    have hsegs : f.segs.length = out.length + 1 := by
      rw [hf]
      rfl
    rw [map_cons, sum_cons, length_cons, hsegs, ← hattached]
    by_cases hlast : in_segs = []
    · obtain ⟨-, hnext⟩ := hnil hlast
      obtain rfl := (cut_eq_nil_iff hrec).mpr hnext
      rw [hlast]
      refine ⟨?_, fun g hg => ?_⟩
      · simp only [map_nil, sum_nil, length_nil, restLens, attachedFor]
        omega
      · rw [mem_singleton.mp hg]
        exact hnb
    · obtain ⟨hlen, hin', -, hofs, hsegs', hpos'⟩ := hne hlast
      obtain ⟨hsum, hcounts⟩ := ih hin' hrec
      rw [hofs, hsegs', hpos'] at hsum
      rw [hlen, hsum]
      refine ⟨by omega, fun g hg => ?_⟩
      rcases mem_cons.mp hg with rfl | hg
      · exact hnb
      · exact hcounts g hg

/-! ## A datagram -/

/-- **A datagram** that is not a fragment: it is as long as its header says, and
the header as long as its options need. -/
structure Datagram (pkt : Mbuf) : Prop where
  valid : pkt.Valid
  pkt_len : pkt.pkt_len = pkt.ip.total_length.toNat
  header : pkt.ip.headerLen = ipv4HdrSize + pkt.ip.options.length
  offset : pkt.ip.fragment_offset &&& hdrOffsetMask = 0
  more : pkt.ip.fragment_offset &&& hdrMfFlag = 0

/-- The payload of a datagram. -/
def Mbuf.datagram (pkt : Mbuf) : List UInt8 := pkt.bytes.drop pkt.ip.headerLen

theorem Mbuf.dataLen_le_bytes (m : Mbuf) : m.seg.dataLen ≤ m.bytes.length := by
  rw [bytes, segs, flatMap_cons, length_append, Seg.dataLen]
  exact le_add_right _ _

/-- How many bytes of a datagram a fragment has, if it is not the last one. -/
def Mbuf.fragSize (pkt : Mbuf) (mtu_size : ℕ) : ℕ :=
  (mtu_size - pkt.ip.headerLen) / hdrOffsetUnits * hdrOffsetUnits

/-- The state that the outer loop starts from. -/
def Mbuf.cutting (pkt : Mbuf) : Cutting where
  in_segs := pkt.segs
  in_seg_data_pos := pkt.ip.headerLen
  fragment_offset := 0
  in_hdr := pkt.ip
  header_len := pkt.ip.headerLen
  ipopt_len := pkt.ip.headerLen - ipv4HdrSize

/-- **A datagram is cut** only if it may be, and the outer loop starts in order. -/
theorem Datagram.cut {pkt : Mbuf} (hd : Datagram pkt) {nb_pkts_out : ℕ} {mtu_size : UInt16}
    {pool_direct pool_indirect : List ℕ}
    (h : rteIpv4FragmentPacket pkt nb_pkts_out mtu_size.toNat pool_direct pool_indirect =
      .ok frags) :
    IpFrag.cut (pkt.fragSize mtu_size.toNat) pkt.ip.fragment_offset pool_direct pool_indirect
        pkt.cutting = .ok frags ∧
      pkt.cutting.InOrder (pkt.fragSize mtu_size.toNat) ∧ 0 < pkt.fragSize mtu_size.toNat ∧
      (pkt.ip.fragment_offset.toNat = 0 ∨ pkt.ip.fragment_offset.toNat = 2 ^ 15) ∧
      pkt.ip.headerLen ≤ pkt.seg.dataLen := by
  rw [rteIpv4FragmentPacket] at h
  simp only at h
  split_ifs at h with hmtu hheader hdf hroom hoptions
  simp only [not_or, not_lt, not_not] at hmtu hheader hdf hoptions
  have hlt := mtu_size.toNat_lt
  have hsize : pkt.fragSize mtu_size.toNat ≤ mtu_size.toNat - pkt.ip.headerLen :=
    div_mul_le_self _ _
  have hpos : 0 < pkt.fragSize mtu_size.toNat := by
    rw [fragSize, hdrOffsetUnits]
    rw [etherMinMtu] at hmtu
    rw [ipv4HdrSize, hdrOptMaxLen] at hoptions
    omega
  have hfirst := pkt.dataLen_le_bytes
  have hpkt := hd.valid.pkt_len
  have htotal := pkt.ip.total_length.toNat_lt
  rw [hd.pkt_len] at hpkt
  refine ⟨h, ?_, hpos, flag_eq hdf hd.more hd.offset, hheader.1⟩
  exact
    { pos := fun s rest heq => by
        obtain ⟨rfl, -⟩ := cons.inj heq
        exact hheader.1
      nil := fun heq => absurd heq (cons_ne_nil _ _)
      dvd := dvd_zero _
      room := by
        show 0 + (pkt.bytes.drop pkt.ip.headerLen).length < 2 ^ 16
        rw [length_drop]
        omega
      header := by
        show pkt.ip.headerLen + pkt.fragSize mtu_size.toNat < 2 ^ 16
        omega
      header_len := hd.header
      options := by
        have heq := hd.header
        rw [Ipv4Hdr.headerLen, ihlMultiplier, ipv4HdrSize] at heq
        show ihlMultiplier ∣ pkt.ip.options.length
        rw [ihlMultiplier]
        omega }

end IpFrag
