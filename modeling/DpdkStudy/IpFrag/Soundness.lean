import DpdkStudy.IpFrag.Conservation

/-!
# What is returned

A packet that the reassembly returns is made of all fragments that were stored
for its key, which tile the datagram (`Sound`). Its lengths are right if each
packet is as long as its header says, what it has more can be cut off, its
headers lie in its first segment, and the datagram is not too long
(`Honest`, `Fitting`). None of this is checked.
-/

open List Option

namespace IpFrag

open Function Mbuf

/-! ## Cutting and chaining -/

namespace Mbuf

/-- The bytes of a packet without its headers. -/
def payload (m : Mbuf) : List UInt8 := m.bytes.drop (m.l2_len + m.l3_len)

theorem length_trimLast (len : ℕ) (l : List Seg) : (trimLast len l).length = l.length := by
  rw [← length_map (f := Seg.mbuf), map_mbuf_trimLast, length_map]

/-- What is left of some segments of which the last one is cut. -/
theorem length_flatMap_trimLast {len : ℕ} {l : List Seg} (hl : l ≠ [])
    (hlen : len ≤ (l.getLast hl).dataLen) :
    ((trimLast len l).flatMap Seg.data).length + len = (l.flatMap Seg.data).length := by
  induction l using trimLast.induct with
  | case1 => exact absurd rfl hl
  | case2 s =>
    rw [getLast_singleton, Seg.dataLen] at hlen
    simp [trimLast, Seg.dataLen]
    omega
  | case3 s t rest ih =>
    rw [getLast_cons (cons_ne_nil t rest)] at hlen
    have hrest := ih (cons_ne_nil t rest) hlen
    rw [trimLast, flatMap_cons, flatMap_cons, length_append, length_append]
    omega

theorem dataLen_trimLast {len n : ℕ} {l : List Seg} (h : ∀ s ∈ l, s.dataLen < n) :
    ∀ s ∈ trimLast len l, s.dataLen < n := by
  induction l using trimLast.induct with
  | case1 => exact h
  | case2 s =>
    intro t ht
    rw [trimLast, mem_singleton] at ht
    have hs := h s mem_cons_self
    rw [Seg.dataLen] at hs
    rw [ht, Seg.dataLen, length_take]
    exact lt_of_le_of_lt (Nat.min_le_right _ _) hs
  | case3 s t rest ih =>
    intro u hu
    rw [trimLast] at hu
    rcases mem_cons.mp hu with rfl | hu
    · exact h _ mem_cons_self
    · exact ih (fun v hv => h v (mem_cons_of_mem _ hv)) u hu

theorem Valid.trim {m : Mbuf} (hv : m.Valid) {len : ℕ} (h : len ≤ m.lastseg.dataLen) :
    (m.trim len).Valid ∧ (m.trim len).pkt_len = m.pkt_len - len := by
  have hsegs := segs_trim h
  have hbytes : (m.trim len).bytes.length + len = m.bytes.length := by
    rw [bytes, hsegs]
    exact length_flatMap_trimLast (cons_ne_nil _ _) h
  have hpkt : (m.trim len).pkt_len = m.pkt_len - len := by
    rw [Mbuf.trim, if_neg (Nat.not_lt.mpr h)]
  have hnb : (m.trim len).nb_segs = m.nb_segs := by
    rw [Mbuf.trim, if_neg (Nat.not_lt.mpr h)]
  have hvalid := hv.pkt_len
  refine ⟨⟨?_, ?_, by omega, ?_⟩, hpkt⟩
  · rw [hnb, hsegs, length_trimLast, hv.nb_segs]
  · rw [hnb]
    exact hv.nb_segs_le
  · rw [hsegs]
    exact dataLen_trimLast hv.data_len

/-- What is chained starts with the bytes of the first packet. -/
theorem chain_bytes {a b : Mbuf} (h : a.nb_segs + b.nb_segs ≤ maxNbSegs) :
    (a.chain b).bytes = a.bytes ++ b.bytes := by
  rw [chain_of_le h]
  simp [bytes, segs]

/-- A packet without its headers, if they are in its first segment. -/
theorem strip_eq {m : Mbuf} (h : m.l2_len + m.l3_len ≤ m.seg.dataLen) :
    m.strip.bytes = m.payload ∧ m.strip.pkt_len = m.pkt_len - (m.l2_len + m.l3_len) := by
  rw [strip, adj, if_neg (by omega), payload]
  refine ⟨?_, rfl⟩
  rw [Seg.dataLen] at h
  simp only [bytes, segs, flatMap_cons]
  rw [drop_append_of_le_length h]

/-- **What is chained has the payloads of all packets** behind the first one,
and their lengths. -/
theorem glue_eq {a : Mbuf} {bs : List Mbuf} (hnb : nbSegsOf (a :: bs) ≤ maxNbSegs)
    (hhead : ∀ b ∈ bs, b.l2_len + b.l3_len ≤ b.seg.dataLen)
    (hlen : ∀ b ∈ bs, b.pkt_len = b.l2_len + b.l3_len + b.fragLen) :
    (glue a bs).bytes = a.bytes ++ bs.flatMap payload ∧
      (glue a bs).pkt_len = a.pkt_len + (bs.map fragLen).sum := by
  induction bs generalizing a with
  | nil => simp [glue]
  | cons b bs ih =>
    rw [nbSegsOf_cons] at hnb
    obtain ⟨hbytes, hpkt⟩ := ih (a := b) (by omega)
      (fun c hc => hhead c (mem_cons_of_mem b hc))
      (fun c hc => hlen c (mem_cons_of_mem b hc))
    have hfits : a.nb_segs + (glue b bs).strip.nb_segs ≤ maxNbSegs := by
      rw [strip_nb_segs, glue_nb_segs (by omega)]
      omega
    have hheadb := hhead b mem_cons_self
    have hlenb := hlen b mem_cons_self
    obtain ⟨hstrip, hstriplen⟩ := strip_eq (m := glue b bs) (by
      rw [glue_l2_len, glue_l3_len, glue_seg]
      exact hheadb)
    constructor
    · rw [glue, chain_bytes hfits, hstrip, payload, hbytes, glue_l2_len, glue_l3_len,
        flatMap_cons, payload, drop_append_of_le_length]
      rw [Seg.dataLen] at hheadb
      rw [bytes, segs, flatMap_cons, length_append]
      omega
    · rw [glue, chain_of_le hfits]
      show a.pkt_len + (glue b bs).strip.pkt_len = _
      rw [hstriplen, hpkt, glue_l2_len, glue_l3_len, map_cons, sum_cons]
      omega

end Mbuf

/-! ## What packets rely on -/

/-- **A packet is as long as its header says**, or longer by what can be cut
off the last segment. Its headers are in the first segment, if it is not the
first fragment. -/
structure Honest (mb : Mbuf) : Prop where
  valid : mb.Valid
  long : mb.ip.total_length.toNat + mb.l2_len ≤ mb.pkt_len
  excess : mb.pkt_len - (mb.ip.total_length.toNat + mb.l2_len) ≤ mb.lastseg.dataLen
  headers : mb.ip.ofs ≠ 0 → mb.l2_len + mb.l3_len ≤ mb.trimmed.seg.dataLen

/-- What is stored is exactly as long as its header says. -/
theorem Honest.trimmed {mb : Mbuf} (h : Honest mb) :
    mb.trimmed.Valid ∧ mb.trimmed.pkt_len = mb.ip.total_length.toNat + mb.l2_len := by
  have hlast : mb.lastseg.dataLen < 2 ^ 16 :=
    h.valid.data_len _ (getLast_mem (cons_ne_nil _ _))
  have hlong := h.long
  have hexcess := h.excess
  have heq : mb.excess = ((mb.pkt_len - (mb.ip.total_length.toNat + mb.l2_len) : ℕ) : ℤ) := by
    rw [Mbuf.excess, Int.bmod_eq_of_le (by omega) (by omega)]
    omega
  rw [Mbuf.trimmed, heq]
  by_cases hpos : 0 < mb.pkt_len - (mb.ip.total_length.toNat + mb.l2_len)
  · rw [if_pos (by exact_mod_cast hpos), Int.toNat_natCast, Nat.mod_eq_of_lt (by omega)]
    obtain ⟨hvalid, hpkt⟩ := h.valid.trim hexcess
    exact ⟨hvalid, by omega⟩
  · rw [if_neg (by exact_mod_cast hpos)]
    exact ⟨h.valid, by omega⟩

section Run

variable (crc : FragKey → UInt32)

/-- **What a call relies on**: the packet is honest, and the datagram it makes
whole is not too long for a header, nor has it too many segments. -/
def Fitting (st : Option St) (c : Call) : Prop :=
  (0 < c.mb.fragLen → Honest c.mb) ∧
    ∀ s, st = some s → ∀ ms, Completes s.tbl c.mb c.tms ms →
      ∀ a bs total, (a :: bs).Perm ms → Tiles total a bs →
        total + a.l3_len < 2 ^ 16 ∧ nbSegsOf ms ≤ maxNbSegs

end Run

/-- **A packet that is returned is sound**: it is made of all fragments that
are stored for its key and the one that came in, which tile the datagram. Its
bytes are those of the first fragment and the payloads of the others, and its
lengths are right. -/
structure Sound (st : St) (c : Call) (out a : Mbuf) (bs : List Mbuf) (total : ℕ) : Prop where
  stored : ∃ p, (st.tbl.pkt p).key = some c.mb.ip.key ∧
    (a :: bs).Perm (c.mb.trimmed :: (st.tbl.pkt p).freed)
  passed : ∀ m ∈ a :: bs, m.ip.key = c.mb.ip.key ∧ ∃ m' ∈ c.mb :: st.passed, m = m'.trimmed
  tiles : Tiles total a bs
  bytes : out.bytes = a.bytes ++ bs.flatMap payload
  total_length : out.ip.total_length.toNat = out.l3_len + total
  pkt_len : out.pkt_len - out.l2_len = out.ip.total_length.toNat ∧ out.l2_len ≤ out.pkt_len ∧
    out.pkt_len = out.bytes.length

/-- What is true of a packet that is stored. -/
structure Kept (passed : List Mbuf) (m : Mbuf) : Prop where
  valid : m.Valid
  pkt_len : m.pkt_len = m.ip.total_length.toNat + m.l2_len
  headers : m.ip.ofs ≠ 0 → m.l2_len + m.l3_len ≤ m.seg.dataLen
  origin : ∃ m' ∈ passed, m = m'.trimmed

theorem Honest.kept {mb : Mbuf} (h : Honest mb) {passed : List Mbuf} (hmem : mb ∈ passed) :
    Kept passed mb.trimmed where
  valid := h.trimmed.1
  pkt_len := by rw [trimmed_ip, trimmed_l2_len]; exact h.trimmed.2
  headers hofs := by
    rw [trimmed_ip] at hofs
    rw [trimmed_l2_len, trimmed_l3_len]
    exact h.headers hofs
  origin := ⟨mb, hmem, rfl⟩

/-- **Fragments that are kept and tile a datagram** make up a packet whose
lengths are right. -/
theorem Tiles.assembled {passed : List Mbuf} {total : ℕ} {a : Mbuf} {bs : List Mbuf}
    (ht : Tiles total a bs) (hkept : ∀ m ∈ a :: bs, Kept passed m)
    (hpos : ∀ m ∈ a :: bs, 0 < m.fragLen) (htotal : total + a.l3_len < 2 ^ 16)
    (hnb : nbSegsOf (a :: bs) ≤ maxNbSegs) {out : Mbuf}
    (hout : out = { glue a bs with ip := wholeHdr a total }) :
    out.bytes = a.bytes ++ bs.flatMap payload ∧
      out.ip.total_length.toNat = out.l3_len + total ∧
      out.pkt_len - out.l2_len = out.ip.total_length.toNat ∧ out.l2_len ≤ out.pkt_len ∧
      out.pkt_len = out.bytes.length := by
  have hofs := ht.ofs_ne_zero hpos
  have hlens : ∀ m ∈ a :: bs, m.pkt_len = m.l2_len + m.l3_len + m.fragLen := by
    intro m hm
    have hm' := hpos m hm
    have hpkt := (hkept m hm).pkt_len
    rw [fragLen] at hm' ⊢
    omega
  obtain ⟨hbytes, hpkt⟩ := glue_eq hnb
    (fun b hb => (hkept b (mem_cons_of_mem a hb)).headers (hofs b hb))
    (fun b hb => hlens b (mem_cons_of_mem a hb))
  have hsum := ht.sum
  have ha := hlens a mem_cons_self
  have htl : (wholeHdr a total).total_length.toNat = a.l3_len + total := by
    rw [wholeHdr, UInt16.toNat_ofNat_of_lt' htotal, Nat.add_comm]
  have hlength : (bs.flatMap payload).length = (bs.map fragLen).sum := by
    rw [length_flatMap]
    congr 1
    refine map_congr_left (fun b hb => ?_)
    have hb' := hlens b (mem_cons_of_mem a hb)
    have hvalid := (hkept b (mem_cons_of_mem a hb)).valid.pkt_len
    rw [payload, length_drop]
    omega
  have hvalid := (hkept a mem_cons_self).valid.pkt_len
  have hl2 : out.l2_len = a.l2_len := by rw [hout]; exact glue_l2_len a bs
  have hl3 : out.l3_len = a.l3_len := by rw [hout]; exact glue_l3_len a bs
  have hip : out.ip.total_length.toNat = a.l3_len + total := by rw [hout]; exact htl
  have hpkt' : out.pkt_len = a.pkt_len + (bs.map fragLen).sum := by rw [hout]; exact hpkt
  have hbytes' : out.bytes = a.bytes ++ bs.flatMap payload := by rw [hout]; exact hbytes
  refine ⟨hbytes', by rw [hip, hl3], by omega, by omega, ?_⟩
  rw [hbytes', length_append, hlength]
  omega

/-! ## Runs -/

variable {crc : FragKey → UInt32}

/-- **The table holds honest packets only.** -/
def Sounding (crc : FragKey → UInt32) (st : Option St) : Prop :=
  ∀ s, st = some s → Tabled crc (Kept s.passed) s.tbl

theorem callStep_sounding {st : Option St} {c : Call} (hs : Sounding crc st)
    (hfit : Fitting st c) :
    Sounding crc (callStep crc st c) ∧ ∀ s tbl' dr out, st = some s →
      rteIpv4FragReassemblePacket crc s.tbl c.mb c.tms = some (tbl', dr, some out) →
      ∃ a bs total, Sound s c out a bs total := by
  cases st with
  | none => exact ⟨fun s h => by simp [callStep] at h, fun s tbl' dr out h => by simp at h⟩
  | some s =>
    have ht : Tabled crc (Kept (c.mb :: s.passed)) s.tbl := (hs s rfl).mono (fun m hm =>
      ⟨hm.valid, hm.pkt_len, hm.headers, hm.origin.imp (fun m' h =>
        ⟨mem_cons_of_mem _ h.1, h.2⟩)⟩)
    have hspec := rteIpv4FragReassemblePacket_spec ht
      (fun hpos : 0 < c.mb.fragLen => (hfit.1 hpos).kept mem_cons_self) c.tms
    rcases hspec with ⟨hnone, -⟩ | ⟨tbl', dr, out, heq, hrec⟩
    · refine ⟨fun s' h => ?_, fun s' tbl' dr out h h' => ?_⟩
      · rw [callStep, bind_some, hnone] at h
        simp at h
      · obtain rfl := some.inj h
        rw [hnone] at h'
        simp at h'
    · refine ⟨fun s' h => ?_, fun s' tbl'' dr' m h h' => ?_⟩
      · rw [callStep, bind_some, heq] at h
        obtain rfl := some.inj h
        exact hrec.tabled
      · obtain rfl := some.inj h
        rw [heq] at h'
        obtain ⟨rfl, hrest⟩ := Prod.mk.inj (some.inj h')
        obtain ⟨rfl, rfl⟩ := Prod.mk.inj hrest
        obtain ⟨ms, a, bs, total, hcompletes, hperm, htiles, hout⟩ := hrec.whole m rfl
        obtain ⟨htotal, hnb⟩ := hfit.2 s rfl ms hcompletes a bs total hperm htiles
        obtain ⟨p, hkey, -, rfl, -⟩ := hcompletes
        have hc := ht.collecting p _ hkey
        have hpos : 0 < c.mb.fragLen := by
          by_contra hzero
          rw [rteIpv4FragReassemblePacket, if_pos (by rw [fragLen] at hzero; omega)] at heq
          simp at heq
        have hmem : ∀ m ∈ a :: bs, Kept (c.mb :: s.passed) m ∧ m.ip.key = c.mb.ip.key ∧
            0 < m.fragLen := by
          intro m hm
          rcases mem_cons.mp (hperm.subset hm) with rfl | hm
          · exact ⟨(hfit.1 hpos).kept mem_cons_self, by rw [trimmed_ip],
              by rwa [trimmed_fragLen]⟩
          · exact hc.toGathered.freed hm
        rw [← nbSegsOf_perm hperm] at hnb
        obtain ⟨hbytes, htl, hlens⟩ := htiles.assembled (fun m hm => (hmem m hm).1)
          (fun m hm => (hmem m hm).2.2) htotal hnb hout
        exact ⟨a, bs, total, ⟨p, hkey, hperm⟩,
          fun m hm => ⟨(hmem m hm).2.1, (hmem m hm).1.origin⟩, htiles, hbytes, htl, hlens⟩

/-- **What the reassembly returns is sound**, after every run of calls whose
packets and datagrams are fitting. -/
theorem reassembly_sound (crc : FragKey → UInt32)
    (bucket_num bucket_entries max_entries : UInt32) (max_cycles : UInt64) (tbl : Tbl)
    (hcreate : rteIpFragTableCreate bucket_num bucket_entries max_entries max_cycles = some tbl)
    (calls : List Call) (c : Call)
    (hfit : Runs.Along (callStep crc) Fitting (some (St.fresh tbl)) (calls ++ [c])) :
    ∀ st tbl' dr out, Runs.run (callStep crc) (some (St.fresh tbl)) calls = some st →
      rteIpv4FragReassemblePacket crc st.tbl c.mb c.tms = some (tbl', dr, some out) →
      ∃ a bs total, Sound st c out a bs total := by
  obtain ⟨hbefore, hlast⟩ := hfit.append
  have hstart : Sounding crc (some (St.fresh tbl)) := by
    intro s h
    obtain rfl := some.inj h
    exact (rteIpFragTableCreate_spec hcreate).1
  have hrun := hbefore.invariant (fun _ _ hs hf => (callStep_sounding hs hf).1) hstart
  exact (callStep_sounding hrun hlast.1).2

/-- A table for one entry, of two it could be. -/
def oneEntry : Tbl :=
  { max_cycles := 0
    entry_mask := 1
    max_entries := 1
    use_entries := 0
    bucket_entries := 1
    nb_entries := 2
    last := none
    lru := []
    pkt := fun _ => FragPkt.zero }

theorem honest_eightBytes (mbuf : ℕ) (fragment_offset : UInt16) :
    Honest (eightBytes mbuf fragment_offset 1) where
  valid := eightBytes_valid mbuf fragment_offset (by decide) (by decide)
  long := (by decide : 28 ≤ 28)
  excess := Nat.zero_le _
  headers _ := by
    have hexcess : (eightBytes mbuf fragment_offset 1).excess = 0 := by
      simp [Mbuf.excess, eightBytes]
    rw [Mbuf.trimmed, if_neg (by rw [hexcess]; exact lt_irrefl 0)]
    exact (by decide : 20 ≤ 28)

/-- A datagram of sixteen bytes is returned. -/
theorem reassembly_sound_two_calls :
    ∃ st out, Runs.run (callStep (fun _ => 0)) (some (St.fresh oneEntry))
        [⟨eightBytes 0 hdrMfFlag 1, 0⟩] = some st ∧
      ∃ a bs total, Sound st ⟨eightBytes 100000 1 1, 0⟩ out a bs total := by
  have hout : ((Runs.run (callStep (fun _ => 0)) (some (St.fresh oneEntry))
      [⟨eightBytes 0 hdrMfFlag 1, 0⟩]).bind (fun st =>
        (rteIpv4FragReassemblePacket (fun _ => 0) st.tbl (eightBytes 100000 1 1) 0).bind
          (fun r => r.2.2))).isSome = true := by decide +kernel
  obtain ⟨out, hout⟩ := isSome_iff_exists.mp hout
  obtain ⟨st, hrun, hout⟩ := bind_eq_some_iff.mp hout
  obtain ⟨⟨tbl', dr, out'⟩, hcall, hout⟩ := bind_eq_some_iff.mp hout
  obtain rfl : out' = some out := hout
  refine ⟨st, out, hrun, reassembly_sound (fun _ => 0) 1 1 1 0 oneEntry rfl
    [⟨eightBytes 0 hdrMfFlag 1, 0⟩] ⟨eightBytes 100000 1 1, 0⟩
    ⟨⟨fun _ => honest_eightBytes _ _, ?_⟩, ⟨fun _ => honest_eightBytes _ _, ?_⟩, trivial⟩
    st tbl' dr out hrun hcall⟩
  · rintro s hs ms ⟨p, hkey, -⟩
    obtain rfl := some.inj hs
    simp [St.fresh, oneEntry, FragPkt.zero] at hkey
  · rintro s hs ms ⟨p, hkey, -, hms, -⟩ a bs total hperm htiles
    obtain rfl := some.inj hs
    cases p with
    | zero =>
      have hsmall : ∀ m ∈ ms, m.ip.ofs + m.fragLen ≤ 16 ∧ m.l3_len = 20 := by
        rw [hms]
        decide +kernel
      refine ⟨?_, by rw [hms]; decide +kernel⟩
      have hlast := htiles.last _ (getLast?_eq_some_getLast (cons_ne_nil a bs))
      have hend := (hsmall _ (hperm.subset (getLast_mem (cons_ne_nil a bs)))).1
      have hl3 := (hsmall a (hperm.subset mem_cons_self)).2
      omega
    | succ p =>
      have hnone : none = some (eightBytes 100000 1 1).ip.key := hkey
      simp at hnone

/-- A last fragment whose header says that it has a thousand bytes more. -/
def tooShort : Mbuf :=
  { eightBytes 100000 1 1 with
    ip := { (eightBytes 100000 1 1).ip with total_length := 1028 } }

/-- **What a header says is believed.** A packet is returned whose header says
that it has a thousand bytes more than it has. -/
theorem reassembly_unsound :
    ¬ ∀ (tbl : Tbl) (calls : List Call) (c : Call), rteIpFragTableCreate 1 1 1 0 = some tbl →
      (∀ c' ∈ calls ++ [c], c'.mb.Valid) → ∀ st tbl' dr out,
      Runs.run (callStep (fun _ => 0)) (some (St.fresh tbl)) calls = some st →
      rteIpv4FragReassemblePacket (fun _ => 0) st.tbl c.mb c.tms = some (tbl', dr, some out) →
      ∃ a bs total, Sound st c out a bs total := by
  intro hall
  have hout : ((Runs.run (callStep (fun _ => 0)) (some (St.fresh oneEntry))
      [⟨eightBytes 0 hdrMfFlag 1, 0⟩]).bind (fun st =>
        (rteIpv4FragReassemblePacket (fun _ => 0) st.tbl tooShort 0).bind
          (fun r => r.2.2))).map (fun m => (m.pkt_len, m.l2_len, m.ip.total_length)) =
      some (36, 0, 1036) := by decide +kernel
  obtain ⟨out, hout, hlens⟩ := map_eq_some_iff.mp hout
  obtain ⟨st, hrun, hout⟩ := bind_eq_some_iff.mp hout
  obtain ⟨⟨tbl', dr, out'⟩, hcall, hout⟩ := bind_eq_some_iff.mp hout
  obtain rfl : out' = some out := hout
  have hvalid := eightBytes_valid 100000 1 (by decide : 0 < 1) (by decide)
  obtain ⟨a, bs, total, hsound⟩ := hall oneEntry [⟨eightBytes 0 hdrMfFlag 1, 0⟩] ⟨tooShort, 0⟩ rfl
    (by
      intro c hc
      simp only [singleton_append, mem_cons, not_mem_nil, or_false] at hc
      rcases hc with rfl | rfl
      · exact eightBytes_valid 0 hdrMfFlag (by decide) (by decide)
      · exact ⟨hvalid.nb_segs, hvalid.nb_segs_le, hvalid.pkt_len, hvalid.data_len⟩)
    st tbl' dr out hrun hcall
  have hlen := hsound.pkt_len.1
  simp only [Prod.mk.injEq] at hlens
  rw [hlens.1, hlens.2.1, hlens.2.2] at hlen
  exact absurd hlen (by decide)

end IpFrag
