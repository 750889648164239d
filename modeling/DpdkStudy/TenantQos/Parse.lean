import Mathlib.Tactic.Common
import Mathlib.Algebra.Group.Nat.Defs

/-!
# The five-tuple parser

`dp_parse_5tuple` (`dataplane/parse.c`) reads the headers of a received
packet through the data pointer of its first segment. The bytes it reads
are logged (`ReadM`), so that *where* it reads is part of what it computes.

The parser checks its bounds against `pkt_len`, the length of the whole
chain, while `data_len` is what the first segment holds; and it looks at
neither the version nor the fragment offset. `HeadersPlaced` says, header by
header, when that makes no difference, and `parses5Tuple_iff` that it is
exactly then that the parser stays inside the segment and accepts the
packets it is for.

Multi-byte fields are loaded in host order, and the host is little-endian.
-/

namespace TenantQos

/-- **The key of a flow** (`struct dp_flow_key`), addresses and ports in
network order. -/
structure DpFlowKey where
  srcIp : UInt32
  dstIp : UInt32
  srcPort : UInt16
  dstPort : UInt16
  protocol : UInt8
deriving DecidableEq, Repr

/-- **A received packet**, as far as the parser sees it. -/
structure RteMbuf where
  /-- The memory from the data pointer of the first segment on. -/
  mem : ℕ → UInt8
  /-- The bytes of the first segment. -/
  dataLen : UInt16
  /-- The bytes of the whole chain. -/
  pktLen : UInt32

/-- A computation that logs the offsets it reads. -/
abbrev ReadM := StateM (List ℕ)

namespace ReadM

theorem run_bind {α β : Type} (x : ReadM α) (f : α → ReadM β) (log : List ℕ) :
    (x >>= f).run log = (f (x.run log).1).run (x.run log).2 := rfl

theorem run_ite {α : Type} (c : Prop) [Decidable c] (x y : ReadM α) (log : List ℕ) :
    (if c then x else y).run log = if c then x.run log else y.run log := by
  split <;> rfl

end ReadM

namespace RteMbuf

/-- The two bytes at `off`, as a host-order value. -/
def u16At (m : RteMbuf) (off : ℕ) : UInt16 :=
  UInt16.ofNat ((m.mem off).toNat + 2 ^ 8 * (m.mem (off + 1)).toNat)

/-- The four bytes at `off`, as a host-order value. -/
def u32At (m : RteMbuf) (off : ℕ) : UInt32 :=
  UInt32.ofNat ((m.mem off).toNat + 2 ^ 8 * (m.mem (off + 1)).toNat
    + 2 ^ 16 * (m.mem (off + 2)).toNat + 2 ^ 24 * (m.mem (off + 3)).toNat)

/-- The offsets of a field of `n` bytes. -/
def fieldOffsets (off n : ℕ) : List ℕ := (List.range n).map (off + ·)

/-- A one-byte field. -/
def load8 (m : RteMbuf) (off : ℕ) : ReadM UInt8 := do
  modify (· ++ fieldOffsets off 1)
  return m.mem off

/-- A two-byte field, in host order. -/
def load16 (m : RteMbuf) (off : ℕ) : ReadM UInt16 := do
  modify (· ++ fieldOffsets off 2)
  return m.u16At off

/-- A four-byte field, in host order. -/
def load32 (m : RteMbuf) (off : ℕ) : ReadM UInt32 := do
  modify (· ++ fieldOffsets off 4)
  return m.u32At off

theorem run_load8 (m : RteMbuf) (off : ℕ) (log : List ℕ) :
    (m.load8 off).run log = (m.mem off, log ++ fieldOffsets off 1) := rfl

theorem run_load16 (m : RteMbuf) (off : ℕ) (log : List ℕ) :
    (m.load16 off).run log = (m.u16At off, log ++ fieldOffsets off 2) := rfl

theorem run_load32 (m : RteMbuf) (off : ℕ) (log : List ℕ) :
    (m.load32 off).run log = (m.u32At off, log ++ fieldOffsets off 4) := rfl

end RteMbuf

/-- `sizeof(struct rte_ether_hdr)`. -/
def rteEtherHdrLen : ℕ := 14

/-- `sizeof(struct rte_ipv4_hdr)`. -/
def rteIpv4HdrLen : ℕ := 20

/-- `sizeof(struct rte_udp_hdr)`. -/
def rteUdpHdrLen : ℕ := 8

/-- `sizeof(struct rte_tcp_hdr)`. -/
def rteTcpHdrLen : ℕ := 20

/-- `rte_cpu_to_be_16` on a little-endian host. -/
def rteCpuToBe16 (x : UInt16) : UInt16 := (x >>> 8) ||| (x <<< 8)

/-- `RTE_ETHER_TYPE_IPV4`. -/
def rteEtherTypeIpv4 : UInt16 := 0x0800

/-- `IPPROTO_TCP`. -/
def ipprotoTcp : UInt8 := 6

/-- `IPPROTO_UDP`. -/
def ipprotoUdp : UInt8 := 17

/-- The ports of a UDP or TCP header at `offset`, with the rest of the key
already read. -/
def dpParsePorts (mbuf : RteMbuf) (offset : ℕ) (srcIp dstIp : UInt32) (protocol : UInt8) :
    ReadM (Option DpFlowKey) := do
  let srcPort ← mbuf.load16 offset
  let dstPort ← mbuf.load16 (offset + 2)
  return some ⟨srcIp, dstIp, srcPort, dstPort, protocol⟩

/-- **`dp_parse_5tuple`**: the key of the packet, and no key where the C
function returns `-1`. -/
def dpParse5Tuple (mbuf : RteMbuf) : ReadM (Option DpFlowKey) := do
  let pktLen := mbuf.pktLen.toNat
  if pktLen < rteEtherHdrLen then
    return none
  let etherType ← mbuf.load16 12
  if etherType ≠ rteCpuToBe16 rteEtherTypeIpv4 then
    return none
  if pktLen < rteEtherHdrLen + rteIpv4HdrLen then
    return none
  let versionIhl ← mbuf.load8 rteEtherHdrLen
  let ihl := ((versionIhl &&& 0x0f) * 4).toNat
  if ihl < rteIpv4HdrLen then
    return none
  if pktLen < rteEtherHdrLen + ihl then
    return none
  let offset := rteEtherHdrLen + ihl
  let srcIp ← mbuf.load32 (rteEtherHdrLen + 12)
  let dstIp ← mbuf.load32 (rteEtherHdrLen + 16)
  let protocol ← mbuf.load8 (rteEtherHdrLen + 9)
  if protocol = ipprotoUdp then
    if pktLen < offset + rteUdpHdrLen then
      return none
    return ← dpParsePorts mbuf offset srcIp dstIp protocol
  if protocol = ipprotoTcp then
    if pktLen < offset + rteTcpHdrLen then
      return none
    return ← dpParsePorts mbuf offset srcIp dstIp protocol
  return none

namespace RteMbuf

/-- The answer of the parser. -/
def parsed (m : RteMbuf) : Option DpFlowKey := ((dpParse5Tuple m).run []).1

/-- The offsets the parser reads. -/
def reads (m : RteMbuf) : List ℕ := ((dpParse5Tuple m).run []).2

end RteMbuf
/-! ## The parser, exit by exit -/

namespace RteMbuf

/-- The length of the IPv4 header, as its IHL field states it. -/
def ipHdrLen (m : RteMbuf) : ℕ := ((m.mem 14 &&& 0x0f) * 4).toNat

/-- The key at the offsets where the headers put it. -/
def keyAt (m : RteMbuf) : DpFlowKey :=
  ⟨m.u32At 26, m.u32At 30, m.u16At (14 + m.ipHdrLen), m.u16At (14 + m.ipHdrLen + 2), m.mem 23⟩

/-- What is read of an IPv4 header: its version byte, its addresses and its
protocol. -/
def ipReads : List ℕ :=
  fieldOffsets 12 2 ++ fieldOffsets 14 1 ++ fieldOffsets 26 4 ++ fieldOffsets 30 4
    ++ fieldOffsets 23 1

/-- What is read of a transport header: its ports. -/
def portReads (m : RteMbuf) : List ℕ :=
  fieldOffsets (14 + m.ipHdrLen) 2 ++ fieldOffsets (14 + m.ipHdrLen + 2) 2

end RteMbuf

open RteMbuf

/-- The parser, exit by exit: what it answers and what it has read. -/
theorem run_dpParse5Tuple (m : RteMbuf) :
    (dpParse5Tuple m).run [] =
      if m.pktLen.toNat < 14 then (none, [])
      else if m.u16At 12 ≠ rteCpuToBe16 rteEtherTypeIpv4 then (none, fieldOffsets 12 2)
      else if m.pktLen.toNat < 34 then (none, fieldOffsets 12 2)
      else if m.ipHdrLen < 20 then (none, fieldOffsets 12 2 ++ fieldOffsets 14 1)
      else if m.pktLen.toNat < 14 + m.ipHdrLen then
        (none, fieldOffsets 12 2 ++ fieldOffsets 14 1)
      else if m.mem 23 = ipprotoUdp then
        if m.pktLen.toNat < 14 + m.ipHdrLen + 8 then (none, ipReads)
        else (some m.keyAt, ipReads ++ m.portReads)
      else if m.mem 23 = ipprotoTcp then
        if m.pktLen.toNat < 14 + m.ipHdrLen + 20 then (none, ipReads)
        else (some m.keyAt, ipReads ++ m.portReads)
      else (none, ipReads) := by
  rw [dpParse5Tuple]
  dsimp only
  rw [ReadM.run_ite, ReadM.run_bind, run_load16]
  dsimp only
  rw [ReadM.run_ite, ReadM.run_ite, ReadM.run_bind, run_load8]
  dsimp only
  rw [ReadM.run_ite, ReadM.run_ite, ReadM.run_bind, run_load32]
  dsimp only
  rw [ReadM.run_bind, run_load32]
  dsimp only
  rw [ReadM.run_bind, run_load8]
  dsimp only
  rw [ReadM.run_ite, ReadM.run_ite, ReadM.run_ite, ReadM.run_ite]
  rfl

/-! ## The fields -/

namespace RteMbuf

/-- A range of offsets lies below `d` exactly when it ends by `d`. -/
theorem forall_mem_fieldOffsets_lt {off n d : ℕ} (hn : 0 < n) :
    (∀ o ∈ fieldOffsets off n, o < d) ↔ off + n ≤ d := by
  simp only [fieldOffsets, List.mem_map, List.mem_range, forall_exists_index, and_imp,
    forall_apply_eq_imp_iff₂]
  constructor
  · intro h
    have hlast := h (n - 1) (by omega)
    omega
  · intro h k hk
    omega

/-- The EtherType field holds IPv4 exactly when its two bytes do. -/
theorem u16At_eq_ipv4_iff (m : RteMbuf) :
    m.u16At 12 = rteCpuToBe16 rteEtherTypeIpv4 ↔ m.mem 12 = 0x08 ∧ m.mem 13 = 0x00 := by
  have hval : rteCpuToBe16 rteEtherTypeIpv4 = 8 := by decide
  have h₁₂ := (m.mem 12).toNat_lt
  have h₁₃ := (m.mem 13).toNat_lt
  have hu : (m.u16At 12).toNat = (m.mem 12).toNat + 2 ^ 8 * (m.mem 13).toNat :=
    UInt16.toNat_ofNat_of_lt (by show (m.mem 12).toNat + 2 ^ 8 * (m.mem 13).toNat < 2 ^ 16; omega)
  rw [hval, ← UInt16.toNat_inj, ← UInt8.toNat_inj, ← UInt8.toNat_inj, hu]
  show (m.mem 12).toNat + 2 ^ 8 * (m.mem 13).toNat = 8
    ↔ (m.mem 12).toNat = 8 ∧ (m.mem 13).toNat = 0
  omega

theorem ipHdrLen_eq (m : RteMbuf) : m.ipHdrLen = 4 * ((m.mem 14).toNat % 16) := by
  have hand : (m.mem 14).toNat &&& 15 = (m.mem 14).toNat % 16 :=
    Nat.and_two_pow_sub_one_eq_mod _ 4
  unfold ipHdrLen
  rw [UInt8.toNat_mul, UInt8.toNat_and]
  show ((m.mem 14).toNat &&& 15) * 4 % 256 = _
  rw [hand]
  omega

/-! ## What the parser accepts and where it reads -/

/-- The transport header ends by `len`. -/
def TransportEndsBy (m : RteMbuf) (len : ℕ) : Prop :=
  (m.mem 23 = ipprotoUdp ∧ 14 + m.ipHdrLen + 8 ≤ len)
    ∨ (m.mem 23 = ipprotoTcp ∧ 14 + m.ipHdrLen + 20 ≤ len)

/-- The packet is of EtherType IPv4. -/
def IsIpv4 (m : RteMbuf) : Prop := m.mem 12 = 0x08 ∧ m.mem 13 = 0x00

/-- **What the parser accepts**: an IPv4 header of at least five words and a
transport header, inside `pkt_len`. -/
def Accepted (m : RteMbuf) : Prop :=
  m.IsIpv4 ∧ 20 ≤ m.ipHdrLen ∧ m.TransportEndsBy m.pktLen.toNat

/-- **The packets the parser is for**: Ethernet, an IPv4 header of version 4
with at least five words and fragment offset zero, and a whole TCP or UDP
header behind it, all of it in the first segment. -/
structure IsTransportPacket (m : RteMbuf) : Prop where
  etherType : m.IsIpv4
  version : (m.mem 14).toNat / 16 = 4
  ihl : 5 ≤ (m.mem 14).toNat % 16
  unfragmented : (m.mem 20).toNat % 32 = 0 ∧ m.mem 21 = 0
  transport : m.TransportEndsBy m.dataLen.toNat

/-- **The parser does what it is for**: it reads inside the first segment,
it accepts exactly the transport packets, and the key it gives them is the
one at the offsets of their headers. -/
def ParsesTransport (m : RteMbuf) : Prop :=
  (∀ o ∈ m.reads, o < m.dataLen.toNat)
    ∧ (m.parsed.isSome ↔ m.IsTransportPacket)
    ∧ ∀ key, m.parsed = some key → key = m.keyAt

/-- **The condition**: what the parser takes from `pkt_len` also holds of
the first segment. Each header it goes on to read lies in the segment; a
packet it accepts is of version 4, unfragmented and whole in the segment;
and `pkt_len` does not cut off a packet that is whole in the segment. -/
structure HeadersPlaced (m : RteMbuf) : Prop where
  ethernet : 14 ≤ m.pktLen.toNat → 14 ≤ m.dataLen.toNat
  versionByte : m.IsIpv4 → 34 ≤ m.pktLen.toNat → 15 ≤ m.dataLen.toNat
  ipHeader : m.IsIpv4 → 34 ≤ m.pktLen.toNat → 20 ≤ m.ipHdrLen →
    14 + m.ipHdrLen ≤ m.pktLen.toNat → 34 ≤ m.dataLen.toNat
  accepted : m.Accepted → (m.mem 14).toNat / 16 = 4
    ∧ ((m.mem 20).toNat % 32 = 0 ∧ m.mem 21 = 0) ∧ m.TransportEndsBy m.dataLen.toNat
  counted : m.IsTransportPacket → m.TransportEndsBy m.pktLen.toNat

theorem parsed_eq (m : RteMbuf) [Decidable m.Accepted] :
    m.parsed = if m.Accepted then some m.keyAt else none := by
  have hE : m.u16At 12 ≠ rteCpuToBe16 rteEtherTypeIpv4 ↔ ¬ m.IsIpv4 :=
    not_congr m.u16At_eq_ipv4_iff
  have hproto : ipprotoUdp ≠ ipprotoTcp := by decide
  unfold parsed
  rw [run_dpParse5Tuple]
  by_cases hA : m.Accepted
  · obtain ⟨hip, hihl, hend⟩ := id hA
    rw [if_pos hA, if_neg (by rcases hend with ⟨-, h⟩ | ⟨-, h⟩ <;> omega),
      if_neg (by rw [hE]; exact not_not.mpr hip),
      if_neg (by rcases hend with ⟨-, h⟩ | ⟨-, h⟩ <;> omega), if_neg (by omega),
      if_neg (by rcases hend with ⟨-, h⟩ | ⟨-, h⟩ <;> omega)]
    rcases hend with ⟨hp, hlen⟩ | ⟨hp, hlen⟩
    · rw [if_pos hp, if_neg (by omega)]
    · rw [if_neg (by rw [hp]; exact hproto.symm), if_pos hp, if_neg (by omega)]
  · rw [if_neg hA]
    split_ifs with h₁ h₂ h₃ h₄ h₅ h₆ h₇ h₈ h₉
    · rfl
    · rfl
    · rfl
    · rfl
    · rfl
    · rfl
    · exact absurd ⟨not_not.mp (mt hE.mpr h₂), by omega, Or.inl ⟨h₆, by omega⟩⟩ hA
    · rfl
    · exact absurd ⟨not_not.mp (mt hE.mpr h₂), by omega, Or.inr ⟨h₈, by omega⟩⟩ hA
    · rfl

/-- The reads of an IPv4 header end with its destination address. -/
theorem forall_mem_ipReads_lt {d : ℕ} : (∀ o ∈ ipReads, o < d) ↔ 34 ≤ d := by
  simp only [ipReads, List.forall_mem_append, forall_mem_fieldOffsets_lt, Nat.zero_lt_succ]
  omega

/-- The reads of a transport header are its first four bytes. -/
theorem forall_mem_portReads_lt {m : RteMbuf} {d : ℕ} :
    (∀ o ∈ m.portReads, o < d) ↔ 14 + m.ipHdrLen + 4 ≤ d := by
  simp only [portReads, List.forall_mem_append, forall_mem_fieldOffsets_lt, Nat.zero_lt_succ]
  omega

/-- Where the parser reads: the headers it reaches lie below `d`. -/
theorem forall_mem_reads_lt (m : RteMbuf) (d : ℕ) :
    (∀ o ∈ m.reads, o < d)
      ↔ (14 ≤ m.pktLen.toNat → 14 ≤ d)
        ∧ (m.IsIpv4 → 34 ≤ m.pktLen.toNat → 15 ≤ d)
        ∧ (m.IsIpv4 → 34 ≤ m.pktLen.toNat → 20 ≤ m.ipHdrLen →
            14 + m.ipHdrLen ≤ m.pktLen.toNat → 34 ≤ d)
        ∧ (m.Accepted → 14 + m.ipHdrLen + 4 ≤ d) := by
  have hE : m.u16At 12 ≠ rteCpuToBe16 rteEtherTypeIpv4 ↔ ¬ m.IsIpv4 :=
    not_congr m.u16At_eq_ipv4_iff
  have hfrom : m.Accepted → m.IsIpv4 ∧ 20 ≤ m.ipHdrLen ∧ 14 + m.ipHdrLen + 8 ≤ m.pktLen.toNat := by
    rintro ⟨hip, hihl, hend⟩
    refine ⟨hip, hihl, ?_⟩
    rcases hend with ⟨-, h⟩ | ⟨-, h⟩ <;> omega
  -- once the addresses are read, the first two bounds follow from the third
  have hdeep : m.IsIpv4 → 34 ≤ m.pktLen.toNat → 20 ≤ m.ipHdrLen →
      14 + m.ipHdrLen ≤ m.pktLen.toNat →
      ((34 ≤ d ∧ (m.Accepted → 14 + m.ipHdrLen + 4 ≤ d))
        ↔ (14 ≤ m.pktLen.toNat → 14 ≤ d)
          ∧ (m.IsIpv4 → 34 ≤ m.pktLen.toNat → 15 ≤ d)
          ∧ (m.IsIpv4 → 34 ≤ m.pktLen.toNat → 20 ≤ m.ipHdrLen →
              14 + m.ipHdrLen ≤ m.pktLen.toNat → 34 ≤ d)
          ∧ (m.Accepted → 14 + m.ipHdrLen + 4 ≤ d)) := fun hip h34 h20 hlen =>
    ⟨fun h => ⟨fun _ => by omega, fun _ _ => by omega, fun _ _ _ _ => h.1, h.2⟩,
      fun h => ⟨h.2.2.1 hip h34 h20 hlen, h.2.2.2⟩⟩
  unfold reads
  rw [run_dpParse5Tuple]
  -- exit by exit: what has been read there, against the bounds that are reached there
  split_ifs with h₁ h₂ h₃ h₄ h₅ h₆ h₇ h₈ h₉
  · simp only [List.not_mem_nil, false_imp_iff, implies_true, true_iff]
    exact ⟨fun _ => by omega, fun _ _ => by omega, fun _ _ => by omega,
      fun hA => by have := hfrom hA; omega⟩
  · have hip := hE.mp h₂
    simp only [forall_mem_fieldOffsets_lt, Nat.zero_lt_succ]
    exact ⟨fun h => ⟨fun _ => h, fun hi => absurd hi hip, fun hi => absurd hi hip,
      fun hA => absurd (hfrom hA).1 hip⟩, fun h => h.1 (by omega)⟩
  · simp only [forall_mem_fieldOffsets_lt, Nat.zero_lt_succ]
    exact ⟨fun h => ⟨fun _ => h, fun _ _ => by omega, fun _ _ => by omega,
      fun hA => by have := hfrom hA; omega⟩, fun h => h.1 (by omega)⟩
  · have hip := not_not.mp (mt hE.mpr h₂)
    simp only [List.forall_mem_append, forall_mem_fieldOffsets_lt, Nat.zero_lt_succ]
    exact ⟨fun h => ⟨fun _ => h.1, fun _ _ => h.2, fun _ _ _ => by omega,
      fun hA => by have := hfrom hA; omega⟩,
      fun h => ⟨h.1 (by omega), h.2.1 hip (by omega)⟩⟩
  · have hip := not_not.mp (mt hE.mpr h₂)
    simp only [List.forall_mem_append, forall_mem_fieldOffsets_lt, Nat.zero_lt_succ]
    exact ⟨fun h => ⟨fun _ => h.1, fun _ _ => h.2, fun _ _ _ _ => by omega,
      fun hA => by have := hfrom hA; omega⟩,
      fun h => ⟨h.1 (by omega), h.2.1 hip (by omega)⟩⟩
  all_goals
    have hip := not_not.mp (mt hE.mpr h₂)
    rw [← hdeep hip (by omega) (by omega) (by omega)]
    simp only [List.forall_mem_append, forall_mem_ipReads_lt, forall_mem_portReads_lt]
  · exact ⟨fun h => ⟨h, fun hA => by
      rcases hA.2.2 with ⟨-, hlen⟩ | ⟨hp, -⟩
      · omega
      · exact absurd (h₆.symm.trans hp) (by decide)⟩, fun h => h.1⟩
  · exact and_congr_right (fun _ =>
      ⟨fun h _ => h, fun h => h ⟨hip, by omega, Or.inl ⟨h₆, by omega⟩⟩⟩)
  · exact ⟨fun h => ⟨h, fun hA => by
      rcases hA.2.2 with ⟨hp, -⟩ | ⟨-, hlen⟩
      · exact absurd hp h₆
      · omega⟩, fun h => h.1⟩
  · exact and_congr_right (fun _ =>
      ⟨fun h _ => h, fun h => h ⟨hip, by omega, Or.inr ⟨h₈, by omega⟩⟩⟩)
  · exact ⟨fun h => ⟨h, fun hA => by
      rcases hA.2.2 with ⟨hp, -⟩ | ⟨hp, -⟩
      · exact absurd hp h₆
      · exact absurd hp h₈⟩, fun h => h.1⟩

/-- **When the parser does what it is for**: for every packet, exactly when
its headers lie where `pkt_len` lets the parser look for them. -/
theorem parses5Tuple_iff (m : RteMbuf) : m.ParsesTransport ↔ m.HeadersPlaced := by
  classical
  have hsome : m.parsed.isSome ↔ m.Accepted := by
    rw [parsed_eq]
    split_ifs with h <;> simp [h]
  have hkey : ∀ key, m.parsed = some key → key = m.keyAt := by
    intro key hk
    rw [parsed_eq] at hk
    split_ifs at hk with h
    exact (Option.some.inj hk).symm
  unfold ParsesTransport
  rw [forall_mem_reads_lt, hsome]
  constructor
  · rintro ⟨⟨heth, hver, hhdr, -⟩, hacc, -⟩
    exact ⟨heth, hver, hhdr,
      fun hA => ⟨(hacc.mp hA).version, (hacc.mp hA).unfragmented, (hacc.mp hA).transport⟩,
      fun hT => (hacc.mpr hT).2.2⟩
  · intro h
    refine ⟨⟨h.ethernet, h.versionByte, h.ipHeader, fun hA => ?_⟩, ⟨fun hA => ?_, fun hT => ?_⟩,
      hkey⟩
    · rcases (h.accepted hA).2.2 with ⟨-, hlen⟩ | ⟨-, hlen⟩ <;> omega
    · obtain ⟨hversion, hfrag, hend⟩ := h.accepted hA
      have hihl := hA.2.1
      rw [ipHdrLen_eq] at hihl
      exact ⟨hA.1, hversion, by omega, hfrag, hend⟩
    · have hihl := hT.ihl
      exact ⟨hT.etherType, by rw [ipHdrLen_eq]; omega, h.counted hT⟩

/-! ## A packet in two segments -/

/-- The memory of a UDP packet without options: EtherType, version and IHL,
protocol, all other bytes zero. -/
def udpMem (versionIhl fragment : UInt8) : ℕ → UInt8
  | 12 => 0x08
  | 14 => versionIhl
  | 21 => fragment
  | 23 => ipprotoUdp
  | _ => 0

/-- **The bounds are those of the chain.** A UDP packet of 42 bytes whose
first segment ends after the Ethernet header: the parser accepts it, reading
up to 24 bytes past the segment. The whole packet in one segment is accepted
just as well when it is a later fragment, or of version 6. -/
theorem parses5Tuple_reads_past_segment :
    ¬ ParsesTransport ⟨udpMem 0x45 0, 14, 42⟩
      ∧ (⟨udpMem 0x45 0, 14, 42⟩ : RteMbuf).parsed.isSome = true
      ∧ 37 ∈ (⟨udpMem 0x45 0, 14, 42⟩ : RteMbuf).reads
      ∧ ¬ ParsesTransport ⟨udpMem 0x45 1, 42, 42⟩
      ∧ (⟨udpMem 0x45 1, 42, 42⟩ : RteMbuf).parsed.isSome = true
      ∧ ¬ ParsesTransport ⟨udpMem 0x65 0, 42, 42⟩
      ∧ (⟨udpMem 0x65 0, 42, 42⟩ : RteMbuf).parsed.isSome = true := by
  refine ⟨fun h => ?_, by decide, by decide, fun h => ?_, by decide, fun h => ?_, by decide⟩
  · exact absurd (h.1 37 (by decide)) (by decide)
  · exact absurd (h.2.1.mp (by decide)).unfragmented (by decide)
  · exact absurd (h.2.1.mp (by decide)).version (by decide)

end RteMbuf

end TenantQos
