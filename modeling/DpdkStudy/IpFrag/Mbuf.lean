import Mathlib.Algebra.BigOperators.Group.List.Basic
import Mathlib.Data.Multiset.AddSub
import Mathlib.Data.Int.Init

/-!
# Packets in segments

A packet is a chain of mbufs, each with a segment of its data
(`lib/mbuf/rte_mbuf.h`). The first one knows how long the packet is and how
many segments it has. A header of IP version 4 lies behind the header of the
link, in the first segment: its fields are kept beside the bytes it takes up,
in the byte order of the host.
-/

namespace IpFrag

/-- **A header** (`struct rte_ipv4_hdr`) with its options. -/
structure Ipv4Hdr where
  version_ihl : UInt8
  type_of_service : UInt8
  total_length : UInt16
  packet_id : UInt16
  fragment_offset : UInt16
  time_to_live : UInt8
  next_proto_id : UInt8
  hdr_checksum : UInt16
  src_addr : UInt32
  dst_addr : UInt32
  options : List UInt8
deriving DecidableEq, Repr

/-- `RTE_IPV4_HDR_DF_FLAG`. -/
def hdrDfFlag : UInt16 := 0x4000

/-- `RTE_IPV4_HDR_MF_FLAG`. -/
def hdrMfFlag : UInt16 := 0x2000

/-- `RTE_IPV4_HDR_OFFSET_MASK`. -/
def hdrOffsetMask : UInt16 := 0x1fff

/-- `RTE_IPV4_HDR_OFFSET_UNITS`. -/
def hdrOffsetUnits : ℕ := 8

/-- `RTE_MBUF_MAX_NB_SEGS`. -/
def maxNbSegs : ℕ := 65535

/-- **A segment**: the mbuf it is in and its bytes. -/
structure Seg where
  mbuf : ℕ
  data : List UInt8
deriving DecidableEq, Repr

/-- `data_len`. -/
def Seg.dataLen (s : Seg) : ℕ := s.data.length

/-- **A packet**: its first segment and those it is chained to, the lengths of
its headers, and what the first mbuf says of the whole. -/
structure Mbuf where
  ip : Ipv4Hdr
  l2_len : ℕ
  l3_len : ℕ
  pkt_len : ℕ
  nb_segs : ℕ
  seg : Seg
  next : List Seg
deriving DecidableEq, Repr

namespace Mbuf

/-- The segments of a packet. -/
def segs (m : Mbuf) : List Seg := m.seg :: m.next

/-- The mbufs of a packet. -/
def ids (m : Mbuf) : Multiset ℕ := ↑(m.segs.map Seg.mbuf)

/-- The bytes of a packet, headers included. -/
def bytes (m : Mbuf) : List UInt8 := m.segs.flatMap Seg.data

/-- **A packet is as its first mbuf says** (`rte_mbuf_check`). The length of a
segment is 16 bits long. -/
structure Valid (m : Mbuf) : Prop where
  nb_segs : m.nb_segs = m.segs.length
  nb_segs_le : m.nb_segs ≤ maxNbSegs
  pkt_len : m.pkt_len = m.bytes.length
  data_len : ∀ s ∈ m.segs, s.dataLen < 2 ^ 16

/-- **`rte_pktmbuf_chain`**, without its result. Where there would be too many
segments, the packets are left alone. -/
def chain (head tail : Mbuf) : Mbuf :=
  if maxNbSegs < head.nb_segs + tail.nb_segs then head
  else
    { head with
      next := head.next ++ tail.segs
      nb_segs := head.nb_segs + tail.nb_segs
      pkt_len := head.pkt_len + tail.pkt_len }

/-- **`rte_pktmbuf_adj`**: bytes are removed from the front of the first
segment, if it has as many. -/
def adj (m : Mbuf) (len : ℕ) : Mbuf :=
  if m.seg.dataLen < len then m
  else
    { m with
      seg := { m.seg with data := m.seg.data.drop len }
      pkt_len := m.pkt_len - len }

/-- The last segment without its last bytes. -/
def trimLast (len : ℕ) : List Seg → List Seg
  | [] => []
  | [s] => [{ s with data := s.data.take (s.dataLen - len) }]
  | s :: t :: rest => s :: trimLast len (t :: rest)

/-- `rte_pktmbuf_lastseg`. -/
def lastseg (m : Mbuf) : Seg := m.segs.getLast (List.cons_ne_nil _ _)

/-- **`rte_pktmbuf_trim`**: bytes are removed from the end of the last segment,
if it has as many. -/
def trim (m : Mbuf) (len : ℕ) : Mbuf :=
  if m.lastseg.dataLen < len then m
  else
    let segs := trimLast len m.segs
    { m with
      seg := segs.headD m.seg
      next := segs.tail
      pkt_len := m.pkt_len - len }

end Mbuf

end IpFrag
