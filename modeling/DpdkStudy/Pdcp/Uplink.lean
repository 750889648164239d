import DpdkStudy.Pdcp.Count

/-!
# The pre-process of a burst at an uplink entity

The functions `pdcp_pre_process_uplane_sn_12_ul`, `pdcp_pre_process_uplane_sn_18_ul` and
`pdcp_pre_process_cplane_sn_12_ul` of `lib/pdcp/pdcp_process.c`, with the arrays they work on.
Here mbufs are told apart by their addresses, and the bytes of the room in front of a packet
and behind it are kept: what is taken from the room and not written has these bytes.

`Pdcp.Count` has what these functions make of the packets that do not fail. A burst has at most
65535 packets, so that nothing is lost in the 16 bits in which they are counted.
-/

namespace Pdcp

open Function

/-! ## Packets with their room -/

/-- **A packet with the bytes of its room** in front of it and behind it. -/
structure Buf where
  headroom : List (BitVec 8)
  data : List (BitVec 8)
  tailroom : List (BitVec 8)
deriving DecidableEq, Repr

namespace Buf

/-- `rte_pktmbuf_prepend`. -/
def prepend (mb : Buf) (len : ℕ) : Option Buf :=
  if mb.headroom.length < len then none
  else some { mb with
    headroom := mb.headroom.take (mb.headroom.length - len)
    data := mb.headroom.drop (mb.headroom.length - len) ++ mb.data }

/-- `rte_pktmbuf_append`. -/
def append (mb : Buf) (len : ℕ) : Option Buf :=
  if mb.tailroom.length < len then none
  else some { mb with
    data := mb.data ++ mb.tailroom.take len
    tailroom := mb.tailroom.drop len }

/-- Some bytes are written at the beginning of a packet. -/
def write (mb : Buf) (bytes : List (BitVec 8)) : Buf :=
  { mb with data := bytes ++ mb.data.drop bytes.length }

/-- The MAC-I at the end of a packet is cleared. -/
def clearMacI (mb : Buf) : Buf :=
  { mb with data := mb.data.take (mb.data.length - macILen) ++ List.replicate macILen 0 }

/-- What a packet is without the first bytes. -/
def trim (mb : Buf) (len : ℕ) : Mbuf :=
  ⟨mb.headroom.length + len, mb.data.drop len, mb.tailroom.length⟩

end Buf

/-! ## Entities -/

/-- `enum pdcp_cipher_algo`. -/
inductive CipherAlgo
  | null
  | aes
  | zuc
  | snow3g
deriving DecidableEq, Repr

/-- `enum pdcp_auth_algo`. -/
inductive AuthAlgo
  | null
  | aes
  | zuc
  | snow3g
deriving DecidableEq, Repr

/-- **An uplink entity** as it has been established (`pdcp_entity_priv_populate`): its plane,
the algorithms, of which there need not be one for authentication on the user plane, the part
of the AES-CMAC message that is the same for each packet, and whether there is an SDAP
header. -/
structure UlPriv where
  plane : Plane
  cipher_algo : CipherAlgo
  auth_algo : Option AuthAlgo
  auth_iv_part : BitVec 64
  sdap_enabled : Bool
  authenticated : plane = .cplaneSn12 → auth_algo ≠ none

namespace UlPriv

variable (en : UlPriv)

/-- `flags.is_authenticated`. -/
def isAuthenticated : Bool := en.auth_algo.isSome

/-- `flags.is_null_auth`. -/
def isNullAuth : Bool := en.auth_algo = some .null

/-- `flags.is_cipher_in_bits`. -/
def isCipherInBits : Bool := en.cipher_algo = .snow3g ∨ en.cipher_algo = .zuc

/-- `flags.is_auth_in_bits`. -/
def isAuthInBits : Bool := en.auth_algo = some .snow3g ∨ en.auth_algo = some .zuc

/-- `hdr_sz`. -/
def hdrSz : ℕ := pdcpHdrSizeGet en.plane.snSize

/-- `aad_sz`. -/
def aadSz : ℕ := if en.auth_algo = some .aes then 8 else 0

/-- `cipher_skip_sz`. -/
def cipherSkipSz : ℕ := if en.sdap_enabled then 1 else 0

/-- `data_offset`. -/
def dataOffset : ℕ := en.hdrSz + en.aadSz + en.cipherSkipSz

/-! ## Crypto operations -/

end UlPriv

/-- `rte_cpu_to_be_32`, where the first byte is the least. -/
def rteCpuToBe32 (x : BitVec 32) : BitVec 32 :=
  x.extractLsb' 0 8 ++ x.extractLsb' 8 8 ++ x.extractLsb' 16 8 ++ x.extractLsb' 24 8

/-- **The data of an operation for authentication**: where the packet is read, and where its
digest is in it. -/
structure AuthData where
  offset : BitVec 32
  length : BitVec 32
  digest : ℕ
deriving DecidableEq, Repr

/-- **A crypto operation that has been prepared**: its address and that of its mbuf, the COUNT
its IV has been made for, and its data. -/
structure Cop where
  op : ℕ
  m_src : ℕ
  count : BitVec 32
  cipher_offset : BitVec 32
  cipher_length : BitVec 32
  auth : Option AuthData
deriving DecidableEq, Repr

namespace UlPriv

variable (en : UlPriv)

/-- The message for AES-CMAC, as it is in memory. -/
def message (count : BitVec 32) : List (BitVec 8) :=
  let m := en.auth_iv_part ||| (rteCpuToBe32 count).setWidth 64
  (List.range 8).map fun k => m.extractLsb' (8 * k) 8

/-- **What `iv_gen` does to a packet.** For AES-CMAC a message is put in front. There may be no
room for it, but what `rte_pktmbuf_prepend` returns is not compared with `NULL`. -/
def ivGen (count : BitVec 32) (mb : Buf) : Option Buf :=
  if en.auth_algo = some .aes then
    -- `none` is the copy to the null pointer
    (mb.prepend 8).map fun mb => mb.write (en.message count)
  else some mb

/-- **`cop_prepare`**. -/
def copPrepare (op m_src : ℕ) (mb : Buf) (count : BitVec 32) (is_auth : Bool) :
    Option (Buf × Cop) :=
  (en.ivGen count mb).map fun mb =>
    let cipher_shift := if en.isCipherInBits then 3 else 0
    let auth_shift := if en.isAuthInBits then 3 else 0
    let pkt_len := BitVec.ofNat 32 mb.data.length
    let data_offset := BitVec.ofNat 32 en.dataOffset
    (mb, {
      op := op
      m_src := m_src
      count := count
      cipher_offset := data_offset <<< cipher_shift
      cipher_length := (pkt_len - data_offset) <<< cipher_shift
      auth :=
        if is_auth then
          some ⟨0, (pkt_len - BitVec.ofNat 32 macILen) <<< auth_shift, mb.data.length - macILen⟩
        else none })

/-! ## One packet -/

/-- `pdcp_pre_process_uplane_sn_12_ul_set_sn`, and that for 18 bits: the packet, and whether
the header is in front of it. -/
def uplaneSetSn (tx_next : BitVec 32) (mb : Buf) : Buf × Bool :=
  match mb.prepend en.hdrSz with
  | none => (mb, false)
  | some mb => (mb.write (en.plane.hdr tx_next), true)

/-- **One packet of the user plane.** The MAC-I is appended before the header is put in
front. -/
def uplanePacket (tx_next : BitVec 32) (mb : Buf) : Buf × Bool :=
  if en.isAuthenticated then
    match mb.append macILen with
    | none => (mb, false)
    | some mb => en.uplaneSetSn tx_next (if en.isNullAuth then mb.clearMacI else mb)
  else en.uplaneSetSn tx_next mb

/-- **One packet of the control plane.** The header is put in front before the MAC-I is
appended, and filled in last. -/
def cplanePacket (tx_next : BitVec 32) (mb : Buf) : Buf × Bool :=
  match mb.prepend en.hdrSz with
  | none => (mb, false)
  | some mb =>
    match mb.append macILen with
    | none => (mb, false)
    | some mb =>
      ((if en.isNullAuth then mb.clearMacI else mb).write (en.plane.hdr tx_next), true)

end UlPriv

/-! ## Bursts -/

/-- **What a loop over a burst has done**: the array of mbufs, in which those with an error are
put from the beginning on, the mbufs, `TX_NEXT`, the operations that have been prepared in
their order, and the number of errors. -/
structure UlBatch where
  in_mb : List ℕ
  mbufs : ℕ → Buf
  tx_next : BitVec 32
  prep : List Cop
  nb_err : ℕ

/-- **What is returned of a burst**, with the operations that are given back to the pool. -/
structure UlResult extends UlBatch where
  put : List ℕ

namespace UlPriv

variable (en : UlPriv)

/-- **The loop of the pre-process** for a burst from one index on, with the function for one
packet. There are as many operations as the loop has turns. -/
def preProcessFrom (packet : BitVec 32 → Buf → Buf × Bool) (is_auth : Bool) (cop : List ℕ) :
    ℕ → ℕ → UlBatch → Option UlBatch
  | 0, _, b => some b
  | m + 1, i, b =>
    let mb := b.in_mb.getD i 0
    match packet b.tx_next (b.mbufs mb) with
    | (buf, false) =>
      preProcessFrom packet is_auth cop m (i + 1) { b with
        in_mb := b.in_mb.set b.nb_err mb
        mbufs := update b.mbufs mb buf
        nb_err := b.nb_err + 1 }
    | (buf, true) =>
      match en.copPrepare (cop.getD b.prep.length 0) mb buf b.tx_next is_auth with
      | none => none
      | some (buf, c) =>
        preProcessFrom packet is_auth cop m (i + 1) { b with
          mbufs := update b.mbufs mb buf
          tx_next := b.tx_next + 1#32
          prep := b.prep ++ [c] }

/-- **The pre-process of a burst**, with the function for one packet. The operations are those
that `rte_crypto_op_bulk_alloc` has taken from the pool, if there were enough. -/
def preProcessBurst (packet : BitVec 32 → Buf → Buf × Bool) (is_auth : Bool) (tx_next : BitVec 32)
    (mbufs : ℕ → Buf) (in_mb : List ℕ) (alloc : Option (List ℕ)) : Option UlResult :=
  let cop := alloc.getD []
  (en.preProcessFrom packet is_auth cop cop.length 0 ⟨in_mb, mbufs, tx_next, [], 0⟩).map fun b =>
    { b with
      put := if b.nb_err ≠ 0 then cop.drop b.prep.length else []
      nb_err := in_mb.length - b.prep.length }

/-- `pdcp_pre_process_uplane_sn_12_ul`. -/
def pdcpPreProcessUplaneSn12Ul := en.preProcessBurst en.uplanePacket en.isAuthenticated

/-- `pdcp_pre_process_uplane_sn_18_ul`. -/
def pdcpPreProcessUplaneSn18Ul := en.preProcessBurst en.uplanePacket en.isAuthenticated

/-- `pdcp_pre_process_cplane_sn_12_ul`. -/
def pdcpPreProcessCplaneSn12Ul := en.preProcessBurst en.cplanePacket true

/-- **The pre-process of an entity** (`entity->pre_process`), as it has been set for the
plane. -/
def preProcess : BitVec 32 → (ℕ → Buf) → List ℕ → Option (List ℕ) → Option UlResult :=
  match en.plane with
  | .uplaneSn12 => en.pdcpPreProcessUplaneSn12Ul
  | .uplaneSn18 => en.pdcpPreProcessUplaneSn18Ul
  | .cplaneSn12 => en.pdcpPreProcessCplaneSn12Ul

end UlPriv

end Pdcp
