import Mathlib.Data.BitVec
import Mathlib.Tactic.IntervalCases

/-!
# The COUNT of a PDCP packet

Each packet of a PDCP entity (`lib/pdcp`) has a COUNT of 32 bits. Its low bits
are the sequence number, which the header of the packet carries, and the high
ones the hyper frame number, which it does not. The receiver takes the COUNT
that is nearest to the one it delivers next (`RX_DELIV`): the sequence numbers
of a window of half of them on either side are distinct.

The sender is an entity for the uplink, the receiver one for the downlink. What
encryption does to a packet is left out: it leaves the header as it is, and what
is put in front of a packet for it is taken off again.
-/

open List

namespace Pdcp

/-! ## COUNT, sequence number and hyper frame number -/

/-- The sizes of a sequence number (`enum rte_security_pdcp_sn_size`) with which
an entity is established. -/
inductive SnSize
  | size12
  | size18
deriving DecidableEq, Repr

/-- The number of bits of a sequence number. -/
def SnSize.bits : SnSize → ℕ
  | size12 => 12
  | size18 => 18

/-- `pdcp_hdr_size_get`. -/
def pdcpHdrSizeGet (sn_size : SnSize) : ℕ := (sn_size.bits + 7) / 8

/-- `pdcp_window_size_get`. -/
def pdcpWindowSizeGet (sn_size : SnSize) : BitVec 32 := 1#32 <<< (sn_size.bits - 1)

/-- `pdcp_sn_mask_get`. -/
def pdcpSnMaskGet (sn_size : SnSize) : BitVec 32 := 1#32 <<< sn_size.bits - 1#32

/-- `pdcp_sn_from_count_get`. -/
def pdcpSnFromCountGet (count : BitVec 32) (sn_size : SnSize) : BitVec 32 :=
  count &&& pdcpSnMaskGet sn_size

/-- `pdcp_hfn_mask_get`. -/
def pdcpHfnMaskGet (sn_size : SnSize) : BitVec 32 := ~~~pdcpSnMaskGet sn_size

/-- `pdcp_hfn_from_count_get`. -/
def pdcpHfnFromCountGet (count : BitVec 32) (sn_size : SnSize) : BitVec 32 :=
  (count &&& pdcpHfnMaskGet sn_size) >>> sn_size.bits

/-- `pdcp_count_from_hfn_sn_get`. -/
def pdcpCountFromHfnSnGet (hfn sn : BitVec 32) (sn_size : SnSize) : BitVec 32 :=
  ((hfn <<< sn_size.bits) &&& pdcpHfnMaskGet sn_size) ||| (sn &&& pdcpSnMaskGet sn_size)

/-- `pdcp_hfn_max`. -/
def pdcpHfnMax (sn_size : SnSize) : BitVec 32 := 1#32 <<< (32 - sn_size.bits) - 1#32

/-- `PDCP_HFN_MIN`. -/
def pdcpHfnMin : BitVec 32 := 0#32

/-- **`pdcp_sn_count_get`**, `none` for `-ERANGE`. The received sequence number
is compared as a signed number with the lower end of the window, and as an
unsigned one with its upper end. -/
def pdcpSnCountGet (rx_deliv rsn : BitVec 32) (sn_size : SnSize) : Option (BitVec 32) :=
  let rx_deliv_sn := pdcpSnFromCountGet rx_deliv sn_size
  let window_sz := pdcpWindowSizeGet sn_size
  let rhfn := pdcpHfnFromCountGet rx_deliv sn_size
  if rsn.slt (rx_deliv_sn - window_sz) then
    if rhfn = pdcpHfnMax sn_size then none
    else some (pdcpCountFromHfnSnGet (rhfn + 1#32) rsn sn_size)
  else if rx_deliv_sn + window_sz ≤ rsn then
    if rhfn = pdcpHfnMin then none
    else some (pdcpCountFromHfnSnGet (rhfn - 1#32) rsn sn_size)
  else some (pdcpCountFromHfnSnGet rhfn rsn sn_size)

/-! ## Headers -/

/-- **The header of a data PDU of the control plane**
(`struct rte_pdcp_cp_data_pdu_sn_12_hdr`). -/
structure CpDataPduSn12Hdr where
  sn_11_8 : BitVec 4
  r : BitVec 4
  sn_7_0 : BitVec 8

/-- **The header of a data PDU of the user plane** with 12 bits
(`struct rte_pdcp_up_data_pdu_sn_12_hdr`). -/
structure UpDataPduSn12Hdr where
  sn_11_8 : BitVec 4
  r : BitVec 3
  d_c : BitVec 1
  sn_7_0 : BitVec 8

/-- **The header of a data PDU of the user plane** with 18 bits
(`struct rte_pdcp_up_data_pdu_sn_18_hdr`). -/
structure UpDataPduSn18Hdr where
  sn_17_16 : BitVec 2
  r : BitVec 5
  d_c : BitVec 1
  sn_15_8 : BitVec 8
  sn_7_0 : BitVec 8

/-- `RTE_PDCP_PDU_TYPE_DATA`. -/
def pduTypeData : BitVec 1 := 1#1

/-- The bytes of a header in memory: the first field of a byte is in its low
bits. -/
def CpDataPduSn12Hdr.bytes (h : CpDataPduSn12Hdr) : List (BitVec 8) :=
  [h.r ++ h.sn_11_8, h.sn_7_0]

/-- The bytes of a header in memory. -/
def UpDataPduSn12Hdr.bytes (h : UpDataPduSn12Hdr) : List (BitVec 8) :=
  [h.d_c ++ h.r ++ h.sn_11_8, h.sn_7_0]

/-- The bytes of a header in memory. -/
def UpDataPduSn18Hdr.bytes (h : UpDataPduSn18Hdr) : List (BitVec 8) :=
  [h.d_c ++ h.r ++ h.sn_17_16, h.sn_15_8, h.sn_7_0]

/-- The header that some bytes start with. -/
def CpDataPduSn12Hdr.ofBytes (data : List (BitVec 8)) : CpDataPduSn12Hdr where
  sn_11_8 := (data.getD 0 0).extractLsb' 0 4
  r := (data.getD 0 0).extractLsb' 4 4
  sn_7_0 := data.getD 1 0

/-- The header that some bytes start with. -/
def UpDataPduSn12Hdr.ofBytes (data : List (BitVec 8)) : UpDataPduSn12Hdr where
  sn_11_8 := (data.getD 0 0).extractLsb' 0 4
  r := (data.getD 0 0).extractLsb' 4 3
  d_c := (data.getD 0 0).extractLsb' 7 1
  sn_7_0 := data.getD 1 0

/-- The header that some bytes start with. -/
def UpDataPduSn18Hdr.ofBytes (data : List (BitVec 8)) : UpDataPduSn18Hdr where
  sn_17_16 := (data.getD 0 0).extractLsb' 0 2
  r := (data.getD 0 0).extractLsb' 2 5
  d_c := (data.getD 0 0).extractLsb' 7 1
  sn_15_8 := data.getD 1 0
  sn_7_0 := data.getD 2 0

/-! ## Packets -/

/-- **A packet**: its data, and the room in front of and behind it. -/
structure Mbuf where
  headroom : ℕ
  data : List (BitVec 8)
  tailroom : ℕ
deriving DecidableEq, Repr

/-- `rte_pktmbuf_prepend`, with what is then written there. -/
def Mbuf.prepend (mb : Mbuf) (hdr : List (BitVec 8)) : Option Mbuf :=
  if hdr.length ≤ mb.headroom then
    some { mb with headroom := mb.headroom - hdr.length, data := hdr ++ mb.data }
  else none

/-- `rte_pktmbuf_append`, with what is then written there. -/
def Mbuf.append (mb : Mbuf) (tail : List (BitVec 8)) : Option Mbuf :=
  if tail.length ≤ mb.tailroom then
    some { mb with tailroom := mb.tailroom - tail.length, data := mb.data ++ tail }
  else none

/-- `RTE_PDCP_MAC_I_LEN`. -/
def macILen : ℕ := 4

/-- **The kinds of data PDUs**, by plane and size of the sequence number. -/
inductive Plane
  | cplaneSn12
  | uplaneSn12
  | uplaneSn18
deriving DecidableEq, Repr

/-- The size of the sequence number. -/
def Plane.snSize : Plane → SnSize
  | cplaneSn12 => .size12
  | uplaneSn12 => .size12
  | uplaneSn18 => .size18

/-- **What an uplink entity is**: whether it authenticates, the MAC-I it leaves
room for, and the COUNT of the next packet. -/
structure UlEntity where
  is_authenticated : Bool
  mac_i : List (BitVec 8)
  tx_next : BitVec 32

/-- The header for a sequence number, as `pdcp_pre_process_cplane_sn_12_ul`
fills it in. -/
def cplaneSn12Hdr (sn : BitVec 32) : CpDataPduSn12Hdr where
  sn_11_8 := ((sn &&& 0xf00#32) >>> 8).setWidth 4
  sn_7_0 := (sn &&& 0xff#32).setWidth 8
  r := 0

/-- The header for a sequence number, as
`pdcp_pre_process_uplane_sn_12_ul_set_sn` fills it in. -/
def uplaneSn12Hdr (sn : BitVec 32) : UpDataPduSn12Hdr where
  d_c := pduTypeData
  sn_11_8 := ((sn &&& 0xf00#32) >>> 8).setWidth 4
  sn_7_0 := (sn &&& 0xff#32).setWidth 8
  r := 0

/-- The header for a sequence number, as
`pdcp_pre_process_uplane_sn_18_ul_set_sn` fills it in. -/
def uplaneSn18Hdr (sn : BitVec 32) : UpDataPduSn18Hdr where
  d_c := pduTypeData
  sn_17_16 := ((sn &&& 0x30000#32) >>> 16).setWidth 2
  sn_15_8 := ((sn &&& 0xff00#32) >>> 8).setWidth 8
  sn_7_0 := (sn &&& 0xff#32).setWidth 8
  r := 0

/-- The bytes of the header for a COUNT. -/
def Plane.hdr (plane : Plane) (count : BitVec 32) : List (BitVec 8) :=
  let sn := pdcpSnFromCountGet count plane.snSize
  match plane with
  | cplaneSn12 => (cplaneSn12Hdr sn).bytes
  | uplaneSn12 => (uplaneSn12Hdr sn).bytes
  | uplaneSn18 => (uplaneSn18Hdr sn).bytes

/-- `pdcp_pre_process_uplane_sn_12_ul_set_sn`, and that for 18 bits: the header
is put in front, and the COUNT is used. -/
def preProcessUplaneUlSetSn (plane : Plane) (en : UlEntity) (mb : Mbuf) :
    UlEntity × Mbuf × Option (BitVec 32) :=
  match mb.prepend (plane.hdr en.tx_next) with
  | some mb => ({ en with tx_next := en.tx_next + 1#32 }, mb, some en.tx_next)
  | none => (en, mb, none)

/-- **One packet of `pdcp_pre_process_uplane_sn_12_ul`**, or of that for 18
bits. -/
def preProcessUplaneUlPacket (plane : Plane) (en : UlEntity) (mb : Mbuf) :
    UlEntity × Mbuf × Option (BitVec 32) :=
  if en.is_authenticated then
    match mb.append en.mac_i with
    | some mb => preProcessUplaneUlSetSn plane en mb
    | none => (en, mb, none)
  else preProcessUplaneUlSetSn plane en mb

/-- **One packet of `pdcp_pre_process_cplane_sn_12_ul`**. The header is filled
in when there is room for the MAC-I, too. -/
def preProcessCplaneSn12UlPacket (en : UlEntity) (mb : Mbuf) :
    UlEntity × Mbuf × Option (BitVec 32) :=
  match mb.prepend (Plane.cplaneSn12.hdr en.tx_next) with
  | some mb' =>
    match mb'.append en.mac_i with
    | some mb' => ({ en with tx_next := en.tx_next + 1#32 }, mb', some en.tx_next)
    | none => (en, mb', none)
  | none => (en, mb, none)

/-- One packet of the pre-process of an uplink entity. -/
def Plane.ulPacket : Plane → UlEntity → Mbuf → UlEntity × Mbuf × Option (BitVec 32)
  | cplaneSn12 => preProcessCplaneSn12UlPacket
  | uplaneSn12 => preProcessUplaneUlPacket uplaneSn12
  | uplaneSn18 => preProcessUplaneUlPacket uplaneSn18

/-- **The received sequence number**, none for a control PDU. A PDU of the
control plane is data. -/
def Plane.rsn (plane : Plane) (mb : Mbuf) : Option (BitVec 32) :=
  match plane with
  | cplaneSn12 =>
    let pdu_hdr := CpDataPduSn12Hdr.ofBytes mb.data
    some (pdu_hdr.sn_11_8.setWidth 32 <<< 8 ||| pdu_hdr.sn_7_0.setWidth 32)
  | uplaneSn12 =>
    let pdu_hdr := UpDataPduSn12Hdr.ofBytes mb.data
    if pdu_hdr.d_c = pduTypeData then
      some (pdu_hdr.sn_11_8.setWidth 32 <<< 8 ||| pdu_hdr.sn_7_0.setWidth 32)
    else none
  | uplaneSn18 =>
    let pdu_hdr := UpDataPduSn18Hdr.ofBytes mb.data
    if pdu_hdr.d_c = pduTypeData then
      some (pdu_hdr.sn_17_16.setWidth 32 <<< 16 ||| pdu_hdr.sn_15_8.setWidth 32 <<< 8 |||
        pdu_hdr.sn_7_0.setWidth 32)
    else none

/-- **One packet of the pre-process of a downlink entity**
(`pdcp_pre_process_uplane_sn_12_dl_flags`, `…_sn_18_dl_flags` and
`pdcp_pre_process_cplane_sn_12_dl`): its COUNT. -/
def Plane.dlPacket (plane : Plane) (rx_deliv : BitVec 32) (mb : Mbuf) : Option (BitVec 32) :=
  (plane.rsn mb).bind (fun rsn => pdcpSnCountGet rx_deliv rsn plane.snSize)

/-- **The pre-process of a burst at an uplink entity**, with the operations that
could be allocated: the packets prepared, with their COUNTs, and those with an
error. -/
def preProcessUl (plane : Plane) : UlEntity → List Mbuf →
    UlEntity × List (Mbuf × BitVec 32) × List Mbuf
  | en, [] => (en, [], [])
  | en, mb :: in_mb =>
    match plane.ulPacket en mb with
    | (en, mb, some count) =>
      let r := preProcessUl plane en in_mb
      (r.1, (mb, count) :: r.2.1, r.2.2)
    | (en, mb, none) =>
      let r := preProcessUl plane en in_mb
      (r.1, r.2.1, mb :: r.2.2)

/-- **The pre-process of a burst at a downlink entity**, with the operations that
could be allocated. The COUNTs are taken from `RX_DELIV` as it is at the
start. -/
def preProcessDl (plane : Plane) (rx_deliv : BitVec 32) :
    List Mbuf → List (Mbuf × BitVec 32) × List Mbuf
  | [] => ([], [])
  | mb :: in_mb =>
    let r := preProcessDl plane rx_deliv in_mb
    match plane.dlPacket rx_deliv mb with
    | some count => ((mb, count) :: r.1, r.2)
    | none => (r.1, mb :: r.2)

/-! ## The two parts of a COUNT -/

variable {sn_size : SnSize} {plane : Plane} {count c d : BitVec 32}

theorem pdcpSnMaskGet_toNat (sn_size : SnSize) :
    (pdcpSnMaskGet sn_size).toNat = 2 ^ sn_size.bits - 1 := by
  cases sn_size <;> rfl

theorem pdcpSnFromCountGet_toNat (count : BitVec 32) (sn_size : SnSize) :
    (pdcpSnFromCountGet count sn_size).toNat = count.toNat % 2 ^ sn_size.bits := by
  rw [pdcpSnFromCountGet, BitVec.toNat_and, pdcpSnMaskGet_toNat, Nat.and_two_pow_sub_one_eq_mod]

theorem and_pdcpHfnMaskGet_shift (count : BitVec 32) (sn_size : SnSize) :
    (count &&& pdcpHfnMaskGet sn_size) >>> sn_size.bits = count >>> sn_size.bits := by
  cases sn_size <;> (apply BitVec.eq_of_getLsbD_eq; intro i hi; interval_cases i <;>
    simp [pdcpHfnMaskGet, pdcpSnMaskGet, SnSize.bits])

theorem pdcpHfnFromCountGet_toNat (count : BitVec 32) (sn_size : SnSize) :
    (pdcpHfnFromCountGet count sn_size).toNat = count.toNat / 2 ^ sn_size.bits := by
  rw [pdcpHfnFromCountGet, and_pdcpHfnMaskGet_shift, BitVec.toNat_ushiftRight,
    Nat.shiftRight_eq_div_pow]

theorem shift_and_pdcpHfnMaskGet (hfn : BitVec 32) (sn_size : SnSize) :
    (hfn <<< sn_size.bits) &&& pdcpHfnMaskGet sn_size = hfn <<< sn_size.bits := by
  cases sn_size <;> (apply BitVec.eq_of_getLsbD_eq; intro i hi; interval_cases i <;>
    simp [pdcpHfnMaskGet, pdcpSnMaskGet, SnSize.bits])

theorem pdcpCountFromHfnSnGet_toNat {hfn : BitVec 32} (sn : BitVec 32)
    (hhfn : hfn.toNat * 2 ^ sn_size.bits + 2 ^ sn_size.bits ≤ 2 ^ 32) :
    (pdcpCountFromHfnSnGet hfn sn sn_size).toNat =
      hfn.toNat * 2 ^ sn_size.bits + sn.toNat % 2 ^ sn_size.bits := by
  have hsn : sn.toNat % 2 ^ sn_size.bits < 2 ^ sn_size.bits :=
    Nat.mod_lt _ (Nat.two_pow_pos sn_size.bits)
  have hlt : hfn.toNat <<< sn_size.bits < 2 ^ 32 := by
    rw [Nat.shiftLeft_eq]
    omega
  rw [pdcpCountFromHfnSnGet, shift_and_pdcpHfnMaskGet, BitVec.toNat_or, BitVec.toNat_shiftLeft,
    BitVec.toNat_and, pdcpSnMaskGet_toNat, Nat.and_two_pow_sub_one_eq_mod, Nat.mod_eq_of_lt hlt,
    ← Nat.shiftLeft_add_eq_or_of_lt hsn, Nat.shiftLeft_eq]

/-! ## Taking the nearest COUNT -/

/-- **A COUNT, as an integer, is in the window** around what is delivered
next. -/
def InWindow (sn_size : SnSize) (d : BitVec 32) (c : ℤ) : Prop :=
  (d.toNat : ℤ) - (pdcpWindowSizeGet sn_size).toNat ≤ c ∧
    c < (d.toNat : ℤ) + (pdcpWindowSizeGet sn_size).toNat

theorem pdcpWindowSizeGet_toNat (sn_size : SnSize) :
    (pdcpWindowSizeGet sn_size).toNat = 2 ^ (sn_size.bits - 1) := by
  cases sn_size <;> rfl

theorem InWindow.eq_of_emod {a b : ℤ} (ha : InWindow sn_size d a) (hb : InWindow sn_size d b)
    (hmod : a % 2 ^ sn_size.bits = b % 2 ^ sn_size.bits) : a = b := by
  unfold InWindow at ha hb
  rw [pdcpWindowSizeGet_toNat] at ha hb
  cases sn_size <;> simp only [SnSize.bits] at * <;> omega

/-- A sequence number is below the window, as signed numbers are compared. -/
theorem slt_window {rsn dsn : BitVec 32} (hrsn : rsn.toNat < 2 ^ sn_size.bits)
    (hdsn : dsn.toNat < 2 ^ sn_size.bits) :
    rsn.slt (dsn - pdcpWindowSizeGet sn_size) = true ↔
      rsn.toNat + 2 ^ (sn_size.bits - 1) < dsn.toNat := by
  rw [BitVec.slt_iff_toInt_lt, BitVec.toInt_eq_toNat_cond, BitVec.toInt_eq_toNat_cond,
    BitVec.toNat_sub, pdcpWindowSizeGet_toNat]
  cases sn_size <;> simp only [SnSize.bits] at * <;> split_ifs <;> omega

theorem window_le {rsn dsn : BitVec 32} (hdsn : dsn.toNat < 2 ^ sn_size.bits) :
    dsn + pdcpWindowSizeGet sn_size ≤ rsn ↔ dsn.toNat + 2 ^ (sn_size.bits - 1) ≤ rsn.toNat := by
  rw [BitVec.le_def, BitVec.toNat_add, pdcpWindowSizeGet_toNat]
  cases sn_size <;> simp only [SnSize.bits] at * <;> omega

theorem eq_pdcpHfnMax_iff {hfn : BitVec 32} :
    hfn = pdcpHfnMax sn_size ↔ hfn.toNat + 1 = 2 ^ (32 - sn_size.bits) := by
  have hmax : (pdcpHfnMax sn_size).toNat = 2 ^ (32 - sn_size.bits) - 1 := by
    cases sn_size <;> rfl
  have hpos := Nat.two_pow_pos (32 - sn_size.bits)
  rw [BitVec.toNat_eq, hmax]
  omega

theorem pdcpCountFromHfnSnGet_eq (c : ℤ) (hfn : BitVec 32) {sn : BitVec 32}
    (hsn : sn.toNat < 2 ^ sn_size.bits)
    (hc : c = hfn.toNat * 2 ^ sn_size.bits + sn.toNat)
    (hhfn : hfn.toNat < 2 ^ (32 - sn_size.bits)) :
    pdcpCountFromHfnSnGet hfn sn sn_size = BitVec.ofInt 32 c ∧ 0 ≤ c ∧ c < 2 ^ 32 := by
  have hsplit : 2 ^ 32 = 2 ^ (32 - sn_size.bits) * 2 ^ sn_size.bits := by
    cases sn_size <;> rfl
  have hroom : hfn.toNat * 2 ^ sn_size.bits + 2 ^ sn_size.bits ≤ 2 ^ 32 := by
    rw [hsplit, ← Nat.succ_mul]
    exact Nat.mul_le_mul_right _ hhfn
  have hcount := pdcpCountFromHfnSnGet_toNat sn hroom
  rw [Nat.mod_eq_of_lt hsn] at hcount
  have hcast : c = ((hfn.toNat * 2 ^ sn_size.bits + sn.toNat : ℕ) : ℤ) := by
    rw [hc]
    push_cast
    rfl
  refine ⟨?_, by omega, by omega⟩
  rw [hcast, BitVec.ofInt_natCast, ← hcount, BitVec.ofNat_toNat, BitVec.setWidth_eq]

/-- **The hyper frame number of the nearest COUNT** is that of the next one to
deliver, or its neighbour where the sequence number is out of the window. -/
theorem InWindow.hfn {rsn : BitVec 32} (hrsn : rsn.toNat < 2 ^ sn_size.bits) {c : ℤ}
    (hwin : InWindow sn_size d c) (hsn : c % 2 ^ sn_size.bits = rsn.toNat) :
    c = ((d.toNat / 2 ^ sn_size.bits : ℕ) +
      if rsn.toNat + 2 ^ (sn_size.bits - 1) < d.toNat % 2 ^ sn_size.bits then 1
      else if d.toNat % 2 ^ sn_size.bits + 2 ^ (sn_size.bits - 1) ≤ rsn.toNat then -1
      else 0) * 2 ^ sn_size.bits + rsn.toNat := by
  unfold InWindow at hwin
  rw [pdcpWindowSizeGet_toNat] at hwin
  cases sn_size <;> simp only [SnSize.bits] at * <;> split_ifs <;> omega

/-- **What the received sequence number stands for**, where the COUNT fits in 32
bits, and an error elsewhere. -/
theorem pdcpSnCountGet_spec {rsn : BitVec 32} (hrsn : rsn.toNat < 2 ^ sn_size.bits) {c : ℤ}
    (hwin : InWindow sn_size d c) (hsn : c % 2 ^ sn_size.bits = rsn.toNat) :
    pdcpSnCountGet d rsn sn_size =
      if 0 ≤ c ∧ c < 2 ^ 32 then some (BitVec.ofInt 32 c) else none := by
  have hdsn := pdcpSnFromCountGet_toNat d sn_size
  have hhfn := pdcpHfnFromCountGet_toNat d sn_size
  have hdlt : (pdcpSnFromCountGet d sn_size).toNat < 2 ^ sn_size.bits := by
    rw [hdsn]
    exact Nat.mod_lt _ (Nat.two_pow_pos _)
  have hlast : (pdcpHfnFromCountGet d sn_size).toNat < 2 ^ (32 - sn_size.bits) := by
    have hd := d.isLt
    rw [hhfn]
    cases sn_size <;> simp only [SnSize.bits] at * <;> omega
  have hc := hwin.hfn hrsn hsn
  rw [← hhfn] at hc
  unfold pdcpSnCountGet
  simp only [slt_window hrsn hdlt, window_le hdlt, eq_pdcpHfnMax_iff, hdsn]
  generalize pdcpHfnFromCountGet d sn_size = hfn at hc hlast ⊢
  by_cases hbelow : rsn.toNat + 2 ^ (sn_size.bits - 1) < d.toNat % 2 ^ sn_size.bits
  · rw [if_pos hbelow] at hc ⊢
    by_cases hmax : hfn.toNat + 1 = 2 ^ (32 - sn_size.bits)
    · rw [if_pos hmax, if_neg]
      cases sn_size <;> simp only [SnSize.bits] at * <;> omega
    · have hsucc : (hfn + 1#32).toNat = hfn.toNat + 1 := by
        rw [BitVec.toNat_add]
        cases sn_size <;> simp only [SnSize.bits, BitVec.toNat_ofNat] at * <;> omega
      obtain ⟨heq, hin⟩ := pdcpCountFromHfnSnGet_eq c (hfn + 1#32) hrsn
        (by rw [hsucc, hc]; push_cast; rfl) (by omega)
      rw [if_neg hmax, if_pos hin, heq]
  rw [if_neg hbelow] at hc ⊢
  by_cases habove : d.toNat % 2 ^ sn_size.bits + 2 ^ (sn_size.bits - 1) ≤ rsn.toNat
  · rw [if_pos habove] at hc ⊢
    by_cases hmin : hfn = pdcpHfnMin
    · rw [if_pos hmin, if_neg]
      subst hmin
      cases sn_size <;> simp only [SnSize.bits, pdcpHfnMin, BitVec.toNat_ofNat] at * <;> omega
    · have hpos : hfn.toNat ≠ 0 := fun h => hmin (BitVec.eq_of_toNat_eq h)
      have hpred : (hfn - 1#32).toNat = hfn.toNat - 1 := by
        have hlt := hfn.isLt
        rw [BitVec.toNat_sub]
        simp only [BitVec.toNat_ofNat]
        omega
      obtain ⟨heq, hin⟩ := pdcpCountFromHfnSnGet_eq c (hfn - 1#32) hrsn
        (by rw [hpred, hc, Nat.cast_sub (by omega)]; rfl) (by omega)
      rw [if_neg hmin, if_pos hin, heq]
  · rw [if_neg habove] at hc ⊢
    obtain ⟨heq, hin⟩ := pdcpCountFromHfnSnGet_eq c hfn hrsn (by rw [hc, add_zero]) hlast
    rw [if_pos hin, heq]

/-! ## Headers that are written and read -/

/-- The fields of a header of 12 bits hold the sequence number. -/
theorem fields_sn12 (sn : BitVec 32) (hsn : sn &&& 0xfff#32 = sn) :
    (((sn &&& 0xf00#32) >>> 8).setWidth 4).setWidth 32 <<< 8 |||
      ((sn &&& 0xff#32).setWidth 8).setWidth 32 = sn := by
  rw [← hsn]
  apply BitVec.eq_of_getLsbD_eq
  intro i hi
  interval_cases i <;> simp

/-- The fields of a header of 18 bits hold the sequence number. -/
theorem fields_sn18 (sn : BitVec 32) (hsn : sn &&& 0x3ffff#32 = sn) :
    (((sn &&& 0x30000#32) >>> 16).setWidth 2).setWidth 32 <<< 16 |||
      (((sn &&& 0xff00#32) >>> 8).setWidth 8).setWidth 32 <<< 8 |||
      ((sn &&& 0xff#32).setWidth 8).setWidth 32 = sn := by
  rw [← hsn]
  apply BitVec.eq_of_getLsbD_eq
  intro i hi
  interval_cases i <;> simp

theorem pdcpSnFromCountGet_and (count : BitVec 32) (sn_size : SnSize) :
    pdcpSnFromCountGet count sn_size &&& pdcpSnMaskGet sn_size =
      pdcpSnFromCountGet count sn_size := by
  rw [pdcpSnFromCountGet, BitVec.and_assoc, BitVec.and_self]

/-- What is read from a header is the sequence number that was written. -/
theorem Plane.rsn_hdr (plane : Plane) (count : BitVec 32) (mb : Mbuf) {data : List (BitVec 8)}
    (hdata : mb.data = plane.hdr count ++ data) :
    plane.rsn mb = some (pdcpSnFromCountGet count plane.snSize) := by
  have hand := pdcpSnFromCountGet_and count plane.snSize
  cases plane with
  | cplaneSn12 =>
    have hfields := fields_sn12 (pdcpSnFromCountGet count .size12) hand
    simp only [Plane.rsn, CpDataPduSn12Hdr.ofBytes, hdata, Plane.hdr, CpDataPduSn12Hdr.bytes,
      cplaneSn12Hdr, Plane.snSize, cons_append, getD_cons_zero, getD_cons_succ]
    rw [BitVec.extractLsb'_append_eq_right, hfields]
  | uplaneSn12 =>
    have hfields := fields_sn12 (pdcpSnFromCountGet count .size12) hand
    simp only [Plane.rsn, UpDataPduSn12Hdr.ofBytes, hdata, Plane.hdr, UpDataPduSn12Hdr.bytes,
      uplaneSn12Hdr, Plane.snSize, cons_append, getD_cons_zero, getD_cons_succ]
    rw [BitVec.extractLsb'_append_eq_right, BitVec.extractLsb'_append_eq_of_le (by decide),
      BitVec.extractLsb'_append_eq_left, if_pos rfl, hfields]
  | uplaneSn18 =>
    have hfields := fields_sn18 (pdcpSnFromCountGet count .size18) hand
    simp only [Plane.rsn, UpDataPduSn18Hdr.ofBytes, hdata, Plane.hdr, UpDataPduSn18Hdr.bytes,
      uplaneSn18Hdr, Plane.snSize, cons_append, getD_cons_zero, getD_cons_succ]
    rw [BitVec.extractLsb'_append_eq_right, BitVec.extractLsb'_append_eq_of_le (by decide),
      BitVec.extractLsb'_append_eq_left, if_pos rfl, hfields]

/-- A packet of the window is read with the COUNT it was written with. -/
theorem Plane.dlPacket_hdr {mb : Mbuf} {data : List (BitVec 8)}
    (hdata : mb.data = plane.hdr count ++ data) (hwin : InWindow plane.snSize d count.toNat) :
    plane.dlPacket d mb = some count := by
  have hsn := pdcpSnFromCountGet_toNat count plane.snSize
  have hlt : (pdcpSnFromCountGet count plane.snSize).toNat < 2 ^ plane.snSize.bits := by
    rw [hsn]
    exact Nat.mod_lt _ (Nat.two_pow_pos _)
  have hget := pdcpSnCountGet_spec hlt hwin (by rw [hsn]; push_cast; rfl)
  have hcount := count.isLt
  rw [if_pos ⟨by omega, by omega⟩, BitVec.ofInt_natCast, BitVec.ofNat_toNat,
    BitVec.setWidth_eq] at hget
  rw [Plane.dlPacket, plane.rsn_hdr count mb hdata, Option.bind_some, hget]

/-- What `rte_pktmbuf_prepend` writes is in front. -/
theorem Mbuf.prepend_data {mb mb' : Mbuf} {hdr : List (BitVec 8)}
    (hmb : mb.prepend hdr = some mb') : mb'.data = hdr ++ mb.data := by
  unfold Mbuf.prepend at hmb
  split_ifs at hmb
  cases hmb
  rfl

theorem Mbuf.append_data {mb mb' : Mbuf} {tail : List (BitVec 8)}
    (hmb : mb.append tail = some mb') : mb'.data = mb.data ++ tail := by
  unfold Mbuf.append at hmb
  split_ifs at hmb
  cases hmb
  rfl

/-- **What the pre-process makes of a packet**: it has the next COUNT in its
header, or no COUNT is used. -/
def Numbered (plane : Plane) (en : UlEntity) (r : UlEntity × Mbuf × Option (BitVec 32)) : Prop :=
  match r.2.2 with
  | some count => count = en.tx_next ∧ r.1.tx_next = en.tx_next + 1#32 ∧
      ∃ data, r.2.1.data = plane.hdr count ++ data
  | none => r.1.tx_next = en.tx_next

theorem preProcessUplaneUlSetSn_numbered (plane : Plane) (en : UlEntity) (mb : Mbuf) :
    Numbered plane en (preProcessUplaneUlSetSn plane en mb) := by
  unfold preProcessUplaneUlSetSn
  split
  · rename_i mb' hmb
    exact ⟨rfl, rfl, mb.data, Mbuf.prepend_data hmb⟩
  · exact rfl

theorem Plane.ulPacket_numbered (plane : Plane) (en : UlEntity) (mb : Mbuf) :
    Numbered plane en (plane.ulPacket en mb) := by
  have huplane : ∀ plane, Numbered plane en (preProcessUplaneUlPacket plane en mb) := by
    intro plane
    unfold preProcessUplaneUlPacket
    split_ifs
    · split
      · exact preProcessUplaneUlSetSn_numbered plane en _
      · exact rfl
    · exact preProcessUplaneUlSetSn_numbered plane en mb
  cases plane with
  | cplaneSn12 =>
    change Numbered _ en (preProcessCplaneSn12UlPacket en mb)
    unfold preProcessCplaneSn12UlPacket
    split
    · rename_i mb₁ hprepend
      split
      · rename_i mb₂ happend
        refine ⟨rfl, rfl, mb.data ++ en.mac_i, ?_⟩
        change mb₂.data = _
        rw [Mbuf.append_data happend, Mbuf.prepend_data hprepend, append_assoc]
      · exact rfl
    · exact rfl
  | uplaneSn12 => exact huplane _
  | uplaneSn18 => exact huplane _

/-- A burst is numbered on, each packet with its COUNT in the header. -/
theorem preProcessUl_spec (plane : Plane) (en : UlEntity) (in_mb : List Mbuf) :
    (preProcessUl plane en in_mb).2.1.map Prod.snd =
      (range (preProcessUl plane en in_mb).2.1.length).map
        (fun i => en.tx_next + BitVec.ofNat 32 i) ∧
    ∀ p ∈ (preProcessUl plane en in_mb).2.1, ∃ data, p.1.data = plane.hdr p.2 ++ data := by
  induction in_mb generalizing en with
  | nil => exact ⟨rfl, fun p hp => absurd hp not_mem_nil⟩
  | cons mb in_mb ih =>
    have hnum := plane.ulPacket_numbered en mb
    rw [preProcessUl]
    rcases hpacket : plane.ulPacket en mb with ⟨en', mb', count⟩
    rw [hpacket] at hnum
    obtain ⟨hcounts, hdata⟩ := ih en'
    cases count with
    | none =>
      have hnext : en'.tx_next = en.tx_next := hnum
      rw [hnext] at hcounts
      exact ⟨hcounts, hdata⟩
    | some count =>
      obtain ⟨rfl, hnext, data, hmb⟩ := hnum
      have hnext' : en'.tx_next = en.tx_next + 1#32 := hnext
      refine ⟨?_, fun p hp => ?_⟩
      · simp only [map_cons, length_cons, range_succ_eq_map, map_map, hcounts]
        congr 1
        · simp
        · refine map_congr_left (fun i _ => ?_)
          simp only [Function.comp, Nat.succ_eq_add_one, BitVec.ofNat_add]
          rw [hnext', BitVec.add_assoc, BitVec.add_comm (BitVec.ofNat 32 i)]
      · rcases mem_cons.mp hp with rfl | hp
        · exact ⟨data, hmb⟩
        · exact hdata p hp

/-- Each packet of a burst gets its COUNT on its own. -/
theorem mem_preProcessDl {mb : Mbuf} (hmb : plane.dlPacket d mb = some count)
    {in_mb : List Mbuf} (hmem : mb ∈ in_mb) : (mb, count) ∈ (preProcessDl plane d in_mb).1 := by
  induction in_mb with
  | nil => exact absurd hmem not_mem_nil
  | cons mb' in_mb ih =>
    rw [preProcessDl]
    rcases mem_cons.mp hmem with rfl | hmem
    · rw [hmb]
      exact mem_cons_self
    · cases plane.dlPacket d mb' with
      | some _ => exact mem_cons_of_mem _ (ih hmem)
      | none => exact ih hmem

/-- **Each sequence number is that of one COUNT in the window**, as integers. -/
theorem exists_inWindow (sn_size : SnSize) (d : BitVec 32) {rsn : ℕ}
    (hrsn : rsn < 2 ^ sn_size.bits) :
    ∃ c : ℤ, InWindow sn_size d c ∧ c % 2 ^ sn_size.bits = rsn := by
  refine ⟨d.toNat - (pdcpWindowSizeGet sn_size).toNat +
    (rsn - (d.toNat - (pdcpWindowSizeGet sn_size).toNat)) % 2 ^ sn_size.bits, ?_, ?_⟩
  · unfold InWindow
    rw [pdcpWindowSizeGet_toNat]
    cases sn_size <;> simp only [SnSize.bits] at * <;> omega
  · rw [pdcpWindowSizeGet_toNat]
    cases sn_size <;> simp only [SnSize.bits] at * <;> omega

/-- **The COUNT is reconstructed.** An uplink entity numbers the packets of a
burst on. A downlink entity finds the COUNT of each of them again, if it is in
the window, whatever else comes with it. There is an error exactly where the
COUNT in the window is not one of 32 bits, and in the window no two COUNTs
have one header. -/
theorem pdcp_count_reconstructed (plane : Plane) (d : BitVec 32) :
    (∀ (en : UlEntity) (in_mb : List Mbuf),
      (preProcessUl plane en in_mb).2.1.map Prod.snd =
        (List.range (preProcessUl plane en in_mb).2.1.length).map
          (fun i => en.tx_next + BitVec.ofNat 32 i) ∧
      ∀ p ∈ (preProcessUl plane en in_mb).2.1, InWindow plane.snSize d p.2.toNat →
        ∀ rx_mb : List Mbuf, p.1 ∈ rx_mb → p ∈ (preProcessDl plane d rx_mb).1) ∧
    (∀ rsn : BitVec 32, rsn.toNat < 2 ^ plane.snSize.bits →
      ∃ c : ℤ, (InWindow plane.snSize d c ∧ c % 2 ^ plane.snSize.bits = rsn.toNat) ∧
        (∀ c' : ℤ, InWindow plane.snSize d c' → c' % 2 ^ plane.snSize.bits = rsn.toNat →
          c' = c) ∧
        (pdcpSnCountGet d rsn plane.snSize = none ↔ ¬ (0 ≤ c ∧ c < 2 ^ 32))) ∧
    ∀ c c' : BitVec 32, InWindow plane.snSize d c.toNat → InWindow plane.snSize d c'.toNat →
      plane.hdr c = plane.hdr c' → c = c' := by
  refine ⟨fun en in_mb => ?_, fun rsn hrsn => ?_, fun c c' hc hc' hhdr => ?_⟩
  · obtain ⟨hcounts, hdata⟩ := preProcessUl_spec plane en in_mb
    refine ⟨hcounts, fun p hp hwin rx_mb hmem => ?_⟩
    obtain ⟨data, hmb⟩ := hdata p hp
    exact mem_preProcessDl (Plane.dlPacket_hdr hmb hwin) hmem
  · obtain ⟨c, hwin, hsn⟩ := exists_inWindow plane.snSize d hrsn
    refine ⟨c, ⟨hwin, hsn⟩, fun c' hwin' hsn' => hwin'.eq_of_emod hwin (hsn'.trans hsn.symm), ?_⟩
    rw [pdcpSnCountGet_spec hrsn hwin hsn]
    split_ifs with hin
    · exact ⟨fun h => (nomatch h), fun h => absurd hin h⟩
    · exact ⟨fun _ => hin, fun _ => rfl⟩
  · have hrsn := plane.rsn_hdr c ⟨0, plane.hdr c ++ [], 0⟩ rfl
    have hrsn' := plane.rsn_hdr c' ⟨0, plane.hdr c ++ [], 0⟩ (by rw [hhdr])
    have hsn := Option.some.inj (hrsn.symm.trans hrsn')
    have hmod : (c.toNat : ℤ) % 2 ^ plane.snSize.bits = c'.toNat % 2 ^ plane.snSize.bits := by
      have hnat := congrArg BitVec.toNat hsn
      rw [pdcpSnFromCountGet_toNat, pdcpSnFromCountGet_toNat] at hnat
      exact_mod_cast hnat
    have heq := hc.eq_of_emod hc' hmod
    exact BitVec.eq_of_toNat_eq (by exact_mod_cast heq)

/-- An uplink entity in front of a new hyper frame number, and a packet. -/
def beforeHfn : UlEntity := ⟨false, [], 4095#32⟩

/-- A packet of one byte. -/
def oneByte : Mbuf := ⟨128, [0x45#8], 128⟩

/-- A packet of the next hyper frame number is read as such. -/
theorem pdcp_count_reconstructed_next_hfn :
    ∀ p ∈ (preProcessUl .uplaneSn12 beforeHfn [oneByte, oneByte]).2.1,
      p ∈ (preProcessDl .uplaneSn12 4094#32
        ((preProcessUl .uplaneSn12 beforeHfn [oneByte, oneByte]).2.1.map Prod.fst)).1 := by
  have hcounts : ∀ p ∈ (preProcessUl .uplaneSn12 beforeHfn [oneByte, oneByte]).2.1,
      4095 ≤ p.2.toNat ∧ p.2.toNat ≤ 4096 := by decide
  intro p hp
  refine ((pdcp_count_reconstructed .uplaneSn12 4094#32).1 beforeHfn [oneByte, oneByte]).2 p hp ?_
    _ (mem_map_of_mem hp)
  have hrange := hcounts p hp
  rw [InWindow, pdcpWindowSizeGet_toNat]
  simp only [Plane.snSize, SnSize.bits, BitVec.toNat_ofNat]
  omega

end Pdcp
