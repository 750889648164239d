import DpdkStudy.Pdcp.Downlink
import DpdkStudy.Pdcp.Uplink

/-!
# The status report of a downlink entity

The control PDU with which a receiver says what it has (`lib/pdcp/pdcp_ctrl_pdu.c`): the first
COUNT that is missing (FMC), and a bit for each COUNT behind it. The bits are taken from the
bitmap of the window by slabs of 64 (`lib/pdcp/pdcp_cnt.c`), with a scan that passes over the
slabs without a bit, and are shifted so that the first one is for the COUNT behind FMC.

The room for the bitmap is a whole number of slabs, and is written slab by slab. There are two
loops that the code does not bound; here each may take a number of passes that is given. Where
they are not enough, the function is still running.
-/

namespace Pdcp

open List (replicate)
open Bitmap (RteBitmap slabBitSize)

/-- **How far a function has come**: it is running, or it has broken off at an assertion that
fails or at a write outside of its room, or it is done. -/
inductive Progress (α : Type)
  | running
  | broken
  | done (a : α)

/-- One function after another. -/
def Progress.bind {α β : Type} : Progress α → (α → Progress β) → Progress β
  | running, _ => running
  | broken, _ => broken
  | done a, f => f a

/-! ## The bitmap of the report -/

/-- `SLAB_BYTE_SIZE`. -/
def slabByteSize : ℕ := slabBitSize / 8

/-- `pdcp_cnt_get_bitmap_size`. -/
def pdcpCntGetBitmapSize (pending_bytes : ℕ) : ℕ :=
  (pending_bytes + slabByteSize - 1) % word32 / slabByteSize * slabByteSize % word16

/-- `leftover_get`. -/
def leftoverGet (slab : BitVec 64) (shift : ℕ) (mask : BitVec 64) : BitVec 64 :=
  (slab &&& mask) <<< shift

/-- Some slabs are written behind others, in room for `nb_data_slabs`. -/
def putSlabs (nb_data_slabs : ℕ) (out slabs : List (BitVec 64)) : Progress (List (BitVec 64)) :=
  if out.length + slabs.length ≤ nb_data_slabs then .done (out ++ slabs) else .broken

/-- **The first loop of `pdcp_cnt_report_fill`**: the bitmap is scanned until a slab comes that
is not in front of the first one of the report. -/
def scanToStart (start_slab_id : ℕ) : ℕ → RteBitmap → Progress (RteBitmap × ℕ × BitVec 64)
  | 0, _ => .running
  | n + 1, bmp =>
    match bmp.scan with
    | some (⟨1, some (pos, slab)⟩, bmp) =>
      if start_slab_id ≤ pos / slabBitSize then .done (bmp, pos / slabBitSize, slab)
      else scanToStart start_slab_id n bmp
    | _ => .broken

/-- **The second loop on its way**: the bitmap with its scan, the slabs that have been written,
the last slab and its number, what the last scan has stored, and the number of slabs that are
left to write. -/
structure Filling where
  bmp : RteBitmap
  out : List (BitVec 64)
  slab : BitVec 64
  slab_id : ℕ
  next_pos : ℕ
  next_slab : BitVec 64
  report_len : ℕ

/-- **What the second loop is given**: the slabs of the bitmap and of the report, the number of
the slab behind those of the report, and by how much the bits are shifted. -/
structure Alignment where
  nb_slabs : ℕ
  nb_data_slabs : ℕ
  stop_slab_id : ℕ
  shift : ℕ

namespace Alignment

variable (al : Alignment)

/-- `leftover_get` with `leftover_shift` and `leftover_mask`. -/
def leftover (slab : BitVec 64) : BitVec 64 :=
  leftoverGet slab (if al.shift ≠ 0 then slabBitSize - al.shift else 0)
    (if al.shift ≠ 0 then BitVec.allOnes 64 else 0)

/-- **The second loop of `pdcp_cnt_report_fill`**. -/
def fill : ℕ → Filling → Progress (RteBitmap × List (BitVec 64))
  | 0, _ => .running
  | n + 1, f =>
    if f.report_len = 0 then .done (f.bmp, f.out)
    else
      match f.bmp.scan with
      | none => .broken
      | some (r, bmp) =>
        let next_pos := (r.stored.getD (f.next_pos, f.next_slab)).1
        let next_slab := (r.stored.getD (f.next_pos, f.next_slab)).2
        let next_slab_id := next_pos / slabBitSize
        let diff := (next_slab_id + al.nb_slabs - f.slab_id) % al.nb_slabs +
          if next_slab_id = f.slab_id then al.nb_slabs else 0
        -- the next slab is outside of the range of the report
        let outside := f.report_len < diff
        let next_slab := if outside then 0 else next_slab
        let next_slab_id := if outside then al.stop_slab_id else next_slab_id
        let diff := if outside then f.report_len else diff
        let zeros := (next_slab_id + al.nb_slabs - f.slab_id - 1) % al.nb_slabs
        let slabs :=
          if zeros ≠ 0 then
            f.slab >>> al.shift :: (replicate (zeros - 1) 0 ++ [al.leftover next_slab])
          else [f.slab >>> al.shift ||| al.leftover next_slab]
        (putSlabs al.nb_data_slabs f.out slabs).bind fun out =>
          fill n {
            bmp := bmp
            out := out
            slab := next_slab
            slab_id := next_slab_id
            next_pos := next_pos
            next_slab := next_slab
            report_len := f.report_len - diff }

end Alignment

/-- **`pdcp_cnt_report_fill`**: the slabs of the report. The first slab is computed from the
COUNT itself, and compared with slabs of the bitmap. -/
def pdcpCntReportFill (passes : ℕ) (bmp : RteBitmap) (size rx_deliv data_len : ℕ) :
    Progress (RteBitmap × List (BitVec 64)) :=
  let start_count := (rx_deliv + 1) % word32
  let nb_slabs := size / slabBitSize
  let nb_data_slabs := data_len / slabByteSize
  let start_slab_id := start_count / slabBitSize
  let al : Alignment := {
    nb_slabs := nb_slabs
    nb_data_slabs := nb_data_slabs
    stop_slab_id := (start_slab_id + nb_data_slabs) % nb_slabs
    shift := start_count % slabBitSize }
  (scanToStart start_slab_id passes bmp.scanInit).bind fun (bmp, slab_id, slab) =>
    -- no bits at the beginning
    (if start_slab_id < slab_id then
      putSlabs nb_data_slabs [] (replicate (slab_id - start_slab_id - 1) 0 ++ [al.leftover slab])
    else .done []).bind fun out =>
      al.fill passes {
        bmp := bmp
        out := out
        slab := slab
        slab_id := slab_id
        next_pos := 0
        next_slab := 0
        report_len := nb_data_slabs - (slab_id - start_slab_id) }

/-! ## The control PDU -/

/-- **The header of a control PDU of the user plane** (`struct rte_pdcp_up_ctrl_pdu_hdr`). -/
structure UpCtrlPduHdr where
  r : BitVec 4
  pdu_type : BitVec 3
  d_c : BitVec 1
  fmc : BitVec 32

/-- `RTE_PDCP_PDU_TYPE_CTRL`. -/
def pduTypeCtrl : BitVec 1 := 0#1

/-- `RTE_PDCP_CTRL_PDU_TYPE_STATUS_REPORT`. -/
def ctrlPduTypeStatusReport : BitVec 3 := 0#3

/-- `sizeof(struct rte_pdcp_up_ctrl_pdu_hdr)`. -/
def upCtrlPduHdrSize : ℕ := 5

/-- `RTE_PDCP_CTRL_PDU_SIZE_MAX`. -/
def ctrlPduSizeMax : ℕ := 9000

/-- `ENOMEM`. -/
def enomem : Int := 12

/-- The bytes of a slab in memory, the lowest first. -/
def slabBytes (slab : BitVec 64) : List (BitVec 8) :=
  (List.range slabByteSize).map fun k => slab.extractLsb' (8 * k) 8

/-- The bytes of a header in memory: the first field of a byte is in its low bits. -/
def UpCtrlPduHdr.bytes (h : UpCtrlPduHdr) : List (BitVec 8) :=
  [h.d_c ++ h.pdu_type ++ h.r, h.fmc.extractLsb' 0 8, h.fmc.extractLsb' 8 8,
    h.fmc.extractLsb' 16 8, h.fmc.extractLsb' 24 8]

/-- `pdcp_hdr_fill`. -/
def pdcpHdrFill (rx_deliv : ℕ) : UpCtrlPduHdr where
  d_c := pduTypeCtrl
  pdu_type := ctrlPduTypeStatusReport
  r := 0
  fmc := rteCpuToBe32 (BitVec.ofNat 32 rx_deliv)

/-- `round_up_bits`. -/
def roundUpBits (bits : ℕ) : ℕ := (bits + 7) % word32 / 8 % word16

namespace Buf

/-- Some bytes are written in a packet. -/
def writeAt (mb : Buf) (off : ℕ) (bytes : List (BitVec 8)) : Buf :=
  { mb with data := mb.data.take off ++ bytes ++ mb.data.drop (off + bytes.length) }

/-- `pkt_len` and `data_len` are set. -/
def setLen (mb : Buf) (len : ℕ) : Buf :=
  { mb with data := mb.data.take len, tailroom := mb.data.drop len ++ mb.tailroom }

end Buf

namespace DlEntity

variable (en : DlEntity)

/-- `actual_sz` of `pdcp_ctrl_pdu_status_gen`: the bytes of the bitmap. -/
def actualSz : ℕ :=
  min (roundUpBits (en.rx_next - en.rx_deliv - 1)) (ctrlPduSizeMax - upCtrlPduHdrSize)

/-- `bitmap_sz` of `pdcp_ctrl_pdu_status_gen`: the bytes of the slabs in which the bitmap
is. -/
def bitmapSz : ℕ := pdcpCntGetBitmapSize en.actualSz

end DlEntity

/-- **`pdcp_ctrl_pdu_status_gen`**: an error, or the mbuf with the report. The entity has another
scan of its bitmap afterwards. -/
def pdcpCtrlPduStatusGen (passes : ℕ) (is_status_report_required : Bool) (en : DlEntity)
    (m : Buf) : Progress (DlEntity × Except Int Buf) :=
  if ¬ is_status_report_required then .done (en, .error (-einval))
  else
    let hdr := (pdcpHdrFill en.rx_deliv).bytes
    let off := m.data.length
    if en.rx_next ≤ en.rx_deliv then
      match m.append upCtrlPduHdrSize with
      | none => .done (en, .error (-enomem))
      | some m => .done (en, .ok (m.writeAt off hdr))
    else
      match m.append (upCtrlPduHdrSize + en.bitmapSz) with
      | none => .done (en, .error (-enomem))
      | some m =>
        (pdcpCntReportFill passes en.bitmap en.bitmap_size en.rx_deliv en.bitmapSz).bind
          fun (bmp, slabs) =>
            let m := (m.writeAt off hdr).writeAt (off + upCtrlPduHdrSize) (slabs.flatMap slabBytes)
            .done ({ en with bitmap := bmp }, .ok (m.setLen (upCtrlPduHdrSize + en.actualSz)))

/-! ## An entity that is asked for reports -/

/-- **What happens to an entity** that is also asked for status reports, each into an mbuf and
with as many passes as its loops take. -/
inductive RxEvent
  | event (e : DlEvent)
  | report (passes : ℕ) (m : Buf)

/-- **One event.** Behind a report that does not come to an end there is no state. -/
def rxStep (sys : DlSystem) : RxEvent → Option DlSystem
  | .event e => dlStep sys e
  | .report passes m =>
    match pdcpCtrlPduStatusGen passes true sys.en m with
    | .done (en, _) => some { sys with en := en }
    | _ => none

end Pdcp
