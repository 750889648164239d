import DpdkStudy.Bitmap.Contents
import DpdkStudy.Pdcp.Count
import DpdkStudy.Reorder.MinSeqn

/-!
# A downlink PDCP entity

The receiving side of a PDCP entity (`lib/pdcp`), behind the crypto device. The
packets of a batch have been given their COUNTs before (`preProcessDl`). Each is now
delivered, if it is the next one (`RX_DELIV`), or put in a reorder buffer until all in
front of it have come. What has come is in a bitmap, modulo the window. While packets
are missing a timer runs (t-Reordering), and when it expires, those in front of
`RX_REORD` are no longer waited for.

A packet is a pointer and its COUNT. What is trimmed from its data is left out, and so
are the callbacks of the timer. The memory of an entity is cleared when it is
allocated, its bitmap is on a cache line. `RTE_VERIFY` has no result when it fails, and
neither does an access to the bitmap that leaves it.
-/

namespace Pdcp

open Reorder (ReorderBuffer)

/-- `EEXIST`. -/
def eexist : Int := 17

/-- `EINVAL`. -/
def einval : Int := 22

/-- The values of a `uint16_t`. -/
def word16 : ℕ := 2 ^ 16

/-- The values of a `uint32_t`. -/
def word32 : ℕ := 2 ^ 32

/-- `enum timer_state`. -/
inductive TimerState
  | stop
  | running
  | expired
deriving DecidableEq, Repr

/-- **A downlink entity** (`struct rte_pdcp_entity`, with its private parts). -/
structure DlEntity where
  plane : Plane
  max_pkt_cache : ℕ
  rx_next : ℕ
  rx_deliv : ℕ
  rx_reord : ℕ
  is_out_of_order_delivery : Bool
  bitmap : Bitmap.RteBitmap
  bitmap_size : ℕ
  t_reorder : TimerState
  reorder : ReorderBuffer
  is_active : Bool

/-- **`rte_pdcp_entity_establish`** for a downlink entity, whose bitmap is at an
address. -/
def rtePdcpEntityEstablish (plane : Plane) (is_out_of_order_delivery : Bool)
    (hfn sn : BitVec 32) (mem : ℕ) : Option DlEntity :=
  let window_size := (pdcpWindowSizeGet plane.snSize).toNat
  let bitmap := Bitmap.rteBitmapInit window_size mem
    (Bitmap.rteBitmapGetMemoryFootprint window_size)
  bitmap.map fun bitmap =>
    { plane := plane
      max_pkt_cache := max 0 window_size
      rx_next := 0
      rx_deliv := (pdcpCountFromHfnSnGet hfn sn plane.snSize).toNat
      rx_reord := 0
      is_out_of_order_delivery := is_out_of_order_delivery
      bitmap := bitmap
      bitmap_size := window_size
      t_reorder := .stop
      reorder := Reorder.rteReorderInit window_size
      is_active := false }

/-! ## The state of an entity -/

/-- `pdcp_cnt_bitmap_range_clear`. -/
def pdcpCntBitmapRangeClear (bitmap : Bitmap.RteBitmap) (size start stop : ℕ) :
    Option Bitmap.RteBitmap :=
  (List.range' start (stop - start)).foldlM (fun bmp i => bmp.clear (i % size)) bitmap

namespace DlEntity

variable (en : DlEntity)

/-- `pdcp_rx_deliv_set`. -/
def rxDelivSet (rx_deliv : ℕ) : Option DlEntity :=
  (pdcpCntBitmapRangeClear en.bitmap en.bitmap_size en.rx_deliv rx_deliv).map fun bitmap =>
    { en with
      bitmap := bitmap
      rx_deliv := rx_deliv }

/-- `pdcp_reorder_insert`. -/
def reorderInsert (mb : Reorder.Mbuf) : Option DlEntity :=
  match Reorder.rteReorderInsert en.reorder mb with
  | (.ok (), buf) => some { en with reorder := buf }
  | (.error _, _) => none

/-- `pdcp_reorder_start`, with `RX_DELIV`. -/
def reorderStart : Option DlEntity :=
  match Reorder.rteReorderMinSeqnSet en.reorder (UInt32.ofNat en.rx_deliv) with
  | (.ok (), buf) =>
    some { en with
      reorder := buf
      is_active := true }
  | (.error _, _) => none

/-- **The next packet** is delivered, and those that it has held up. The number of them
is a `uint16_t`. -/
def deliverNext (mb : Reorder.Mbuf) : Option (DlEntity × List (Option Reorder.Mbuf) × ℕ) :=
  if en.is_active then do
    let en ← en.reorderInsert mb
    let r := Reorder.rteReorderDrain en.reorder en.max_pkt_cache
    let processed := r.1.length % word16
    let en ← { en with reorder := r.2 }.rxDelivSet ((mb.seqn.toNat + processed) % word32)
    some (en, r.1, processed)
  else do
    let en ← en.rxDelivSet ((mb.seqn.toNat + 1) % word32)
    some (en, [some mb], 1)

/-- **A packet that is not the next one** is buffered. -/
def buffer (mb : Reorder.Mbuf) : Option DlEntity :=
  if en.is_active then en.reorderInsert mb
  else en.reorderStart.bind fun en => en.reorderInsert mb

/-- **The timer** is stopped when what it waits for has come, and started while packets
are missing. -/
def timerUpdate : DlEntity :=
  let en :=
    if en.t_reorder = .running ∧ en.rx_reord ≤ en.rx_deliv then
      { en with
        t_reorder := .stop
        is_active := if en.rx_deliv = en.rx_next then false else en.is_active }
    else en
  if en.t_reorder = .stop ∧ en.rx_deliv < en.rx_next then
    { en with
      rx_reord := en.rx_next
      t_reorder := .running }
  else en

end DlEntity

/-- **`pdcp_post_process_update_entity_state`**: an error, or the packets that it has
written to `out_mb` and how many it says they are. -/
def pdcpPostProcessUpdateEntityState (en : DlEntity) (mb : Reorder.Mbuf) :
    Option (DlEntity × Except Int (List (Option Reorder.Mbuf) × ℕ)) :=
  let count := mb.seqn.toNat
  if count < en.rx_deliv then some (en, .error (-einval))
  else
    let en := if en.rx_next ≤ count then { en with rx_next := (count + 1) % word32 } else en
    (en.bitmap.get (count % en.bitmap_size)).bind fun slab =>
      if slab ≠ 0 then some (en, .error (-eexist))
      else (en.bitmap.set (count % en.bitmap_size)).bind fun bitmap =>
        let en := { en with bitmap := bitmap }
        if en.is_out_of_order_delivery then
          (en.rxDelivSet ((count + 1) % word32)).map fun en => (en, .ok ([some mb], 1))
        else if count = en.rx_deliv then
          (en.deliverNext mb).map fun (en, out, processed) =>
            (en.timerUpdate, .ok (out, processed))
        else (en.buffer mb).map fun en => (en.timerUpdate, .ok ([], 0))

/-! ## A batch -/

/-- **A post-process under way**: the entity, what is in `out_mb` up to `nb_success`, and
`err_mb`. The packets that have been accepted are noted as well. -/
structure Post where
  en : DlEntity
  out : List (Option Reorder.Mbuf)
  err : List Reorder.Mbuf
  accepted : List Reorder.Mbuf

/-- **One packet of a post-process**, with the result of the crypto device. What it writes
goes behind what is there, and stays as far as it is counted. -/
def Post.packet (p : Post) (mb : Reorder.Mbuf × Bool) : Option Post :=
  if mb.2 then some { p with err := p.err ++ [mb.1] }
  else (pdcpPostProcessUpdateEntityState p.en mb.1).map fun r =>
    match r with
    | (en, .error _) =>
      { p with
        en := en
        err := p.err ++ [mb.1] }
    | (en, .ok (out, processed)) =>
      { en := en
        out := (p.out ++ out).take (p.out.length + processed)
        err := p.err
        accepted := p.accepted ++ [mb.1] }

/-- The packets of a batch. -/
def Post.packets (p : Post) : List (Reorder.Mbuf × Bool) → Option Post
  | [] => some p
  | mb :: in_mb => (p.packet mb).bind fun p => p.packets in_mb

/-- **What a post-process returns**: the packets that it delivers, and those with an
error. -/
structure Posted where
  en : DlEntity
  success : List (Option Reorder.Mbuf)
  error : List (Option Reorder.Mbuf)
  accepted : List Reorder.Mbuf

/-- **`pdcp_post_process_uplane_dl_flags`**, and `pdcp_post_process_cplane_sn_12_dl`. The
numbers of packets are returned as `uint16_t`. -/
def pdcpPostProcessDl (en : DlEntity) (in_mb : List (Reorder.Mbuf × Bool)) : Option Posted :=
  (Post.packets ⟨en, [], [], []⟩ in_mb).map fun p =>
    let out_mb := p.out ++ p.err.map some
    let nb_success := p.out.length % word16
    { en := p.en
      success := out_mb.take nb_success
      error := (out_mb.drop nb_success).take (p.err.length % word16)
      accepted := p.accepted }

/-- **`rte_pdcp_t_reordering_expiry_handle`**. -/
def rtePdcpTReorderingExpiryHandle (en : DlEntity) :
    Option (DlEntity × List (Option Reorder.Mbuf)) := do
  let capacity := en.max_pkt_cache % word16
  let (out_mb, buf) ← Reorder.rteReorderDrainUpToSeqn en.reorder capacity
    (UInt32.ofNat en.rx_reord)
  let nb_out := out_mb.length % word16
  let capacity := (capacity + word16 - nb_out) % word16
  let (seq_mb, buf) := Reorder.rteReorderDrain buf capacity
  let nb_seq := seq_mb.length % word16
  let en ← { en with reorder := buf }.rxDelivSet ((en.rx_reord + nb_seq) % word32)
  let en :=
    if en.rx_deliv < en.rx_next then
      { en with
        rx_reord := en.rx_next
        t_reorder := .running }
    else { en with t_reorder := .expired }
  some (en, (out_mb.take nb_out ++ seq_mb).take ((nb_out + nb_seq) % word16))

/-! ## An entity and its packets -/

/-- **An entity and its packets**: those whose COUNT is known and that are not back from
the crypto device yet, and where the others have gone. -/
structure DlSystem where
  en : DlEntity
  pending : List Reorder.Mbuf
  /-- All packets that have been given to the entity. -/
  offered : List ℕ
  /-- Packets for which there is no COUNT. -/
  rejected : List ℕ
  /-- Packets that the post-process has returned as errors. -/
  failed : List (Option Reorder.Mbuf)
  /-- Packets that the post-process has accepted. -/
  accepted : List Reorder.Mbuf
  delivered : List (Option Reorder.Mbuf)

/-- An entity without packets. -/
def DlSystem.start (en : DlEntity) : DlSystem := ⟨en, [], [], [], [], [], []⟩

/-- **What happens to an entity.** A batch that is post-processed has packets that have been
pre-processed, in any order. -/
inductive DlEvent
  | pre (in_mb : List (ℕ × Mbuf))
  | post (in_mb : List (Reorder.Mbuf × Bool))
  | expiry

/-- The packets of a batch, with their COUNTs, and those without one. -/
def countGet (plane : Plane) (rx_deliv : ℕ) :
    List (ℕ × Mbuf) → List Reorder.Mbuf × List ℕ
  | [] => ([], [])
  | (id, mb) :: in_mb =>
    let r := countGet plane rx_deliv in_mb
    match plane.dlPacket (BitVec.ofNat 32 rx_deliv) mb with
    | some count => (⟨id, UInt32.ofBitVec count⟩ :: r.1, r.2)
    | none => (r.1, id :: r.2)

/-- **One event.** -/
def dlStep (sys : DlSystem) : DlEvent → Option DlSystem
  | .pre in_mb =>
    let r := countGet sys.en.plane sys.en.rx_deliv in_mb
    some { sys with
      pending := sys.pending ++ r.1
      offered := sys.offered ++ in_mb.map Prod.fst
      rejected := sys.rejected ++ r.2 }
  | .post in_mb =>
    (pdcpPostProcessDl sys.en in_mb).map fun r =>
      { sys with
        en := r.en
        pending := sys.pending.diff (in_mb.map Prod.fst)
        failed := sys.failed ++ r.error
        accepted := sys.accepted ++ r.accepted
        delivered := sys.delivered ++ r.success }
  | .expiry =>
    (rtePdcpTReorderingExpiryHandle sys.en).map fun r =>
      { sys with
        en := r.1
        delivered := sys.delivered ++ r.2 }

/-- The packets in the reorder buffer. -/
def DlEntity.buffered (en : DlEntity) : List Reorder.Mbuf :=
  (en.reorder.readyEntries ++ en.reorder.orderEntries).reduceOption

/-- **What may happen.** No COUNT is the last one. A batch has packets that are waiting
for it, as many as fit a `uint16_t`. A timer that expires is running. -/
def Legal (sys : DlSystem) : DlEvent → Prop
  | .pre in_mb => ∀ mb ∈ (countGet sys.en.plane sys.en.rx_deliv in_mb).1,
    mb.seqn.toNat + 1 < word32
  | .post in_mb => in_mb.length < word16 ∧ (in_mb.map Prod.fst).Subperm sys.pending
  | .expiry => sys.en.t_reorder = .running

end Pdcp
