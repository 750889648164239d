import Mathlib.Logic.Function.Basic
import DpdkStudy.Lib.Ring

/-!
# The reorder buffer

The reorder buffer of `lib/reorder/rte_reorder.c`. Packets that arrive out of
order are put into the slots of the order buffer, a ring that starts at the
lowest sequence number that is still awaited. Packets that are in order are
drained from its head. A packet too far ahead makes the ring move on: the
packets in front go to the ready buffer, a second ring, and gaps are skipped.
-/

namespace Reorder

/-- `ENOSPC`. -/
def enospc : Int := 28

/-- `ERANGE`. -/
def erange : Int := 34

/-- **A packet**, with the sequence number of its dynamic field. -/
structure Mbuf where
  id : ℕ
  seqn : UInt32
deriving DecidableEq, Repr

/-- **A circular buffer** (`struct cir_buffer`). A slot that is `NULL` is
`none`. -/
structure CirBuffer where
  size : ℕ
  mask : ℕ
  head : ℕ
  tail : ℕ
  entries : ℕ → Option Mbuf

/-- **The reorder buffer** (`struct rte_reorder_buffer`). -/
structure ReorderBuffer where
  minSeqn : UInt32
  isInitialized : Bool
  readyBuf : CirBuffer
  orderBuf : CirBuffer

/-- `rte_reorder_init`, for a size that is a power of two. -/
def rteReorderInit (size : ℕ) : ReorderBuffer :=
  ⟨0, false, ⟨size, size - 1, 0, 0, fun _ => none⟩, ⟨size, size - 1, 0, 0, fun _ => none⟩⟩

/-- The position after one. -/
def CirBuffer.next (c : CirBuffer) (position : ℕ) : ℕ := (position + 1) &&& c.mask

/-- The slot at a position, written. -/
def CirBuffer.put (c : CirBuffer) (position : ℕ) (entry : Option Mbuf) : CirBuffer :=
  { c with entries := Function.update c.entries position entry }

/-- There is no room for one more entry between the tail and the head. -/
def CirBuffer.isFull (c : CirBuffer) : Bool := c.next c.head = c.tail

/-! ## Insertion -/

/-- The inner loop of `rte_reorder_fill_overflow`: entries at the head of the
order buffer go to the ready buffer, up to the first gap. It answers with the
two buffers, the number of positions the head has moved, and whether the loop
was left by its `break`. It is run with the size of the buffers, which is as
often as there can be an entry. -/
def moveReady : ℕ → CirBuffer → CirBuffer → ℕ → (CirBuffer × CirBuffer) × ℕ × Bool
  | 0, ready, order, adv => ((ready, order), adv, false)
  | fuel + 1, ready, order, adv =>
    match order.entries order.head with
    | none => ((ready, order), adv, false)
    | some mbuf =>
      let ready := ready.put ready.head (some mbuf)
      let order := { order.put order.head none with head := order.next order.head }
      if ready.isFull then ((ready, order), adv + 1, true)
      else moveReady fuel { ready with head := ready.next ready.head } order (adv + 1)

/-- The step over a gap at the head of the order buffer. -/
def skipGap (order : CirBuffer) (adv : ℕ) : CirBuffer × ℕ :=
  match order.entries order.head with
  | none => ({ order with head := order.next order.head }, adv + 1)
  | some _ => (order, adv)

/-- The outer loop of `rte_reorder_fill_overflow`. It moves the head by one
position at least each time, so it is run `n` times at most. -/
def fillLoop (n : ℕ) : ℕ → CirBuffer → CirBuffer → ℕ → (CirBuffer × CirBuffer) × ℕ × Bool
  | 0, ready, order, adv => ((ready, order), adv, false)
  | fuel + 1, ready, order, adv =>
    if adv < n ∧ ¬ ready.isFull then
      let s := skipGap order adv
      let r := moveReady s.1.size ready s.1 s.2
      if r.2.2 then r else fillLoop n fuel r.1.1 r.1.2 r.2.1
    else ((ready, order), adv, false)

/-- **`rte_reorder_fill_overflow`**: the buffer, the number of positions the
head of the order buffer has moved, and whether the ready buffer was full in
the middle of a run of entries. -/
def rteReorderFillOverflow (b : ReorderBuffer) (n : ℕ) : ReorderBuffer × ℕ × Bool :=
  let r := fillLoop n n b.readyBuf b.orderBuf 0
  ({ b with
      readyBuf := r.1.1, orderBuf := r.1.2, minSeqn := b.minSeqn + UInt32.ofNat r.2.1 },
    r.2.1, r.2.2)

/-- The slot for an offset from the head of the order buffer. -/
def ReorderBuffer.position (b : ReorderBuffer) (offset : UInt32) : ℕ :=
  (b.orderBuf.head + offset.toNat) &&& b.orderBuf.mask

/-- The packet in the slot of its offset. -/
def ReorderBuffer.store (b : ReorderBuffer) (offset : UInt32) (mbuf : Mbuf) : ReorderBuffer :=
  { b with orderBuf := b.orderBuf.put (b.position offset) (some mbuf) }

/-- The first packet sets the lowest sequence number. -/
def ReorderBuffer.initialized (b : ReorderBuffer) (mbuf : Mbuf) : ReorderBuffer :=
  if b.isInitialized then b else { b with minSeqn := mbuf.seqn, isInitialized := true }

/-- How far the order buffer has to move for an offset. -/
def ReorderBuffer.overflow (b : ReorderBuffer) (offset : UInt32) : ℕ :=
  offset.toNat + 1 - b.orderBuf.size

/-- **`rte_reorder_insert`**: it answers 0, or -1 with an error in
`rte_errno`. -/
def rteReorderInsert (b : ReorderBuffer) (mbuf : Mbuf) : Except Int Unit × ReorderBuffer :=
  let b := b.initialized mbuf
  let offset := mbuf.seqn - b.minSeqn
  if offset.toNat < b.orderBuf.size then (.ok (), b.store offset mbuf)
  else if offset.toNat < 2 * b.orderBuf.size % 2 ^ 32 then
    let r := rteReorderFillOverflow b (b.overflow offset)
    if r.2.1 < b.overflow offset then (.error enospc, r.1)
    else (.ok (), r.1.store (mbuf.seqn - r.1.minSeqn) mbuf)
  else (.error erange, b)

/-! ## Draining -/

/-- The loop that drains the ready buffer, for `n` packets at most. -/
def drainReady : ℕ → CirBuffer → List (Option Mbuf) × CirBuffer
  | 0, ready => ([], ready)
  | n + 1, ready =>
    if ready.tail = ready.head then ([], ready)
    else
      let r := drainReady n { ready.put ready.tail none with tail := ready.next ready.tail }
      (ready.entries ready.tail :: r.1, r.2)

/-- The loop that drains the order buffer up to a gap, for `n` packets at
most. -/
def drainOrder : ℕ → CirBuffer → UInt32 → List (Option Mbuf) × CirBuffer × UInt32
  | 0, order, minSeqn => ([], order, minSeqn)
  | n + 1, order, minSeqn =>
    match order.entries order.head with
    | none => ([], order, minSeqn)
    | some mbuf =>
      let r := drainOrder n { order.put order.head none with head := order.next order.head }
        (minSeqn + 1)
      (some mbuf :: r.1, r.2)

/-- **`rte_reorder_drain`**: the packets, and the buffer without them. -/
def rteReorderDrain (b : ReorderBuffer) (maxMbufs : ℕ) : List (Option Mbuf) × ReorderBuffer :=
  let r := drainReady maxMbufs b.readyBuf
  let o := drainOrder (maxMbufs - r.1.length) b.orderBuf b.minSeqn
  (r.1 ++ o.1, { b with readyBuf := r.2, orderBuf := o.2.1, minSeqn := o.2.2 })

/-! ## Draining up to a sequence number -/

/-- The binary search of `ready_buffer_seqn_find`, or `none` where it reads
the sequence number of a slot without a packet. -/
def seqnFindLoop (ready : CirBuffer) (seqn : UInt32) : ℕ → ℕ → ℕ → Option ℕ
  | 0, _, _ => none
  | fuel + 1, low, high =>
    if low ≤ high then
      let mid := low + (high - low) / 2
      match ready.entries ((ready.tail + mid) &&& ready.mask) with
      | none => none
      | some mbuf =>
        if seqn = mbuf.seqn then some mid
        else if seqn > mbuf.seqn then seqnFindLoop ready seqn fuel (mid + 1) high
        else seqnFindLoop ready seqn fuel low ((mid + 2 ^ 32 - 1) % 2 ^ 32)
    else some low

/-- `ready_buffer_seqn_find`. The search is over at most as many positions as
the buffer has, and each time over one less at least. -/
def readyBufferSeqnFind (ready : CirBuffer) (seqn : UInt32) : Option ℕ :=
  let high := if ready.tail > ready.head then ready.tail - ready.head else ready.head - ready.tail
  seqnFindLoop ready seqn (ready.size + 2) 0 high

/-- The loop that takes `n` packets from the tail of the ready buffer. -/
def takeReady : ℕ → CirBuffer → List (Option Mbuf) × CirBuffer
  | 0, ready => ([], ready)
  | n + 1, ready =>
    let r := takeReady n { ready.put ready.tail none with tail := ready.next ready.tail }
    (ready.entries ready.tail :: r.1, r.2)

/-- The loop that takes packets from the order buffer over `n` positions, and
over gaps, for `max` packets at most. -/
def takeOrder : ℕ → ℕ → CirBuffer → UInt32 → List (Option Mbuf) × CirBuffer × UInt32
  | 0, _, order, minSeqn => ([], order, minSeqn)
  | n + 1, max, order, minSeqn =>
    if max = 0 then ([], order, minSeqn)
    else
      match order.entries order.head with
      | none => takeOrder n max { order with head := order.next order.head } (minSeqn + 1)
      | some mbuf =>
        let r := takeOrder n (max - 1)
          { order.put order.head none with head := order.next order.head } (minSeqn + 1)
        (some mbuf :: r.1, r.2)

/-- **`rte_reorder_drain_up_to_seqn`**, or `none` where it reads the sequence
number of a slot without a packet. -/
def rteReorderDrainUpToSeqn (b : ReorderBuffer) (maxMbufs : ℕ) (seqn : UInt32) :
    Option (List (Option Mbuf) × ReorderBuffer) :=
  if seqn < b.minSeqn then
    if b.readyBuf.tail = b.readyBuf.head then some ([], b)
    else
      match b.readyBuf.entries b.readyBuf.tail with
      | none => none
      | some mbuf =>
        if mbuf.seqn > seqn then some ([], b)
        else
          match readyBufferSeqnFind b.readyBuf seqn with
          | none => none
          | some offset =>
            let r := takeReady (min offset maxMbufs) b.readyBuf
            some (r.1, { b with readyBuf := r.2 })
  else
    let r := drainReady maxMbufs b.readyBuf
    let offset := min (seqn - b.minSeqn).toNat b.orderBuf.size
    let o := takeOrder offset (maxMbufs - r.1.length) b.orderBuf b.minSeqn
    some (r.1 ++ o.1, { b with readyBuf := r.2, orderBuf := o.2.1, minSeqn := o.2.2 })

/-! ## Calls, one after the other -/

/-- **A call** on a reorder buffer. -/
inductive Call
  | insert (mbuf : Mbuf)
  | drain (maxMbufs : ℕ)
  | drainUpToSeqn (maxMbufs : ℕ) (seqn : UInt32)
deriving DecidableEq, Repr

/-- **A reorder buffer and what has come of it**: the packets whose insertion
was answered with 0, and what the drains have handed out, each in the order of
the calls. -/
structure Trace where
  buffer : ReorderBuffer
  accepted : List Mbuf
  drained : List (Option Mbuf)

/-- A fresh reorder buffer. -/
def Trace.fresh (size : ℕ) : Trace := ⟨rteReorderInit size, [], []⟩

/-- A call is made. A call that reads through `NULL` does not come back; the
trace is then left as it is. -/
def Trace.called (t : Trace) : Call → Trace
  | .insert mbuf =>
    match rteReorderInsert t.buffer mbuf with
    | (.ok (), b) => { t with buffer := b, accepted := t.accepted ++ [mbuf] }
    | (.error _, b) => { t with buffer := b }
  | .drain maxMbufs =>
    let r := rteReorderDrain t.buffer maxMbufs
    { t with buffer := r.2, drained := t.drained ++ r.1 }
  | .drainUpToSeqn maxMbufs seqn =>
    match rteReorderDrainUpToSeqn t.buffer maxMbufs seqn with
    | none => t
    | some r => { t with buffer := r.2, drained := t.drained ++ r.1 }

/-- What is between the tail and the head of the ready buffer. -/
def ReorderBuffer.readyEntries (b : ReorderBuffer) : List (Option Mbuf) :=
  Ring.view b.readyBuf.size b.readyBuf.entries b.readyBuf.tail
    ((b.readyBuf.head + b.readyBuf.size - b.readyBuf.tail) % b.readyBuf.size)

/-- The slots of the order buffer, from its head on. -/
def ReorderBuffer.orderEntries (b : ReorderBuffer) : List (Option Mbuf) :=
  Ring.view b.orderBuf.size b.orderBuf.entries b.orderBuf.head b.orderBuf.size

end Reorder
