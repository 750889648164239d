import Mathlib.Data.Int.Init
import Mathlib.Logic.Function.Basic
import Mathlib.Data.List.Basic
import Mathlib.Algebra.Group.Nat.Defs

/-!
# Packets in mbufs

A packet is a chain of mbufs, each with a part of the bytes
(`lib/mbuf/rte_mbuf.h`, `lib/mbuf/rte_mbuf.c`). The bytes of an mbuf lie behind
the mbuf itself, behind another one it is attached to, or in an external buffer,
and two flags say which of these it is. An mbuf and an external buffer count who
refers to them. The mbufs of a pool may have external buffers of their own that
are never detached (*pinned* buffers).

What the flags say is not always so. A function that then takes bytes for a
counter, or that follows a null pointer, answers `none`.
-/

namespace Pktmbuf

open Function

/-- `RTE_MBUF_F_EXTERNAL`. -/
def fExternal : UInt64 := (1 : UInt64) <<< 61

/-- `RTE_MBUF_F_INDIRECT`. -/
def fIndirect : UInt64 := (1 : UInt64) <<< 62

/-- **Where a buffer is**: behind an mbuf, or outside with shared information. -/
inductive Place
  | embedded (md : ℕ)
  | external (shinfo : ℕ)
deriving DecidableEq, Repr

/-- **A segment**: an mbuf with its flags, the place of its buffer, its bytes
there, and the room behind them, in which no other segment has bytes. -/
structure Seg where
  mbuf : ℕ
  ol_flags : UInt64
  place : Place
  data : List UInt8
  tailroom : ℕ
deriving DecidableEq, Repr

/-- `data_len`. -/
def Seg.dataLen (s : Seg) : ℕ := s.data.length

/-- `RTE_MBUF_DIRECT`. -/
def Seg.IsDirect (s : Seg) : Prop := s.ol_flags &&& (fIndirect ||| fExternal) = 0

/-- `RTE_MBUF_HAS_EXTBUF`. -/
def Seg.HasExtbuf (s : Seg) : Prop := s.ol_flags &&& fExternal ≠ 0

instance (s : Seg) : Decidable s.IsDirect := inferInstanceAs (Decidable (_ = _))

instance (s : Seg) : Decidable s.HasExtbuf := inferInstanceAs (Decidable (_ ≠ _))

/-- **A packet**: its first segment and those it is chained to, and what the first
mbuf says of the whole. -/
structure Pkt where
  seg : Seg
  next : List Seg
  nb_segs : ℕ
  pkt_len : ℕ
deriving DecidableEq, Repr

namespace Pkt

/-- The segments of a packet. -/
def segs (m : Pkt) : List Seg := m.seg :: m.next

/-- The bytes of a packet. -/
def bytes (m : Pkt) : List UInt8 := m.segs.flatMap Seg.data

end Pkt

/-- **The pools**: which pool an mbuf is of, whether the mbufs of a pool have pinned
buffers and which these are, and the room in an mbuf that is new. -/
structure Env where
  poolOf : ℕ → ℕ
  pinned : ℕ → Bool
  pin : ℕ → ℕ
  room : ℕ → ℕ
  room_lt : ∀ mp, room mp < 2 ^ 16

/-- **What changes**: the mbufs in each pool with the places of their buffers, the
reference counters of mbufs and of external buffers, and the external buffers
that were given back to their owners. -/
structure Heap where
  free : ℕ → List (ℕ × Place)
  refcnt : ℕ → UInt16
  shinfo : ℕ → UInt16
  released : List ℕ

/-! ## One mbuf -/

/-- **`rte_pktmbuf_alloc`**: an mbuf of a pool, with no bytes in it. -/
def rtePktmbufAlloc (env : Env) (h : Heap) (mp : ℕ) : Option (Seg × Heap) :=
  match h.free mp with
  | [] => none
  | (mbuf, place) :: rest =>
    some (⟨mbuf, if env.pinned mp then fExternal else 0, place, [], env.room mp⟩,
      { h with free := update h.free mp rest })

/-- `rte_mbuf_raw_free`. -/
def rteMbufRawFree (env : Env) (h : Heap) (mbuf : ℕ) (place : Place) : Heap :=
  { h with
    free := update h.free (env.poolOf mbuf) ((mbuf, place) :: h.free (env.poolOf mbuf)) }

/-- **`rte_pktmbuf_attach`**: the buffer of `m` is that of `mi` too. -/
def rtePktmbufAttach (h : Heap) (mi m : Seg) : Option (Seg × Heap) :=
  if m.HasExtbuf then
    match m.place with
    | .external e =>
      some ({ m with mbuf := mi.mbuf }, { h with shinfo := update h.shinfo e (h.shinfo e + 1) })
    | .embedded _ => none
  else
    -- `rte_mbuf_from_indirect`, of which the buffer must be behind an mbuf
    match m.place with
    | .embedded md =>
      some ({ m with mbuf := mi.mbuf, ol_flags := m.ol_flags ||| fIndirect },
        { h with refcnt := update h.refcnt md (h.refcnt md + 1) })
    | .external _ => none

/-- `__rte_pktmbuf_free_extbuf`. -/
def rtePktmbufFreeExtbuf (h : Heap) (e : ℕ) : Heap :=
  let h := { h with shinfo := update h.shinfo e (h.shinfo e - 1) }
  if h.shinfo e = 0 then { h with released := e :: h.released } else h

/-- `__rte_pktmbuf_free_direct`. -/
def rtePktmbufFreeDirect (env : Env) (h : Heap) (md : ℕ) : Heap :=
  let h := { h with refcnt := update h.refcnt md (h.refcnt md - 1) }
  if h.refcnt md = 0 then
    rteMbufRawFree env { h with refcnt := update h.refcnt md 1 } md (.embedded md)
  else h

/-- **`rte_pktmbuf_detach`**: the place and the flags of the mbuf after it. A pinned
buffer is not detached. -/
def rtePktmbufDetach (env : Env) (h : Heap) (m : Seg) : Option (Place × UInt64 × Heap) :=
  if m.HasExtbuf then
    if env.pinned (env.poolOf m.mbuf) then some (m.place, m.ol_flags, h)
    else
      match m.place with
      | .external e => some (.embedded m.mbuf, 0, rtePktmbufFreeExtbuf h e)
      | .embedded _ => none
  else
    match m.place with
    | .embedded md => some (.embedded m.mbuf, 0, rtePktmbufFreeDirect env h md)
    | .external _ => none

/-- `__rte_pktmbuf_pinned_extbuf_decref`: whether the mbuf is not to be freed. -/
def rtePktmbufPinnedExtbufDecref (h : Heap) (place : Place) : Option (Bool × Heap) :=
  match place with
  | .external e =>
    if h.shinfo e = 1 then some (false, h)
    else
      let h := { h with shinfo := update h.shinfo e (h.shinfo e - 1) }
      if h.shinfo e ≠ 0 then some (true, h)
      else some (false, { h with shinfo := update h.shinfo e 1 })
  | .embedded _ => none

/-- **`rte_pktmbuf_free_seg`**. -/
def rtePktmbufFreeSeg (env : Env) (h : Heap) (m : Seg) : Option Heap :=
  let refcnt := h.refcnt m.mbuf - 1
  if h.refcnt m.mbuf ≠ 1 ∧ refcnt ≠ 0 then
    some { h with refcnt := update h.refcnt m.mbuf refcnt }
  else if m.IsDirect then some (rteMbufRawFree env h m.mbuf m.place)
  else do
    let (place, ol_flags, h) ← rtePktmbufDetach env h m
    if ol_flags &&& fExternal ≠ 0 ∧ env.pinned (env.poolOf m.mbuf) then
      let (kept, h) ← rtePktmbufPinnedExtbufDecref h place
      some (if kept then h else rteMbufRawFree env h m.mbuf place)
    else some (rteMbufRawFree env h m.mbuf place)

/-- **`rte_pktmbuf_free`**: the segments of a packet, one after the other. -/
def rtePktmbufFree (env : Env) (h : Heap) : List Seg → Option Heap
  | [] => some h
  | s :: segs => do
    let h ← rtePktmbufFreeSeg env h s
    rtePktmbufFree env h segs

/-! ## Packets -/

/-- The loop of `rte_pktmbuf_clone` from a segment `md` on, with an mbuf `mi` for
it: the segments of the clone, and whether there were enough mbufs. -/
def cloneLoop (env : Env) (mp : ℕ) :
    Heap → List Seg → Seg → Seg → List Seg → Option (List Seg × Bool × Heap)
  | h, mc, mi, md, rest => do
    let (mi, h) ← rtePktmbufAttach h mi md
    match rest with
    | [] => some (mc ++ [mi], true, h)
    | md :: rest =>
      match rtePktmbufAlloc env h mp with
      | none => some (mc ++ [mi], false, h)
      | some (mi', h) => cloneLoop env mp h (mc ++ [mi]) mi' md rest

/-- A packet of some segments, of which there is at least the last one. -/
def Pkt.ofSegs (front : List Seg) (last : Seg) (nb_segs pkt_len : ℕ) : Pkt :=
  match front with
  | [] => ⟨last, [], nb_segs, pkt_len⟩
  | s :: front => ⟨s, front ++ [last], nb_segs, pkt_len⟩

/-- **`rte_pktmbuf_clone`**: `none` for `NULL`. -/
def rtePktmbufClone (env : Env) (h : Heap) (md : Pkt) (mp : ℕ) : Option (Option Pkt × Heap) :=
  match rtePktmbufAlloc env h mp with
  | none => some (none, h)
  | some (mi, h) => do
    let (segs, done, h) ← cloneLoop env mp h [] mi md.seg md.next
    if done then
      match segs with
      | [] => none
      | s :: next => some (some ⟨s, next, segs.length % 2 ^ 16, md.pkt_len⟩, h)
    else (rtePktmbufFree env h segs).map (fun h => (none, h))

/-- `while (off >= seg->data_len)`: the segment of an offset. -/
def skipSegs : ℕ → List Seg → Option (ℕ × Seg × List Seg)
  | _, [] => none
  | off, s :: rest =>
    if s.dataLen ≤ off then skipSegs (off - s.dataLen) rest else some (off, s, rest)

/-- **The packet that bytes are copied to**: the segments that are full, and the
last one. -/
structure Copy where
  front : List Seg
  m_last : Seg
  nb_segs : ℕ
  pkt_len : ℕ

/-- A full buffer has a new one chained to it. -/
def Copy.chainNew (env : Env) (h : Heap) (mp : ℕ) (mc : Copy) : Option (Copy × Heap) :=
  if mc.m_last.tailroom = 0 then
    (rtePktmbufAlloc env h mp).map (fun (m_last, h) =>
      ({ mc with
          front := mc.front ++ [mc.m_last]
          m_last := m_last
          nb_segs := (mc.nb_segs + 1) % 2 ^ 16 }, h))
  else some (mc, h)

/-- Some bytes are appended to the last segment. -/
def Copy.append (mc : Copy) (bytes : List UInt8) : Copy :=
  { mc with
    m_last :=
      { mc.m_last with
        data := mc.m_last.data ++ bytes
        tailroom := mc.m_last.tailroom - bytes.length }
    pkt_len := (mc.pkt_len + bytes.length) % 2 ^ 32 }

/-- **The loop of `rte_pktmbuf_copy`**: each time, bytes are copied or an mbuf is
taken. -/
def copyLoop (env : Env) (mp : ℕ) :
    ℕ → Heap → Copy → ℕ → ℕ → List Seg → Option (Option Pkt × Heap)
  | 0, _, _, _, _, _ => none
  | fuel + 1, h, mc, off, len, segs =>
    if len = 0 then some (some (.ofSegs mc.front mc.m_last mc.nb_segs mc.pkt_len), h)
    else do
      let (off, seg, rest) ← skipSegs off segs
      match mc.chainNew env h mp with
      | none =>
        (rtePktmbufFree env h (mc.front ++ [mc.m_last])).map (fun h => (none, h))
      | some (mc, h) =>
        let copy_len := min (min (seg.dataLen - off) len) mc.m_last.tailroom
        copyLoop env mp fuel h (mc.append ((seg.data.drop off).take copy_len)) (off + copy_len)
          (len - copy_len) (seg :: rest)

/-- **`rte_pktmbuf_copy`**: `none` for `NULL`. -/
def rtePktmbufCopy (env : Env) (h : Heap) (m : Pkt) (mp off len : ℕ) :
    Option (Option Pkt × Heap) :=
  if m.pkt_len ≤ off then some (none, h)
  else
    match rtePktmbufAlloc env h mp with
    | none => some (none, h)
    | some (mc, h) =>
      let len := if len > m.pkt_len - off then m.pkt_len - off else len
      -- copied mbuf is not indirect or external
      let mc := { mc with ol_flags := m.seg.ol_flags &&& ~~~(fIndirect ||| fExternal) }
      copyLoop env mp (len + (h.free mp).length + 1) h ⟨[], mc, 1, 0⟩ off len m.segs

/-- The loop of `__rte_pktmbuf_read` over the segments that the bytes are in. -/
def readLoop : ℕ → ℕ → List Seg → Option (List UInt8)
  | off, len, segs =>
    if len = 0 then some []
    else
      match segs with
      | [] => none
      | s :: rest =>
        let copy_len := if s.dataLen - off > len then len else s.dataLen - off
        (readLoop 0 (len - copy_len) rest).map (fun buf => (s.data.drop off).take copy_len ++ buf)

/-- **`__rte_pktmbuf_read`**: the bytes that the result points to, or `none` for
`NULL`. Offsets have 32 bits. -/
def rtePktmbufRead (m : Pkt) (off len : ℕ) : Option (Option (List UInt8)) :=
  if (off + len) % 2 ^ 32 > m.pkt_len then some none
  else do
    let (off, seg, rest) ← skipSegs off m.segs
    if (off + len) % 2 ^ 32 ≤ seg.dataLen then some (some ((seg.data.drop off).take len))
    else (readLoop off len (seg :: rest)).map some

/-- **`__rte_pktmbuf_linearize`**: its answer, and the packet. -/
def rtePktmbufLinearize (env : Env) (h : Heap) (m : Pkt) : Option (Int × Pkt × Heap) :=
  let copy_len := m.pkt_len - m.seg.dataLen
  if copy_len > m.seg.tailroom then some (-1, m, h)
  else
    (rtePktmbufFree env h m.next).map (fun h =>
      (0,
        { seg :=
            { m.seg with
              data := (m.seg.data ++ m.next.flatMap Seg.data).take (m.pkt_len % 2 ^ 16)
              tailroom := m.seg.tailroom - copy_len }
          next := []
          nb_segs := 1
          pkt_len := m.pkt_len }, h))

end Pktmbuf
