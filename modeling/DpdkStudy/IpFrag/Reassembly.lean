import DpdkStudy.IpFrag.Mbuf
import DpdkStudy.Ipsec.Sqn

/-!
# Reassembly

The fragments of a datagram are collected in an entry of a table
(`lib/ip_frag/ip_frag_internal.c`, `lib/ip_frag/rte_ipv4_reassembly.c`). When
their bytes add up to the datagram, they are chained from the last one
backwards, each in front of the one whose start is its end. What goes wrong on
the way leaves the fragments on the death row, from which the caller frees
them.

A result is missing (`none`) where the code reads through a null pointer.
-/

namespace IpFrag

open Function

/-! ## Entries -/

/-- `IP_LAST_FRAG_IDX`. -/
def lastFragIdx : ℕ := 0

/-- `IP_FIRST_FRAG_IDX`. -/
def firstFragIdx : ℕ := 1

/-- `IP_MIN_FRAG_NUM`. -/
def minFragNum : ℕ := 2

/-- `IP_MAX_FRAG_NUM`, that is `RTE_LIBRTE_IP_FRAG_MAX_FRAG`. -/
def maxFragNum : ℕ := 8

/-- `UINT32_MAX`. -/
def uint32Max : ℕ := 2 ^ 32 - 1

/-- **A fragment** (`struct ip_frag`). -/
structure Frag where
  ofs : ℕ
  len : ℕ
  mb : Option Mbuf

/-- A slot that was never filled. -/
def Frag.zero : Frag := ⟨0, 0, none⟩

/-- The slot is cleared, what else it says stays. -/
def Frag.clear (f : Frag) : Frag := { f with mb := none }

/-- **A key** (`struct ip_frag_key`): what the fragments of a datagram have in
common. -/
structure FragKey where
  src_addr : UInt32
  dst_addr : UInt32
  id : UInt16
deriving DecidableEq

/-- **A datagram that is collected** (`struct ip_frag_pkt`). An entry that is
not in use has no key. -/
structure FragPkt where
  key : Option FragKey
  start : UInt64
  total_size : ℕ
  frag_size : ℕ
  last_idx : ℕ
  frags : ℕ → Frag

namespace FragPkt

/-- An entry of zeros. -/
def zero : FragPkt := ⟨none, 0, 0, 0, 0, fun _ => Frag.zero⟩

/-- **`ip_frag_free`**: the fragments go to the death row. -/
def free (fp : FragPkt) : FragPkt :=
  { fp with
    frags := fun i => if i < fp.last_idx then (fp.frags i).clear else fp.frags i
    last_idx := 0 }

/-- What `ip_frag_free` puts on the death row. -/
def freed (fp : FragPkt) : List Mbuf := (List.range fp.last_idx).filterMap (fun i => (fp.frags i).mb)

/-- **`ip_frag_key_invalidate`**. -/
def invalidate (fp : FragPkt) : FragPkt := { fp with key := none }

/-- **`ip_frag_reset`**. -/
def reset (fp : FragPkt) (tms : UInt64) : FragPkt :=
  { fp with
    start := tms
    total_size := uint32Max
    frag_size := 0
    last_idx := minFragNum
    frags := update (update fp.frags lastFragIdx Frag.zero) firstFragIdx Frag.zero }

/-- The entry was created too long ago. The sum is a word. -/
def timedOut (fp : FragPkt) (max_cycles tms : UInt64) : Bool := decide (max_cycles + fp.start < tms)

end FragPkt

/-! ## Chaining -/

/-- **The state of the walk backwards**: the slots, and the one that is reached
with its offset. The packet `m` of the source is the one in that slot. -/
structure Walk where
  frags : ℕ → Frag
  ofs : ℕ
  curr_idx : ℕ

namespace Walk

/-- **One link**: the headers of what is chained so far are removed, and it is
chained to the fragment in another slot. -/
def link (w : Walk) (i : ℕ) : Option Walk :=
  (w.frags i).mb.bind (fun head => (w.frags w.curr_idx).mb.map (fun m =>
    { frags := update (update w.frags w.curr_idx (w.frags w.curr_idx).clear) i
        { w.frags i with mb := some (head.chain (m.adj (m.l2_len + m.l3_len))) }
      ofs := (w.frags i).ofs
      curr_idx := i }))

/-- The inner loop of `ipv4_frag_reassemble`: one scan of the slots, from `i`
down. -/
def scan (first_len : ℕ) : ℕ → Walk → Option Walk
  | 0, w => some w
  | i + 1, w =>
    if i + 1 = firstFragIdx ∨ w.ofs = first_len then some w
    -- previous fragment found
    else if (w.frags (i + 1)).ofs + (w.frags (i + 1)).len = w.ofs then
      (w.link (i + 1)).bind (scan first_len i)
    else scan first_len i w

/-- The outer loop of `ipv4_frag_reassemble`, and whether the first fragment
was reached. Each scan but the last gets closer to it. -/
def back (first_len n : ℕ) : ℕ → Walk → Option (Walk × Bool)
  | 0, _ => none
  | fuel + 1, w =>
    if w.ofs = first_len then some (w, true)
    else
      (scan first_len n w).bind (fun w' =>
        -- hole in the packet
        if w'.curr_idx = w.curr_idx then some (w', false) else back first_len n fuel w')

end Walk

/-- The header of a packet that is whole again. -/
def wholeHdr (m : Mbuf) (total_size : ℕ) : Ipv4Hdr :=
  { m.ip with
    total_length := UInt16.ofNat (total_size + m.l3_len)
    fragment_offset := m.ip.fragment_offset &&& hdrDfFlag
    hdr_checksum := 0 }

/-- **`ipv4_frag_reassemble`**. -/
def ipv4FragReassemble (fp : FragPkt) : Option (FragPkt × Option Mbuf) :=
  let first_len := (fp.frags firstFragIdx).len
  let n := fp.last_idx - 1
  let ofs := (fp.frags lastFragIdx).ofs
  (Walk.back first_len n (ofs + 1) ⟨fp.frags, ofs, lastFragIdx⟩).bind (fun (w, whole) =>
    if whole then
      -- chain with the first fragment
      (w.link firstFragIdx).bind (fun w => (w.frags firstFragIdx).mb.map (fun m =>
        ({ fp with frags := update w.frags firstFragIdx (w.frags firstFragIdx).clear },
          some { m with ip := wholeHdr m fp.total_size })))
    else some ({ fp with frags := w.frags }, none))

/-! ## Collecting -/

/-- What `ip_frag_process` does first: the sizes are brought up to date and a
slot is chosen, if there is one. -/
def FragPkt.slot (fp : FragPkt) (ofs len : ℕ) (more_frags : Bool) : FragPkt × Option ℕ :=
  let fp := { fp with frag_size := fp.frag_size + len }
  -- this is the first fragment
  if ofs = 0 then (fp, if (fp.frags firstFragIdx).mb.isNone then some firstFragIdx else none)
  -- this is the last fragment
  else if !more_frags then
    let fp := { fp with total_size := ofs + len }
    (fp, if (fp.frags lastFragIdx).mb.isNone then some lastFragIdx else none)
  -- this is the intermediate fragment
  else if fp.last_idx < maxFragNum then
    ({ fp with last_idx := fp.last_idx + 1 }, some fp.last_idx)
  else (fp, none)

/-- **`ip_frag_process`**. It returns the entry, what it puts on the death row,
and the packet if it is whole. -/
def ipFragProcess (fp : FragPkt) (mb : Mbuf) (ofs len : ℕ) (more_frags : Bool) :
    Option (FragPkt × List Mbuf × Option Mbuf) :=
  match fp.slot ofs len more_frags with
  | (fp, none) => some (fp.free.invalidate, fp.freed ++ [mb], none)
  | (fp, some idx) =>
    let fp := { fp with frags := update fp.frags idx ⟨ofs, len, some mb⟩ }
    -- not all fragments are collected yet
    if fp.frag_size < fp.total_size then some (fp, [], none)
    else
      let result :=
        if fp.frag_size = fp.total_size ∧ (fp.frags firstFragIdx).mb.isSome then
          ipv4FragReassemble fp
        else some (fp, none)
      result.map (fun (fp, out) =>
        match out with
        | some m => (fp.invalidate, [], some m)
        -- erroneous set of fragments
        | none => (fp.free.invalidate, fp.freed, none))

/-! ## The table -/

/-- **A table** (`struct rte_ip_frag_tbl`) without its statistics. -/
structure Tbl where
  max_cycles : UInt64
  entry_mask : ℕ
  max_entries : ℕ
  use_entries : ℕ
  bucket_entries : ℕ
  nb_entries : ℕ
  last : Option ℕ
  lru : List ℕ
  pkt : ℕ → FragPkt

/-- `rte_is_power_of_2`. -/
def rteIsPowerOf2 (n : UInt32) : Bool := n ≠ 0 && (n &&& (n - 1)) = 0

/-- **`rte_ip_frag_table_create`**. -/
def rteIpFragTableCreate (bucket_num bucket_entries max_entries : UInt32) (max_cycles : UInt64) :
    Option Tbl :=
  let nb_entries := (Ipsec.rteAlign32pow2 bucket_num).toNat * bucket_entries.toNat * 2
  if rteIsPowerOf2 bucket_entries = false ∨ uint32Max < nb_entries ∨ nb_entries = 0 ∨
      nb_entries < max_entries.toNat then
    none
  else
    some
      { max_cycles := max_cycles
        entry_mask := ((UInt32.ofNat nb_entries - 1) &&& ~~~(bucket_entries - 1)).toNat
        max_entries := max_entries.toNat
        use_entries := 0
        bucket_entries := bucket_entries.toNat
        nb_entries := nb_entries
        last := none
        lru := []
        pkt := fun _ => FragPkt.zero }

namespace Tbl

/-- **`ip_frag_tbl_add`**. -/
def add (tbl : Tbl) (p : ℕ) (key : FragKey) (tms : UInt64) : Tbl :=
  { tbl with
    pkt := update tbl.pkt p ({ tbl.pkt p with key := some key }.reset tms)
    lru := tbl.lru ++ [p]
    use_entries := tbl.use_entries + 1 }

/-- **`ip_frag_tbl_reuse`**, without the death row. -/
def reuse (tbl : Tbl) (p : ℕ) (tms : UInt64) : Tbl :=
  { tbl with
    pkt := update tbl.pkt p ((tbl.pkt p).free.reset tms)
    lru := tbl.lru.erase p ++ [p] }

/-- **`ip_frag_tbl_del`**, without the death row. -/
def del (tbl : Tbl) (p : ℕ) : Tbl :=
  { tbl with
    pkt := update tbl.pkt p (tbl.pkt p).free.invalidate
    lru := tbl.lru.erase p
    use_entries := tbl.use_entries - 1 }

/-- **`ip_frag_inuse`**: an entry that lost its key is not in use any more. -/
def inuse (tbl : Tbl) (p : ℕ) : Tbl :=
  if (tbl.pkt p).key.isNone then
    { tbl with
      lru := tbl.lru.erase p
      use_entries := tbl.use_entries - 1 }
  else tbl

end Tbl

/-- **What a lookup returns**: the entry of the key, or else the first free and
the first stale entry where it could be. -/
inductive Lookup
  | found (p : ℕ)
  | missing (free stale : Option ℕ)

/-- The loop of `ip_frag_lookup` over the entries of two buckets. -/
def probe (tbl : Tbl) (key : FragKey) (tms : UInt64) : List ℕ → Option ℕ → Option ℕ → Lookup
  | [], empty, old => .missing empty old
  | p :: ps, empty, old =>
    if (tbl.pkt p).key = some key then .found p
    else if (tbl.pkt p).key = none then probe tbl key tms ps (empty <|> some p) old
    else if (tbl.pkt p).timedOut tbl.max_cycles tms then probe tbl key tms ps empty (old <|> some p)
    else probe tbl key tms ps empty old

section Hash

variable (crc : FragKey → UInt32)

/-- **`ipv4_frag_hash`**, for any checksum over the words of a key. -/
def ipv4FragHash (key : FragKey) : UInt32 × UInt32 :=
  let v := crc key
  (v, (v <<< 7) + (v >>> 14))

/-- The entries of the two buckets of a key, in the order they are looked at. -/
def candidates (tbl : Tbl) (key : FragKey) : List ℕ :=
  let sig := ipv4FragHash crc key
  let p1 := sig.1.toNat &&& tbl.entry_mask
  let p2 := sig.2.toNat &&& tbl.entry_mask
  (List.range tbl.bucket_entries).flatMap (fun i => [p1 + i, p2 + i])

/-- **`ip_frag_lookup`**. -/
def ipFragLookup (tbl : Tbl) (key : FragKey) (tms : UInt64) : Lookup :=
  match tbl.last with
  | some p =>
    if (tbl.pkt p).key = some key then .found p
    else probe tbl key tms (candidates crc tbl key) none none
  | none => probe tbl key tms (candidates crc tbl key) none none

/-- **`ip_frag_find`**. It returns the table, what it puts on the death row, and
the entry of the key. -/
def ipFragFind (tbl : Tbl) (key : FragKey) (tms : UInt64) : Option (Tbl × List Mbuf × Option ℕ) :=
  match ipFragLookup crc tbl key tms with
  | .found p =>
    -- the flow is already timed out
    if (tbl.pkt p).timedOut tbl.max_cycles tms then
      some ({ tbl.reuse p tms with last := some p }, (tbl.pkt p).freed, some p)
    else some ({ tbl with last := some p }, [], some p)
  | .missing _ (some stale) =>
    some ({ (tbl.del stale).add stale key tms with last := some stale }, (tbl.pkt stale).freed,
      some stale)
  | .missing (some free) none =>
    if tbl.max_entries ≤ tbl.use_entries then
      tbl.lru.head?.map (fun lru =>
        if (tbl.pkt lru).timedOut tbl.max_cycles tms then
          ({ (tbl.del lru).add free key tms with last := some free }, (tbl.pkt lru).freed, some free)
        else ({ tbl with last := none }, [], none))
    else some ({ tbl.add free key tms with last := some free }, [], some free)
  | .missing none none => some ({ tbl with last := none }, [], none)

/-- The key of a header. -/
def Ipv4Hdr.key (ip : Ipv4Hdr) : FragKey := ⟨ip.src_addr, ip.dst_addr, ip.packet_id⟩

/-- `ip_ofs` of a header. -/
def Ipv4Hdr.ofs (ip : Ipv4Hdr) : ℕ := (ip.fragment_offset &&& hdrOffsetMask).toNat * hdrOffsetUnits

/-- `ip_flag` of a header. -/
def Ipv4Hdr.moreFrags (ip : Ipv4Hdr) : Bool := ip.fragment_offset &&& hdrMfFlag ≠ 0

/-- What a packet has more than its header says (`trim`), as an `int32_t`. -/
def Mbuf.excess (mb : Mbuf) : ℤ :=
  ((mb.pkt_len : ℤ) - (mb.ip.total_length.toNat + mb.l2_len)).bmod (2 ^ 32)

/-- The packet without what it has more, as far as that can be cut. -/
def Mbuf.trimmed (mb : Mbuf) : Mbuf :=
  if 0 < mb.excess then mb.trim (mb.excess.toNat % 2 ^ 16) else mb

/-- **`rte_ipv4_frag_reassemble_packet`**, of a packet and the header in it. It
returns the table, what it puts on the death row, and the packet if it is
whole. -/
def rteIpv4FragReassemblePacket (tbl : Tbl) (mb : Mbuf) (tms : UInt64) :
    Option (Tbl × List Mbuf × Option Mbuf) :=
  -- check that fragment length is greater than zero
  if mb.ip.total_length.toNat ≤ mb.l3_len then some (tbl, [mb], none)
  else
    let ip_len := mb.ip.total_length.toNat - mb.l3_len
    let mb := mb.trimmed
    (ipFragFind crc tbl mb.ip.key tms).bind (fun (tbl, dr, found) =>
      match found with
      | none => some (tbl, dr ++ [mb], none)
      | some p =>
        (ipFragProcess (tbl.pkt p) mb mb.ip.ofs ip_len mb.ip.moreFrags).map (fun (fp, dr', out) =>
          ({ tbl with pkt := update tbl.pkt p fp }.inuse p, dr ++ dr', out)))

end Hash

end IpFrag
