import DpdkStudy.IpFrag.Reassembly
import DpdkStudy.Lib.Reservations
import DpdkStudy.Lib.Runs
import Mathlib.Data.Fintype.Defs

/-!
# The ring

A ring is a table of slots between producers and consumers. Each end has a
head and a tail, 32-bit positions that wrap: a call moves the head of its end,
copies elements to or from the slots it has passed over, and then moves the
tail, which tells the other end. How the calls of one end share it is its
sync type: one thread at a time (`st`), a CAS of the head and tails stored in
the order of the heads (`mt`), a tail moved by whichever call ends last
(`rts`), or one call at a time through a CAS of head and tail together
(`hts`). An `st` or `hts` end also has calls in two parts, a start that moves
the head and a finish that keeps some of the positions and gives back the
rest.

The calls are taken apart into their accesses to shared memory, made one after
the other in any order by any number of threads (`step`). Memory is
sequentially consistent here. Beside the ring and where each thread is, the
state keeps a history that no step reads: how far the heads have gone, the
batches that have been enqueued and dequeued, and what had happened when a
thread last looked at its end.
-/

open Reservations Runs

namespace Ring

/-! ## The ring and its creation -/

/-- `enum rte_ring_sync_type`. -/
inductive RteRingSyncType
  | mt
  | st
  | rts
  | hts
  deriving DecidableEq

/-- **One end of a ring**: `struct rte_ring_headtail`, with what the other
sync types have in its place. An `rts` end has counters beside its positions
and a bound on their distance. -/
structure RteRingHeadtail where
  syncType : RteRingSyncType
  head : ℕ
  /-- `head.val.cnt`. -/
  headCnt : ℕ
  tail : ℕ
  /-- `tail.val.cnt`. -/
  tailCnt : ℕ
  htdMax : ℕ

/-- **A ring**: `struct rte_ring`, with the slots behind it. -/
structure RteRing (α : Type*) where
  size : ℕ
  mask : ℕ
  capacity : ℕ
  /-- `prod` and `cons`. -/
  ht : Side → RteRingHeadtail
  slots : ℕ → α

/-- `RING_F_SP_ENQ`. -/
def ringFSpEnq : UInt32 := 0x0001

/-- `RING_F_SC_DEQ`. -/
def ringFScDeq : UInt32 := 0x0002

/-- `RING_F_EXACT_SZ`. -/
def ringFExactSz : UInt32 := 0x0004

/-- `RING_F_MP_RTS_ENQ`. -/
def ringFMpRtsEnq : UInt32 := 0x0008

/-- `RING_F_MC_RTS_DEQ`. -/
def ringFMcRtsDeq : UInt32 := 0x0010

/-- `RING_F_MP_HTS_ENQ`. -/
def ringFMpHtsEnq : UInt32 := 0x0020

/-- `RING_F_MC_HTS_DEQ`. -/
def ringFMcHtsDeq : UInt32 := 0x0040

/-- `RING_F_MASK`. -/
def ringFMask : UInt32 :=
  ringFSpEnq ||| ringFScDeq ||| ringFExactSz ||| ringFMpRtsEnq ||| ringFMcRtsDeq |||
    ringFMpHtsEnq ||| ringFMcHtsDeq

/-- `RTE_RING_SZ_MASK`. -/
def rteRingSzMask : UInt32 := 0x7fffffff

/-- `HTD_MAX_DEF`. -/
def htdMaxDef : ℕ := 8

/-- `rte_ring_get_memsize_elem`: the bytes behind the structure, none where
there can be no such ring. -/
def rteRingGetMemsizeElem (esize count : UInt32) : Option ℕ :=
  if esize % 4 ≠ 0 then none
  else if IpFrag.rteIsPowerOf2 count = false ∨ rteRingSzMask < count then none
  else some (count.toNat * esize.toNat)

/-- `get_sync_type`: the sync types of the producers and of the consumers. -/
def getSyncType (flags : UInt32) : Option (Side → RteRingSyncType) :=
  let prodSt : Option RteRingSyncType :=
    let f := flags &&& (ringFSpEnq ||| ringFMpRtsEnq ||| ringFMpHtsEnq)
    if f = 0 then some .mt
    else if f = ringFSpEnq then some .st
    else if f = ringFMpRtsEnq then some .rts
    else if f = ringFMpHtsEnq then some .hts
    else none
  let consSt : Option RteRingSyncType :=
    let f := flags &&& (ringFScDeq ||| ringFMcRtsDeq ||| ringFMcHtsDeq)
    if f = 0 then some .mt
    else if f = ringFScDeq then some .st
    else if f = ringFMcRtsDeq then some .rts
    else if f = ringFMcHtsDeq then some .hts
    else none
  match prodSt, consSt with
  | some p, some c => some (fun | .prod => p | .cons => c)
  | _, _ => none

/-- An end as `rte_ring_init` leaves it. -/
def initHeadtail (syncType : RteRingSyncType) (capacity : ℕ) : RteRingHeadtail where
  syncType
  head := 0
  headCnt := 0
  tail := 0
  tailCnt := 0
  htdMax := if syncType = .rts then capacity / htdMaxDef else 0

/-- `rte_ring_init`, on memory whose slots hold anything. -/
def rteRingInit {α : Type*} (slots : ℕ → α) (count flags : UInt32) : Option (RteRing α) :=
  if flags &&& ~~~ringFMask ≠ 0 then none
  else (getSyncType flags).bind fun syncType =>
    if flags &&& ringFExactSz ≠ 0 then
      let size := (Ipsec.rteAlign32pow2 (count + 1)).toNat
      some { size, mask := size - 1, capacity := count.toNat, slots
             ht := fun side => initHeadtail (syncType side) count.toNat }
    else if IpFrag.rteIsPowerOf2 count = false ∨ rteRingSzMask < count then none
    else
      let mask := count.toNat - 1
      some { size := count.toNat, mask, capacity := mask, slots
             ht := fun side => initHeadtail (syncType side) mask }

/-- **The ring that `rte_ring_create_elem` returns**, for flags that
`rte_ring_init` accepts. -/
def rteRingCreateElem {α : Type*} (slots : ℕ → α) (esize count flags : UInt32) :
    Option (RteRing α) :=
  let size := if flags &&& ringFExactSz ≠ 0 then Ipsec.rteAlign32pow2 (count + 1) else count
  (rteRingGetMemsizeElem esize size).bind fun _ => rteRingInit slots count flags

/-- The slot of the `i`-th of `n` elements from a position on, as
`__rte_ring_do_enqueue_elems` and `__rte_ring_do_dequeue_elems` find it. -/
def RteRing.slotOf {α : Type*} (r : RteRing α) (pos n i : ℕ) : ℕ :=
  let idx := pos &&& r.mask
  if idx + n ≤ r.size then idx + i
  else if idx + i < r.size then idx + i
  else idx + i - r.size

/-- The subtraction of 32-bit positions. -/
def sub32 (a b : ℕ) : ℕ := (a + (2 ^ 32 - b)) % 2 ^ 32

/-! ## The calls -/

/-- The calls of an end: a whole one, and the two parts of the peek API. -/
inductive Kind
  | plain
  | start
  | finish
  deriving DecidableEq

/-- **What a call is given**: how many elements, where a producer has them, and
whether it is `RTE_RING_QUEUE_FIXED`. -/
structure Call (α : Type*) where
  side : Side
  kind : Kind
  n : ℕ
  objs : List α
  fixed : Bool

/-- **What a call has once it has moved the head**: the position before,
how many elements it copies and how many entries there were. The last two
fields are history: where its positions start when they do not wrap, and how
many of them are reserved. -/
structure Moved (α : Type*) where
  call : Call α
  pos : ℕ
  n : ℕ
  entries : ℕ
  start : ℕ
  len : ℕ

/-- `union __rte_ring_rts_poscnt`. -/
structure Poscnt where
  pos : ℕ
  cnt : ℕ
  deriving DecidableEq

/-- **Where a thread is**: the access that comes next in its call. What a
consumer has read is in `tbl`. -/
inductive Pc (α : Type*)
  | idle
  /-- In front of the load of the head. -/
  | loadHead (c : Call α)
  /-- `__rte_ring_rts_head_wait`, in front of the load of the tail. -/
  | waitTail (c : Call α) (pos cnt : ℕ)
  /-- In front of the load of the other end's tail. -/
  | loadTail (c : Call α) (pos cnt : ℕ)
  /-- In front of the store or the CAS of the head. -/
  | moveHead (c : Call α) (pos cnt n entries : ℕ)
  /-- In front of the copy of element `i`. -/
  | copy (m : Moved α) (i : ℕ) (tbl : List α)
  /-- `__rte_ring_update_tail`, in front of the wait. -/
  | waitUntilEqual (m : Moved α) (tbl : List α)
  /-- In front of the store of the tail. -/
  | storeTail (m : Moved α) (tbl : List α)
  /-- `__rte_ring_rts_update_tail`, in front of the first load. -/
  | loadRtsTail (m : Moved α) (tbl : List α)
  /-- `__rte_ring_rts_update_tail`, in front of the load of the head. -/
  | loadRtsHead (m : Moved α) (tbl : List α) (ot : Poscnt)
  /-- `__rte_ring_rts_update_tail`, in front of the CAS. -/
  | casRtsTail (m : Moved α) (tbl : List α) (ot nt : Poscnt)
  /-- Between a start and its finish. -/
  | opened (m : Moved α) (tbl : List α)
  /-- `__rte_ring_st_get_tail` or `__rte_ring_hts_get_tail`, in a finish. -/
  | getTail (m : Moved α) (c : Call α) (tbl : List α)
  /-- `__rte_ring_st_set_head_tail` or `__rte_ring_hts_set_head_tail`. -/
  | storeHead (m : Moved α) (tbl : List α)

/-- How far an end has come: the position of its head if it did not wrap, and
how many calls have moved the head and how many of them the tail. -/
structure Progress where
  total : ℕ
  moves : ℕ
  finished : ℕ

/-- What a call returns: how many elements, how many entries are left, and what
it has dequeued. -/
structure Result (α : Type*) where
  n : ℕ
  left : ℕ
  objs : List α

/-- **A ring between threads.** -/
structure System (T α : Type*) where
  r : RteRing α
  pc : T → Pc α
  /-- What the last call of a thread has returned. -/
  result : T → Option (Result α)
  progress : Side → Progress
  /-- How far its end had come when a thread last looked at it. -/
  seen : T → Progress
  /-- The positions that a head has had. -/
  heads : Side → List ℕ
  /-- The batches that are enqueued, in the order of their positions. -/
  enqueued : List (List α)
  /-- The batches that dequeues have returned, each with its first position. -/
  dequeued : List (ℕ × List α)

variable {T α : Type*} [DecidableEq T]

/-- A thread goes on. -/
def System.setPc (s : System T α) (t : T) (pc : Pc α) : System T α :=
  { s with pc := Function.update s.pc t pc }

/-- A thread has looked at its end. -/
def System.look (s : System T α) (t : T) (side : Side) : System T α :=
  { s with seen := Function.update s.seen t (s.progress side) }

/-- The words of an end are stored. -/
def System.setHt (s : System T α) (side : Side) (ht : RteRingHeadtail) : System T α :=
  { s with r := { s.r with ht := Function.update s.r.ht side ht } }

/-- A call returns. -/
def System.ret (s : System T α) (t : T) (pc : Pc α) (n left : ℕ) (objs : List α) : System T α :=
  { s with
    pc := Function.update s.pc t pc
    result := Function.update s.result t (some ⟨n, left, objs⟩) }

/-- The load of the head, with the waits of `__rte_ring_hts_head_wait`. -/
def loadHead (s : System T α) (t : T) (c : Call α) : System T α :=
  let ht := s.r.ht c.side
  let s := s.look t c.side
  match ht.syncType with
  | .mt => s.setPc t (.loadTail c ht.head 0)
  | .st => s.setPc t (.loadTail c ht.head 0)
  | .rts => s.setPc t (.waitTail c ht.head ht.headCnt)
  | .hts => if ht.head ≠ ht.tail then s else s.setPc t (.loadTail c ht.head 0)

/-- `__rte_ring_rts_head_wait` compares the distance. -/
def waitTail (s : System T α) (t : T) (c : Call α) (pos cnt : ℕ) : System T α :=
  let ht := s.r.ht c.side
  if ht.htdMax < sub32 pos ht.tail then s.setPc t (.loadHead c)
  else s.setPc t (.loadTail c pos cnt)

/-- How many of `n` elements there is room for. -/
def Call.fit (c : Call α) (entries : ℕ) : ℕ :=
  if entries < c.n then (if c.fixed then 0 else entries) else c.n

/-- The load of the other end's tail. -/
def loadTail (s : System T α) (t : T) (c : Call α) (pos cnt : ℕ) : System T α :=
  let stail := (s.r.ht c.side.opp).tail
  let entries := sub32 (c.side.room s.r.capacity + stail) pos
  let n := c.fit entries
  if n = 0 then s.ret t .idle 0 entries []
  else s.setPc t (.moveHead c pos cnt n entries)

/-- The head is moved: a start of a producer is done then, any other call
copies. -/
def movedHead (s : System T α) (t : T) (c : Call α) (pos cnt n entries : ℕ) : System T α :=
  let ht := s.r.ht c.side
  let p := s.progress c.side
  let m : Moved α := { call := c, pos, n, entries, start := p.total, len := n }
  let s := s.setHt c.side { ht with head := (pos + n) % 2 ^ 32, headCnt := cnt }
  let s := { s with
    progress := Function.update s.progress c.side
      { p with total := p.total + n, moves := p.moves + 1 }
    heads := Function.update s.heads c.side ((pos + n) % 2 ^ 32 :: s.heads c.side)
    enqueued := if c.side = Side.prod ∧ c.kind = Kind.plain then s.enqueued ++ [c.objs.take n]
      else s.enqueued }
  if c.side = Side.prod ∧ c.kind = Kind.start then s.ret t (.opened m []) n (entries - n) []
  else s.setPc t (.copy m 0 [])

/-- The store of the head, or the CAS; on failure `mt` has loaded the head
again, and the others start over. -/
def moveHead (s : System T α) (t : T) (c : Call α) (pos cnt n entries : ℕ) : System T α :=
  let ht := s.r.ht c.side
  match ht.syncType with
  | .st => movedHead s t c pos ht.headCnt n entries
  | .mt =>
    if ht.head = pos then movedHead s t c pos ht.headCnt n entries
    else (s.look t c.side).setPc t (.loadTail c ht.head 0)
  | .rts =>
    if ht.head = pos ∧ ht.headCnt = cnt then movedHead s t c pos ((cnt + 1) % 2 ^ 32) n entries
    else s.setPc t (.loadHead c)
  | .hts =>
    if ht.head = pos ∧ ht.tail = pos then movedHead s t c pos ht.headCnt n entries
    else s.setPc t (.loadHead c)

/-- All elements are copied. -/
def copied (s : System T α) (t : T) (m : Moved α) (tbl : List α) : System T α :=
  match m.call.kind with
  | .start => s.ret t (.opened m tbl) m.n (m.entries - m.n) tbl
  | .finish => s.setPc t (.storeHead m tbl)
  | .plain =>
    match (s.r.ht m.call.side).syncType with
    | .st => s.setPc t (.storeTail m tbl)
    | .mt => s.setPc t (.waitUntilEqual m tbl)
    | .rts => s.setPc t (.loadRtsTail m tbl)
    | .hts => s.setPc t (.storeTail m tbl)

/-- The copy of one element. -/
def copy (s : System T α) (t : T) (m : Moved α) (i : ℕ) (tbl : List α) : Option (System T α) :=
  if i < m.n then
    let idx := s.r.slotOf m.pos m.n i
    match m.call.side with
    | .prod => m.call.objs[i]?.map fun x =>
      { s with r := { s.r with slots := Function.update s.r.slots idx x } }.setPc t
        (.copy m (i + 1) tbl)
    | .cons => some (s.setPc t (.copy m (i + 1) (tbl ++ [s.r.slots idx])))
  else some (copied s t m tbl)

/-- The words of an end are stored and its call returns; what a dequeue keeps
is dequeued. -/
def publish (s : System T α) (t : T) (m : Moved α) (tbl : List α) (ht : RteRingHeadtail) :
    System T α :=
  let side := m.call.side
  let p := s.progress side
  let s := s.setHt side ht
  let s := { s with
    progress := Function.update s.progress side { p with finished := p.finished + 1 }
    dequeued := if side = Side.cons ∧ tbl ≠ [] then s.dequeued ++ [(m.start, tbl)] else s.dequeued }
  s.ret t .idle m.n (m.entries - m.n) tbl

/-- `__rte_ring_update_tail` waits for the calls that came first. -/
def waitUntilEqual (s : System T α) (t : T) (m : Moved α) (tbl : List α) : System T α :=
  if (s.r.ht m.call.side).tail = m.pos then s.setPc t (.storeTail m tbl) else s

/-- The store of the tail. -/
def storeTail (s : System T α) (t : T) (m : Moved α) (tbl : List α) : System T α :=
  publish s t m tbl { s.r.ht m.call.side with tail := (m.pos + m.n) % 2 ^ 32 }

/-- `ot.raw = ht->tail.raw`. -/
def loadRtsTail (s : System T α) (t : T) (m : Moved α) (tbl : List α) : System T α :=
  let ht := s.r.ht m.call.side
  (s.look t m.call.side).setPc t (.loadRtsHead m tbl ⟨ht.tail, ht.tailCnt⟩)

/-- `h.raw = ht->head.raw`, and what the tail is to become. -/
def loadRtsHead (s : System T α) (t : T) (m : Moved α) (tbl : List α) (ot : Poscnt) :
    System T α :=
  let ht := s.r.ht m.call.side
  let cnt := (ot.cnt + 1) % 2 ^ 32
  s.setPc t (.casRtsTail m tbl ot ⟨if cnt = ht.headCnt then ht.head else ot.pos, cnt⟩)

/-- The CAS of the tail; on failure it has loaded the tail again. -/
def casRtsTail (s : System T α) (t : T) (m : Moved α) (tbl : List α) (ot nt : Poscnt) :
    System T α :=
  let ht := s.r.ht m.call.side
  if ht.tail = ot.pos ∧ ht.tailCnt = ot.cnt then
    publish s t m tbl { ht with tail := nt.pos, tailCnt := nt.cnt }
  else loadRtsTail s t m tbl

/-- `__rte_ring_st_get_tail` or `__rte_ring_hts_get_tail`: more elements than
are reserved are none at all. -/
def getTail (s : System T α) (t : T) (m : Moved α) (c : Call α) (tbl : List α) : System T α :=
  let ht := s.r.ht c.side
  let n := if c.n ≤ sub32 ht.head ht.tail then c.n else 0
  let m := { m with call := c, pos := ht.tail, n }
  if c.side = .prod ∧ n ≠ 0 then
    { s with enqueued := s.enqueued ++ [c.objs.take n] }.setPc t (.copy m 0 [])
  else s.setPc t (.storeHead m tbl)

/-- `__rte_ring_st_set_head_tail`, the store of the head, or
`__rte_ring_hts_set_head_tail`. -/
def storeHead (s : System T α) (t : T) (m : Moved α) (tbl : List α) : System T α :=
  let side := m.call.side
  let ht := s.r.ht side
  let pos := (m.pos + m.n) % 2 ^ 32
  let s := { s with
    progress := Function.update s.progress side
      { s.progress side with total := m.start + m.n }
    heads := Function.update s.heads side (pos :: s.heads side) }
  if ht.syncType = .hts then
    publish s t m (tbl.take m.n) { ht with head := pos, tail := pos }
  else (s.setHt side { ht with head := pos }).setPc t
    (.storeTail { m with len := m.n } (tbl.take m.n))

/-- **The next access of a thread.** -/
def threadStep (s : System T α) (t : T) : Option (System T α) :=
  match s.pc t with
  | .idle => none
  | .opened _ _ => none
  | .loadHead c => some (loadHead s t c)
  | .waitTail c pos cnt => some (waitTail s t c pos cnt)
  | .loadTail c pos cnt => some (loadTail s t c pos cnt)
  | .moveHead c pos cnt n entries => some (moveHead s t c pos cnt n entries)
  | .copy m i tbl => copy s t m i tbl
  | .waitUntilEqual m tbl => some (waitUntilEqual s t m tbl)
  | .storeTail m tbl => some (storeTail s t m tbl)
  | .loadRtsTail m tbl => some (loadRtsTail s t m tbl)
  | .loadRtsHead m tbl ot => some (loadRtsHead s t m tbl ot)
  | .casRtsTail m tbl ot nt => some (casRtsTail s t m tbl ot nt)
  | .getTail m c tbl => some (getTail s t m c tbl)
  | .storeHead m tbl => some (storeHead s t m tbl)

/-- What happens: a call begins, or a thread makes its next access. -/
inductive Event (T α : Type*)
  | enqueue (t : T) (objs : List α) (fixed : Bool)
  | dequeue (t : T) (n : ℕ) (fixed : Bool)
  | enqueueStart (t : T) (n : ℕ) (fixed : Bool)
  | enqueueFinish (t : T) (objs : List α)
  | dequeueStart (t : T) (n : ℕ) (fixed : Bool)
  | dequeueFinish (t : T) (n : ℕ)
  | thread (t : T)

/-- A thread that is in no call begins one. -/
def call (s : System T α) (t : T) (c : Call α) : Option (System T α) :=
  match s.pc t with
  | .idle => if c.n < 2 ^ 32 then some (s.setPc t (.loadHead c)) else none
  | _ => none

/-- A start, which is not supported by all sync types. -/
def peekStart (s : System T α) (t : T) (c : Call α) : Option (System T α) :=
  match (s.r.ht c.side).syncType with
  | .st => call s t c
  | .hts => call s t c
  | _ =>
    match s.pc t with
    | .idle => some (s.ret t .idle 0 0 [])
    | _ => none

/-- A finish, after a start that has returned. -/
def peekFinish (s : System T α) (t : T) (c : Call α) : Option (System T α) :=
  match s.pc t with
  | .opened m tbl =>
    if m.call.side = c.side ∧ c.n < 2 ^ 32 then some (s.setPc t (.getTail m c tbl)) else none
  | _ => none

/-- **One access to shared memory**, or a call that begins, or none where that
is not possible. A party that holds a reservation between a start and its
finish makes no other call; a thread that does is two parties. -/
def step (s : System T α) : Event T α → Option (System T α)
  | .enqueue t objs fixed => call s t ⟨.prod, .plain, objs.length, objs, fixed⟩
  | .dequeue t n fixed => call s t ⟨.cons, .plain, n, [], fixed⟩
  | .enqueueStart t n fixed => peekStart s t ⟨.prod, .start, n, [], fixed⟩
  | .enqueueFinish t objs => peekFinish s t ⟨.prod, .finish, objs.length, objs, true⟩
  | .dequeueStart t n fixed => peekStart s t ⟨.cons, .start, n, [], fixed⟩
  | .dequeueFinish t n => peekFinish s t ⟨.cons, .finish, n, [], true⟩
  | .thread t => threadStep s t

/-- The threads around a ring that has been initialised. -/
def initial (T : Type*) (r : RteRing α) : System T α where
  r
  pc := fun _ => .idle
  result := fun _ => none
  progress := fun _ => ⟨0, 0, 0⟩
  seen := fun _ => ⟨0, 0, 0⟩
  heads := fun side => [(r.ht side).head]
  enqueued := []
  dequeued := []

/-! ## What the callers and the scheduler promise -/

/-- The end that a thread is at. -/
def Pc.side : Pc α → Option Side
  | .idle => none
  | .loadHead c => some c.side
  | .waitTail c _ _ => some c.side
  | .loadTail c _ _ => some c.side
  | .moveHead c _ _ _ _ => some c.side
  | .copy m _ _ => some m.call.side
  | .waitUntilEqual m _ => some m.call.side
  | .storeTail m _ => some m.call.side
  | .loadRtsTail m _ => some m.call.side
  | .loadRtsHead m _ _ => some m.call.side
  | .casRtsTail m _ _ _ => some m.call.side
  | .opened m _ => some m.call.side
  | .getTail _ c _ => some c.side
  | .storeHead m _ => some m.call.side

/-- **One thread at a time** at an end whose sync type is `st`. -/
def Single (s : System T α) (side : Side) : Prop :=
  (s.r.ht side).syncType = .st → ∀ t, (s.pc t).side ≠ some side

/-- What the callers promise. -/
def Legal (s : System T α) : Event T α → Prop
  | .enqueue _ _ _ => Single s .prod
  | .dequeue _ _ _ => Single s .cons
  | .enqueueStart _ _ _ => Single s .prod
  | .dequeueStart _ _ _ => Single s .cons
  | _ => True

/-- Fewer than `2^32` positions have been passed since a thread last looked at
its end. -/
def FewPositions (s : System T α) (t : T) (side : Side) : Prop :=
  (s.progress side).total < (s.seen t).total + 2 ^ 32

/-- Fewer than `2^32` calls, not counting a thread's own once it has moved the
head, have been in progress since the thread last looked at its end. -/
def FewCalls (s : System T α) (t : T) (side : Side) (own : ℕ) : Prop :=
  (s.progress side).moves < (s.seen t).finished + own + 2 ^ 32

/-- Where a thread is in front of a CAS that a word that has wrapped may
deceive, it is not too late. -/
def InTime (s : System T α) (t : T) : Pc α → Prop
  | .moveHead c _ _ _ _ =>
    ((s.r.ht c.side).syncType = .mt ∨ (s.r.ht c.side).syncType = .hts →
      FewPositions s t c.side) ∧
    ((s.r.ht c.side).syncType = .rts → FewCalls s t c.side 0)
  | .loadRtsHead m _ _ => FewCalls s t m.call.side 1
  | .casRtsTail m _ _ _ => FewCalls s t m.call.side 1
  | _ => True

/-- **No call is suspended too long.** -/
def Prompt (s : System T α) : Event T α → Prop
  | .thread t => InTime s t (s.pc t)
  | _ => True

instance [Fintype T] (s : System T α) (side : Side) : Decidable (Single s side) :=
  inferInstanceAs (Decidable (_ → ∀ t, (s.pc t).side ≠ some side))

instance [Fintype T] (s : System T α) : (e : Event T α) → Decidable (Legal s e)
  | .enqueue _ _ _ => inferInstanceAs (Decidable (Single s .prod))
  | .dequeue _ _ _ => inferInstanceAs (Decidable (Single s .cons))
  | .enqueueStart _ _ _ => inferInstanceAs (Decidable (Single s .prod))
  | .dequeueStart _ _ _ => inferInstanceAs (Decidable (Single s .cons))
  | .enqueueFinish _ _ => isTrue trivial
  | .dequeueFinish _ _ => isTrue trivial
  | .thread _ => isTrue trivial

instance (s : System T α) (t : T) (side : Side) : Decidable (FewPositions s t side) :=
  inferInstanceAs (Decidable (_ < _))

instance (s : System T α) (t : T) (side : Side) (own : ℕ) : Decidable (FewCalls s t side own) :=
  inferInstanceAs (Decidable (_ < _))

instance (s : System T α) (t : T) : (pc : Pc α) → Decidable (InTime s t pc)
  | .moveHead c _ _ _ _ => inferInstanceAs (Decidable ((_ → FewPositions s t c.side) ∧
      (_ → FewCalls s t c.side 0)))
  | .loadRtsHead m _ _ => inferInstanceAs (Decidable (FewCalls s t m.call.side 1))
  | .casRtsTail m _ _ _ => inferInstanceAs (Decidable (FewCalls s t m.call.side 1))
  | .idle | .loadHead _ | .waitTail _ _ _ | .loadTail _ _ _ | .copy _ _ _ | .waitUntilEqual _ _
  | .storeTail _ _ | .loadRtsTail _ _ | .opened _ _ | .getTail _ _ _ | .storeHead _ _ =>
    isTrue trivial

instance (s : System T α) : (e : Event T α) → Decidable (Prompt s e)
  | .thread t => inferInstanceAs (Decidable (InTime s t (s.pc t)))
  | .enqueue _ _ _ | .dequeue _ _ _ | .enqueueStart _ _ _ | .enqueueFinish _ _
  | .dequeueStart _ _ _ | .dequeueFinish _ _ => isTrue trivial

end Ring
