import DpdkStudy.Lib.Loop

/-!
# Sequence numbers of a security association

The sequence numbers of an IPsec SA (`lib/ipsec/ipsec_sqn.h`). An outbound SA
hands out the numbers for a batch of packets (`esnOutbUpdateSqn`). An inbound
SA keeps a window of the numbers it has seen, a ring of buckets of 64 bits
(`ReplaySqn`), checks a number against it (`esnInbCheckSqn`) and updates it
with a number (`esnInbUpdateSqn`). The number of buckets is derived from the
size of the window when the SA is made (`ipsecSaSize`).
-/

namespace Ipsec

/-- `EINVAL`. -/
def einval : Int := 22

/-- The replay parameters of an SA. -/
structure Replay where
  winSz : UInt32
  nbBucket : UInt16
  bucketIndexMask : UInt16
deriving DecidableEq, Repr

/-- **An SA** (`struct rte_ipsec_sa`), with what is fixed when it is made;
`sqnAtom` is the flag `RTE_IPSEC_SATP_SQN_ATOM` of its type. -/
structure RteIpsecSa where
  sqnMask : UInt64
  sqnAtom : Bool
  replay : Replay
deriving DecidableEq, Repr

/-- `IS_ESN`. -/
def RteIpsecSa.isEsn (sa : RteIpsecSa) : Bool := sa.sqnMask = 0xffffffffffffffff

/-! ## The size of the window -/

/-- `rte_combine32ms1b`. -/
def rteCombine32ms1b (x : UInt32) : UInt32 :=
  let x := x ||| x >>> 1
  let x := x ||| x >>> 2
  let x := x ||| x >>> 4
  let x := x ||| x >>> 8
  x ||| x >>> 16

/-- `rte_align32pow2`. -/
def rteAlign32pow2 (x : UInt32) : UInt32 := rteCombine32ms1b (x - 1) + 1

/-- `replay_num_bucket`. -/
def replayNumBucket (wsz : UInt32) : UInt32 :=
  let nb := rteAlign32pow2 ((wsz + 64 - 1) / 64 * 64 / 64)
  max nb 2

/-- `ipsec_sa_size`: the size of the window and the number of buckets, or
`none` for `-EINVAL`. -/
def ipsecSaSize (inbound esn : Bool) (wndSz : UInt32) : Option (UInt32 × UInt32) :=
  let wsz := if inbound then if ¬ esn then wndSz else max wndSz 64 else wndSz
  let n := if inbound ∧ wsz ≠ 0 then replayNumBucket wsz else 0
  if n > 32768 then none else some (wsz, n)

/-- `fill_sa_replay`: the replay parameters. -/
def fillSaReplay (wndSz nbBucket : UInt32) : Replay :=
  ⟨wndSz, nbBucket.toUInt16, (nbBucket - 1).toUInt16⟩

/-! ## Outbound -/

/-- The number of sequence numbers that `esn_outb_update_sqn` grants, of the
`num` that end at `sqn`. -/
def granted (sa : RteIpsecSa) (sqn : UInt64) (num : UInt32) : UInt32 :=
  let n := num.toUInt64
  if sqn > sa.sqnMask then
    let s := sqn - sa.sqnMask
    if s < n then (n - s).toUInt32 else 0
  else num

/-- **`esn_outb_update_sqn`**, run on its own: the start of the numbers, how
many are granted, and the counter `sqn.outb` after it. -/
def esnOutbUpdateSqn (sa : RteIpsecSa) (outb : UInt64) (num : UInt32) :
    (UInt64 × UInt32) × UInt64 :=
  let n := num.toUInt64
  let sqn := outb + n
  ((sqn - n, granted sa sqn num), sqn)

/-- Where a call of `esn_outb_update_sqn` is: it has read the counter, it has
moved it on to `sqn`, or it has returned. -/
inductive OutbCall
  | loaded (num : UInt32) (outb : UInt64)
  | updated (num : UInt32) (sqn : UInt64)
  | returned (num : UInt32) (start : UInt64) (num' : UInt32)
deriving DecidableEq, Repr

/-- **The counter of an outbound SA**, and the calls that have been made. -/
structure OutbState where
  outb : UInt64
  calls : ℕ → Option OutbCall

/-- **What happens to the counter**: a call runs from its start to its end,
or takes a step of its own. For an SA with `SQN_ATOM` the counter is moved on
by an atomic addition, and otherwise by a load and a store. -/
inductive OutbEvent
  | call (i : ℕ) (num : UInt32)
  | fetchAdd (i : ℕ) (num : UInt32)
  | load (i : ℕ) (num : UInt32)
  | store (i : ℕ)
  | ret (i : ℕ)
deriving DecidableEq, Repr

/-- The state with a call somewhere else. -/
def OutbState.setCall (s : OutbState) (i : ℕ) (c : OutbCall) : OutbState :=
  { s with calls := Function.update s.calls i (some c) }

/-- **A step**, if it can be taken. -/
def outbStep (sa : RteIpsecSa) (s : OutbState) : OutbEvent → Option OutbState
  | .call i num =>
    match s.calls i with
    | none =>
      let r := esnOutbUpdateSqn sa s.outb num
      some ({ s with outb := r.2 }.setCall i (.returned num r.1.1 r.1.2))
    | some _ => none
  | .fetchAdd i num =>
    match s.calls i with
    | none =>
      if sa.sqnAtom then
        let sqn := s.outb + num.toUInt64
        some ({ s with outb := sqn }.setCall i (.updated num sqn))
      else none
    | some _ => none
  | .load i num =>
    match s.calls i with
    | none => if sa.sqnAtom then none else some (s.setCall i (.loaded num s.outb))
    | some _ => none
  | .store i =>
    match s.calls i with
    | some (.loaded num outb) =>
      let sqn := outb + num.toUInt64
      some ({ s with outb := sqn }.setCall i (.updated num sqn))
    | _ => none
  | .ret i =>
    match s.calls i with
    | some (.updated num sqn) =>
      some (s.setCall i (.returned num (sqn - num.toUInt64) (granted sa sqn num)))
    | _ => none

/-- **A run.** -/
def outbRun (sa : RteIpsecSa) : OutbState → List OutbEvent → Option OutbState
  | s, [] => some s
  | s, e :: es =>
    match outbStep sa s e with
    | some s => outbRun sa s es
    | none => none

/-- The state before the first call. -/
def outbInit (outb : UInt64) : OutbState := ⟨outb, fun _ => none⟩

/-! ## Inbound -/

/-- **The replay window** (`struct replay_sqn`): the last number and the
buckets. -/
structure ReplaySqn where
  sqn : UInt64
  window : ℕ → UInt64

/-- `reconstruct_esn`. -/
def reconstructEsn (t : UInt64) (sqn w : UInt32) : UInt64 :=
  let tl := t.toUInt32
  let th := (t >>> 32).toUInt32
  let bl := tl - w + 1
  let th :=
    if tl ≥ w - 1 then th + (if sqn < bl then 1 else 0)
    else if th ≠ 0 then th - (if sqn ≥ bl then 1 else 0)
    else th
  th.toUInt64 <<< 32 ||| sqn.toUInt64

/-- **`esn_inb_check_sqn`**. -/
def esnInbCheckSqn (rsn : ReplaySqn) (sa : RteIpsecSa) (sqn : UInt64) : Int :=
  if sa.replay.winSz = 0 then 0
  else if sqn > rsn.sqn then 0
  else if sqn = 0 ∨ sqn + sa.replay.winSz.toUInt64 < rsn.sqn then -einval
  else
    let bit := sqn &&& 63
    let bucket := (sqn >>> 6).toUInt32 &&& sa.replay.bucketIndexMask.toUInt32
    if rsn.window bucket.toNat &&& ((1 : UInt64) <<< bit) ≠ 0 then -einval else 0

/-- The buckets that `esn_inb_update_sqn` clears when the window moves on from
`last`. -/
def clearBuckets (sa : RteIpsecSa) (last bucket : UInt32) (window : ℕ → UInt64) : ℕ → UInt64 :=
  let diff := bucket - last
  let diff :=
    if diff > sa.replay.nbBucket.toUInt32 then sa.replay.nbBucket.toUInt32 else diff
  Loop.times diff.toNat
    (fun i window =>
      Function.update window
        ((UInt32.ofNat i + last + 1) &&& sa.replay.bucketIndexMask.toUInt32).toNat 0)
    window

/-- **`esn_inb_update_sqn`**, for the number as it stands in the packet; `bit`
is a variable of 32 bits. -/
def esnInbUpdateSqn (rsn : ReplaySqn) (sa : RteIpsecSa) (sqn : UInt64) : Int × ReplaySqn :=
  let sqn :=
    if sa.isEsn then reconstructEsn rsn.sqn sqn.toUInt32 sa.replay.winSz else sqn
  if sqn = 0 ∨ sqn + sa.replay.winSz.toUInt64 < rsn.sqn then (-einval, rsn)
  else
    let bucket := (sqn >>> 6).toUInt32
    let rsn : ReplaySqn :=
      if sqn > rsn.sqn then
        ⟨sqn, clearBuckets sa (rsn.sqn >>> 6).toUInt32 bucket rsn.window⟩
      else rsn
    let bucket := bucket &&& sa.replay.bucketIndexMask.toUInt32
    let bit : UInt32 := ((1 : UInt64) <<< (sqn &&& 63)).toUInt32
    if rsn.window bucket.toNat &&& bit.toUInt64 ≠ 0 then (-einval, rsn)
    else
      (0, { rsn with
        window := Function.update rsn.window bucket.toNat
          (rsn.window bucket.toNat ||| bit.toUInt64) })

end Ipsec
