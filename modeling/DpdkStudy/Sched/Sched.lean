import Mathlib.Logic.Function.Basic
import Mathlib.Data.Int.Notation
import DpdkStudy.Bitmap.Bitmap

/-!
# The hierarchical scheduler: putting packets into queues

The enqueue side of `lib/sched/rte_sched.c`. A port has subports, a subport has pipes of
16 queues each, and a packet carries the number of its queue. A queue is a ring of `qsize`
places in an array of its subport, with a 16-bit write and read position; a packet for a
full queue is dropped. `rte_sched_port_enqueue` takes a burst of packets through a pipeline
of four stages, two packets to a stage, so that what a stage needs has been prefetched by
the stages before it.

Congestion management is off here: a packet is dropped for a full queue only ("tail drop").
Rates, profiles and the credits of the dequeue side are left out. A pointer to a subport is
its index in `subports`, a pointer into the packet array of a subport its offset. A prefetch
has no effect; what is computed for it alone is left out. An access by a null pointer, or
outside the queues or the bitmap of a subport, has no result.
-/

namespace Sched

open Function Bitmap

/-- `RTE_SCHED_QUEUES_PER_PIPE`. -/
def queuesPerPipe : BitVec 32 := 16

/-- `RTE_SCHED_TRAFFIC_CLASSES_PER_PIPE`. -/
def trafficClassesPerPipe : ℕ := 13

/-- `RTE_SCHED_TRAFFIC_CLASS_BE`. -/
def trafficClassBe : ℕ := trafficClassesPerPipe - 1

/-- **A packet** (`struct rte_mbuf`): where it is, the number of its queue, its length. -/
structure RteMbuf where
  addr : ℕ
  queue_id : BitVec 32
  pkt_len : BitVec 32
deriving DecidableEq, Repr

/-- `struct rte_sched_subport_stats`, each field by traffic class. -/
structure RteSchedSubportStats where
  n_pkts_tc : ℕ → BitVec 64
  n_pkts_tc_dropped : ℕ → BitVec 64
  n_bytes_tc : ℕ → BitVec 64
  n_bytes_tc_dropped : ℕ → BitVec 64
  n_pkts_cman_dropped : ℕ → BitVec 64

/-- `struct rte_sched_queue_stats`. -/
structure RteSchedQueueStats where
  n_pkts : BitVec 64
  n_pkts_dropped : BitVec 64
  n_pkts_cman_dropped : BitVec 64
  n_bytes : BitVec 64
  n_bytes_dropped : BitVec 64

/-- `struct rte_sched_queue`. -/
structure RteSchedQueue where
  qw : BitVec 16
  qr : BitVec 16

/-- **A subport** (`struct rte_sched_subport`). -/
structure RteSchedSubport where
  stats : RteSchedSubportStats
  n_pipes_per_subport_enabled : BitVec 32
  qsize : ℕ → BitVec 16
  bmp : RteBitmap
  qsize_add : ℕ → BitVec 32
  qsize_sum : BitVec 32
  queue : ℕ → RteSchedQueue
  queue_extra : ℕ → RteSchedQueueStats
  queue_array : ℕ → Option RteMbuf

/-- **A port** (`struct rte_sched_port`). -/
structure RteSchedPort where
  n_subports_per_port : BitVec 32
  n_pipes_per_subport_log2 : ℕ
  n_pipes_per_subport : BitVec 32
  pipe_tc : ℕ → ℕ
  subports : ℕ → Option RteSchedSubport

/-- **A port, and the packets that have been freed**, in this order. -/
structure State where
  port : RteSchedPort
  freed : List RteMbuf

/-! ## Configuration -/

/-- `rte_is_power_of_2`. -/
def rteIsPowerOf2 (n : BitVec 32) : Bool := n ≠ 0 && n &&& (n - 1) = 0

/-- `rte_sched_port_config`, as far as it says where packets go; `none` for a null pointer. -/
def rteSchedPortConfig (n_subports_per_port n_pipes_per_subport : BitVec 32) :
    Option RteSchedPort :=
  if n_subports_per_port = 0 ∨ n_subports_per_port > 1 <<< 16 ∨
      !rteIsPowerOf2 n_subports_per_port then none
  else if n_pipes_per_subport = 0 ∨ !rteIsPowerOf2 n_pipes_per_subport then none
  else some
    { n_subports_per_port := n_subports_per_port
      n_pipes_per_subport_log2 := n_pipes_per_subport.ctz.toNat
      n_pipes_per_subport := n_pipes_per_subport
      pipe_tc := fun i => min i trafficClassBe
      subports := fun _ => none }

/-- `struct rte_sched_subport_params`, as far as it says where packets go. -/
structure RteSchedSubportParams where
  n_pipes_per_subport_enabled : BitVec 32
  qsize : ℕ → BitVec 16

/-- `rte_sched_subport_check_params`. -/
def rteSchedSubportCheckParams (params : RteSchedSubportParams)
    (n_max_pipes_per_subport : BitVec 32) : Bool :=
  ((List.range trafficClassesPerPipe).all fun i =>
    params.qsize i = 0 || rteIsPowerOf2 ((params.qsize i).setWidth 32)) &&
  params.qsize trafficClassBe ≠ 0 &&
  params.n_pipes_per_subport_enabled ≠ 0 &&
  params.n_pipes_per_subport_enabled ≤ n_max_pipes_per_subport &&
  rteIsPowerOf2 params.n_pipes_per_subport_enabled

/-- `rte_sched_subport_config_qsize`: where the queues of a pipe begin. The queues from
`RTE_SCHED_TRAFFIC_CLASS_BE` on are all of the best-effort class. -/
def qsizeAdd (qsize : ℕ → BitVec 16) : ℕ → BitVec 32
  | 0 => 0
  | i + 1 => qsizeAdd qsize i + (qsize (min i trafficClassBe)).setWidth 32

/-- `rte_sched_subport_pipe_queues`. -/
def RteSchedSubport.pipeQueues (subport : RteSchedSubport) : BitVec 32 :=
  queuesPerPipe * subport.n_pipes_per_subport_enabled

/-- **`rte_sched_subport_config`** for a subport that has none yet: the memory at `bmp_array`
is zeroed. `none` if it fails. -/
def rteSchedSubportConfig (port : RteSchedPort) (subport_id : ℕ)
    (params : RteSchedSubportParams) (bmp_array : ℕ) : Option RteSchedPort :=
  if port.n_subports_per_port.toNat ≤ subport_id then none
  else if (port.subports subport_id).isSome then none
  else if !rteSchedSubportCheckParams params port.n_pipes_per_subport then none
  else do
    let n_subport_pipe_queues := queuesPerPipe * params.n_pipes_per_subport_enabled
    let bmp_mem_size := rteBitmapGetMemoryFootprint n_subport_pipe_queues.toNat
    let bmp ← rteBitmapInit n_subport_pipe_queues.toNat bmp_array bmp_mem_size
    let s : RteSchedSubport :=
      { stats := ⟨fun _ => 0, fun _ => 0, fun _ => 0, fun _ => 0, fun _ => 0⟩
        n_pipes_per_subport_enabled := params.n_pipes_per_subport_enabled
        qsize := params.qsize
        bmp := bmp
        qsize_add := qsizeAdd params.qsize
        qsize_sum := qsizeAdd params.qsize 16
        queue := fun _ => ⟨0, 0⟩
        queue_extra := fun _ => ⟨0, 0, 0, 0, 0⟩
        queue_array := fun _ => none }
    some { port with subports := update port.subports subport_id (some s) }

/-! ## Queues and statistics -/

/-- `rte_sched_subport_pipe_qbase`. -/
def RteSchedSubport.pipeQbase (subport : RteSchedSubport) (qindex : BitVec 32) : ℕ :=
  let pindex := qindex >>> 4
  let qpos := qindex &&& (queuesPerPipe - 1)
  (pindex * subport.qsize_sum).toNat + (subport.qsize_add qpos.toNat).toNat

/-- `rte_sched_port_pipe_tc`. -/
def RteSchedPort.pipeTc (port : RteSchedPort) (qindex : BitVec 32) : ℕ :=
  port.pipe_tc (qindex &&& (queuesPerPipe - 1)).toNat

/-- `rte_sched_subport_pipe_qsize`. -/
def subportPipeQsize (port : RteSchedPort) (subport : RteSchedSubport) (qindex : BitVec 32) :
    BitVec 16 :=
  subport.qsize (port.pipeTc qindex)

/-- `rte_sched_port_update_subport_stats`. -/
def updateSubportStats (port : RteSchedPort) (subport : RteSchedSubport) (qindex : BitVec 32)
    (pkt : RteMbuf) : RteSchedSubport :=
  let tc_index := port.pipeTc qindex
  let pkt_len := pkt.pkt_len.setWidth 64
  let stats := subport.stats
  { subport with
    stats := { stats with
      n_pkts_tc := update stats.n_pkts_tc tc_index (stats.n_pkts_tc tc_index + 1)
      n_bytes_tc := update stats.n_bytes_tc tc_index (stats.n_bytes_tc tc_index + pkt_len) } }

/-- `rte_sched_port_update_subport_stats_on_drop`. -/
def updateSubportStatsOnDrop (port : RteSchedPort) (subport : RteSchedSubport)
    (qindex : BitVec 32) (pkt : RteMbuf) (n_pkts_cman_dropped : BitVec 64) : RteSchedSubport :=
  let tc_index := port.pipeTc qindex
  let pkt_len := pkt.pkt_len.setWidth 64
  let stats := subport.stats
  { subport with
    stats := { stats with
      n_pkts_tc_dropped :=
        update stats.n_pkts_tc_dropped tc_index (stats.n_pkts_tc_dropped tc_index + 1)
      n_bytes_tc_dropped :=
        update stats.n_bytes_tc_dropped tc_index (stats.n_bytes_tc_dropped tc_index + pkt_len)
      n_pkts_cman_dropped := update stats.n_pkts_cman_dropped tc_index
        (stats.n_pkts_cman_dropped tc_index + n_pkts_cman_dropped) } }

/-- `rte_sched_port_update_queue_stats`. -/
def updateQueueStats (subport : RteSchedSubport) (qindex : BitVec 32) (pkt : RteMbuf) :
    RteSchedSubport :=
  let qe := subport.queue_extra qindex.toNat
  { subport with
    queue_extra := update subport.queue_extra qindex.toNat
      { qe with
        n_pkts := qe.n_pkts + 1
        n_bytes := qe.n_bytes + pkt.pkt_len.setWidth 64 } }

/-- `rte_sched_port_update_queue_stats_on_drop`, with congestion management off. -/
def updateQueueStatsOnDrop (subport : RteSchedSubport) (qindex : BitVec 32) (pkt : RteMbuf) :
    RteSchedSubport :=
  let qe := subport.queue_extra qindex.toNat
  { subport with
    queue_extra := update subport.queue_extra qindex.toNat
      { qe with
        n_pkts_dropped := qe.n_pkts_dropped + 1
        n_bytes_dropped := qe.n_bytes_dropped + pkt.pkt_len.setWidth 64 } }

/-! ## The stages -/

/-- `subport_qmask`. -/
def RteSchedPort.subportQmask (port : RteSchedPort) : BitVec 32 :=
  1 <<< (port.n_pipes_per_subport_log2 + 4) - 1

/-- `rte_sched_port_subport`. -/
def portSubport (sch : State) (pkt : RteMbuf) : ℕ :=
  (pkt.queue_id >>> (sch.port.n_pipes_per_subport_log2 + 4)).toNat

/-- `rte_sched_port_enqueue_qptrs_prefetch0`. -/
def enqueueQptrsPrefetch0 (pkt : RteMbuf) (subport_qmask : BitVec 32) : BitVec 32 :=
  subport_qmask &&& pkt.queue_id

/-- `rte_sched_subport_pipe_qbase` by the pointer to the subport. -/
def qbaseAt (sch : State) (subport : ℕ) (qindex : BitVec 32) : Option ℕ :=
  (sch.port.subports subport).map fun s => s.pipeQbase qindex

/-- The port with one of its subports written. -/
def State.write (sch : State) (subport : ℕ) (s : RteSchedSubport) (freed : List RteMbuf) :
    State :=
  { port := { sch.port with subports := update sch.port.subports subport (some s) }
    freed := sch.freed ++ freed }

/-- **`rte_sched_port_enqueue_qwa`**: the packet is written to its queue, or dropped. -/
def enqueueQwa (sch : State) (subport : ℕ) (qindex : BitVec 32) (qbase : ℕ) (pkt : RteMbuf) :
    Option (BitVec 32 × State) := do
  let s ← sch.port.subports subport
  if qindex < s.pipeQueues then
    let q := s.queue qindex.toNat
    let qsize := subportPipeQsize sch.port s qindex
    let qlen := q.qw - q.qr
    if qlen ≥ qsize then
      let s := updateSubportStatsOnDrop sch.port s qindex pkt (if qlen < qsize then 1 else 0)
      let s := updateQueueStatsOnDrop s qindex pkt
      some (0, sch.write subport s [pkt])
    else
      let s := { s with
        queue_array := update s.queue_array (qbase + (q.qw &&& (qsize - 1)).toNat) (some pkt)
        queue := update s.queue qindex.toNat { q with qw := q.qw + 1 } }
      let bmp ← s.bmp.set qindex.toNat
      let s := updateSubportStats sch.port { s with bmp := bmp } qindex pkt
      let s := updateQueueStats s qindex pkt
      some (1, sch.write subport s [])
  else none

/-! ## The burst -/

/-- The write pointer locations of the first `n` packets are loaded. -/
def loadQbase (sch : State) (subports : ℕ → ℕ) (q : ℕ → BitVec 32) : ℕ → Option (ℕ → ℕ)
  | 0 => some fun _ => 0
  | i + 1 => do
    let q_base ← loadQbase sch subports q i
    let base ← qbaseAt sch (subports i) (q i)
    some (update q_base i base)

/-- The first `n` packets are written to their queues, one after the other. -/
def writeAll (sch : State) (pkts : ℕ → RteMbuf) (subports : ℕ → ℕ) (q : ℕ → BitVec 32)
    (q_base : ℕ → ℕ) : ℕ → Option (BitVec 32 × State)
  | 0 => some (0, sch)
  | i + 1 => do
    let (result, sch) ← writeAll sch pkts subports q q_base i
    let (r, sch) ← enqueueQwa sch (subports i) (q i) (q_base i) (pkts i)
    some (result + r, sch)

/-- **The variables of the pipeline** between two turns of its loop. -/
structure Pipeline where
  (pkt00 pkt01 pkt10 pkt11 pkt20 pkt21 : RteMbuf)
  (subport10 subport11 subport20 subport21 : ℕ)
  (q10 q11 q20 q21 : BitVec 32)
  (q20_base q21_base : ℕ)
  result : BitVec 32
  sch : State

/-- The first three stages are fed with six packets. -/
def feed (sch : State) (pkts : ℕ → RteMbuf) (subport_qmask : BitVec 32) : Option Pipeline := do
  let pkt20 := pkts 0
  let pkt21 := pkts 1
  let pkt10 := pkts 2
  let pkt11 := pkts 3
  let subport20 := portSubport sch pkt20
  let subport21 := portSubport sch pkt21
  let q20 := enqueueQptrsPrefetch0 pkt20 subport_qmask
  let q21 := enqueueQptrsPrefetch0 pkt21 subport_qmask
  let pkt00 := pkts 4
  let pkt01 := pkts 5
  let subport10 := portSubport sch pkt10
  let subport11 := portSubport sch pkt11
  let q10 := enqueueQptrsPrefetch0 pkt10 subport_qmask
  let q11 := enqueueQptrsPrefetch0 pkt11 subport_qmask
  let q20_base ← qbaseAt sch subport20 q20
  let q21_base ← qbaseAt sch subport21 q21
  some { pkt00, pkt01, pkt10, pkt11, pkt20, pkt21, subport10, subport11, subport20, subport21,
         q10, q11, q20, q21, q20_base, q21_base, result := 0, sch }

/-- **One turn of the pipeline.** -/
def turn (pkts : ℕ → RteMbuf) (subport_qmask : BitVec 32) (i : ℕ) (p : Pipeline) :
    Option Pipeline := do
  -- Propagate stage inputs
  let pkt30 := p.pkt20
  let pkt31 := p.pkt21
  let pkt20 := p.pkt10
  let pkt21 := p.pkt11
  let pkt10 := p.pkt00
  let pkt11 := p.pkt01
  let q30 := p.q20
  let q31 := p.q21
  let q20 := p.q10
  let q21 := p.q11
  let subport30 := p.subport20
  let subport31 := p.subport21
  let subport20 := p.subport10
  let subport21 := p.subport11
  let q30_base := p.q20_base
  let q31_base := p.q21_base
  -- Stage 0
  let pkt00 := pkts i
  let pkt01 := pkts (i + 1)
  -- Stage 1
  let subport10 := portSubport p.sch pkt10
  let subport11 := portSubport p.sch pkt11
  let q10 := enqueueQptrsPrefetch0 pkt10 subport_qmask
  let q11 := enqueueQptrsPrefetch0 pkt11 subport_qmask
  -- Stage 2
  let q20_base ← qbaseAt p.sch subport20 q20
  let q21_base ← qbaseAt p.sch subport21 q21
  -- Stage 3
  let (r30, sch) ← enqueueQwa p.sch subport30 q30 q30_base pkt30
  let (r31, sch) ← enqueueQwa sch subport31 q31 q31_base pkt31
  let result := p.result + (r30 + r31)
  some { pkt00, pkt01, pkt10, pkt11, pkt20, pkt21, subport10, subport11, subport20, subport21,
         q10, q11, q20, q21, q20_base, q21_base, result, sch }

/-- `for (i = 6; i < (n_pkts & (~1)); i += 2)`. -/
def turns (pkts : ℕ → RteMbuf) (subport_qmask : BitVec 32) (last i : ℕ) (p : Pipeline) :
    Option Pipeline :=
  if i < last then (turn pkts subport_qmask i p).bind (turns pkts subport_qmask last (i + 2))
  else some p
termination_by last - i

/-- The pipeline is drained, with the last packet of an odd number. -/
def drain (pkts : ℕ → RteMbuf) (subport_qmask : BitVec 32) (n_pkts : BitVec 32)
    (p : Pipeline) : Option (BitVec 32 × State) := do
  let pkt_last := pkts (n_pkts - 1).toNat
  let subport00 := portSubport p.sch p.pkt00
  let subport01 := portSubport p.sch p.pkt01
  let q00 := enqueueQptrsPrefetch0 p.pkt00 subport_qmask
  let q01 := enqueueQptrsPrefetch0 p.pkt01 subport_qmask
  let q10_base ← qbaseAt p.sch p.subport10 p.q10
  let q11_base ← qbaseAt p.sch p.subport11 p.q11
  let (r20, sch) ← enqueueQwa p.sch p.subport20 p.q20 p.q20_base p.pkt20
  let (r21, sch) ← enqueueQwa sch p.subport21 p.q21 p.q21_base p.pkt21
  let result := p.result + (r20 + r21)
  let subport_last := portSubport sch pkt_last
  let q_last := enqueueQptrsPrefetch0 pkt_last subport_qmask
  let q00_base ← qbaseAt sch subport00 q00
  let q01_base ← qbaseAt sch subport01 q01
  let (r10, sch) ← enqueueQwa sch p.subport10 p.q10 q10_base p.pkt10
  let (r11, sch) ← enqueueQwa sch p.subport11 p.q11 q11_base p.pkt11
  let result := result + (r10 + r11)
  let q_last_base ← qbaseAt sch subport_last q_last
  let (r00, sch) ← enqueueQwa sch subport00 q00 q00_base p.pkt00
  let (r01, sch) ← enqueueQwa sch subport01 q01 q01_base p.pkt01
  let result := result + (r00 + r01)
  if n_pkts &&& 1 ≠ 0 then
    let (r_last, sch) ← enqueueQwa sch subport_last q_last q_last_base pkt_last
    some (result + r_last, sch)
  else some (result, sch)

/-- **`rte_sched_port_enqueue`**. The count is kept in a `uint32_t` and returned as an `int`. -/
def rteSchedPortEnqueue (sch : State) (pkts : ℕ → RteMbuf) (n_pkts : BitVec 32) :
    Option (ℤ × State) := do
  let subport_qmask := sch.port.subportQmask
  if n_pkts < 6 then
    let subports := fun i => portSubport sch (pkts i)
    let q := fun i => enqueueQptrsPrefetch0 (pkts i) subport_qmask
    let q_base ← loadQbase sch subports q n_pkts.toNat
    let (result, sch) ← writeAll sch pkts subports q q_base n_pkts.toNat
    some (result.toInt, sch)
  else
    let p ← feed sch pkts subport_qmask
    let p ← turns pkts subport_qmask (n_pkts &&& ~~~1#32).toNat 6 p
    let (result, sch) ← drain pkts subport_qmask n_pkts p
    some (result.toInt, sch)

end Sched
