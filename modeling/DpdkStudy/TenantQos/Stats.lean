import DpdkStudy.TenantQos.Parse
import DpdkStudy.TenantQos.Qos
import Mathlib.Data.Finset.Insert
import Mathlib.Data.Fintype.Defs

/-!
# Statistics

The statistics of the data plane (`dataplane/stats.c`): packet and byte
counters per tenant, a counter per reason to drop a packet, and two tables
of `DP_MAX_TOPK` slots for the heaviest flows and tenants. The lock around
each update has no part in the model – one call is one step – and neither
has the printing of a report.

A table is a list of slots, and an empty slot is one whose packet count is
zero. An update scans the slots from the first: it takes the first empty
slot or adds to the slot of its key, whichever comes first, and where the
scan finds neither it replaces the first slot of minimal count if the update
counts more packets than that slot (`dpStatsUpdateTopk`).
-/

namespace TenantQos

/-- `DP_MAX_TOPK`. -/
def dpMaxTopk : ℕ := 10

/-- Why a packet is dropped (`enum dp_drop_reason`). -/
inductive DpDropReason
  | parseError
  | unmatched
  | rateLimit
deriving DecidableEq, Repr

instance : Fintype DpDropReason where
  elems := {.parseError, .unmatched, .rateLimit}
  complete reason := by cases reason <;> decide

/-- A slot of a table of heavy hitters (`struct dp_flow_stat`). -/
structure DpFlowStat where
  key : DpFlowKey
  packets : UInt64
  bytes : UInt64
deriving DecidableEq, Repr

/-- The counters of a tenant (`struct dp_tenant_stat`). Nothing writes the
`drops` of a tenant. -/
structure DpTenantStat where
  packets : UInt64
  bytes : UInt64
  drops : UInt64
deriving DecidableEq, Repr

/-- **The statistics** (`struct dp_stats`). -/
structure DpStats where
  topkFlows : List DpFlowStat
  topkTenants : List DpFlowStat
  tenants : Fin dpMaxTenants → DpTenantStat
  drops : DpDropReason → UInt64
  lastReportTsc : UInt64
  reportIntervalTsc : UInt64

/-- The slot a table starts with. -/
def emptySlot : DpFlowStat := ⟨⟨0, 0, 0, 0, 0⟩, 0, 0⟩

/-! ## The tables of heavy hitters -/

/-- The first loop of `dp_stats_update_topk`: the table with the update in
its first empty slot or in the slot of its key; no table where the loop runs
through. -/
def dpTopkScan (key : DpFlowKey) (packets bytes : UInt64) :
    List DpFlowStat → Option (List DpFlowStat)
  | [] => none
  | s :: rest =>
    if s.packets = 0 then some (⟨key, packets, bytes⟩ :: rest)
    else if s.key = key then
      some ({ s with packets := s.packets + packets, bytes := s.bytes + bytes } :: rest)
    else (dpTopkScan key packets bytes rest).map (s :: ·)

/-- The second loop of `dp_stats_update_topk`, from slot `i` on: the first
slot of minimal count and its count. -/
def dpTopkMin (minIdx : ℕ) (minPackets : UInt64) (i : ℕ) : List DpFlowStat → ℕ × UInt64
  | [] => (minIdx, minPackets)
  | s :: rest =>
    if s.packets < minPackets then dpTopkMin i s.packets (i + 1) rest
    else dpTopkMin minIdx minPackets (i + 1) rest

/-- **`dp_stats_update_topk`**. -/
def dpStatsUpdateTopk (topk : List DpFlowStat) (key : DpFlowKey) (packets bytes : UInt64) :
    List DpFlowStat :=
  match dpTopkScan key packets bytes topk with
  | some topk' => topk'
  | none =>
    match topk with
    | [] => []
    | s :: rest =>
      let (minIdx, minPackets) := dpTopkMin 0 s.packets 1 rest
      if packets > minPackets then (s :: rest).set minIdx ⟨key, packets, bytes⟩ else s :: rest

/-! ## The operations -/

/-- `dp_stats_init`: everything is zeroed, and the loop over the tenants
zeroes what is zero already. -/
def dpStatsInit (_tenantCount : UInt32) (reportIntervalTsc : UInt64) : DpStats where
  topkFlows := List.replicate dpMaxTopk emptySlot
  topkTenants := List.replicate dpMaxTopk emptySlot
  tenants _ := ⟨0, 0, 0⟩
  drops _ := 0
  lastReportTsc := 0
  reportIntervalTsc := reportIntervalTsc

/-- The key a tenant has in the table of tenants. -/
def dpTenantKey (tenantId : UInt32) : DpFlowKey := ⟨tenantId, 0, 0, 0, 0⟩

/-- **`dp_stats_record`**: a packet that passed is counted for its tenant
and entered in both tables; a tenant past the end of the counters leaves no
trace at all. -/
def dpStatsRecord (stats : DpStats) (key : DpFlowKey) (action : DpFlowAction)
    (packets bytes : UInt64) : DpStats :=
  if h : action.tenantId.toNat < dpMaxTenants then
    let t : Fin dpMaxTenants := ⟨action.tenantId.toNat, h⟩
    { stats with
      tenants := Function.update stats.tenants t
        { stats.tenants t with
          packets := (stats.tenants t).packets + packets
          bytes := (stats.tenants t).bytes + bytes }
      topkFlows := dpStatsUpdateTopk stats.topkFlows key packets bytes
      topkTenants :=
        dpStatsUpdateTopk stats.topkTenants (dpTenantKey action.tenantId) packets bytes }
  else stats

/-- **`dp_stats_drop`**: a dropped packet is counted under its reason, its
bytes are not. -/
def dpStatsDrop (stats : DpStats) (reason : DpDropReason) (packets : UInt64) : DpStats :=
  { stats with drops := Function.update stats.drops reason (stats.drops reason + packets) }

/-- `dp_stats_maybe_report`: the reading a report was last due at. -/
def dpStatsMaybeReport (stats : DpStats) (nowTsc : UInt64) : DpStats :=
  if stats.reportIntervalTsc = 0 then stats
  else if stats.lastReportTsc = 0 then { stats with lastReportTsc := nowTsc }
  else if nowTsc - stats.lastReportTsc ≥ stats.reportIntervalTsc then
    { stats with lastReportTsc := nowTsc }
  else stats

end TenantQos
