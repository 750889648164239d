import Mathlib.Logic.Function.Basic

/-!
# The tenant shaper

The shaper of the tenant QoS data plane (`dataplane/qos.c`) keeps one token
bucket per tenant and one optional rate per policy. A packet is charged to
the bucket of its tenant: the bucket is credited with what its rate yields
since the last reading of the time-stamp counter, the rate the packet is
governed by is installed, and the packet passes if the bucket holds its
length.

The two tables are C arrays of fixed size, `tenants[DP_MAX_TENANTS]` and
`policies[DP_MAX_POLICIES]`, and they are functions on `Fin` here, so that
an index past the end is not a value of the model. `dp_qos_apply` compares
its index with `tenant_count` and not with the size of the array: where the
C code would index past the array, the model's answer is `none`, and every
other outcome is a `some`.

The time-stamp counter is read once per packet (`rte_rdtsc`), and the
reading is an argument of the model. The frequency is never zero in the
configurations the program builds (`rte_get_tsc_hz`), and a division by a
zero frequency – a trap in C – is the division of `UInt64` here.
-/

namespace TenantQos

/-- `DP_MAX_TENANTS`. -/
def dpMaxTenants : Nat := 4096

/-- `DP_MAX_POLICIES`. -/
def dpMaxPolicies : Nat := 16384

/-- The rate `dp_qos_init` configures every tenant with, in bits per
second. -/
def dpDefaultRateBps : UInt64 := 1000000000

/-- **What a rule does to its packets** (`struct dp_flow_action`): the
tenant they are charged to, the policy they follow and the rate of the
rule itself, zero for none. -/
structure DpFlowAction where
  tenantId : UInt32
  policyId : UInt32
  rateLimitBps : UInt64
deriving DecidableEq, Repr

/-- **A token bucket** (`struct dp_qos_bucket`). -/
structure DpQosBucket where
  tokensBytes : UInt64
  lastTsc : UInt64
  rateLimitBps : UInt64
deriving DecidableEq, Repr

/-- **A policy** (`struct dp_qos_policy`). -/
structure DpQosPolicy where
  policyId : UInt32
  rateLimitBps : UInt64
deriving DecidableEq, Repr

/-- **The state of the shaper** (`struct dp_qos`). -/
structure DpQos where
  tenants : Fin dpMaxTenants → DpQosBucket
  policies : Fin dpMaxPolicies → DpQosPolicy
  tenantCount : UInt32
  policyCount : UInt32
  tscHz : UInt64

/-- `dp_qos_rate_to_tokens`: the bytes a rate yields over a number of
ticks. The product is a 64-bit product. -/
def dpQosRateToTokens (rateBps tscHz deltaTsc : UInt64) : UInt64 :=
  rateBps / 8 * deltaTsc / tscHz

/-- `dp_qos_init`: every bucket below the tenant count is configured with
the default rate and filled with one second of it. -/
def dpQosInit (tenantCount : UInt32) (tscHz : UInt64) : DpQos where
  tenants i :=
    if i.val < tenantCount.toNat then ⟨dpDefaultRateBps / 8, 0, dpDefaultRateBps⟩
    else ⟨0, 0, 0⟩
  policies _ := ⟨0, 0⟩
  tenantCount := tenantCount
  policyCount := 0
  tscHz := tscHz

/-- `dp_qos_update_policy`: identifiers past the policy table are ignored. -/
def dpQosUpdatePolicy (q : DpQos) (policyId : UInt32) (rateBps : UInt64) : DpQos :=
  if h : policyId.toNat < dpMaxPolicies then
    { q with
      policies := Function.update q.policies ⟨policyId.toNat, h⟩ ⟨policyId, rateBps⟩
      policyCount := if policyId ≥ q.policyCount then policyId + 1 else q.policyCount }
  else q

/-! ## One bucket

The part of `dp_qos_apply` that works on the tenant's bucket, in the order
of the source. -/

namespace DpQosBucket

/-- The bytes a bucket is credited with at the reading `now`: none before
the first packet, which is recognised by a zero `last_tsc`. -/
def credit (b : DpQosBucket) (tscHz now : UInt64) : UInt64 :=
  if b.lastTsc ≠ 0 then dpQosRateToTokens b.rateLimitBps tscHz (now - b.lastTsc) else 0

/-- The refill of `dp_qos_apply`. Nothing bounds the bucket from above. -/
def refill (b : DpQosBucket) (tscHz now : UInt64) : DpQosBucket :=
  { b with tokensBytes := b.tokensBytes + b.credit tscHz now, lastTsc := now }

/-- The rate put in force: the rate `own` the packet's rule or policy
gives, and the rate stored in the bucket where they give none. -/
def effectiveRate (b : DpQosBucket) (own : UInt64) : UInt64 :=
  if own ≠ 0 then own else b.rateLimitBps

/-- **One call of `dp_qos_apply` on its bucket**: refill, install the rate
in force, then admit the packet (`0`) if the bucket holds its length and
drop it (`-1`) otherwise. -/
def apply (b : DpQosBucket) (tscHz own : UInt64) (pktLen : UInt32) (now : UInt64) :
    Int × DpQosBucket :=
  let b₁ := { b.refill tscHz now with rateLimitBps := b.effectiveRate own }
  if b₁.tokensBytes < pktLen.toUInt64 then (-1, b₁)
  else (0, { b₁ with tokensBytes := b₁.tokensBytes - pktLen.toUInt64 })

@[simp] theorem refill_lastTsc (b : DpQosBucket) (hz now : UInt64) :
    (b.refill hz now).lastTsc = now := rfl

@[simp] theorem refill_tokensBytes (b : DpQosBucket) (hz now : UInt64) :
    (b.refill hz now).tokensBytes = b.tokensBytes + b.credit hz now := rfl

variable (b : DpQosBucket) (hz own : UInt64) (len : UInt32) (now : UInt64)

include b hz own len now

@[simp] theorem apply_lastTsc : (b.apply hz own len now).2.lastTsc = now := by
  simp only [apply]
  split <;> rfl

@[simp] theorem apply_rateLimitBps :
    (b.apply hz own len now).2.rateLimitBps = b.effectiveRate own := by
  simp only [apply]
  split <;> rfl

/-- **What a call does to the tokens**: it credits them, and debits the
length of the packet exactly when it admits it. -/
theorem apply_cases :
    ((b.apply hz own len now).1 = -1
        ∧ (b.apply hz own len now).2.tokensBytes = b.tokensBytes + b.credit hz now)
      ∨ ((b.apply hz own len now).1 = 0
        ∧ len.toUInt64 ≤ b.tokensBytes + b.credit hz now
        ∧ (b.apply hz own len now).2.tokensBytes
          = b.tokensBytes + b.credit hz now - len.toUInt64) := by
  unfold apply
  by_cases h : b.tokensBytes + b.credit hz now < len.toUInt64
  · left
    simp [h]
  · right
    have hle : len.toUInt64 ≤ b.tokensBytes + b.credit hz now := UInt64.not_lt.mp h
    simp [h, hle]

end DpQosBucket

/-! ## The shaper -/

namespace DpQos

/-- The rate of a policy: zero past the installed policies, and no answer
where the code would read past the policy table. -/
def policyRate (q : DpQos) (policyId : UInt32) : Option UInt64 :=
  if policyId < q.policyCount then
    if h : policyId.toNat < dpMaxPolicies then
      some (q.policies ⟨policyId.toNat, h⟩).rateLimitBps
    else none
  else some 0

end DpQos

/-- The rate the rule or its policy gives a packet, the rule first; zero
where they give none. -/
def dpOwnRate (action : DpFlowAction) (policyRate : UInt64) : UInt64 :=
  if action.rateLimitBps ≠ 0 then action.rateLimitBps else policyRate

/-- **`dp_qos_apply`**: a packet of `pktLen` bytes under `action`, the
counter reading `now`. The tenant is compared with `tenant_count` only; past
the end of the bucket array there is no answer. -/
def dpQosApply (q : DpQos) (action : DpFlowAction) (pktLen : UInt32) (now : UInt64) :
    Option (Int × DpQos) :=
  if action.tenantId ≥ q.tenantCount then some (-1, q)
  else if h : action.tenantId.toNat < dpMaxTenants then do
    let policyRate ← q.policyRate action.policyId
    let bucket := q.tenants ⟨action.tenantId.toNat, h⟩
    let (ret, bucket) := bucket.apply q.tscHz (dpOwnRate action policyRate) pktLen now
    some (ret, { q with
      tenants := Function.update q.tenants ⟨action.tenantId.toNat, h⟩ bucket })
  else none

end TenantQos
