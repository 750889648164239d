import DpdkStudy.TenantQos.Qos

/-!
# Runs of the shaper

A run interleaves packets of any tenants with changes of the policy table.
What a run shows of one packet is a `QosEvent`: the bucket it was charged
to before and after the call, the rate its rule or policy gave it, and what
the call answered. The packets a run turns away before any bucket is
touched – their tenant is not configured – leave no event.

The events of one tenant, in order, are a history of its bucket alone:
every event starts at the bucket the previous one ended with
(`BucketTrace`, `bucketTrace_of_qosRun`). Everything proved about one
bucket is proved about such a history, and holds inside every run whatever
the other tenants and the policy table do meanwhile.
-/

open Option

namespace TenantQos

variable {q q' : DpQos} {op : QosOp} {es : List QosEvent}

/-- One operation on the shaper. -/
inductive QosOp
  | apply (action : DpFlowAction) (pktLen : UInt32) (now : UInt64)
  | updatePolicy (policyId : UInt32) (rateBps : UInt64)

/-- **What a run shows of a packet charged to a bucket.** -/
structure QosEvent where
  /-- The bucket of the packet. -/
  tenant : Fin dpMaxTenants
  /-- The rate the packet's rule or policy gives it, zero for none. -/
  own : UInt64
  pktLen : UInt32
  /-- The reading of the time-stamp counter. -/
  now : UInt64
  /-- The bucket before the call. -/
  pre : DpQosBucket
  /-- The answer of the call: `0` admits the packet, `-1` drops it. -/
  ret : Int
  /-- The bucket after the call. -/
  post : DpQosBucket
deriving DecidableEq, Repr

namespace QosEvent

/-- The bytes the call credited its bucket with. -/
def credited (e : QosEvent) (tscHz : UInt64) : Nat := (e.pre.credit tscHz e.now).toNat

/-- The bytes of the packet if it was admitted. -/
def admitted (e : QosEvent) : Nat := if e.ret = 0 then e.pktLen.toNat else 0

/-- The rate the call put in force. -/
def rate (e : QosEvent) : UInt64 := e.post.rateLimitBps

end QosEvent

/-- The event of a call of `dp_qos_apply` that went from `q` to `q'`. -/
def qosObserve (q q' : DpQos) (action : DpFlowAction) (pktLen : UInt32) (now : UInt64)
    (ret : Int) : List QosEvent :=
  if h : action.tenantId.toNat < dpMaxTenants then
    if action.tenantId < q.tenantCount then
      [{ tenant := ⟨action.tenantId.toNat, h⟩
         own := dpOwnRate action ((q.policyRate action.policyId).getD 0)
         pktLen := pktLen
         now := now
         pre := q.tenants ⟨action.tenantId.toNat, h⟩
         ret := ret
         post := q'.tenants ⟨action.tenantId.toNat, h⟩ }]
    else []
  else []

/-- One step of a run, with the event it leaves. -/
def qosStep (q : DpQos) : QosOp → Option (List QosEvent × DpQos)
  | .updatePolicy policyId rateBps => some ([], dpQosUpdatePolicy q policyId rateBps)
  | .apply action pktLen now => do
    let (ret, q') ← dpQosApply q action pktLen now
    some (qosObserve q q' action pktLen now ret, q')

/-- **A run of the shaper**, with the events it leaves; no answer once the
code would have indexed past a table. -/
def qosRun (q : DpQos) : List QosOp → Option (List QosEvent × DpQos)
  | [] => some ([], q)
  | op :: ops => do
    let (es, q₁) ← qosStep q op
    let (es', q₂) ← qosRun q₁ ops
    some (es ++ es', q₂)

/-- **The history of a bucket**: each event starts at the bucket the last
one left and does to it what `DpQosBucket.apply` does. -/
def BucketTrace (tscHz : UInt64) : DpQosBucket → List QosEvent → Prop
  | _, [] => True
  | b, e :: es =>
    e.pre = b ∧ (e.ret, e.post) = b.apply tscHz e.own e.pktLen e.now
      ∧ BucketTrace tscHz e.post es

/-! ## What a call can do -/

/-- **The outcomes of `dp_qos_apply`.** A packet of a tenant that is not
configured is dropped and nothing moves; any other packet moves the bucket
of its tenant and no other part of the shaper. -/
theorem dpQosApply_cases {action : DpFlowAction} {pktLen : UInt32} {now : UInt64} {ret : Int}
    (h : dpQosApply q action pktLen now = some (ret, q')) :
    (q.tenantCount ≤ action.tenantId ∧ ret = -1 ∧ q' = q)
      ∨ ∃ (ht : action.tenantId.toNat < dpMaxTenants) (pr : UInt64),
        action.tenantId < q.tenantCount ∧ q.policyRate action.policyId = some pr
          ∧ ret = ((q.tenants ⟨action.tenantId.toNat, ht⟩).apply q.tscHz
              (dpOwnRate action pr) pktLen now).1
          ∧ q' = { q with
              tenants := Function.update q.tenants ⟨action.tenantId.toNat, ht⟩
                ((q.tenants ⟨action.tenantId.toNat, ht⟩).apply q.tscHz
                  (dpOwnRate action pr) pktLen now).2 } := by
  unfold dpQosApply at h
  by_cases hc : action.tenantId ≥ q.tenantCount
  · rw [if_pos hc] at h
    obtain ⟨rfl, rfl⟩ := Prod.mk.inj (some.inj h)
    exact Or.inl ⟨hc, rfl, rfl⟩
  · rw [if_neg hc] at h
    by_cases ht : action.tenantId.toNat < dpMaxTenants
    · rw [dif_pos ht] at h
      cases hp : q.policyRate action.policyId with
      | none => rw [hp] at h; cases h
      | some pr =>
        rw [hp] at h
        obtain ⟨rfl, rfl⟩ := Prod.mk.inj (some.inj h)
        exact Or.inr ⟨ht, pr, UInt32.not_le.mp hc, rfl, rfl, rfl⟩
    · rw [dif_neg ht] at h
      cases h

/-- A change of the policy table moves no bucket. -/
@[simp] theorem dpQosUpdatePolicy_tenants (q : DpQos) (id : UInt32) (rate : UInt64) :
    (dpQosUpdatePolicy q id rate).tenants = q.tenants := by
  unfold dpQosUpdatePolicy
  split <;> rfl

@[simp] theorem dpQosUpdatePolicy_tscHz (q : DpQos) (id : UInt32) (rate : UInt64) :
    (dpQosUpdatePolicy q id rate).tscHz = q.tscHz := by
  unfold dpQosUpdatePolicy
  split <;> rfl

@[simp] theorem dpQosUpdatePolicy_tenantCount (q : DpQos) (id : UInt32) (rate : UInt64) :
    (dpQosUpdatePolicy q id rate).tenantCount = q.tenantCount := by
  unfold dpQosUpdatePolicy
  split <;> rfl

section

variable (h : qosStep q op = some (es, q'))

include h

theorem qosStep_tscHz : q'.tscHz = q.tscHz := by
  cases op with
  | updatePolicy id rate =>
    obtain ⟨-, rfl⟩ := Prod.mk.inj (some.inj h)
    simp
  | apply action pktLen now =>
    simp only [qosStep, bind_eq_bind, bind_eq_some_iff, Prod.exists] at h
    obtain ⟨ret, q₁, hq, h⟩ := h
    obtain ⟨-, rfl⟩ := Prod.mk.inj (some.inj h)
    rcases dpQosApply_cases hq with ⟨-, -, rfl⟩ | ⟨_, _, -, -, -, rfl⟩ <;> rfl

theorem qosStep_tenantCount :
    q'.tenantCount = q.tenantCount := by
  cases op with
  | updatePolicy id rate =>
    obtain ⟨-, rfl⟩ := Prod.mk.inj (some.inj h)
    simp
  | apply action pktLen now =>
    simp only [qosStep, bind_eq_bind, bind_eq_some_iff, Prod.exists] at h
    obtain ⟨ret, q₁, hq, h⟩ := h
    obtain ⟨-, rfl⟩ := Prod.mk.inj (some.inj h)
    rcases dpQosApply_cases hq with ⟨-, -, rfl⟩ | ⟨_, _, -, -, -, rfl⟩ <;> rfl

/-- The event of a step is charged to a tenant below the tenant count. -/
theorem tenant_lt_of_mem_qosStep {e : QosEvent} (he : e ∈ es) :
    e.tenant.val < q.tenantCount.toNat := by
  cases op with
  | updatePolicy id rate =>
    obtain ⟨rfl, -⟩ := Prod.mk.inj (some.inj h)
    cases he
  | apply action pktLen now =>
    simp only [qosStep, bind_eq_bind, bind_eq_some_iff, Prod.exists] at h
    obtain ⟨ret, q₁, -, h⟩ := h
    obtain ⟨rfl, -⟩ := Prod.mk.inj (some.inj h)
    unfold qosObserve at he
    split at he
    · split at he
      · next hlt =>
        obtain rfl := List.mem_singleton.mp he
        exact UInt32.lt_iff_toNat_lt.mp hlt
      · cases he
    · cases he

/-! ## The events of one tenant -/

/-- **One step extends the history of each bucket** by what it does to that
bucket: nothing at all, or one call of `DpQosBucket.apply`. -/
theorem bucketTrace_step {es' : List QosEvent} (t : Fin dpMaxTenants)
    (htrace : BucketTrace q'.tscHz (q'.tenants t) (es'.filter (fun e => e.tenant = t))) :
    BucketTrace q.tscHz (q.tenants t) ((es ++ es').filter (fun e => e.tenant = t)) := by
  rw [qosStep_tscHz h] at htrace
  cases op with
  | updatePolicy id rate =>
    obtain ⟨rfl, rfl⟩ := Prod.mk.inj (some.inj h)
    simpa using htrace
  | apply action pktLen now =>
    simp only [qosStep, bind_eq_bind, bind_eq_some_iff, Prod.exists] at h
    obtain ⟨ret, q₁, hq, h⟩ := h
    obtain ⟨rfl, rfl⟩ := Prod.mk.inj (some.inj h)
    rcases dpQosApply_cases hq with ⟨hc, rfl, rfl⟩ | ⟨ht, pr, hc, hpr, rfl, rfl⟩
    · have hnone : qosObserve q₁ q₁ action pktLen now (-1) = [] := by
        unfold qosObserve
        simp only [UInt32.not_lt.mpr hc, if_false, dite_eq_ite, ite_self]
      rw [hnone]
      exact htrace
    · unfold qosObserve
      rw [dif_pos ht, if_pos hc, hpr]
      by_cases heq : (⟨action.tenantId.toNat, ht⟩ : Fin dpMaxTenants) = t
      · subst heq
        simp only [Function.update_self] at htrace
        simp only [List.cons_append, List.nil_append, List.filter_cons, decide_true,
          if_true, Function.update_self]
        exact ⟨rfl, rfl, htrace⟩
      · dsimp only at htrace
        rw [Function.update_of_ne (Ne.symm heq)] at htrace
        simp only [List.cons_append, List.nil_append, List.filter_cons, heq, decide_false]
        exact htrace

end

/-- The events of a tenant are a history of its bucket, in every run. -/
theorem bucketTrace_of_qosRun {ops : List QosOp} (h : qosRun q ops = some (es, q'))
    (t : Fin dpMaxTenants) :
    BucketTrace q.tscHz (q.tenants t) (es.filter (fun e => e.tenant = t)) := by
  induction ops generalizing q es with
  | nil =>
    obtain ⟨rfl, rfl⟩ := Prod.mk.inj (some.inj h)
    trivial
  | cons op ops ih =>
    simp only [qosRun, bind_eq_bind, bind_eq_some_iff, Prod.exists] at h
    obtain ⟨es₁, q₁, hstep, es₂, q₂, hrun, h⟩ := h
    obtain ⟨rfl, rfl⟩ := Prod.mk.inj (some.inj h)
    exact bucketTrace_step hstep t (ih hrun)

/-- A history splits wherever its events do: the later part is a history
of the bucket the earlier part left. -/
theorem BucketTrace.append {tscHz : UInt64} {b : DpQosBucket} {l₁ l₂ : List QosEvent}
    (h : BucketTrace tscHz b (l₁ ++ l₂)) : ∃ b', BucketTrace tscHz b' l₂ := by
  induction l₁ generalizing b with
  | nil => exact ⟨b, h⟩
  | cons e l₁ ih => exact ih h.2.2

/-- The first events of a history are a history of the same bucket. -/
theorem BucketTrace.take {tscHz : UInt64} {b : DpQosBucket} {l₁ l₂ : List QosEvent}
    (h : BucketTrace tscHz b (l₁ ++ l₂)) : BucketTrace tscHz b l₁ := by
  induction l₁ generalizing b with
  | nil => trivial
  | cons e l₁ ih => exact ⟨h.1, h.2.1, ih h.2.2⟩

end TenantQos
