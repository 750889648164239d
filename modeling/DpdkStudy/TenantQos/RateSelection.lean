import DpdkStudy.TenantQos.QosTrace

/-!
# Which rate is in force

A packet is governed by the rate of its rule, failing that by the rate of
its policy, and failing both by the rate its tenant was configured with
(`selectRate`). That choice has no memory: it reads the packet's action, the
policy table and the configuration.

`dp_qos_apply` does not read the configured rate. It falls back on the rate
stored in the bucket, which is the field every call overwrites with the rate
it puts in force – so what it falls back on is the last rate a rule or a
policy gave to any packet of the tenant (`pre_rate_eq_lastGiven`), and the
choice is the memoryless one exactly when the packet brings its own rate or
that last rate is the configured one (`rateSelection_iff`).
-/

namespace TenantQos

/-- **The choice without memory**: the rate `own` the packet's rule or
policy gives, and the configured rate of the tenant where they give none. -/
def selectRate (own configured : UInt64) : UInt64 := if own ≠ 0 then own else configured

/-- The rate a bucket of rate `r` stores after some packets: the last one a
rule or a policy gave to any of them. -/
def lastGivenFrom (r : UInt64) (es : List QosEvent) : UInt64 :=
  es.foldl (fun r e => selectRate e.own r) r

/-- The last rate a rule or a policy gave to a packet of tenant `t`, the
configured rate before any did. -/
def lastGiven (t : Fin dpMaxTenants) (es : List QosEvent) : UInt64 :=
  lastGivenFrom dpDefaultRateBps (es.filter (fun e => e.tenant = t))

/-- A call puts in force the rate of the packet, or the one its bucket
stores. -/
theorem rate_eq_selectRate {tscHz : UInt64} {e : QosEvent}
    (h : (e.ret, e.post) = e.pre.apply tscHz e.own e.pktLen e.now) :
    e.rate = selectRate e.own e.pre.rateLimitBps := by
  have hpost : e.post = _ := congrArg Prod.snd h
  unfold QosEvent.rate
  rw [hpost]
  exact DpQosBucket.apply_rateLimitBps _ _ _ _ _

/-- **What a bucket remembers.** At any point of a history the bucket stores
the last rate given before that point. -/
theorem pre_rate_eq_lastGivenFrom {tscHz : UInt64} {b : DpQosBucket} {l₁ l₂ : List QosEvent}
    {e : QosEvent} (h : BucketTrace tscHz b (l₁ ++ e :: l₂)) :
    e.pre.rateLimitBps = lastGivenFrom b.rateLimitBps l₁
      ∧ e.rate = selectRate e.own e.pre.rateLimitBps := by
  induction l₁ generalizing b with
  | nil => exact ⟨congrArg DpQosBucket.rateLimitBps h.1, rate_eq_selectRate (h.1 ▸ h.2.1)⟩
  | cons e₀ l₁ ih =>
    obtain ⟨rfl, happly, hrest⟩ := h
    obtain ⟨hpre, hrate⟩ := ih hrest
    refine ⟨?_, hrate⟩
    have hstep : e₀.post.rateLimitBps = selectRate e₀.own e₀.pre.rateLimitBps :=
      rate_eq_selectRate happly
    rw [hpre, hstep]
    rfl

/-! ## Only configured tenants are charged -/

/-- Every event of a run is charged to a tenant below the tenant count. -/
theorem tenant_lt_of_mem_qosRun {q q' : DpQos} {ops : List QosOp} {es : List QosEvent}
    (h : qosRun q ops = some (es, q')) {e : QosEvent} (he : e ∈ es) :
    e.tenant.val < q.tenantCount.toNat := by
  induction ops generalizing q es with
  | nil =>
    obtain ⟨rfl, rfl⟩ := Prod.mk.inj (Option.some.inj h)
    cases he
  | cons op ops ih =>
    simp only [qosRun, Option.bind_eq_bind, Option.bind_eq_some_iff, Prod.exists] at h
    obtain ⟨es₁, q₁, hstep, es₂, q₂, hrun, h⟩ := h
    obtain ⟨rfl, rfl⟩ := Prod.mk.inj (Option.some.inj h)
    have hcount := qosStep_tenantCount hstep
    rcases List.mem_append.mp he with he | he
    · exact tenant_lt_of_mem_qosStep hstep he
    · rw [← hcount]
      exact ih hrun he

/-! ## The choice of the code -/

/-- The rate stored in the bucket of a packet of a run: the last one given
to a packet of its tenant. -/
theorem pre_rate_eq_lastGiven {tenantCount : UInt32} {tscHz : UInt64} {ops : List QosOp}
    {l₁ l₂ : List QosEvent} {e : QosEvent} {q : DpQos}
    (hrun : qosRun (dpQosInit tenantCount tscHz) ops = some (l₁ ++ e :: l₂, q)) :
    e.pre.rateLimitBps = lastGiven e.tenant l₁
      ∧ e.rate = selectRate e.own e.pre.rateLimitBps := by
  have htrace := bucketTrace_of_qosRun hrun e.tenant
  have hconf : ((dpQosInit tenantCount tscHz).tenants e.tenant).rateLimitBps
      = dpDefaultRateBps := by
    have hlt : e.tenant.val < tenantCount.toNat := tenant_lt_of_mem_qosRun hrun (by simp)
    simp only [dpQosInit, if_pos hlt]
  rw [List.filter_append, List.filter_cons_of_pos (by simp)] at htrace
  obtain ⟨hpre, hrate⟩ := pre_rate_eq_lastGivenFrom htrace
  rw [hconf] at hpre
  exact ⟨hpre, hrate⟩

/-- **When the choice has no memory.** In any run of a shaper fresh from
`dp_qos_init`, the rate put in force for a packet is the memoryless choice
exactly when its rule or policy gives it a rate, or the last rate given to
an earlier packet of its tenant – if any was – is the configured one. -/
theorem rateSelection_iff {tenantCount : UInt32} {tscHz : UInt64} {ops : List QosOp}
    {l₁ l₂ : List QosEvent} {e : QosEvent} {q : DpQos}
    (hrun : qosRun (dpQosInit tenantCount tscHz) ops = some (l₁ ++ e :: l₂, q)) :
    e.rate = selectRate e.own dpDefaultRateBps
      ↔ e.own ≠ 0 ∨ lastGiven e.tenant l₁ = dpDefaultRateBps := by
  obtain ⟨hpre, hrate⟩ := pre_rate_eq_lastGiven hrun
  rw [hrate, hpre]
  unfold selectRate
  by_cases hown : e.own = 0
  · simp [hown]
  · simp [hown]

/-- A packet of a rule with a rate of eight kilobits per second, then one of
a rule without a rate, both of the same tenant. -/
def overrideOps : List QosOp :=
  [.apply ⟨0, 0, 8000⟩ 64 1, .apply ⟨0, 0, 0⟩ 64 2]

/-- The second packet alone. -/
def plainOps : List QosOp := [.apply ⟨0, 0, 0⟩ 64 2]

/-- The first packet of `overrideOps` brings its own rate. -/
theorem rateSelection_override :
    ∃ e es q, qosRun (dpQosInit 1 1000000000) overrideOps = some (e :: es, q)
      ∧ e.rate = selectRate e.own dpDefaultRateBps := by
  have hmap : (qosRun (dpQosInit 1 1000000000) overrideOps).map Prod.fst
      = some
        [⟨⟨0, by decide⟩, 8000, 64, 1, ⟨125000000, 0, 1000000000⟩, 0, ⟨124999936, 1, 8000⟩⟩,
          ⟨⟨0, by decide⟩, 0, 64, 2, ⟨124999936, 1, 8000⟩, 0, ⟨124999872, 2, 8000⟩⟩] := by
    decide
  obtain ⟨⟨_, q⟩, hrun, rfl⟩ := Option.map_eq_some_iff.mp hmap
  exact ⟨_, _, q, hrun, (rateSelection_iff (show qosRun _ _ = some ([] ++ _ :: _, q) from hrun)).mpr (Or.inl (by decide))⟩

/-- **The bucket remembers.** The packet of `plainOps` is governed by the
configured rate. Behind a packet of another flow of its tenant, with the
same action and the same policy table, it is governed by that flow's
rate. -/
theorem rateSelection_remembers_override :
    (qosRun (dpQosInit 1 1000000000) plainOps).map
        (fun r => (r.1.getLast?.map (fun e => (e.own, e.rate))))
      = some (some (0, dpDefaultRateBps))
    ∧ (qosRun (dpQosInit 1 1000000000) overrideOps).map
        (fun r => (r.1.getLast?.map (fun e => (e.own, e.rate))))
      = some (some (0, 8000)) := by
  decide

end TenantQos
