import DpdkStudy.TenantQos.Context

/-!
# The packet loop

`dp_lcore_main` (`main.c`) receives packets in bursts of at most
`DP_RX_BURST` and takes each of them through the parser, the classifier and
the shaper; a packet that one of them turns away is dropped and counted
under a reason of its own, and a packet that passes all three is recorded.
After a burst a report may be due.

The loop is a sequence of events, and a run of it (`dpRun`) shows an outcome
for each packet. The readings of the time-stamp counter and the packets come
with the events. A run has no answer once the code would have indexed past a
table.

Every configuration starts the loop in a context whose policies fit their
table, and no packet changes anything in it but buckets and statistics
(`DpContext.Frame`).
-/

namespace TenantQos

variable {H : RteHash}

variable {c c' context : DpContext H}

/-- What became of a packet. -/
inductive DpVerdict
  | dropped (reason : DpDropReason)
  | passed
deriving DecidableEq, Repr

/-- **What a run shows of a packet**: the packet, the action it was
classified to, and what became of it. -/
structure DpOutcome where
  mbuf : RteMbuf
  action : Option DpFlowAction
  verdict : DpVerdict

/-- The body of the packet loop. -/
def dpProcess (context : DpContext H) (mbuf : RteMbuf) (now : UInt64) :
    Option (DpOutcome × DpContext H) :=
  match mbuf.parsed with
  | none =>
    some (⟨mbuf, none, .dropped .parseError⟩,
      { context with stats := dpStatsDrop context.stats .parseError 1 })
  | some key =>
    match dpClassifyLookup context.classifier key with
    | none =>
      some (⟨mbuf, none, .dropped .unmatched⟩,
        { context with stats := dpStatsDrop context.stats .unmatched 1 })
    | some action => do
      let (ret, qos) ← dpQosApply context.qos action mbuf.pktLen now
      if ret ≠ 0 then
        some (⟨mbuf, some action, .dropped .rateLimit⟩,
          { context with qos := qos, stats := dpStatsDrop context.stats .rateLimit 1 })
      else
        some (⟨mbuf, some action, .passed⟩,
          { context with
            qos := qos
            stats := dpStatsRecord context.stats key action 1 mbuf.pktLen.toUInt64 })

/-- `DP_RX_BURST`. -/
def dpRxBurst : ℕ := 32

/-- **A burst**: what one call of `rte_eth_rx_burst` returned, each packet
with the reading of the counter when it is charged, and the reading after
them all. -/
structure DpBurst where
  pkts : List (RteMbuf × UInt64)
  reportTsc : UInt64
  fits : pkts.length ≤ dpRxBurst

/-- A step of the loop. -/
inductive DpEvent
  | packet (mbuf : RteMbuf) (now : UInt64)
  | report (now : UInt64)

/-- The steps a burst gives rise to: an empty burst none. -/
def DpBurst.events (b : DpBurst) : List DpEvent :=
  match b.pkts with
  | [] => []
  | p :: ps => (p :: ps).map (fun p => .packet p.1 p.2) ++ [.report b.reportTsc]

/-- One step of the loop, with the outcome it shows. -/
def dpStep (context : DpContext H) : DpEvent → Option (List DpOutcome × DpContext H)
  | .packet mbuf now => (dpProcess context mbuf now).map (fun r => ([r.1], r.2))
  | .report now =>
    some ([], { context with stats := dpStatsMaybeReport context.stats now })

/-- **A run of the loop**, with the outcomes it shows. -/
def dpRun (context : DpContext H) : List DpEvent → Option (List DpOutcome × DpContext H)
  | [] => some ([], context)
  | e :: es => do
    let (out, context₁) ← dpStep context e
    let (out', context₂) ← dpRun context₁ es
    some (out ++ out', context₂)

/-- **`dp_lcore_main`**, over the bursts it receives. -/
def dpLcoreMain (context : DpContext H) (bursts : List DpBurst) :
    Option (List DpOutcome × DpContext H) :=
  dpRun context (bursts.flatMap DpBurst.events)

/-! ## What the loop never changes -/

namespace DpContext

/-- The action a packet is classified to. -/
def actionOf (context : DpContext H) (mbuf : RteMbuf) : Option DpFlowAction :=
  mbuf.parsed.bind (dpClassifyLookup context.classifier)

/-- **What the loop never changes**: the rules, the policies, and the
numbers of tenants and policies. -/
structure Frame (context context' : DpContext H) : Prop where
  classifier : context'.classifier = context.classifier
  policies : context'.qos.policies = context.qos.policies
  tenantCount : context'.qos.tenantCount = context.qos.tenantCount
  policyCount : context'.qos.policyCount = context.qos.policyCount
  tscHz : context'.qos.tscHz = context.qos.tscHz

theorem Frame.refl (context : DpContext H) : Frame context context := ⟨rfl, rfl, rfl, rfl, rfl⟩

theorem Frame.trans {c₁ c₂ c₃ : DpContext H} (h₁ : Frame c₁ c₂) (h₂ : Frame c₂ c₃) :
    Frame c₁ c₃ where
  classifier := h₂.classifier.trans h₁.classifier
  policies := h₂.policies.trans h₁.policies
  tenantCount := h₂.tenantCount.trans h₁.tenantCount
  policyCount := h₂.policyCount.trans h₁.policyCount
  tscHz := h₂.tscHz.trans h₁.tscHz

theorem Frame.actionOf (h : Frame c c') (mbuf : RteMbuf) :
    c'.actionOf mbuf = c.actionOf mbuf := by
  unfold DpContext.actionOf
  rw [h.classifier]

theorem Frame.policiesFit (h : Frame c c') (hfit : PoliciesFit c.qos) :
    PoliciesFit c'.qos := by
  unfold PoliciesFit
  rw [h.policyCount]
  exact hfit

/-- **The packet stays inside the tables**: where its rule names a tenant
the program takes for configured, that tenant has a bucket. -/
def InTables (context : DpContext H) (mbuf : RteMbuf) : Prop :=
  ∀ action, context.actionOf mbuf = some action →
    action.tenantId < context.qos.tenantCount → action.tenantId.toNat < dpMaxTenants

theorem Frame.inTables_iff (h : Frame c c') (mbuf : RteMbuf) :
    c'.InTables mbuf ↔ c.InTables mbuf := by
  unfold InTables
  rw [h.actionOf, h.tenantCount]

/-- An event stays inside the tables. -/
def EventInTables (context : DpContext H) : DpEvent → Prop
  | .packet mbuf _ => context.InTables mbuf
  | .report _ => True

theorem Frame.eventInTables_iff (h : Frame c c') (e : DpEvent) :
    c'.EventInTables e ↔ c.EventInTables e := by
  cases e with
  | packet mbuf now => exact h.inTables_iff mbuf
  | report now => exact Iff.rfl

/-- **A context a configuration starts with** has its policies inside their
table and its counters at zero. -/
theorem fresh_of_dpStarts {argv : List String} (h : DpStarts argv context) :
    PoliciesFit context.qos
      ∧ ∃ interval, context.stats = dpStatsInit context.qos.tenantCount interval := by
  obtain ⟨tscHz, config, eal, fresh, text, -, hinit, hload⟩ := h
  obtain ⟨hqos, hstats⟩ := dpContextInit_eq hinit
  obtain rfl := (Prod.mk.inj hload).2
  have hfit : PoliciesFit fresh.qos := by
    rw [hqos]
    exact policiesFit_dpQosInit _ _
  obtain ⟨hpol, -, htc, hst⟩ := dpLoadLines_keeps fresh (CText.fgetsAll 256 text) hfit
  refine ⟨hpol, config.reportIntervalTsc, ?_⟩
  rw [hst, htc, hstats, hqos]
  rfl

end DpContext

/-! ## One packet -/

theorem policyRate_ne_none {q : DpQos} (h : PoliciesFit q) (policyId : UInt32) :
    ∃ rate, q.policyRate policyId = some rate := by
  unfold DpQos.policyRate
  by_cases hlt : policyId < q.policyCount
  · rw [if_pos hlt, dif_pos (lt_of_lt_of_le (UInt32.lt_iff_toNat_lt.mp hlt) h)]
    exact ⟨_, rfl⟩
  · rw [if_neg hlt]
    exact ⟨0, rfl⟩

/-- **When `dp_qos_apply` stays inside its tables**: exactly when a tenant it
takes for configured has a bucket. -/
theorem dpQosApply_isSome_iff {q : DpQos} (h : PoliciesFit q) (action : DpFlowAction)
    (pktLen : UInt32) (now : UInt64) :
    (dpQosApply q action pktLen now).isSome
      ↔ (action.tenantId < q.tenantCount → action.tenantId.toNat < dpMaxTenants) := by
  obtain ⟨rate, hrate⟩ := policyRate_ne_none h action.policyId
  unfold dpQosApply
  by_cases hc : action.tenantId ≥ q.tenantCount
  · rw [if_pos hc]
    exact iff_of_true rfl (fun hlt => absurd hlt (UInt32.not_lt.mpr hc))
  · rw [if_neg hc]
    by_cases ht : action.tenantId.toNat < dpMaxTenants
    · rw [dif_pos ht, hrate]
      exact iff_of_true rfl (fun _ => ht)
    · rw [dif_neg ht]
      exact iff_of_false (by simp) (fun himp => ht (himp (UInt32.not_le.mp hc)))

/-- **The exits of the packet loop.** A packet without an action is dropped
and only the statistics move; a packet with one is charged by
`dp_qos_apply`. -/
theorem dpProcess_cases (context : DpContext H) (mbuf : RteMbuf) (now : UInt64) :
    (context.actionOf mbuf = none
        ∧ ∃ reason, dpProcess context mbuf now
          = some (⟨mbuf, none, .dropped reason⟩,
            { context with stats := dpStatsDrop context.stats reason 1 }))
      ∨ ∃ key action, context.actionOf mbuf = some action
        ∧ dpProcess context mbuf now
          = (dpQosApply context.qos action mbuf.pktLen now).map (fun r =>
              if r.1 ≠ 0 then
                (⟨mbuf, some action, .dropped .rateLimit⟩,
                  { context with qos := r.2, stats := dpStatsDrop context.stats .rateLimit 1 })
              else
                (⟨mbuf, some action, .passed⟩,
                  { context with
                    qos := r.2
                    stats := dpStatsRecord context.stats key action 1
                      mbuf.pktLen.toUInt64 })) := by
  unfold dpProcess DpContext.actionOf
  cases hkey : mbuf.parsed with
  | none => exact Or.inl ⟨rfl, .parseError, rfl⟩
  | some key =>
    cases hact : dpClassifyLookup context.classifier key with
    | none =>
      left
      exact ⟨hact, .unmatched, by simp only [hact]⟩
    | some action =>
      right
      refine ⟨key, action, hact, ?_⟩
      simp only [hact]
      cases dpQosApply context.qos action mbuf.pktLen now with
      | none => rfl
      | some r =>
        obtain ⟨ret, qos⟩ := r
        show (if ret ≠ 0 then some _ else some _) = some (if ret ≠ 0 then _ else _)
        split <;> rfl

theorem dpQosApply_frame {q q' : DpQos} {action : DpFlowAction} {pktLen : UInt32}
    {now : UInt64} {ret : Int} (h : dpQosApply q action pktLen now = some (ret, q')) :
    q'.policies = q.policies ∧ q'.tenantCount = q.tenantCount
      ∧ q'.policyCount = q.policyCount ∧ q'.tscHz = q.tscHz := by
  rcases dpQosApply_cases h with ⟨-, -, rfl⟩ | ⟨_, _, -, -, -, rfl⟩ <;>
    exact ⟨rfl, rfl, rfl, rfl⟩

/-- **A packet inside the tables has an outcome**, and one outside has
none. -/
theorem dpProcess_isSome_iff (h : PoliciesFit context.qos) (mbuf : RteMbuf) (now : UInt64) :
    (dpProcess context mbuf now).isSome ↔ context.InTables mbuf := by
  unfold DpContext.InTables
  rcases dpProcess_cases context mbuf now with ⟨hact, reason, hproc⟩ | ⟨key, action, hact, hproc⟩
  · rw [hproc, hact]
    simp
  · rw [hproc, hact, Option.isSome_map, dpQosApply_isSome_iff h]
    constructor
    · rintro himp a ⟨⟩
      exact himp
    · exact fun himp => himp action rfl

/-- **A packet keeps the frame**, and its outcome shows the packet and its
action. -/
theorem dpProcess_frame {context' : DpContext H} {mbuf : RteMbuf} {now : UInt64} {o : DpOutcome}
    (h : dpProcess context mbuf now = some (o, context')) :
    context.Frame context' ∧ o.mbuf = mbuf ∧ o.action = context.actionOf mbuf := by
  rcases dpProcess_cases context mbuf now with ⟨hact, reason, hproc⟩ | ⟨key, action, hact, hproc⟩
  · rw [hproc] at h
    obtain ⟨rfl, rfl⟩ := Prod.mk.inj (Option.some.inj h)
    exact ⟨⟨rfl, rfl, rfl, rfl, rfl⟩, rfl, hact.symm⟩
  · rw [hproc] at h
    obtain ⟨⟨ret, q'⟩, hq, hr⟩ := Option.map_eq_some_iff.mp h
    obtain ⟨hpol, htc, hpc, hhz⟩ := dpQosApply_frame hq
    dsimp only at hr
    split at hr <;> obtain ⟨rfl, rfl⟩ := Prod.mk.inj hr <;>
      exact ⟨⟨rfl, hpol, htc, hpc, hhz⟩, rfl, hact.symm⟩

/-! ## Steps and runs -/

theorem dpStep_frame {context' : DpContext H} {e : DpEvent} {out : List DpOutcome}
    (h : dpStep context e = some (out, context')) : context.Frame context' := by
  cases e with
  | packet mbuf now =>
    obtain ⟨⟨o, c⟩, hproc, hr⟩ := Option.map_eq_some_iff.mp h
    obtain ⟨-, rfl⟩ := Prod.mk.inj hr
    exact (dpProcess_frame hproc).1
  | report now =>
    obtain ⟨-, rfl⟩ := Prod.mk.inj (Option.some.inj h)
    exact ⟨rfl, rfl, rfl, rfl, rfl⟩

theorem dpStep_isSome_iff (h : PoliciesFit context.qos) (e : DpEvent) :
    (dpStep context e).isSome ↔ context.EventInTables e := by
  cases e with
  | packet mbuf now =>
    show (Option.map _ (dpProcess context mbuf now)).isSome ↔ _
    rw [Option.isSome_map]
    exact dpProcess_isSome_iff h mbuf now
  | report now => exact iff_of_true rfl trivial

/-- **A run stays inside the tables exactly when each of its events does.** -/
theorem dpRun_isSome_iff (h : PoliciesFit context.qos) (es : List DpEvent) :
    (dpRun context es).isSome ↔ ∀ e ∈ es, context.EventInTables e := by
  induction es generalizing context with
  | nil => exact iff_of_true rfl (by simp)
  | cons e es ih =>
    rw [List.forall_mem_cons, ← dpStep_isSome_iff h, dpRun]
    cases hstep : dpStep context e with
    | none => simp
    | some r =>
      obtain ⟨out, context₁⟩ := r
      have hframe := dpStep_frame hstep
      have hrest := ih (hframe.policiesFit h)
      simp only [hframe.eventInTables_iff] at hrest
      rw [← hrest]
      cases hrun : dpRun context₁ es with
      | none => simp [hrun]
      | some r' => simp [hrun]

end TenantQos
