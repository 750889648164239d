import DpdkStudy.TenantQos.Main

/-!
# Tenant isolation

Every tenant has a bucket of its own, so what happens to the packets of one
tenant should not depend on the packets of another (`Isolated`). Two runs
that agree on the packets of a tenant agree on the bucket of this tenant
throughout (`AgreeOn`), and so on what becomes of its packets
(`verdictsOf_eq`).

The one bound `dp_qos_apply` checks is the number of tenants the command
line asks for, which nothing compares with the number of buckets there are.
A rule for a tenant between the two makes the loop leave its tables, and
isolation holds exactly in the runs without a packet of such a rule
(`isolated_iff`).
-/

open List

namespace TenantQos

variable {H : RteHash}

variable {tenantId : UInt32} {c c' c₁ : DpContext H}

/-! ## The packets of one tenant -/

/-- The packet is classified to a rule of the tenant. -/
def OfTenant (context : DpContext H) (tenantId : UInt32) (mbuf : RteMbuf) : Prop :=
  (context.actionOf mbuf).map DpFlowAction.tenantId = some tenantId

instance (context : DpContext H) (tenantId : UInt32) (mbuf : RteMbuf) :
    Decidable (OfTenant context tenantId mbuf) :=
  inferInstanceAs (Decidable (_ = _))

/-- The event is a packet of the tenant. -/
def EventOfTenant (context : DpContext H) (tenantId : UInt32) : DpEvent → Prop
  | .packet mbuf _ => OfTenant context tenantId mbuf
  | .report _ => False

instance (context : DpContext H) (tenantId : UInt32) :
    DecidablePred (EventOfTenant context tenantId)
  | .packet mbuf _ => inferInstanceAs (Decidable (OfTenant context tenantId mbuf))
  | .report _ => inferInstanceAs (Decidable False)

/-- What became of the packets of a tenant, in order. -/
def verdictsOf (tenantId : UInt32) (out : List DpOutcome) : List DpVerdict :=
  (out.filter (fun o => o.action.map DpFlowAction.tenantId = some tenantId)).map
    DpOutcome.verdict

theorem verdictsOf_append (tenantId : UInt32) (out out' : List DpOutcome) :
    verdictsOf tenantId (out ++ out') = verdictsOf tenantId out ++ verdictsOf tenantId out' := by
  unfold verdictsOf
  rw [filter_append, map_append]

/-- A burst with the packets of one tenant only. -/
def DpBurst.onlyTenant (context : DpContext H) (tenantId : UInt32) (b : DpBurst) : DpBurst where
  pkts := b.pkts.filter (fun p => OfTenant context tenantId p.1)
  reportTsc := b.reportTsc
  fits := le_trans (List.length_filter_le _ _) b.fits

/-- **The loop is safe and keeps tenants apart**: it never indexes past a
table, and the packets of a tenant fare the same whether or not the packets
of the others come between them. -/
structure Isolated (context : DpContext H) (bursts : List DpBurst) : Prop where
  bounded : (dpLcoreMain context bursts).isSome
  isolated : ∀ tenantId : UInt32,
    (dpLcoreMain context bursts).map (fun r => verdictsOf tenantId r.1)
      = (dpLcoreMain context (bursts.map (DpBurst.onlyTenant context tenantId))).map
          (fun r => verdictsOf tenantId r.1)

/-! ## Two contexts that agree on a tenant -/

/-- **The contexts agree on a tenant**: they agree on what the loop never
changes and on the bucket of the tenant. -/
structure AgreeOn (tenantId : UInt32) (c c' : DpContext H) : Prop where
  frame : c.Frame c'
  bucket : ∀ h : tenantId.toNat < dpMaxTenants,
    c'.qos.tenants ⟨tenantId.toNat, h⟩ = c.qos.tenants ⟨tenantId.toNat, h⟩

theorem AgreeOn.refl (tenantId : UInt32) (c : DpContext H) : AgreeOn tenantId c c :=
  ⟨DpContext.Frame.refl c, fun _ => rfl⟩

/-- The policies give the same rates in two contexts that agree. -/
theorem AgreeOn.policyRate (h : AgreeOn tenantId c c') (policyId : UInt32) :
    c'.qos.policyRate policyId = c.qos.policyRate policyId := by
  unfold DpQos.policyRate
  rw [h.frame.policyCount, h.frame.policies]

/-- A packet of another tenant leaves the bucket alone. -/
theorem agreeOn_of_other {mbuf : RteMbuf} {now : UInt64} {o : DpOutcome}
    (h : dpProcess c mbuf now = some (o, c₁)) (hother : ¬ OfTenant c tenantId mbuf) :
    AgreeOn tenantId c c₁ := by
  refine ⟨(dpProcess_frame h).1, fun ht => ?_⟩
  rcases dpProcess_cases c mbuf now with ⟨hact, reason, hproc⟩ | ⟨key, action, hact, hproc⟩
  · rw [hproc] at h
    obtain ⟨-, rfl⟩ := Prod.mk.inj (Option.some.inj h)
    rfl
  · have hne : action.tenantId ≠ tenantId := by
      intro heq
      refine hother ?_
      unfold OfTenant
      rw [hact, ← heq]
      rfl
    rw [hproc] at h
    obtain ⟨⟨ret, q'⟩, hq, hr⟩ := Option.map_eq_some_iff.mp h
    have hqos : c₁.qos = q' := by
      dsimp only at hr
      split at hr <;> obtain ⟨-, rfl⟩ := Prod.mk.inj hr <;> rfl
    rw [hqos]
    rcases dpQosApply_cases hq with ⟨-, -, rfl⟩ | ⟨ht', pr, -, -, -, rfl⟩
    · rfl
    · refine Function.update_of_ne (fun heq => hne ?_) _ _
      exact UInt32.toNat_inj.mp (congrArg Fin.val heq).symm

/-- **A packet of the tenant fares the same in two contexts that agree on
it**, and they go on agreeing. -/
theorem agreeOn_of_same {c₁' : DpContext H} {mbuf : RteMbuf} {now : UInt64} {o o' : DpOutcome}
    (hagree : AgreeOn tenantId c c') (h : dpProcess c mbuf now = some (o, c₁))
    (h' : dpProcess c' mbuf now = some (o', c₁')) (hsame : OfTenant c tenantId mbuf) :
    o' = o ∧ AgreeOn tenantId c₁ c₁' := by
  obtain ⟨action, hact, htenant⟩ := Option.map_eq_some_iff.mp hsame
  have hact' : c'.actionOf mbuf = some action := by rw [hagree.frame.actionOf, hact]
  have hframe : c₁.Frame c₁' := by
    have h₁ := (dpProcess_frame h).1
    have h₂ := (dpProcess_frame h').1
    have hc := hagree.frame
    exact ⟨h₂.classifier.trans (hc.classifier.trans h₁.classifier.symm),
      h₂.policies.trans (hc.policies.trans h₁.policies.symm),
      h₂.tenantCount.trans (hc.tenantCount.trans h₁.tenantCount.symm),
      h₂.policyCount.trans (hc.policyCount.trans h₁.policyCount.symm),
      h₂.tscHz.trans (hc.tscHz.trans h₁.tscHz.symm)⟩
  rcases dpProcess_cases c mbuf now with ⟨hnone, -⟩ | ⟨key, a, ha, hproc⟩
  · rw [hact] at hnone
    cases hnone
  obtain rfl : action = a := Option.some.inj (hact.symm.trans ha)
  rcases dpProcess_cases c' mbuf now with ⟨hnone, -⟩ | ⟨key', a', ha', hproc'⟩
  · rw [hact'] at hnone
    cases hnone
  obtain rfl : action = a' := Option.some.inj (hact'.symm.trans ha')
  rw [hproc] at h
  rw [hproc'] at h'
  obtain ⟨⟨ret, q⟩, hq, hr⟩ := Option.map_eq_some_iff.mp h
  obtain ⟨⟨ret', q'⟩, hq', hr'⟩ := Option.map_eq_some_iff.mp h'
  -- the two calls start from the same bucket, at the same rate
  have hcalls : ret' = ret ∧ ∀ ht : tenantId.toNat < dpMaxTenants,
      q'.tenants ⟨tenantId.toNat, ht⟩ = q.tenants ⟨tenantId.toNat, ht⟩ := by
    subst htenant
    rcases dpQosApply_cases hq with ⟨hc, rfl, rfl⟩ | ⟨ht, pr, hlt, hpr, rfl, rfl⟩ <;>
      rcases dpQosApply_cases hq' with ⟨hc', rfl, rfl⟩ | ⟨ht', pr', hlt', hpr', rfl, rfl⟩
    · exact ⟨rfl, hagree.bucket⟩
    · rw [hagree.frame.tenantCount] at hlt'
      exact absurd hlt' (UInt32.not_lt.mpr hc)
    · rw [hagree.frame.tenantCount] at hc'
      exact absurd hlt (UInt32.not_lt.mpr hc')
    · obtain rfl : pr' = pr := by
        rw [hagree.policyRate, hpr] at hpr'
        exact (Option.some.inj hpr').symm
      rw [hagree.bucket ht, hagree.frame.tscHz]
      refine ⟨rfl, fun _ => ?_⟩
      simp only [Function.update_self]
  obtain ⟨rfl, hbucket⟩ := hcalls
  dsimp only at hr hr'
  split at hr
  · next hne =>
    rw [if_pos hne] at hr'
    obtain ⟨rfl, rfl⟩ := Prod.mk.inj hr
    obtain ⟨rfl, rfl⟩ := Prod.mk.inj hr'
    exact ⟨rfl, hframe, hbucket⟩
  · next hne =>
    rw [if_neg hne] at hr'
    obtain ⟨rfl, rfl⟩ := Prod.mk.inj hr
    obtain ⟨rfl, rfl⟩ := Prod.mk.inj hr'
    exact ⟨rfl, hframe, hbucket⟩

/-! ## Two runs that agree on a tenant -/

theorem DpContext.Frame.eventOfTenant_iff (h : c.Frame c') (tenantId : UInt32) (e : DpEvent) :
    EventOfTenant c' tenantId e ↔ EventOfTenant c tenantId e := by
  cases e with
  | packet mbuf now =>
    show OfTenant c' tenantId mbuf ↔ OfTenant c tenantId mbuf
    unfold OfTenant
    rw [h.actionOf]
  | report now => exact Iff.rfl

/-- What a step shows of a tenant: nothing unless it is a packet of the
tenant. -/
theorem verdictsOf_dpStep {e : DpEvent} {out : List DpOutcome} (h : dpStep c e = some (out, c₁))
    (he : ¬ EventOfTenant c tenantId e) :
    verdictsOf tenantId out = [] ∧ AgreeOn tenantId c c₁ := by
  cases e with
  | packet mbuf now =>
    obtain ⟨⟨o, c₂⟩, hproc, hr⟩ := Option.map_eq_some_iff.mp h
    obtain ⟨rfl, rfl⟩ := Prod.mk.inj hr
    refine ⟨?_, agreeOn_of_other hproc he⟩
    have hact : o.action.map DpFlowAction.tenantId ≠ some tenantId := by
      rw [(dpProcess_frame hproc).2.2]
      exact he
    unfold verdictsOf
    rw [filter_cons_of_neg (by simpa using hact)]
    rfl
  | report now =>
    obtain ⟨rfl, rfl⟩ := Prod.mk.inj (Option.some.inj h)
    exact ⟨rfl, ⟨rfl, rfl, rfl, rfl, rfl⟩, fun _ => rfl⟩

/-- **A run shows of a tenant what the run of its packets alone shows.** The
first run takes the packets as they come, the second skips all others; the
contexts agree on the tenant all along. -/
theorem verdictsOf_filter {es : List DpEvent} {out : List DpOutcome} (hfit : PoliciesFit c.qos)
    (hagree : AgreeOn tenantId c' c) (h : dpRun c es = some (out, c₁)) :
    ∃ out' c₁', dpRun c' (es.filter (EventOfTenant c tenantId)) = some (out', c₁')
      ∧ verdictsOf tenantId out' = verdictsOf tenantId out := by
  induction es generalizing c c' out with
  | nil =>
    obtain ⟨rfl, rfl⟩ := Prod.mk.inj (Option.some.inj h)
    exact ⟨[], c', rfl, rfl⟩
  | cons e es ih =>
    simp only [dpRun, Option.bind_eq_bind, Option.bind_eq_some_iff, Prod.exists] at h
    obtain ⟨o₁, c₂, hstep, o₂, c₃, hrun, h⟩ := h
    obtain ⟨rfl, rfl⟩ := Prod.mk.inj (Option.some.inj h)
    have hframe := dpStep_frame hstep
    have hfilter : es.filter (EventOfTenant c₂ tenantId) = es.filter (EventOfTenant c tenantId) :=
      filter_congr (fun e' _ => by
        rw [decide_eq_decide]
        exact hframe.eventOfTenant_iff tenantId e')
    rw [verdictsOf_append]
    by_cases he : EventOfTenant c tenantId e
    · cases e with
      | report now => cases he
      | packet mbuf now =>
        obtain ⟨⟨o, _⟩, hproc, hr⟩ := Option.map_eq_some_iff.mp hstep
        obtain ⟨rfl, rfl⟩ := Prod.mk.inj hr
        have hin : c'.InTables mbuf := by
          rw [← hagree.frame.inTables_iff]
          exact (dpProcess_isSome_iff hfit mbuf now).mp (Option.isSome_of_eq_some hproc)
        have hfit' : PoliciesFit c'.qos := by
          unfold PoliciesFit
          rw [← hagree.frame.policyCount]
          exact hfit
        obtain ⟨⟨o', c₂'⟩, hproc'⟩ := Option.isSome_iff_exists.mp
          ((dpProcess_isSome_iff hfit' mbuf now).mpr hin)
        have hsame : OfTenant c' tenantId mbuf := by
          have hframe' := hagree.frame.eventOfTenant_iff tenantId (.packet mbuf now)
          exact hframe'.mp he
        obtain ⟨rfl, hagree₂⟩ := agreeOn_of_same hagree hproc' hproc hsame
        obtain ⟨out', c₁', hrun', hout'⟩ := ih (hframe.policiesFit hfit) hagree₂ hrun
        refine ⟨[o] ++ out', c₁', ?_, ?_⟩
        · rw [filter_cons_of_pos (by simpa using he), ← hfilter]
          show (dpStep c' (.packet mbuf now)).bind _ = _
          show ((dpProcess c' mbuf now).map _).bind _ = _
          rw [hproc', Option.map_some, Option.bind_some]
          show (dpRun c₂' _).bind _ = _
          rw [hrun', Option.bind_some]
        · rw [verdictsOf_append, hout']
    · obtain ⟨hnil, hagree₁⟩ := verdictsOf_dpStep hstep he
      have hagree₂ : AgreeOn tenantId c' c₂ :=
        ⟨hagree.frame.trans hagree₁.frame,
          fun ht => (hagree₁.bucket ht).trans (hagree.bucket ht)⟩
      obtain ⟨out', c₁', hrun', hout'⟩ := ih (hframe.policiesFit hfit) hagree₂ hrun
      refine ⟨out', c₁', ?_, ?_⟩
      · rw [filter_cons_of_neg (by simpa using he), ← hfilter]
        exact hrun'
      · rw [hnil, nil_append, hout']

/-- The packets of a tenant among the events of a burst. -/
theorem filter_events (context : DpContext H) (tenantId : UInt32) (b : DpBurst) :
    b.events.filter (EventOfTenant context tenantId)
      = (b.pkts.filter (fun p => OfTenant context tenantId p.1)).map
          (fun p => DpEvent.packet p.1 p.2) := by
  unfold DpBurst.events
  cases b.pkts with
  | nil => rfl
  | cons p ps =>
    dsimp only
    rw [filter_append, filter_map]
    have hreport : [DpEvent.report b.reportTsc].filter (EventOfTenant context tenantId) = [] := rfl
    rw [hreport, append_nil]
    rfl

/-- The events of a burst stay inside the tables exactly if its packets
do. -/
theorem forall_mem_events_inTables (context : DpContext H) (b : DpBurst) :
    (∀ e ∈ b.events, context.EventInTables e) ↔ ∀ p ∈ b.pkts, context.InTables p.1 := by
  unfold DpBurst.events
  cases b.pkts with
  | nil => simp
  | cons p ps =>
    constructor
    · exact fun h p' hp' => h (.packet p'.1 p'.2)
        (mem_append_left _ (mem_map_of_mem hp'))
    · intro h e he
      rcases mem_append.mp he with he | he
      · obtain ⟨p', hp', rfl⟩ := mem_map.mp he
        exact h p' hp'
      · obtain rfl := mem_singleton.mp he
        trivial

/-- The loop stays inside its tables exactly when its packets do. -/
theorem dpLcoreMain_isSome_iff {context : DpContext H} (h : PoliciesFit context.qos)
    (bursts : List DpBurst) :
    (dpLcoreMain context bursts).isSome
      ↔ ∀ b ∈ bursts, ∀ p ∈ b.pkts, context.InTables p.1 := by
  unfold dpLcoreMain
  rw [dpRun_isSome_iff h]
  simp only [mem_flatMap, forall_exists_index, and_imp]
  constructor
  · intro hall b hb
    exact (forall_mem_events_inTables context b).mp (fun e he => hall e b hb he)
  · intro hall e b hb he
    exact (forall_mem_events_inTables context b).mpr (hall b hb) e he

/-- **When tenants are isolated.** Whatever command line, rules file and
bursts the program is given, the loop stays inside its tables and keeps the
tenants apart exactly if no packet is classified to a tenant below the
configured number that has no bucket. -/
theorem isolated_iff {argv : List String} {context : DpContext H}
    (hstart : DpStarts argv context) (bursts : List DpBurst) :
    Isolated context bursts ↔ ∀ b ∈ bursts, ∀ p ∈ b.pkts, context.InTables p.1 := by
  have hfit := (DpContext.fresh_of_dpStarts hstart).1
  constructor
  · exact fun h => (dpLcoreMain_isSome_iff hfit bursts).mp h.bounded
  · intro hin
    have hsome := (dpLcoreMain_isSome_iff hfit bursts).mpr hin
    refine ⟨hsome, fun tenantId => ?_⟩
    have hin' : ∀ b ∈ bursts.map (DpBurst.onlyTenant context tenantId), ∀ p ∈ b.pkts,
        context.InTables p.1 := by
      intro b hb p hp
      obtain ⟨b', hb', rfl⟩ := mem_map.mp hb
      exact hin b' hb' p (mem_of_mem_filter hp)
    have hsome' := (dpLcoreMain_isSome_iff hfit _).mpr hin'
    obtain ⟨⟨out, c⟩, hrun⟩ := Option.isSome_iff_exists.mp hsome
    obtain ⟨⟨out', c'⟩, hrun'⟩ := Option.isSome_iff_exists.mp hsome'
    -- both runs show what the packets of the tenant alone show
    have hevents : ((bursts.map (DpBurst.onlyTenant context tenantId)).flatMap
          DpBurst.events).filter (EventOfTenant context tenantId)
        = (bursts.flatMap DpBurst.events).filter (EventOfTenant context tenantId) := by
      rw [filter_flatMap, filter_flatMap, flatMap_map]
      refine flatMap_congr (fun b _ => ?_)
      rw [filter_events, filter_events]
      show ((b.pkts.filter _).filter _).map _ = _
      rw [filter_filter]
      simp
    obtain ⟨o₁, c₁, h₁, hv₁⟩ := verdictsOf_filter hfit (AgreeOn.refl tenantId context) hrun
    obtain ⟨o₂, c₂, h₂, hv₂⟩ := verdictsOf_filter hfit (AgreeOn.refl tenantId context) hrun'
    rw [hevents, h₁] at h₂
    obtain ⟨rfl, rfl⟩ := Prod.mk.inj (Option.some.inj h₂)
    rw [hrun, hrun', Option.map_some, Option.map_some, ← hv₁, hv₂]

/-- A UDP packet of a source port. -/
def udpPacket (port : UInt8) : RteMbuf :=
  ⟨Function.update (RteMbuf.udpMem 0x45 0) 35 port, 42, 42⟩

/-- One burst of packets of the given ports, a thousand ticks apart. -/
def udpBurst (ports : List UInt8) (h : ports.length ≤ dpRxBurst) : DpBurst where
  pkts := ports.zipIdx.map (fun p => (udpPacket p.1, UInt64.ofNat (1000 * (p.2 + 1))))
  reportTsc := 100000
  fits := by simpa using h

/-- One port and enough memory. -/
def smallEal : DpEal := ⟨[0], true, true⟩

/-- The context of a command line and a rules file on `smallEal`, at one
tick per nanosecond. -/
def smallContext (argv : List String) (rules : String) : Option (DpContext RteHash.inOrder) := do
  let config ← dpConfigParse 1000000000 argv
  let fresh ← dpContextInit smallEal config
  some (dpCliLoadRules fresh (some rules.toList)).2

/-- The contexts of `smallContext` are contexts the program starts with. -/
theorem dpStarts_smallContext {argv : List String} {rules : String}
    {context : DpContext RteHash.inOrder} (h : smallContext argv rules = some context) :
    DpStarts argv context := by
  simp only [smallContext, Option.bind_eq_bind, Option.bind_eq_some_iff] at h
  obtain ⟨config, hconfig, fresh, hfresh, h⟩ := h
  obtain rfl := Option.some.inj h
  exact ⟨1000000000, config, smallEal, fresh, rules.toList, hconfig, hfresh, rfl⟩

/-- Two tenants with a flow each. -/
def twoTenantRules : String := "0.0.0.0,0.0.0.0,1,0,17,0,0,0\n0.0.0.0,0.0.0.0,2,0,17,1,0,0\n"

/-- The context of `twoTenantRules` under the defaults. -/
def twoTenants : DpContext RteHash.inOrder :=
  (smallContext [] twoTenantRules).get (by decide)

/-- Packets of two tenants by turns, in a program started with the
defaults. -/
theorem isolated_twoTenants : Isolated twoTenants [udpBurst [1, 2, 1, 2] (by decide)] := by
  have hstart : DpStarts [] twoTenants := dpStarts_smallContext (Option.some_get _).symm
  refine (isolated_iff hstart _).mpr (fun b hb p hp action hact _ => ?_)
  obtain rfl := mem_singleton.mp hb
  have hall : ∀ p ∈ (udpBurst [1, 2, 1, 2] (by decide)).pkts,
      ((twoTenants.actionOf p.1).map (fun a => a.tenantId.toNat)).getD 0 < dpMaxTenants := by
    decide
  have hlt := hall p hp
  rw [hact] at hlt
  exact hlt

/-- A program started with `--tenants 5000`, and a rule for tenant 4096. -/
def manyTenants : DpContext RteHash.inOrder :=
  (smallContext ["--tenants", "5000"] "0.0.0.0,0.0.0.0,1,0,17,4096,0,0\n").get (by decide)

/-- **The bound is the wrong one.** With `--tenants 5000` accepted, the first
packet of tenant 4096 makes the loop index past the buckets. -/
theorem isolated_fails_past_buckets :
    DpStarts ["--tenants", "5000"] manyTenants
      ∧ manyTenants.actionOf (udpPacket 1) = some ⟨4096, 0, 0⟩
      ∧ dpQosApply manyTenants.qos ⟨4096, 0, 0⟩ 42 1000 = none
      ∧ ¬ Isolated manyTenants [udpBurst [1] (by decide)] := by
  have hstart : DpStarts ["--tenants", "5000"] manyTenants :=
    dpStarts_smallContext (Option.some_get _).symm
  refine ⟨hstart, by decide, ?_, fun h => absurd h.bounded (by decide)⟩
  exact Option.not_isSome_iff_eq_none.mp (by decide)

end TenantQos
