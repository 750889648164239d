import DpdkStudy.TenantQos.Classify
import DpdkStudy.TenantQos.Config
import DpdkStudy.TenantQos.QosTrace
import DpdkStudy.TenantQos.Stats

/-!
# The context of the data plane

What the control plane builds before the first packet: the context
(`dataplane/context.c`) and the rules loaded into it (`controlplane/cli.c`).

A rules file is read line by line through a buffer of 256 characters. A
comment, an empty line and a line that is no rule are passed over; a rule
that the classifier has no room for ends the loading, and the load succeeds
all the same. The rate of a rule is also installed as the rate of its
policy.
-/

namespace TenantQos

open CText

variable (H : RteHash)

/-- **The context** (`struct dp_context`). -/
structure DpContext where
  classifier : DpClassifier H
  qos : DpQos
  stats : DpStats
  /-- `ports`, the first `nb_ports` of them. -/
  ports : List UInt16

variable {H}

/-- What the environment abstraction layer answers to `dp_context_init`. -/
structure DpEal where
  /-- The ports `RTE_ETH_FOREACH_DEV` goes through. -/
  ethDevs : List UInt16
  /-- Whether `rte_pktmbuf_pool_create` succeeds. -/
  mbufPool : Bool
  /-- Whether `rte_zmalloc` succeeds. -/
  zmalloc : Bool

/-- **`dp_context_init`**; no context where it returns `-1`. -/
def dpContextInit (eal : DpEal) (config : DpConfig) : Option (DpContext H) :=
  let ports := eal.ethDevs.filter
    (fun portId => config.portmask &&& ((1 : UInt32) <<< portId.toUInt32) ≠ 0)
  if ports = [] then none
  else if ¬ eal.mbufPool then none
  else do
    let classifier ← dpClassifyInit eal.zmalloc config.maxRules
    some
      { classifier := classifier
        qos := dpQosInit config.tenantCount config.tscHz
        stats := dpStatsInit config.tenantCount config.reportIntervalTsc
        ports := ports }

/-! ## Rules -/

/-- `rte_cpu_to_be_32` on a little-endian host. -/
def rteCpuToBe32 (x : UInt32) : UInt32 :=
  (x <<< 24) ||| ((x &&& (0xff00 : UInt32)) <<< 8) ||| ((x >>> 8) &&& (0xff00 : UInt32))
    ||| (x >>> 24)

/-- An address field: four octets, and what follows them is not looked at. -/
def dpParseAddress (field : List Char) : Option UInt32 := do
  let octets : Scan (UInt8 × UInt8 × UInt8 × UInt8) := do
    let b0 ← scanULong
    scanChar '.'
    let b1 ← scanULong
    scanChar '.'
    let b2 ← scanULong
    scanChar '.'
    let b3 ← scanULong
    return (b0.toUInt8, b1.toUInt8, b2.toUInt8, b3.toUInt8)
  let (b0, b1, b2, b3) ← octets.run' field
  return rteCpuToBe32
    ((b0.toUInt32 <<< 24) ||| (b1.toUInt32 <<< 16) ||| (b2.toUInt32 <<< 8) ||| b3.toUInt32)

/-- The eight fields of a rule line, as the format of `sscanf` reads them. -/
def dpScanRule : Scan (List Char × List Char × UInt32 × UInt32 × UInt32 × UInt32 × UInt32
    × UInt64) := do
  let srcIp ← scanNot 31 ','
  scanChar ','
  let dstIp ← scanNot 31 ','
  scanChar ','
  let srcPort ← scanULong
  scanChar ','
  let dstPort ← scanULong
  scanChar ','
  let proto ← scanULong
  scanChar ','
  let tenant ← scanULong
  scanChar ','
  let policy ← scanULong
  scanChar ','
  let rate ← scanULong
  return (srcIp, dstIp, srcPort.toUInt32, dstPort.toUInt32, proto.toUInt32, tenant.toUInt32,
    policy.toUInt32, rate)

/-- **`dp_parse_rule_line`**: the key and the action of a rule, and nothing
where the line is not one. -/
def dpParseRuleLine (line : List Char) : Option (DpFlowKey × DpFlowAction) := do
  let (srcIp, dstIp, srcPort, dstPort, proto, tenant, policy, rate) ←
    dpScanRule.run' (cString line)
  let srcIp ← dpParseAddress srcIp
  let dstIp ← dpParseAddress dstIp
  return (⟨srcIp, dstIp, rteCpuToBe16 srcPort.toUInt16, rteCpuToBe16 dstPort.toUInt16,
      proto.toUInt8⟩, ⟨tenant, policy, rate⟩)

/-- The loop of `dp_cli_load_rules` over the lines of the file. -/
def dpLoadLines (context : DpContext H) : List (List Char) → DpContext H
  | [] => context
  | line :: lines =>
    if line.head? = some '#' ∨ line.head? = some '\n' then dpLoadLines context lines
    else
      match dpParseRuleLine line with
      | none => dpLoadLines context lines
      | some (key, action) =>
        let (ret, classifier) := dpClassifyAdd context.classifier key action
        if ret ≠ 0 then { context with classifier := classifier }
        else
          dpLoadLines
            { context with
              classifier := classifier
              qos := dpQosUpdatePolicy context.qos action.policyId action.rateLimitBps } lines

/-- **`dp_cli_load_rules`**, of a file that may be missing. -/
def dpCliLoadRules (context : DpContext H) (file : Option (List Char)) : Int × DpContext H :=
  match file with
  | none => (-1, context)
  | some text => (0, dpLoadLines context (fgetsAll 256 text))

/-! ## What the control plane builds -/

/-- **The contexts the program starts with**: those `main` builds from a
command line the configuration accepts, an environment the initialisation
accepts and a rules file that exists. -/
def DpStarts (argv : List String) (context : DpContext H) : Prop :=
  ∃ (tscHz : UInt64) (config : DpConfig) (eal : DpEal) (fresh : DpContext H) (text : List Char),
    dpConfigParse tscHz argv = some config ∧ dpContextInit eal config = some fresh
      ∧ dpCliLoadRules fresh (some text) = (0, context)

/-- The policy count stays within the policy table. -/
def PoliciesFit (q : DpQos) : Prop := q.policyCount.toNat ≤ dpMaxPolicies

theorem policiesFit_dpQosInit (tenantCount : UInt32) (tscHz : UInt64) :
    PoliciesFit (dpQosInit tenantCount tscHz) := Nat.zero_le _

/-- An update of a policy keeps the policy count within the table: the
update checks the identifier it counts. -/
theorem policiesFit_dpQosUpdatePolicy {q : DpQos} (h : PoliciesFit q) (id : UInt32)
    (rate : UInt64) : PoliciesFit (dpQosUpdatePolicy q id rate) := by
  unfold dpQosUpdatePolicy
  split
  · next hid =>
    show (if id ≥ q.policyCount then id + 1 else q.policyCount).toNat ≤ dpMaxPolicies
    split
    · have hlt : id.toNat + 1 < 2 ^ 32 := by
        unfold dpMaxPolicies at hid
        omega
      rw [UInt32.toNat_add]
      show (id.toNat + 1) % 2 ^ 32 ≤ dpMaxPolicies
      rw [Nat.mod_eq_of_lt hlt]
      exact hid
    · exact h
  · exact h

/-- **What loading rules keeps**: the tenants, the statistics and the bound
of the policy table. -/
theorem dpLoadLines_keeps (context : DpContext H) (lines : List (List Char))
    (h : PoliciesFit context.qos) :
    PoliciesFit (dpLoadLines context lines).qos
      ∧ (dpLoadLines context lines).qos.tenants = context.qos.tenants
      ∧ (dpLoadLines context lines).qos.tenantCount = context.qos.tenantCount
      ∧ (dpLoadLines context lines).stats = context.stats := by
  induction lines generalizing context with
  | nil => exact ⟨h, rfl, rfl, rfl⟩
  | cons line lines ih =>
    unfold dpLoadLines
    split
    · exact ih context h
    · split
      · exact ih context h
      · next key action _ =>
        dsimp only
        split
        · exact ⟨h, rfl, rfl, rfl⟩
        · have hnext := ih
            { context with
              classifier := (dpClassifyAdd context.classifier key action).2
              qos := dpQosUpdatePolicy context.qos action.policyId action.rateLimitBps }
            (policiesFit_dpQosUpdatePolicy h action.policyId action.rateLimitBps)
          simpa using hnext

theorem dpContextInit_eq {eal : DpEal} {config : DpConfig} {context : DpContext H}
    (h : dpContextInit eal config = some context) :
    context.qos = dpQosInit config.tenantCount config.tscHz
      ∧ context.stats = dpStatsInit config.tenantCount config.reportIntervalTsc := by
  unfold dpContextInit at h
  dsimp only at h
  split at h
  · cases h
  · split at h
    · cases h
    · obtain ⟨classifier, -, hctx⟩ := Option.bind_eq_some_iff.mp h
      obtain rfl := Option.some.inj hctx
      exact ⟨rfl, rfl⟩

end TenantQos
