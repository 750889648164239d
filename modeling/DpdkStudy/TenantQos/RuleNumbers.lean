import DpdkStudy.Lib.CNumbers
import DpdkStudy.TenantQos.RuleLoading
import Mathlib.Data.List.TakeWhile

/-!
# The numbers of a rule line

`dp_parse_rule_line` reads the fields of a line with conversions that cut a number to their
width, and it cuts ports and the protocol once more. So a line is decoded to the numbers
it spells exactly if each of them is in the range of its field (`decoded_iff`).

`gen_rules.py` writes lines whose ports grow with their index, and it is content with a
number of tenants that is not positive. What it has printed is what is loaded exactly
if the ports stay below `2 ^ 16` (`generated_iff`).
-/

open List

namespace TenantQos

open CText

/-! ## What a line spells -/

/-- The octets of an address. -/
abbrev Octets := ℤ × ℤ × ℤ × ℤ

/-- **What a rule line spells.** -/
structure WrittenRule where
  srcIp : Octets
  dstIp : Octets
  srcPort : ℤ
  dstPort : ℤ
  protocol : ℤ
  tenantId : ℤ
  policyId : ℤ
  rateLimitBps : ℤ
deriving DecidableEq

/-- The four octets of an address field, as they are written. -/
def writtenOctets : Scan Octets := do
  let b0 ← scanWritten
  scanChar '.'
  let b1 ← scanWritten
  scanChar '.'
  let b2 ← scanWritten
  scanChar '.'
  let b3 ← scanWritten
  return (b0, b1, b2, b3)

/-- The eight fields of a rule line, as they are written. -/
def writtenFields : Scan (List Char × List Char × ℤ × ℤ × ℤ × ℤ × ℤ × ℤ) := do
  let srcIp ← scanNot 31 ','
  scanChar ','
  let dstIp ← scanNot 31 ','
  scanChar ','
  let srcPort ← scanWritten
  scanChar ','
  let dstPort ← scanWritten
  scanChar ','
  let proto ← scanWritten
  scanChar ','
  let tenant ← scanWritten
  scanChar ','
  let policy ← scanWritten
  scanChar ','
  let rate ← scanWritten
  return (srcIp, dstIp, srcPort, dstPort, proto, tenant, policy, rate)

/-- **What a line spells**, if it is a rule. -/
def writtenRule (line : List Char) : Option WrittenRule := do
  let (srcIp, dstIp, srcPort, dstPort, proto, tenant, policy, rate) ←
    writtenFields.run' (cString line)
  let srcIp ← writtenOctets.run' srcIp
  let dstIp ← writtenOctets.run' dstIp
  return ⟨srcIp, dstIp, srcPort, dstPort, proto, tenant, policy, rate⟩

/-! ## What is stored -/

/-- The address of octets that are written, in network order. -/
def storedAddress (o : Octets) : UInt32 :=
  rteCpuToBe32
    (((uLongOf o.1).toUInt8.toUInt32 <<< 24) ||| ((uLongOf o.2.1).toUInt8.toUInt32 <<< 16)
      ||| ((uLongOf o.2.2.1).toUInt8.toUInt32 <<< 8) ||| (uLongOf o.2.2.2).toUInt8.toUInt32)

/-- The rule that is stored for a line. -/
def WrittenRule.stored (w : WrittenRule) : DpRule :=
  (⟨storedAddress w.srcIp, storedAddress w.dstIp,
      rteCpuToBe16 (uLongOf w.srcPort).toUInt32.toUInt16,
      rteCpuToBe16 (uLongOf w.dstPort).toUInt32.toUInt16,
      (uLongOf w.protocol).toUInt32.toUInt8⟩,
    ⟨(uLongOf w.tenantId).toUInt32, (uLongOf w.policyId).toUInt32, uLongOf w.rateLimitBps⟩)

/-- An address field is stored as it is written, and cut. -/
theorem dpParseAddress_eq (field : List Char) :
    dpParseAddress field = (writtenOctets.run' field).map storedAddress := by
  have hoctets : (do
      let b0 ← scanULong
      scanChar '.'
      let b1 ← scanULong
      scanChar '.'
      let b2 ← scanULong
      scanChar '.'
      let b3 ← scanULong
      return (b0.toUInt8, b1.toUInt8, b2.toUInt8, b3.toUInt8) : Scan _) =
      (fun o => ((uLongOf o.1).toUInt8, (uLongOf o.2.1).toUInt8, (uLongOf o.2.2.1).toUInt8,
        (uLongOf o.2.2.2).toUInt8)) <$> writtenOctets := by
    rw [writtenOctets]
    simp only [scanULong_eq, bind_map_left, map_bind, map_pure]
  rw [dpParseAddress]
  simp only [hoctets, run_map]
  cases writtenOctets.run' field <;> rfl

theorem dpParseRuleLine_eq (line : List Char) :
    dpParseRuleLine line = (writtenRule line).map WrittenRule.stored := by
  have hfields : dpScanRule = (fun f => (f.1, f.2.1, (uLongOf f.2.2.1).toUInt32,
      (uLongOf f.2.2.2.1).toUInt32, (uLongOf f.2.2.2.2.1).toUInt32,
      (uLongOf f.2.2.2.2.2.1).toUInt32, (uLongOf f.2.2.2.2.2.2.1).toUInt32,
      uLongOf f.2.2.2.2.2.2.2)) <$> writtenFields := by
    rw [dpScanRule, writtenFields]
    simp only [scanULong_eq, bind_map_left, map_bind, map_pure]
  rw [dpParseRuleLine, writtenRule, hfields, run_map]
  cases writtenFields.run' (cString line) with
  | none => rfl
  | some f =>
    simp only [Option.map_some, Option.bind_eq_bind, Option.bind_some, dpParseAddress_eq]
    cases writtenOctets.run' f.1 with
    | none => rfl
    | some src =>
      simp only [Option.map_some, Option.bind_some]
      cases writtenOctets.run' f.2.1 <;> rfl

/-! ## When what is stored is what is written -/

/-- The octets of an address that is stored, in host order. -/
def storedOctets (ip : UInt32) : Octets :=
  let v := rteCpuToBe32 ip
  ((v >>> 24).toUInt8.toNat, (v >>> 16).toUInt8.toNat, (v >>> 8).toUInt8.toNat,
    v.toUInt8.toNat)

/-- **A rule holds the numbers that are written**, each in host order. -/
structure Decoded (rule : DpRule) (w : WrittenRule) : Prop where
  srcIp : storedOctets rule.1.srcIp = w.srcIp
  dstIp : storedOctets rule.1.dstIp = w.dstIp
  srcPort : (rteCpuToBe16 rule.1.srcPort).toNat = w.srcPort
  dstPort : (rteCpuToBe16 rule.1.dstPort).toNat = w.dstPort
  protocol : rule.1.protocol.toNat = w.protocol
  tenantId : rule.2.tenantId.toNat = w.tenantId
  policyId : rule.2.policyId.toNat = w.policyId
  rateLimitBps : rule.2.rateLimitBps.toNat = w.rateLimitBps

/-- A number fits so many bits. -/
def Fits (bits : ℕ) (z : ℤ) : Prop := 0 ≤ z ∧ z < 2 ^ bits

/-- Each octet of an address is an octet. -/
def OctetsFit (o : Octets) : Prop := Fits 8 o.1 ∧ Fits 8 o.2.1 ∧ Fits 8 o.2.2.1 ∧ Fits 8 o.2.2.2

/-- **Each number that is written fits its field.** -/
structure InRange (w : WrittenRule) : Prop where
  srcIp : OctetsFit w.srcIp
  dstIp : OctetsFit w.dstIp
  srcPort : Fits 16 w.srcPort
  dstPort : Fits 16 w.dstPort
  protocol : Fits 8 w.protocol
  tenantId : Fits 32 w.tenantId
  policyId : Fits 32 w.policyId
  rateLimitBps : Fits 64 w.rateLimitBps

theorem fits_iff {bits : ℕ} (hbits : bits ≤ 64) {z : ℤ} {n : ℕ}
    (hn : n = (uLongOf z).toNat % 2 ^ bits) : (n : ℤ) = z ↔ Fits bits z := by
  rw [hn, uLongOf_mod_eq_iff (Nat.two_pow_pos bits) (Nat.pow_le_pow_right Nat.two_pos hbits),
    Fits]
  push_cast
  rfl

theorem rteCpuToBe16_swap (x : UInt16) : rteCpuToBe16 (rteCpuToBe16 x) = x := by
  rw [← UInt16.toBitVec_inj]
  ext i hi
  interval_cases i <;> simp [rteCpuToBe16]

theorem rteCpuToBe32_swap (x : UInt32) : rteCpuToBe32 (rteCpuToBe32 x) = x := by
  rw [← UInt32.toBitVec_inj]
  ext i hi
  interval_cases i <;> simp [rteCpuToBe32]

/-- The bytes of an address that is put together. -/
theorem bytes_of_or (b0 b1 b2 b3 : UInt8) :
    let v := (b0.toUInt32 <<< 24) ||| (b1.toUInt32 <<< 16) ||| (b2.toUInt32 <<< 8) ||| b3.toUInt32
    (v >>> 24).toUInt8 = b0 ∧ (v >>> 16).toUInt8 = b1 ∧ (v >>> 8).toUInt8 = b2 ∧ v.toUInt8 = b3 := by
  refine ⟨?_, ?_, ?_, ?_⟩ <;> rw [← UInt8.toBitVec_inj] <;> ext i hi <;> interval_cases i <;>
    simp

/-- **An address is stored as it is written** exactly if its octets are octets. -/
theorem storedOctets_eq_iff (o : Octets) :
    storedOctets (storedAddress o) = o ↔ OctetsFit o := by
  obtain ⟨o0, o1, o2, o3⟩ := o
  obtain ⟨h0, h1, h2, h3⟩ := bytes_of_or (uLongOf o0).toUInt8 (uLongOf o1).toUInt8
    (uLongOf o2).toUInt8 (uLongOf o3).toUInt8
  simp only [storedOctets, storedAddress, rteCpuToBe32_swap, h0, h1, h2, h3, Prod.mk.injEq,
    OctetsFit]
  refine and_congr ?_ (and_congr ?_ (and_congr ?_ ?_)) <;>
    exact fits_iff (by decide) (UInt64.toNat_toUInt8 _)

/-- **A line is decoded to the numbers it spells** exactly if each of them is in range. -/
theorem decoded_stored_iff (w : WrittenRule) : Decoded w.stored w ↔ InRange w := by
  have hport : ∀ z, (((rteCpuToBe16 (rteCpuToBe16 (uLongOf z).toUInt32.toUInt16)).toNat : ℕ) : ℤ)
      = z ↔ Fits 16 z := by
    intro z
    refine fits_iff (by decide) ?_
    rw [rteCpuToBe16_swap, UInt32.toNat_toUInt16, UInt64.toNat_toUInt32,
      Nat.mod_mod_of_dvd _ (by decide)]
  have hproto : ∀ z, (((uLongOf z).toUInt32.toUInt8.toNat : ℕ) : ℤ) = z ↔ Fits 8 z := by
    intro z
    refine fits_iff (by decide) ?_
    rw [UInt32.toNat_toUInt8, UInt64.toNat_toUInt32, Nat.mod_mod_of_dvd _ (by decide)]
  have hid : ∀ z, (((uLongOf z).toUInt32.toNat : ℕ) : ℤ) = z ↔ Fits 32 z := fun z =>
    fits_iff (by decide) (UInt64.toNat_toUInt32 _)
  have hrate : ∀ z, (((uLongOf z).toNat : ℕ) : ℤ) = z ↔ Fits 64 z := fun z =>
    fits_iff le_rfl (Nat.mod_eq_of_lt (uLongOf z).toNat_lt).symm
  constructor
  · intro h
    exact ⟨(storedOctets_eq_iff _).mp h.srcIp, (storedOctets_eq_iff _).mp h.dstIp,
      (hport _).mp h.srcPort, (hport _).mp h.dstPort, (hproto _).mp h.protocol,
      (hid _).mp h.tenantId, (hid _).mp h.policyId, (hrate _).mp h.rateLimitBps⟩
  · intro h
    exact ⟨(storedOctets_eq_iff _).mpr h.srcIp, (storedOctets_eq_iff _).mpr h.dstIp,
      (hport _).mpr h.srcPort, (hport _).mpr h.dstPort, (hproto _).mpr h.protocol,
      (hid _).mpr h.tenantId, (hid _).mpr h.policyId, (hrate _).mpr h.rateLimitBps⟩

/-- **A line that is accepted** spells a rule, and is decoded to it exactly if each number is in
range. -/
theorem decoded_iff {line : List Char} {rule : DpRule} (h : dpParseRuleLine line = some rule) :
    ∃ w, writtenRule line = some w ∧ (Decoded rule w ↔ InRange w) := by
  rw [dpParseRuleLine_eq] at h
  obtain ⟨w, hw, rfl⟩ := Option.map_eq_some_iff.mp h
  exact ⟨w, hw, decoded_stored_iff w⟩

/-! ## The generator -/

/-- The octets of an `IPv4Address`. -/
def octetsOf (a : ℕ) : Octets :=
  (Nat.cast (a / 2 ^ 24), Nat.cast (a / 2 ^ 16 % 256), Nat.cast (a / 2 ^ 8 % 256),
    Nat.cast (a % 256))

/-- `str` of an `IPv4Address`. -/
def dotted (a : ℕ) : List Char :=
  let o := octetsOf a
  decimal o.1 ++ '.' :: (decimal o.2.1 ++ '.' :: (decimal o.2.2.1 ++ '.' :: decimal o.2.2.2))

/-- **What the loop of the generator prints for an index**, and nothing where it raises: past
the last address, and where there are no tenants. The protocol is drawn. -/
structure GenTuple where
  src_ip : ℕ
  dst_ip : ℕ
  src_port : ℤ
  dst_port : ℤ
  proto : ℤ
  tenant : ℤ
  policy : ℤ
  rate : ℤ

/-- `int(ipaddress.ip_address("10.0.0.1"))`. -/
def baseSrc : ℕ := 10 * 2 ^ 24 + 1

/-- `int(ipaddress.ip_address("10.1.0.1"))`. -/
def baseDst : ℕ := 10 * 2 ^ 24 + 2 ^ 16 + 1

/-- One turn of the loop of `main`. -/
def genTuple (tenants : ℤ) (choice : ℕ → Bool) (i : ℕ) : Option GenTuple :=
  if 2 ^ 32 ≤ baseSrc + i then none
  else if 2 ^ 32 ≤ baseDst + i then none
  else if tenants = 0 then none
  else some
    { src_ip := baseSrc + i
      dst_ip := baseDst + i
      src_port := 10000 + i
      dst_port := 20000 + i
      proto := if choice i then 6 else 17
      tenant := Int.fmod i tenants
      policy := Int.fmod i (tenants * 4)
      rate := max 100000000 (Int.fdiv 1000000000 (max tenants 1)) }

/-- The fields of the line that is printed. -/
def GenTuple.fields (g : GenTuple) : List Char :=
  dotted g.src_ip ++ ',' :: (dotted g.dst_ip ++ ',' :: (decimal g.src_port ++
    ',' :: (decimal g.dst_port ++ ',' :: (decimal g.proto ++ ',' :: (decimal g.tenant ++
    ',' :: (decimal g.policy ++ ',' :: decimal g.rate))))))

/-- The line that is printed. -/
def GenTuple.line (g : GenTuple) : List Char := g.fields ++ ['\n']

/-- The comment in front. -/
def genHeader : List Char :=
  "# src_ip,dst_ip,src_port,dst_port,proto,tenant_id,policy_id,rate_bps\n".toList

/-- The tuples of the turns from `i` on, up to the first that raises. -/
def genFrom (tenants : ℤ) (choice : ℕ → Bool) : ℕ → ℕ → List GenTuple
  | 0, _ => []
  | n + 1, i =>
    match genTuple tenants choice i with
    | none => []
    | some g => g :: genFrom tenants choice n (i + 1)

/-- **What the generator prints**, as tuples. -/
def genTuples (rules tenants : ℤ) (choice : ℕ → Bool) : List GenTuple :=
  genFrom tenants choice rules.toNat 0

/-- **The file that `gen_rules.py` writes.** -/
def genRules (rules tenants : ℤ) (choice : ℕ → Bool) : List Char :=
  genHeader ++ (genTuples rules tenants choice).flatMap GenTuple.line

/-- A tuple, as it is written. -/
def GenTuple.written (g : GenTuple) : WrittenRule where
  srcIp := octetsOf g.src_ip
  dstIp := octetsOf g.dst_ip
  srcPort := g.src_port
  dstPort := g.dst_port
  protocol := g.proto
  tenantId := g.tenant
  policyId := g.policy
  rateLimitBps := g.rate

theorem noDigit_cons {c : Char} (h : digitVal 10 c = none) (s : List Char) : NoDigit (c :: s) := by
  intro c' hc'
  obtain rfl := Option.some.inj hc'
  exact h

theorem writtenOctets_dotted (a : ℕ) : writtenOctets.run' (dotted a) = some (octetsOf a) := by
  have hdot : ∀ s, NoDigit ('.' :: s) := noDigit_cons (by decide)
  have hend := scanWritten_bind (fun b3 => (pure ((octetsOf a).1, (octetsOf a).2.1,
    (octetsOf a).2.2.1, b3) : Scan Octets)) (octetsOf a).2.2.2 (show NoDigit [] from nofun)
  rw [append_nil] at hend
  have hrun : writtenOctets (dotted a) = some (octetsOf a, []) := by
    rw [writtenOctets, dotted]
    simp only [scanWritten_bind _ _ (hdot _), scanChar_bind]
    exact hend
  change (writtenOctets (dotted a)).map Prod.fst = _
  rw [hrun]
  rfl

theorem mem_dotted {a : ℕ} {c : Char} (h : c ∈ dotted a) : c = '-' ∨ c.isDigit ∨ c = '.' := by
  simp only [dotted, mem_append, mem_cons] at h
  have hdec : ∀ z, c ∈ decimal z → c = '-' ∨ c.isDigit ∨ c = '.' := fun z hz =>
    (mem_decimal hz).imp_right Or.inl
  rcases h with h | h | h | h | h | h | h
  · exact hdec _ h
  · exact Or.inr (Or.inr h)
  · exact hdec _ h
  · exact Or.inr (Or.inr h)
  · exact hdec _ h
  · exact Or.inr (Or.inr h)
  · exact hdec _ h

theorem octetsOf_fit {a : ℕ} (h : a < 2 ^ 32) : OctetsFit (octetsOf a) := by
  refine ⟨?_, ?_, ?_, ?_⟩ <;> simp only [Fits, octetsOf] <;> omega

theorem length_dotted_le {a : ℕ} (h : a < 2 ^ 32) : (dotted a).length ≤ 15 := by
  have hlen : ∀ z, Fits 8 z → (decimal z).length ≤ 3 := fun z hz =>
    length_decimal_le (by decide) hz.1 (hz.2.trans (by decide))
  obtain ⟨h0, h1, h2, h3⟩ := octetsOf_fit h
  have := hlen _ h0
  have := hlen _ h1
  have := hlen _ h2
  have := hlen _ h3
  simp only [dotted, length_append, length_cons]
  omega

theorem GenTuple.mem_fields {g : GenTuple} {c : Char} (h : c ∈ g.fields) :
    c = '-' ∨ c.isDigit ∨ c = '.' ∨ c = ',' := by
  have hdec : ∀ z, c ∈ decimal z → c = '-' ∨ c.isDigit ∨ c = '.' ∨ c = ',' := fun z hz =>
    (mem_decimal hz).imp_right Or.inl
  have hdot : ∀ a, c ∈ dotted a → c = '-' ∨ c.isDigit ∨ c = '.' ∨ c = ',' := fun a ha =>
    (mem_dotted ha).imp_right (Or.imp_right Or.inl)
  have hcomma : c = ',' → c = '-' ∨ c.isDigit ∨ c = '.' ∨ c = ',' := fun hc =>
    Or.inr (Or.inr (Or.inr hc))
  simp only [fields, mem_append, mem_cons] at h
  rcases h with h | h | h | h | h | h | h | h | h | h | h | h | h | h | h
  all_goals first | exact hcomma h | exact hdec _ h | exact hdot _ h

theorem GenTuple.writtenRule_line {g : GenTuple} (hsrc : g.src_ip < 2 ^ 32)
    (hdst : g.dst_ip < 2 ^ 32) : writtenRule g.line = some g.written := by
  have hnul : ∀ c ∈ g.line, c.toNat ≠ 0 := by
    intro c hc
    rcases mem_append.mp hc with hc | hc
    · rcases mem_fields hc with rfl | hdigit | rfl | rfl
      · decide
      · rintro h0
        rw [show c = Char.ofNat 0 from Char.toNat_inj.mp h0] at hdigit
        exact absurd hdigit (by decide)
      · decide
      · decide
    · obtain rfl := mem_singleton.mp hc
      decide
  have hstring : cString g.line = g.line := by
    exact takeWhile_eq_self_iff.mpr fun c hc => decide_eq_true (hnul c hc)
  have hcomma : ∀ s, NoDigit (',' :: s) := noDigit_cons (by decide)
  have hnl : ∀ s, NoDigit ('\n' :: s) := noDigit_cons (by decide)
  have hne : ∀ a, dotted a ≠ [] := by
    intro a
    simp [dotted]
  have hnot : ∀ a, ',' ∉ dotted a := by
    intro a ha
    rcases mem_dotted ha with h | h | h <;> exact absurd h (by decide)
  have hfields : writtenFields.run' g.line = some (dotted g.src_ip, dotted g.dst_ip, g.src_port,
      g.dst_port, g.proto, g.tenant, g.policy, g.rate) := by
    have hrun : writtenFields g.line = some ((dotted g.src_ip, dotted g.dst_ip, g.src_port,
        g.dst_port, g.proto, g.tenant, g.policy, g.rate), ['\n']) := by
      rw [writtenFields, line, fields]
      simp only [append_assoc, cons_append]
      rw [scanNot_bind _ (hne _) ((length_dotted_le hsrc).trans (by decide)) (hnot _),
        scanChar_bind, scanNot_bind _ (hne _) ((length_dotted_le hdst).trans (by decide)) (hnot _),
        scanChar_bind]
      simp only [scanWritten_bind _ _ (hcomma _), scanChar_bind, scanWritten_bind _ _ (hnl _)]
      rfl
    change (writtenFields g.line).map Prod.fst = _
    rw [hrun]
    rfl
  rw [writtenRule, hstring, hfields]
  simp only [Option.bind_eq_bind, Option.bind_some, writtenOctets_dotted]
  rfl

theorem GenTuple.ruleOf_line (g : GenTuple) : ruleOf g.line = dpParseRuleLine g.line := by
  have hhead : ∃ c, g.line.head? = some c ∧ (c = '-' ∨ c.isDigit) := by
    obtain ⟨d, cs, -, hcs⟩ := exists_toDigits_cons (octetsOf g.src_ip).1.natAbs
    obtain ⟨c, t, hc⟩ : ∃ c t, decimal (octetsOf g.src_ip).1 = c :: t := by
      refine exists_cons_of_ne_nil ?_
      simp [decimal]
    refine ⟨c, ?_, mem_decimal (hc ▸ mem_cons_self)⟩
    simp only [line, fields, dotted, hc, cons_append, head?_cons]
  obtain ⟨c, hc, hdec⟩ := hhead
  refine if_neg ?_
  rw [hc]
  rintro (h | h) <;> obtain rfl := Option.some.inj h <;> exact absurd hdec (by decide)

/-! ## The turns of the generator -/

theorem genTuple_eq_some {tenants : ℤ} {choice : ℕ → Bool} {i : ℕ} {g : GenTuple}
    (h : genTuple tenants choice i = some g) :
    tenants ≠ 0 ∧ g.src_ip = baseSrc + i ∧ g.src_ip < 2 ^ 32 ∧ g.dst_ip = baseDst + i ∧
      g.dst_ip < 2 ^ 32 ∧ g.src_port = 10000 + i ∧ g.dst_port = 20000 + i ∧
      (g.proto = 6 ∨ g.proto = 17) ∧ g.tenant = Int.fmod i tenants ∧
      g.policy = Int.fmod i (tenants * 4) ∧ 0 ≤ g.rate ∧ g.rate ≤ 1000000000 := by
  simp only [genTuple] at h
  rw [ite_eq_iff, ite_eq_iff, ite_eq_iff] at h
  simp only [reduceCtorEq, and_false, false_or] at h
  obtain ⟨hsrc, hdst, htenants, hg⟩ := h
  obtain rfl := Option.some.inj hg
  refine ⟨htenants, rfl, not_le.mp hsrc, rfl, not_le.mp hdst, rfl, rfl, ?_, rfl, rfl, ?_, ?_⟩
  · change (if choice i then (6 : ℤ) else 17) = 6 ∨ _ = (17 : ℤ)
    cases choice i
    · exact Or.inr rfl
    · exact Or.inl rfl
  · exact le_max_of_le_left (by decide)
  · refine max_le (by decide) ?_
    rw [Int.fdiv_eq_ediv_of_nonneg _ (by omega)]
    exact Int.ediv_le_self _ (by decide)

theorem exists_of_mem_genFrom {tenants : ℤ} {choice : ℕ → Bool} {n i : ℕ} {g : GenTuple}
    (h : g ∈ genFrom tenants choice n i) :
    ∃ j, i ≤ j ∧ j < i + n ∧ genTuple tenants choice j = some g := by
  induction n generalizing i with
  | zero => exact absurd h not_mem_nil
  | succ n ih =>
    rw [genFrom] at h
    cases hg : genTuple tenants choice i with
    | none =>
      rw [hg] at h
      exact absurd h not_mem_nil
    | some g' =>
      rw [hg] at h
      rcases mem_cons.mp h with rfl | h
      · exact ⟨i, le_rfl, by omega, hg⟩
      · obtain ⟨j, hle, hlt, hj⟩ := ih h
        exact ⟨j, by omega, by omega, hj⟩

theorem mem_genFrom {tenants : ℤ} (htenants : tenants ≠ 0) {choice : ℕ → Bool} {n i j : ℕ}
    (hle : i ≤ j) (hlt : j < i + n) (hj : baseDst + j < 2 ^ 32) :
    ∃ g ∈ genFrom tenants choice n i, genTuple tenants choice j = some g := by
  induction n generalizing i with
  | zero => omega
  | succ n ih =>
    have hsrc : ¬ 2 ^ 32 ≤ baseSrc + i := by
      have : baseSrc ≤ baseDst := by decide
      omega
    have hi : ∃ g, genTuple tenants choice i = some g := by
      rw [genTuple, if_neg hsrc, if_neg (by omega), if_neg htenants]
      exact ⟨_, rfl⟩
    obtain ⟨g, hg⟩ := hi
    rw [genFrom, hg]
    rcases hle.eq_or_lt with rfl | hlt'
    · exact ⟨g, mem_cons_self, hg⟩
    · obtain ⟨g', hmem, hg'⟩ := ih hlt' (by omega)
      exact ⟨g', mem_cons_of_mem _ hmem, hg'⟩

/-- **The lines of the generator are loaded as they are printed**: the file is read line by
line, and each line below the comment as the tuple that it was printed for. -/
def GeneratedLoads (rules tenants : ℤ) (choice : ℕ → Bool) : Prop :=
  fgetsAll 256 (genRules rules tenants choice) =
    genHeader :: (genTuples rules tenants choice).map GenTuple.line ∧
  ∀ g ∈ genTuples rules tenants choice, ∃ rule, ruleOf g.line = some rule ∧
    Decoded rule g.written

/-- What is printed is what is read exactly if it is in range. -/
theorem GenTuple.loads_iff {g : GenTuple} (hsrc : g.src_ip < 2 ^ 32) (hdst : g.dst_ip < 2 ^ 32) :
    (∃ rule, ruleOf g.line = some rule ∧ Decoded rule g.written) ↔ InRange g.written := by
  have hrule : ruleOf g.line = some g.written.stored := by
    rw [ruleOf_line, dpParseRuleLine_eq, writtenRule_line hsrc hdst, Option.map_some]
  rw [hrule, ← decoded_stored_iff]
  simp

theorem fgetsAll_genRules {rules tenants : ℤ} {choice : ℕ → Bool}
    (h : ∀ g ∈ genTuples rules tenants choice, InRange g.written ∧ g.src_ip < 2 ^ 32 ∧
      g.dst_ip < 2 ^ 32) :
    fgetsAll 256 (genRules rules tenants choice) =
      genHeader :: (genTuples rules tenants choice).map GenTuple.line := by
  have hlines : fileLines (genRules rules tenants choice) =
      genHeader :: (genTuples rules tenants choice).map GenTuple.line := by
    have hall := @fileLines_flatMap (Option GenTuple) (fun o => o.elim genHeader GenTuple.line)
      (none :: (genTuples rules tenants choice).map some) ?_
    · rw [flatMap_cons, flatMap_map, map_cons, map_map] at hall
      exact hall
    · intro o _
      cases o with
      | none => exact ⟨genHeader.dropLast, by decide, by decide⟩
      | some g =>
        refine ⟨g.fields, fun hmem => ?_, rfl⟩
        exact absurd (GenTuple.mem_fields hmem) (by decide)
  rw [← hlines]
  refine fgetsAll_eq_fileLines (by decide) fun l hl => ?_
  rw [hlines] at hl
  rcases mem_cons.mp hl with rfl | hl
  · decide
  · obtain ⟨g, hg, rfl⟩ := mem_map.mp hl
    obtain ⟨hrange, hsrc, hdst⟩ := h g hg
    have hlen : ∀ (bits : ℕ) (z : ℤ), Fits bits z → bits ≤ 64 → (decimal z).length ≤ 20 := by
      intro bits z hz hbits
      refine length_decimal_le (by decide) hz.1 (hz.2.trans_le ?_)
      exact (pow_le_pow_right₀ (by decide) hbits).trans (by decide)
    have h₁ := length_dotted_le hsrc
    have h₂ := length_dotted_le hdst
    have h₃ := hlen _ _ hrange.srcPort (by decide)
    have h₄ := hlen _ _ hrange.dstPort (by decide)
    have h₅ := hlen _ _ hrange.protocol (by decide)
    have h₆ := hlen _ _ hrange.tenantId (by decide)
    have h₇ := hlen _ _ hrange.policyId (by decide)
    have h₈ := hlen _ _ hrange.rateLimitBps le_rfl
    simp only [GenTuple.written] at h₃ h₄ h₅ h₆ h₇ h₈
    simp only [GenTuple.line, GenTuple.fields, length_append, length_cons,
      length_nil]
    omega

/-- A tuple of positive tenants is in range while the ports are. -/
theorem genTuple_inRange {tenants : ℤ} {choice : ℕ → Bool} {i : ℕ} {g : GenTuple}
    (h : genTuple tenants choice i = some g) (hi : i < 45536)
    (ht : 0 < tenants ∨ i = 0) : InRange g.written := by
  obtain ⟨hne, hsrc, hsrc', hdst, hdst', hsp, hdp, hproto, htenant, hpolicy, hrate, hrate'⟩ :=
    genTuple_eq_some h
  have hmod : ∀ t : ℤ, 0 < t ∨ i = 0 → Fits 32 (Int.fmod i t) := by
    rintro t (ht | rfl)
    · rw [Int.fmod_eq_emod_of_nonneg _ ht.le]
      have h₀ := Int.emod_nonneg i ht.ne'
      have hle : (i : ℤ) % t ≤ i := by
        have hdiv := Int.mul_ediv_add_emod i t
        have := Int.mul_nonneg ht.le (Int.ediv_nonneg (Int.natCast_nonneg i) ht.le)
        omega
      exact ⟨h₀, by omega⟩
    · simp [Fits]
  refine ⟨octetsOf_fit hsrc', octetsOf_fit hdst', ?_, ?_, ?_, ?_, ?_, ?_⟩
  · simp only [GenTuple.written, Fits, hsp]
    omega
  · simp only [GenTuple.written, Fits, hdp]
    omega
  · simp only [GenTuple.written, Fits]
    omega
  · simp only [GenTuple.written, htenant]
    exact hmod _ ht
  · simp only [GenTuple.written, hpolicy]
    exact hmod _ (ht.imp_left fun ht => by omega)
  · simp only [GenTuple.written, Fits]
    omega

/-- **When the generator's lines are loaded as they are printed**: exactly while the
destination port stays below `2 ^ 16`, where there are tenants. -/
theorem generatedLoads_iff (rules tenants : ℤ) (choice : ℕ → Bool) :
    GeneratedLoads rules tenants choice ↔
      tenants = 0 ∨ (0 < tenants ∧ rules ≤ 45536) ∨ (tenants < 0 ∧ rules ≤ 1) := by
  constructor
  · rintro ⟨-, hloads⟩
    by_contra hnot
    -- The turn whose line is loaded as something else.
    obtain ⟨j, hj, hlt, hbad⟩ : ∃ j : ℕ, j ≤ 45536 ∧ (j : ℤ) < rules ∧
        ∀ g, genTuple tenants choice j = some g → ¬ InRange g.written := by
      rcases lt_trichotomy tenants 0 with hneg | hzero | hpos
      · refine ⟨1, by decide, by omega, fun g hg hrange => ?_⟩
        obtain ⟨-, -, -, -, -, -, -, -, -, hpolicy, -⟩ := genTuple_eq_some hg
        have h₀ := hrange.policyId.1
        simp only [GenTuple.written, hpolicy] at h₀
        have hfmod : Int.fmod ((1 : ℕ) : ℤ) (tenants * 4) = 1 + tenants * 4 := by
          have hdvd : ¬ (0 ≤ tenants * 4 ∨ tenants * 4 ∣ ((1 : ℕ) : ℤ)) := by
            rintro (h | ⟨c, hc⟩)
            · omega
            · rw [Int.mul_right_comm] at hc
              omega
          rw [Int.fmod_eq_emod, if_neg hdvd, ← Int.emod_neg,
            Int.emod_eq_of_lt (by decide) (by omega)]
          rfl
        omega
      · exact absurd (Or.inl hzero) hnot
      · refine ⟨45536, le_rfl, by omega, fun g hg hrange => ?_⟩
        obtain ⟨-, -, -, -, -, -, hdp, -⟩ := genTuple_eq_some hg
        have hlt := hrange.dstPort.2
        simp only [GenTuple.written, hdp] at hlt
        omega
    have hne : tenants ≠ 0 := fun h => hnot (Or.inl h)
    obtain ⟨g, hmem, hg⟩ := @mem_genFrom tenants hne choice rules.toNat 0 j (Nat.zero_le _)
      (by omega) (by simp only [baseDst]; omega)
    obtain ⟨-, -, hsrc, -, hdst, -⟩ := genTuple_eq_some hg
    exact hbad g hg ((GenTuple.loads_iff hsrc hdst).mp (hloads g hmem))
  · intro h
    have hall : ∀ g ∈ genTuples rules tenants choice, InRange g.written ∧ g.src_ip < 2 ^ 32 ∧
        g.dst_ip < 2 ^ 32 := by
      intro g hg
      obtain ⟨j, -, hlt, hj⟩ := exists_of_mem_genFrom hg
      obtain ⟨hne, -, hsrc, -, hdst, -⟩ := genTuple_eq_some hj
      exact ⟨genTuple_inRange hj (by omega) (by omega), hsrc, hdst⟩
    refine ⟨fgetsAll_genRules hall, fun g hg => ?_⟩
    obtain ⟨hrange, hsrc, hdst⟩ := hall g hg
    exact (GenTuple.loads_iff hsrc hdst).mpr hrange

/-- **Rule lines decode to the numbers they spell** exactly if these are in range, and the
lines of the generator exactly while its ports are. -/
theorem rule_numbers (line : List Char) (rules tenants : ℤ) (choice : ℕ → Bool) :
    (∀ rule, dpParseRuleLine line = some rule →
      ∃ w, writtenRule line = some w ∧ (Decoded rule w ↔ InRange w)) ∧
    (GeneratedLoads rules tenants choice ↔
      tenants = 0 ∨ (0 < tenants ∧ rules ≤ 45536) ∨ (tenants < 0 ∧ rules ≤ 1)) :=
  ⟨fun _ h => decoded_iff h, generatedLoads_iff rules tenants choice⟩

/-- Three lines for two tenants. -/
theorem rule_numbers_two_tenants :
    (∃ w, writtenRule "10.0.0.1,10.1.0.1,1,2,17,0,0,9".toList = some w ∧
      (Decoded (⟨0x0100000a, 0x0100010a, 0x0100, 0x0200, 17⟩, ⟨0, 0, 9⟩) w ↔ InRange w)) ∧
    GeneratedLoads 3 2 fun _ => true :=
  ⟨(rule_numbers _ 3 2 fun _ => true).1 _ (by decide),
    (rule_numbers [] 3 2 _).2.mpr (Or.inr (Or.inl (by decide)))⟩

/-- **Numbers are cut**: an octet 300 is stored as 44, and with 45537 rules the last line of the
generator, for the destination port 65536, is loaded for the port 0. -/
theorem rule_numbers_are_cut :
    (¬ ∀ line rule, dpParseRuleLine line = some rule →
      ∃ w, writtenRule line = some w ∧ Decoded rule w) ∧
    ¬ GeneratedLoads 45537 8 fun _ => true := by
  refine ⟨fun h => ?_, fun h => ?_⟩
  · obtain ⟨w, hw, hdecoded⟩ := h "10.0.0.300,10.1.0.1,1,2,6,0,0,1".toList
      (⟨0x2c00000a, 0x0100010a, 0x0100, 0x0200, 6⟩, ⟨0, 0, 1⟩) (by decide)
    have hoctets : (writtenRule "10.0.0.300,10.1.0.1,1,2,6,0,0,1".toList).map WrittenRule.srcIp =
        some (10, 0, 0, 300) := by decide
    rw [hw] at hoctets
    have hstored := hdecoded.srcIp
    rw [Option.some.inj hoctets] at hstored
    exact absurd hstored (by decide)
  · exact absurd ((generatedLoads_iff _ _ _).mp h) (by decide)

end TenantQos
