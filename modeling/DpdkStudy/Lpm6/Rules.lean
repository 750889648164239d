import DpdkStudy.Lpm6.Lpm6
import Mathlib.Data.List.Nodup

/-!
# The rules of the IPv6 LPM table

The rules that an LPM object holds are a table of prefixes (`RulesShow`): the
hash table has one rule for each of them. Adding a rule and deleting one do to
the table what they say (`ruleAdd_spec`, `ruleDelete_spec`), and the search for
a less specific rule finds the longest match of the prefix among the shorter
ones (`ruleFindLessSpecific_spec`): it masks the address one bit more at every
step, which is masking it to the depth it has come to.
-/

open List

namespace Lpm6

open Net Prefix

/-- The key of a rule. -/
def key (r : RteLpm6Rule) : RteIpv6Addr × UInt8 := (r.ip, r.depth)

/-- **The rules are those of a table of prefixes.** -/
structure RulesShow (lpm : RteLpm6) (M : Table ℕ) : Prop where
  once : (lpm.rulesTbl.map key).Nodup
  shows : ∀ d p v, M d p = some v ↔
    ∃ r ∈ lpm.rulesTbl, r.depth.toNat = d ∧ r.ip.toNat = p ∧ r.nextHop.toNat = v
  depth : ∀ r ∈ lpm.rulesTbl, (1 ≤ r.depth.toNat ∧ r.depth.toNat ≤ 128)
    ∧ trunc 128 r.depth.toNat r.ip.toNat = r.ip.toNat
  used : lpm.usedRules.toNat = lpm.rulesTbl.length
  usedLe : lpm.usedRules.toNat ≤ lpm.maxRules.toNat

/-- The tables are those of another object. -/
structure SameTables (lpm lpm' : RteLpm6) : Prop where
  maxRules : lpm'.maxRules = lpm.maxRules
  numberTbl8s : lpm'.numberTbl8s = lpm.numberTbl8s
  tbl24 : lpm'.tbl24 = lpm.tbl24
  tbl8Pool : lpm'.tbl8Pool = lpm.tbl8Pool
  tbl8PoolPos : lpm'.tbl8PoolPos = lpm.tbl8PoolPos
  tbl8Hdrs : lpm'.tbl8Hdrs = lpm.tbl8Hdrs
  tbl8 : lpm'.tbl8 = lpm.tbl8

theorem SameTables.refl (lpm : RteLpm6) : SameTables lpm lpm := ⟨rfl, rfl, rfl, rfl, rfl, rfl, rfl⟩

theorem SameTables.trans {lpm lpm' lpm'' : RteLpm6} (h : SameTables lpm lpm')
    (h' : SameTables lpm' lpm'') : SameTables lpm lpm'' where
  maxRules := h'.maxRules.trans h.maxRules
  numberTbl8s := h'.numberTbl8s.trans h.numberTbl8s
  tbl24 := h'.tbl24.trans h.tbl24
  tbl8Pool := h'.tbl8Pool.trans h.tbl8Pool
  tbl8PoolPos := h'.tbl8PoolPos.trans h.tbl8PoolPos
  tbl8Hdrs := h'.tbl8Hdrs.trans h.tbl8Hdrs
  tbl8 := h'.tbl8.trans h.tbl8

theorem SameTables.entry {lpm lpm' : RteLpm6} (h : SameTables lpm lpm') :
    lpm'.entry = lpm.entry := by
  funext tbl i
  cases tbl with
  | none => exact congrFun h.tbl24 i
  | some t => exact congrFun h.tbl8 (t * 256 + i)

theorem RulesShow.congr {lpm lpm' : RteLpm6} {M : Table ℕ} (h : RulesShow lpm M)
    (hrules : lpm'.rulesTbl = lpm.rulesTbl) (hused : lpm'.usedRules = lpm.usedRules)
    (hmax : lpm'.maxRules = lpm.maxRules) : RulesShow lpm' M where
  once := by
    rw [hrules]
    exact h.once
  shows := by
    rw [hrules]
    exact h.shows
  depth := by
    rw [hrules]
    exact h.depth
  used := by
    rw [hrules, hused]
    exact h.used
  usedLe := by
    rw [hused, hmax]
    exact h.usedLe

section

variable {lpm : RteLpm6} {M : Table ℕ}

/-- The prefixes of the table are those of its rules. -/
theorem RulesShow.wf (h : RulesShow lpm M) {d p v : ℕ} (hM : M d p = some v) :
    (1 ≤ d ∧ d ≤ 128) ∧ trunc 128 d p = p ∧ p < 2 ^ 128 := by
  obtain ⟨r, hr, rfl, rfl, -⟩ := (h.shows d p v).mp hM
  exact ⟨(h.depth r hr).1, (h.depth r hr).2, r.ip.toNat_lt⟩

theorem RulesShow.eq_of_key (h : RulesShow lpm M) {r r' : RteLpm6Rule} (hr : r ∈ lpm.rulesTbl)
    (hr' : r' ∈ lpm.rulesTbl) (hkey : key r = key r') : r = r' :=
  inj_on_of_nodup_map h.once hr hr' hkey

theorem ruleFind_eq_some (h : RulesShow lpm M) {ip : RteIpv6Addr} {depth : UInt8}
    {nextHop : UInt32} :
    ruleFind lpm ip depth = some nextHop ↔ ⟨ip, depth, nextHop⟩ ∈ lpm.rulesTbl := by
  unfold ruleFind
  constructor
  · intro hfind
    obtain ⟨r, hr, rfl⟩ := Option.map_eq_some_iff.mp hfind
    have hmem := mem_of_find?_eq_some hr
    have hkey : r.HasKey ip depth := by simpa using find?_some hr
    obtain ⟨rfl, rfl⟩ := hkey
    exact hmem
  · intro hmem
    cases hfind : lpm.rulesTbl.find? (fun r => r.HasKey ip depth) with
    | none =>
      have hnot := find?_eq_none.mp hfind _ hmem
      exact absurd (decide_eq_true (show RteLpm6Rule.HasKey ip depth ⟨ip, depth, nextHop⟩ from
        ⟨rfl, rfl⟩)) hnot
    | some r =>
      have hkey : r.HasKey ip depth := by simpa using find?_some hfind
      have heq := h.eq_of_key (mem_of_find?_eq_some hfind) hmem (Prod.ext hkey.1 hkey.2)
      rw [heq]
      rfl

theorem ruleFind_map (h : RulesShow lpm M) (ip : RteIpv6Addr) (depth : UInt8) :
    (ruleFind lpm ip depth).map UInt32.toNat = M depth.toNat ip.toNat := by
  cases hM : M depth.toNat ip.toNat with
  | some v =>
    obtain ⟨r, hr, hd, hip, rfl⟩ := (h.shows _ _ _).mp hM
    obtain rfl := UInt8.toNat_inj.mp hd
    obtain rfl := RteIpv6Addr.toNat_inj hip
    rw [(ruleFind_eq_some h).mpr hr]
    rfl
  | none =>
    cases hfind : ruleFind lpm ip depth with
    | none => rfl
    | some nextHop =>
      have hsome := (h.shows _ _ _).mpr ⟨_, (ruleFind_eq_some h).mp hfind, rfl, rfl, rfl⟩
      rw [hM] at hsome
      cases hsome

theorem ruleFind_isSome (h : RulesShow lpm M) (ip : RteIpv6Addr) (depth : UInt8) :
    (ruleFind lpm ip depth).isSome = (M depth.toNat ip.toNat).isSome := by
  rw [← ruleFind_map h ip depth]
  simp

/-! ## Adding a rule -/

theorem mem_hashAdd {rules : List RteLpm6Rule} {ip : RteIpv6Addr} {depth : UInt8}
    {nextHop : UInt32} {r : RteLpm6Rule} :
    r ∈ hashAdd rules ip depth nextHop
      ↔ r = ⟨ip, depth, nextHop⟩ ∨ (r ∈ rules ∧ ¬ r.HasKey ip depth) := by
  unfold hashAdd
  split
  · next hany =>
    obtain ⟨r₀, hr₀, hkey₀⟩ := any_eq_true.mp hany
    have hkey₀ : r₀.HasKey ip depth := of_decide_eq_true hkey₀
    rw [mem_map]
    constructor
    · rintro ⟨s, hs, rfl⟩
      by_cases hkey : s.HasKey ip depth
      · obtain ⟨rfl, rfl⟩ := hkey
        simp [RteLpm6Rule.HasKey]
      · rw [if_neg hkey]
        exact Or.inr ⟨hs, hkey⟩
    · rintro (rfl | ⟨hr, hkey⟩)
      · refine ⟨r₀, hr₀, ?_⟩
        rw [if_pos hkey₀, ← hkey₀.1, ← hkey₀.2]
      · exact ⟨r, hr, if_neg hkey⟩
  · next hany =>
    have hnot : ∀ s ∈ rules, ¬ s.HasKey ip depth := fun s hs hkey =>
      hany (any_eq_true.mpr ⟨s, hs, decide_eq_true hkey⟩)
    rw [mem_append, mem_singleton]
    constructor
    · rintro (hr | rfl)
      · exact Or.inr ⟨hr, hnot r hr⟩
      · exact Or.inl rfl
    · rintro (rfl | ⟨hr, -⟩)
      · exact Or.inr rfl
      · exact Or.inl hr

theorem map_key_hashAdd (rules : List RteLpm6Rule) (ip : RteIpv6Addr) (depth : UInt8)
    (nextHop : UInt32) :
    (hashAdd rules ip depth nextHop).map key
      = if rules.any (fun r => r.HasKey ip depth) then rules.map key
        else rules.map key ++ [(ip, depth)] := by
  unfold hashAdd
  split
  · rw [map_map]
    refine map_congr_left (fun r _ => ?_)
    by_cases hkey : r.HasKey ip depth
    · simp [hkey, key]
    · simp [hkey]
  · rw [map_append]
    rfl

theorem any_hasKey (h : RulesShow lpm M) (ip : RteIpv6Addr) (depth : UInt8) :
    lpm.rulesTbl.any (fun r => r.HasKey ip depth) = (M depth.toNat ip.toNat).isSome := by
  rw [← ruleFind_isSome h ip depth, ruleFind, Option.isSome_map, Bool.eq_iff_iff]
  simp

/-- The rules of some keys are counted: a store adds one if its key is new. -/
theorem countP_hashAdd (h : RulesShow lpm M) (q : RteIpv6Addr × UInt8 → Bool) (ip : RteIpv6Addr)
    (depth : UInt8) (nextHop : UInt32) :
    (hashAdd lpm.rulesTbl ip depth nextHop).countP (fun r => q (key r))
      = lpm.rulesTbl.countP (fun r => q (key r))
        + if (M depth.toNat ip.toNat).isNone ∧ q (ip, depth) then 1 else 0 := by
  have hmap : ∀ rules : List RteLpm6Rule,
      rules.countP (fun r => q (key r)) = (rules.map key).countP q := fun rules =>
    countP_map.symm
  rw [hmap, hmap, map_key_hashAdd, any_hasKey h]
  cases hM : M depth.toNat ip.toNat with
  | some v => simp
  | none =>
    by_cases hq : q (ip, depth) = true
    · simp [hq]
    · simp [hq]

/-- **What `rule_add` does**: it adds the prefix, unless that takes one more
rule than there is room for. -/
theorem ruleAdd_spec (h : RulesShow lpm M) {ip : RteIpv6Addr} {depth : UInt8}
    (nextHop : UInt32) (hdepth : 1 ≤ depth.toNat ∧ depth.toNat ≤ 128)
    (hip : trunc 128 depth.toNat ip.toNat = ip.toNat) :
    (M depth.toNat ip.toNat = none ∧ ruleAdd lpm ip depth nextHop = (-enospc, lpm))
    ∨ ∃ lpm', ruleAdd lpm ip depth nextHop
          = (if (M depth.toNat ip.toNat).isNone then 1 else 0, lpm')
        ∧ RulesShow lpm' (M.insert depth.toNat ip.toNat nextHop.toNat)
        ∧ lpm'.rulesTbl = hashAdd lpm.rulesTbl ip depth nextHop
        ∧ SameTables lpm lpm' := by
  have hshows : ∀ d p v, (M.insert depth.toNat ip.toNat nextHop.toNat) d p = some v ↔
      ∃ r ∈ hashAdd lpm.rulesTbl ip depth nextHop,
        r.depth.toNat = d ∧ r.ip.toNat = p ∧ r.nextHop.toNat = v := by
    intro d p v
    by_cases heq : d = depth.toNat ∧ p = ip.toNat
    · obtain ⟨rfl, rfl⟩ := heq
      rw [Table.insert_self]
      constructor
      · intro hv
        exact ⟨_, mem_hashAdd.mpr (Or.inl rfl), rfl, rfl, Option.some.inj hv⟩
      · rintro ⟨r, hr, hd, hp, rfl⟩
        rcases mem_hashAdd.mp hr with rfl | ⟨-, hkey⟩
        · rfl
        · exact absurd ⟨RteIpv6Addr.toNat_inj hp, UInt8.toNat_inj.mp hd⟩ hkey
    · rw [show (M.insert depth.toNat ip.toNat nextHop.toNat) d p = M d p from if_neg heq,
        h.shows d p v]
      constructor
      · rintro ⟨r, hr, rfl, rfl, rfl⟩
        refine ⟨r, mem_hashAdd.mpr (Or.inr ⟨hr, fun hkey => heq ?_⟩), rfl, rfl, rfl⟩
        rw [hkey.1, hkey.2]
        exact ⟨rfl, rfl⟩
      · rintro ⟨r, hr, rfl, rfl, rfl⟩
        rcases mem_hashAdd.mp hr with rfl | ⟨hr, -⟩
        · exact absurd ⟨rfl, rfl⟩ heq
        · exact ⟨r, hr, rfl, rfl, rfl⟩
  have hwf : ∀ r ∈ hashAdd lpm.rulesTbl ip depth nextHop,
      (1 ≤ r.depth.toNat ∧ r.depth.toNat ≤ 128)
        ∧ trunc 128 r.depth.toNat r.ip.toNat = r.ip.toNat := by
    intro r hr
    rcases mem_hashAdd.mp hr with rfl | ⟨hr, -⟩
    · exact ⟨hdepth, hip⟩
    · exact h.depth r hr
  have hlen := congrArg length (map_key_hashAdd lpm.rulesTbl ip depth nextHop)
  have honce := map_key_hashAdd lpm.rulesTbl ip depth nextHop
  rw [any_hasKey h] at honce hlen
  rw [length_map] at hlen
  unfold ruleAdd
  dsimp only
  rw [ruleFind_isSome h]
  cases hM : M depth.toNat ip.toNat with
  | some v =>
    right
    rw [hM] at honce hlen
    refine ⟨{ lpm with rulesTbl := hashAdd lpm.rulesTbl ip depth nextHop }, rfl,
      ⟨?_, hshows, hwf, ?_, h.usedLe⟩, rfl, ⟨rfl, rfl, rfl, rfl, rfl, rfl, rfl⟩⟩
    · show ((hashAdd lpm.rulesTbl ip depth nextHop).map key).Nodup
      rw [honce]
      exact h.once
    · show lpm.usedRules.toNat = (hashAdd lpm.rulesTbl ip depth nextHop).length
      rw [hlen]
      exact h.used.trans (length_map ..).symm
  | none =>
    by_cases hfull : lpm.usedRules = lpm.maxRules
    · left
      exact ⟨rfl, by simp [hfull]⟩
    · right
      rw [hM] at honce hlen
      have hroom : lpm.usedRules.toNat < lpm.maxRules.toNat :=
        Nat.lt_of_le_of_ne h.usedLe (fun heq => hfull (UInt32.toNat_inj.mp heq))
      have hmax := lpm.maxRules.toNat_lt
      have hsucc : (lpm.usedRules + 1).toNat = lpm.usedRules.toNat + 1 := by
        rw [UInt32.toNat_add]
        exact Nat.mod_eq_of_lt (by
          show lpm.usedRules.toNat + 1 < 2 ^ 32
          omega)
      refine ⟨{ lpm with
          rulesTbl := hashAdd lpm.rulesTbl ip depth nextHop
          usedRules := lpm.usedRules + 1 }, by simp [hfull],
        ⟨?_, hshows, hwf, ?_, ?_⟩, rfl, ⟨rfl, rfl, rfl, rfl, rfl, rfl, rfl⟩⟩
      · show ((hashAdd lpm.rulesTbl ip depth nextHop).map key).Nodup
        rw [honce]
        refine nodup_append.mpr ⟨h.once, nodup_singleton _, fun k hk k' hk' heq => ?_⟩
        obtain rfl := mem_singleton.mp hk'
        subst heq
        obtain ⟨r, hr, hkey⟩ := mem_map.mp hk
        have hany : lpm.rulesTbl.any (fun r => r.HasKey ip depth) = true :=
          any_eq_true.mpr ⟨r, hr, decide_eq_true (Prod.mk.inj hkey)⟩
        rw [any_hasKey h, hM] at hany
        cases hany
      · show (lpm.usedRules + 1).toNat = (hashAdd lpm.rulesTbl ip depth nextHop).length
        rw [hsucc, hlen, h.used]
        simp
      · show (lpm.usedRules + 1).toNat ≤ lpm.maxRules.toNat
        omega

/-! ## Deleting a rule -/

/-- The rules of some keys are counted: a deletion takes one off if its key
counts. -/
theorem countP_filter_key (h : RulesShow lpm M) (q : RteIpv6Addr × UInt8 → Bool)
    {ip : RteIpv6Addr} {depth : UInt8} (hM : (M depth.toNat ip.toNat).isSome) :
    (lpm.rulesTbl.filter (fun r => ¬ r.HasKey ip depth)).countP (fun r => q (key r))
        + (if q (ip, depth) then 1 else 0)
      = lpm.rulesTbl.countP (fun r => q (key r)) := by
  have hone : (lpm.rulesTbl.filter (fun r => r.HasKey ip depth)).countP (fun r => q (key r))
      = if q (ip, depth) then 1 else 0 := by
    rw [← any_hasKey h] at hM
    have honce := h.once
    revert hM honce
    generalize lpm.rulesTbl = rules
    induction rules with
    | nil =>
      intro hM
      cases hM
    | cons r rules ih =>
      intro hM honce
      rw [map_cons, nodup_cons] at honce
      by_cases hkey : r.HasKey ip depth
      · have hnone : rules.filter (fun r => decide (r.HasKey ip depth)) = [] := by
          rw [filter_eq_nil_iff]
          intro s hs hs'
          have hs' : s.HasKey ip depth := of_decide_eq_true hs'
          refine honce.1 (mem_map.mpr ⟨s, hs, ?_⟩)
          rw [key, key, hs'.1, hs'.2, hkey.1, hkey.2]
        rw [filter_cons, if_pos (decide_eq_true hkey), hnone, countP_singleton, key,
          hkey.1, hkey.2]
      · rw [filter_cons, if_neg (by simpa using hkey)]
        refine ih ?_ honce.2
        rw [any_cons, decide_eq_false hkey, Bool.false_or] at hM
        exact hM
  rw [countP_eq_countP_filter_add lpm.rulesTbl _ (fun r => decide (r.HasKey ip depth)), hone,
    Nat.add_comm]
  congr 2
  refine filter_congr (fun r _ => ?_)
  simp

/-- What `rule_delete` does: it removes the prefix. -/
theorem ruleDelete_spec (h : RulesShow lpm M) (ip : RteIpv6Addr) (depth : UInt8) :
    (M depth.toNat ip.toNat = none ∧ ruleDelete lpm ip depth = (-enoent, lpm))
    ∨ ∃ lpm', (M depth.toNat ip.toNat).isSome ∧ ruleDelete lpm ip depth = (0, lpm')
        ∧ RulesShow lpm' (M.erase depth.toNat ip.toNat)
        ∧ lpm'.rulesTbl = lpm.rulesTbl.filter (fun r => ¬ r.HasKey ip depth)
        ∧ SameTables lpm lpm' := by
  unfold ruleDelete
  rw [ruleFind_isSome h]
  cases hM : M depth.toNat ip.toNat with
  | none => exact Or.inl ⟨rfl, rfl⟩
  | some v =>
    right
    have hcount := countP_filter_key h (fun _ => true)
      (show (M depth.toNat ip.toNat).isSome = true by rw [hM]; rfl)
    rw [countP_true, if_pos rfl] at hcount
    have hused := h.used
    have hpred : (lpm.usedRules - 1).toNat = lpm.usedRules.toNat - 1 := by
      refine UInt32.toNat_sub_of_le _ _ (UInt32.le_iff_toNat_le.mpr ?_)
      show 1 ≤ lpm.usedRules.toNat
      omega
    refine ⟨_, rfl, rfl, ⟨?_, fun d p u => ?_, fun r hr => h.depth r (mem_of_mem_filter hr), ?_,
      ?_⟩, rfl, ⟨rfl, rfl, rfl, rfl, rfl, rfl, rfl⟩⟩
    · exact List.Pairwise.sublist ((filter_sublist).map _) h.once
    · by_cases heq : d = depth.toNat ∧ p = ip.toNat
      · obtain ⟨rfl, rfl⟩ := heq
        rw [Table.erase_self]
        refine iff_of_false (fun hc => nomatch hc) ?_
        rintro ⟨r, hr, hd, hp, -⟩
        have hkey := (mem_filter.mp hr).2
        exact of_decide_eq_true hkey ⟨RteIpv6Addr.toNat_inj hp, UInt8.toNat_inj.mp hd⟩
      · rw [show (M.erase depth.toNat ip.toNat) d p = M d p from if_neg heq, h.shows d p u]
        constructor
        · rintro ⟨r, hr, rfl, rfl, rfl⟩
          refine ⟨r, mem_filter.mpr ⟨hr, decide_eq_true (fun hkey => heq ?_)⟩, rfl, rfl, rfl⟩
          rw [hkey.1, hkey.2]
          exact ⟨rfl, rfl⟩
        · rintro ⟨r, hr, hrest⟩
          exact ⟨r, mem_of_mem_filter hr, hrest⟩
    · show (lpm.usedRules - 1).toNat = (lpm.rulesTbl.filter _).length
      rw [hpred, hused, ← hcount, Nat.add_sub_cancel]
    · show (lpm.usedRules - 1).toNat ≤ _
      have hle := h.usedLe
      rw [hpred]
      exact le_trans (Nat.sub_le _ _) hle

/-! ## Less specific rules -/

theorem depthToMask1b_eq {r : ℕ} (h : 1 ≤ r) (h' : r < 8) : depthToMask1b r = byteMask r := by
  interval_cases r <;> rfl

theorem and_byteMask_succ (x : UInt8) {depth : ℕ} (h : depth % 8 ≠ 7) :
    x &&& byteMask (depth + 1) &&& byteMask depth = x &&& byteMask depth := by
  rw [UInt8.and_assoc]
  congr 1
  unfold byteMask
  have hmod : (depth + 1) % 8 = depth % 8 + 1 := by omega
  have hlt : depth % 8 < 7 := by omega
  rw [hmod]
  generalize depth % 8 = r at hlt
  interval_cases r <;> rfl

/-- One step of the search: an address masked to one bit less. -/
theorem mask_step (ip : RteIpv6Addr) {depth : ℕ} (hdepth : depth < 128) :
    (rteIpv6AddrMask ip (depth + 1)).setByte (depth >>> 3)
        ((rteIpv6AddrMask ip (depth + 1)).byte (depth >>> 3)
          &&& if depth &&& 7 > 0 then depthToMask1b (depth &&& 7) else 0)
      = rteIpv6AddrMask ip depth := by
  have hdiv : depth >>> 3 = depth / 8 := Nat.shiftRight_eq_div_pow depth 3
  have hand : depth &&& 7 = depth % 8 := Nat.and_two_pow_sub_one_eq_mod depth 3
  have hmask : (if depth &&& 7 > 0 then depthToMask1b (depth &&& 7) else 0) = byteMask depth := by
    rw [hand]
    split
    · next hpos =>
      rw [depthToMask1b_eq hpos (Nat.mod_lt _ (by decide)), byteMask, byteMask, Nat.mod_mod]
    · next hzero =>
      rw [byteMask, show depth % 8 = 0 by omega]
      rfl
  rw [hmask, hdiv]
  -- the bytes of the address before the step
  have hbefore : ∀ i : Fin 16, (rteIpv6AddrMask ip (depth + 1)).a i
      = if depth + 1 < 128 then
          if i.val < (depth + 1) / 8 then ip.a i
          else if i.val = (depth + 1) / 8 then ip.a i &&& byteMask (depth + 1)
          else 0
        else ip.a i := by
    intro i
    unfold rteIpv6AddrMask
    split <;> rfl
  have hzero : ∀ x : UInt8, depth % 8 = 7 → x &&& byteMask (depth + 1) = 0 := by
    intro x h7
    rw [byteMask, show (depth + 1) % 8 = 0 by omega]
    exact UInt8.and_zero
  have hd : depth / 8 < 16 := by omega
  rw [show rteIpv6AddrMask ip depth = ⟨fun i =>
      if i.val < depth / 8 then ip.a i
      else if i.val = depth / 8 then ip.a i &&& byteMask depth
      else 0⟩ from if_pos hdepth]
  unfold RteIpv6Addr.setByte
  congr 1
  funext i
  have hi := i.isLt
  rw [RteIpv6Addr.byte_of_lt _ hd, hbefore, hbefore]
  dsimp only
  by_cases hlast : depth + 1 < 128
  · rw [if_pos hlast, if_pos hlast]
    by_cases h7 : depth % 8 = 7
    · -- the byte was the last whole one
      rw [if_pos (by omega : depth / 8 < (depth + 1) / 8)]
      by_cases heq : i.val = depth / 8
      · rw [if_pos heq, if_neg (by omega), if_pos heq]
        congr 2
        exact Fin.ext heq.symm
      · rw [if_neg heq]
        by_cases hlt : i.val < depth / 8
        · rw [if_pos (by omega), if_pos hlt]
        · rw [if_neg (by omega), if_neg hlt, if_neg heq, hzero _ h7, ite_self]
    · have hsame : (depth + 1) / 8 = depth / 8 := by omega
      rw [hsame, if_neg (Nat.lt_irrefl _), if_pos rfl, and_byteMask_succ _ h7]
      by_cases heq : i.val = depth / 8
      · rw [if_pos heq, if_neg (by omega), if_pos heq]
        congr 2
        exact Fin.ext heq.symm
      · rw [if_neg heq]
        by_cases hlt : i.val < depth / 8
        · rw [if_pos hlt, if_pos hlt]
        · rw [if_neg hlt, if_neg heq, if_neg hlt, if_neg heq]
  · rw [if_neg hlast, if_neg hlast]
    have h127 : depth = 127 := by omega
    subst h127
    by_cases heq : i.val = 127 / 8
    · rw [if_pos heq, if_neg (by omega), if_pos heq]
      congr 2
      exact Fin.ext heq.symm
    · rw [if_neg heq, if_pos (by omega)]

/-- **The less specific rule** is the longest match of the prefix among the
shorter ones. -/
theorem ruleFindLessSpecific_spec (h : RulesShow lpm M) (ip : RteIpv6Addr) {depth : ℕ}
    (hdepth : depth ≤ 128) :
    (ruleFindLessSpecific lpm depth (rteIpv6AddrMask ip depth)).map
        (fun r => (r.1, r.2.toNat))
      = longest 128 M ip.toNat depth := by
  induction depth with
  | zero => rfl
  | succ depth ih =>
    unfold ruleFindLessSpecific
    by_cases hzero : depth = 0
    · subst hzero
      rw [if_pos rfl]
      refine (longest_eq_none.mpr (fun e he => ?_)).symm
      cases hM : M e (trunc 128 e ip.toNat) with
      | none => rfl
      | some v => exact absurd (h.wf hM).1.1 (by omega)
    · rw [if_neg hzero]
      dsimp only
      rw [mask_step ip (by omega)]
      have hnat : (UInt8.ofNat depth).toNat = depth :=
        UInt8.toNat_ofNat_of_lt' (by show depth < 256; omega)
      have hfind := ruleFind_map h (rteIpv6AddrMask ip depth) (UInt8.ofNat depth)
      rw [hnat, toNat_mask ip (by omega)] at hfind
      cases hrule : ruleFind lpm (rteIpv6AddrMask ip depth) (UInt8.ofNat depth) with
      | some nextHop =>
        rw [hrule] at hfind
        exact (longest_succ_of_some hfind.symm).symm
      | none =>
        rw [hrule] at hfind
        rw [longest_succ_of_none hfind.symm]
        exact ih (by omega)

end

end Lpm6
