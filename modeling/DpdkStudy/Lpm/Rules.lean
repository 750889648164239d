import DpdkStudy.Lib.Prefix
import DpdkStudy.Lpm.Lpm
import Mathlib.Data.List.Nodup
import Mathlib.Data.List.Perm.Basic

/-!
# The rule table

The groups of the rule table lie one behind the other in the array. An
addition makes room by moving the first rule of every deeper group to its
end, and a deletion closes its gap by moving the last rule of every deeper
group to its front: the array moves, and no group loses or gains a rule by
it.

`RulesShow` says that the array holds exactly the rules of a table of
prefixes, and `ruleAdd_spec` and `ruleDelete_spec` that `rule_add` and
`rule_delete` keep it so. The rules of a group are handled as a list, up to
permutation (`rulesIn`).
-/

open Function List

namespace Lpm

open Prefix

variable {tbl : ℕ → RteLpmRule} {info : RteLpmRuleInfo} {d depth f ip j k r u : ℕ}
  {l : List RteLpmRule} {m : ℕ → Option ℕ} {lpm lpm₀ : RteLpm} {M : Table ℕ}

/-! ## One group -/

/-- The rules of a group, in the order of the array. -/
def rulesIn (tbl : ℕ → RteLpmRule) (info : RteLpmRuleInfo) : List RteLpmRule :=
  (List.range' info.firstRule info.usedRules).map tbl

/-- The index belongs to the group. -/
def InGroup (info : RteLpmRuleInfo) (k : ℕ) : Prop :=
  info.firstRule ≤ k ∧ k < info.firstRule + info.usedRules

theorem mem_rulesIn {r : RteLpmRule} :
    r ∈ rulesIn tbl info ↔ ∃ k, InGroup info k ∧ tbl k = r := by
  unfold rulesIn InGroup
  simp only [mem_map, mem_range'_1]

theorem rulesIn_update (h : ¬ InGroup info k) (r : RteLpmRule) :
    rulesIn (update tbl k r) info = rulesIn tbl info := by
  unfold rulesIn
  refine map_congr_left (fun i hi => ?_)
  rw [mem_range'_1] at hi
  refine update_of_ne ?_ _ _
  rintro rfl
  exact h hi

theorem rulesIn_cons (tbl : ℕ → RteLpmRule) (f u : ℕ) :
    rulesIn tbl ⟨u + 1, f⟩ = tbl f :: rulesIn tbl ⟨u, f + 1⟩ := by
  unfold rulesIn
  rw [range'_succ]
  rfl

theorem rulesIn_concat (tbl : ℕ → RteLpmRule) (f u : ℕ) :
    rulesIn tbl ⟨u + 1, f⟩ = rulesIn tbl ⟨u, f⟩ ++ [tbl (f + u)] := by
  unfold rulesIn
  rw [range'_1_concat, map_append]
  rfl

/-- **Making room**: a group whose first rule has moved to its end has the
same rules. -/
theorem rulesIn_moveFirst (tbl : ℕ → RteLpmRule) (hu : 0 < u) :
    (rulesIn (update tbl (f + u) (tbl f)) ⟨u, f + 1⟩).Perm (rulesIn tbl ⟨u, f⟩) := by
  obtain ⟨u, rfl⟩ : ∃ v, u = v + 1 := ⟨u - 1, by omega⟩
  rw [rulesIn_concat, rulesIn_cons, rulesIn_update]
  · rw [show f + 1 + u = f + (u + 1) by omega, update_self]
    exact perm_append_singleton _ _
  · unfold InGroup
    dsimp only
    omega

/-- **Closing a gap**: a group whose last rule has moved to its front has
the same rules. -/
theorem rulesIn_moveLast (tbl : ℕ → RteLpmRule) (hf : 0 < f) (hu : 0 < u) :
    (rulesIn (update tbl (f - 1) (tbl (f + u - 1))) ⟨u, f - 1⟩).Perm
      (rulesIn tbl ⟨u, f⟩) := by
  obtain ⟨u, rfl⟩ : ∃ v, u = v + 1 := ⟨u - 1, by omega⟩
  obtain ⟨f, rfl⟩ : ∃ g, f = g + 1 := ⟨f - 1, by omega⟩
  rw [rulesIn_concat tbl, Nat.add_sub_cancel, rulesIn_cons, update_self, rulesIn_update]
  · rw [show f + 1 + (u + 1) - 1 = f + 1 + u by omega]
    exact (perm_append_singleton _ _).symm
  · unfold InGroup
    dsimp only
    omega

/-- **Deleting a rule**: the last rule takes its place, and the group has
one rule less. -/
theorem rulesIn_deleteAt (tbl : ℕ → RteLpmRule) (hr : InGroup ⟨u, f⟩ r) :
    (tbl r :: rulesIn (update tbl r (tbl (f + u - 1))) ⟨u - 1, f⟩).Perm
      (rulesIn tbl ⟨u, f⟩) := by
  unfold InGroup at hr
  dsimp only at hr
  obtain ⟨u, rfl⟩ : ∃ v, u = v + 1 := ⟨u - 1, by omega⟩
  rw [show f + (u + 1) - 1 = f + u by omega, Nat.add_sub_cancel, rulesIn_concat]
  by_cases hlast : r = f + u
  · -- the deleted rule is the last one
    subst hlast
    rw [update_eq_self]
    exact (perm_append_singleton _ _).symm
  · -- it is one of the others, `a` rules behind the first
    obtain ⟨a, rfl⟩ : ∃ a, r = f + a := ⟨r - f, by omega⟩
    obtain ⟨b, rfl⟩ : ∃ b, u = a + (b + 1) := ⟨u - a - 1, by omega⟩
    have hsplit : ∀ t : ℕ → RteLpmRule, rulesIn t ⟨a + (b + 1), f⟩
        = rulesIn t ⟨a, f⟩ ++ t (f + a) :: rulesIn t ⟨b, f + a + 1⟩ := by
      intro t
      rw [← rulesIn_cons]
      unfold rulesIn
      rw [← map_append, range'_append_1]
    rw [hsplit, hsplit tbl, update_self, rulesIn_update, rulesIn_update]
    · refine perm_middle.symm.trans ?_
      rw [append_assoc, cons_append]
      exact ((perm_append_singleton _ _).symm.cons _).append_left _
    · unfold InGroup
      dsimp only
      omega
    · unfold InGroup
      dsimp only
      omega

/-! ## The rules of a depth -/

/-- **A list of rules holds what a partial map says**: a rule for each
address, with its next hop. -/
structure Holds (l : List RteLpmRule) (m : ℕ → Option ℕ) : Prop where
  distinct : (l.map RteLpmRule.ip).Nodup
  mem_iff : ∀ ip nextHop, m ip = some nextHop ↔ ⟨ip, nextHop⟩ ∈ l

theorem Holds.perm {l' : List RteLpmRule} (h : Holds l m) (hl : l'.Perm l) : Holds l' m where
  distinct := (hl.map _).nodup_iff.mpr h.distinct
  mem_iff ip nextHop := by
    rw [h.mem_iff, hl.mem_iff]

theorem Holds.cons (h : Holds l m) (hip : m ip = none) (nextHop : ℕ) :
    Holds (⟨ip, nextHop⟩ :: l) (update m ip (some nextHop)) := by
  have hnew : ip ∉ l.map RteLpmRule.ip := by
    intro hmem
    obtain ⟨⟨ip', nextHop'⟩, hr, rfl⟩ := mem_map.mp hmem
    rw [(h.mem_iff _ _).mpr hr] at hip
    cases hip
  refine ⟨?_, fun ip' nextHop' => ?_⟩
  · rw [map_cons, nodup_cons]
    exact ⟨hnew, h.distinct⟩
  · rw [mem_cons, RteLpmRule.mk.injEq]
    by_cases heq : ip' = ip
    · subst heq
      rw [update_self]
      constructor
      · intro hv
        exact Or.inl ⟨rfl, (Option.some.inj hv).symm⟩
      · rintro (⟨-, rfl⟩ | hmem)
        · rfl
        · exact absurd (mem_map_of_mem hmem) hnew
    · rw [update_of_ne heq, h.mem_iff]
      exact ⟨Or.inr, fun hor => hor.resolve_left (fun hh => heq hh.1)⟩

theorem Holds.tail {r : RteLpmRule} (h : Holds (r :: l) m) :
    Holds l (update m r.ip none) := by
  have hnodup := h.distinct
  rw [map_cons, nodup_cons] at hnodup
  refine ⟨hnodup.2, fun ip' nextHop' => ?_⟩
  by_cases heq : ip' = r.ip
  · subst heq
    rw [update_self]
    refine iff_of_false (by simp) (fun hmem => hnodup.1 ?_)
    exact mem_map.mpr ⟨_, hmem, rfl⟩
  · rw [update_of_ne heq, h.mem_iff, mem_cons]
    refine ⟨fun hor => hor.resolve_left (fun hh => heq (by rw [← hh])), Or.inr⟩

theorem rulesIn_setHop (h : Holds (rulesIn tbl info) m) (hk : InGroup info k) (nextHop : ℕ) :
    Holds (rulesIn (update tbl k { tbl k with nextHop := nextHop }) info)
      (update m (tbl k).ip (some nextHop)) := by
  set tbl' := update tbl k { tbl k with nextHop := nextHop } with htbl'
  -- the rule is deleted, and added again with its new next hop
  have hold := h.perm (rulesIn_deleteAt tbl hk)
  have hnew := rulesIn_deleteAt tbl' hk
  obtain ⟨used, first⟩ := info
  have hrest : rulesIn (update tbl' k (tbl' (first + used - 1))) ⟨used - 1, first⟩
      = rulesIn (update tbl k (tbl (first + used - 1))) ⟨used - 1, first⟩ := by
    by_cases hlast : k = first + used - 1
    · subst hlast
      rw [rulesIn_update, rulesIn_update, rulesIn_update]
      all_goals
        unfold InGroup
        dsimp only
        omega
    · rw [htbl', update_idem, update_of_ne (Ne.symm hlast)]
  rw [htbl', update_self, ← htbl', hrest] at hnew
  have hgone : update m (tbl k).ip none (tbl k).ip = none := update_self _ _ _
  have hadd := hold.tail.cons hgone nextHop
  rw [update_idem] at hadd
  exact hadd.perm hnew.symm

/-! ## The whole table -/

/-- **The rule table holds a table of prefixes**: each group the rules of its
depth, the groups in the order of their depths and inside the array. -/
structure RulesShow (lpm : RteLpm) (M : Table ℕ) : Prop where
  groups : ∀ d, 1 ≤ d → d ≤ 32 → Holds (rulesIn lpm.rulesTbl (lpm.ruleInfo d)) (M d)
  ordered : ∀ d e, 1 ≤ d → d < e → e ≤ 32 → 0 < (lpm.ruleInfo d).usedRules →
    0 < (lpm.ruleInfo e).usedRules →
      (lpm.ruleInfo d).firstRule + (lpm.ruleInfo d).usedRules ≤ (lpm.ruleInfo e).firstRule
  within : ∀ d, 1 ≤ d → d ≤ 32 → 0 < (lpm.ruleInfo d).usedRules →
    (lpm.ruleInfo d).firstRule + (lpm.ruleInfo d).usedRules ≤ lpm.maxRules

/-- **The two differ in their rule tables only.** -/
structure SameTables (lpm lpm' : RteLpm) : Prop where
  tbl24 : lpm'.tbl24 = lpm.tbl24
  tbl8 : lpm'.tbl8 = lpm.tbl8
  maxRules : lpm'.maxRules = lpm.maxRules
  numberTbl8s : lpm'.numberTbl8s = lpm.numberTbl8s
  rulesAlloc : lpm'.rulesAlloc = lpm.rulesAlloc
  tbl8Alloc : lpm'.tbl8Alloc = lpm.tbl8Alloc

theorem SameTables.refl (lpm : RteLpm) : SameTables lpm lpm := ⟨rfl, rfl, rfl, rfl, rfl, rfl⟩

theorem SameTables.trans {l₁ l₂ l₃ : RteLpm} (h : SameTables l₁ l₂) (h' : SameTables l₂ l₃) :
    SameTables l₁ l₃ :=
  ⟨h'.tbl24.trans h.tbl24, h'.tbl8.trans h.tbl8, h'.maxRules.trans h.maxRules,
    h'.numberTbl8s.trans h.numberTbl8s, h'.rulesAlloc.trans h.rulesAlloc,
    h'.tbl8Alloc.trans h.tbl8Alloc⟩

theorem RulesShow.not_inGroup (h : RulesShow lpm M) {e : ℕ} (hd : 1 ≤ d) (hd' : d ≤ 32) (he : 1 ≤ e)
    (he' : e ≤ 32) (hne : e ≠ d) (hk : InGroup (lpm.ruleInfo d) k) :
    ¬ InGroup (lpm.ruleInfo e) k := by
  intro hk'
  unfold InGroup at hk hk'
  rcases Nat.lt_or_gt_of_ne hne with hlt | hgt
  · have hord := h.ordered e d he hlt hd' (by omega) (by omega)
    omega
  · have hord := h.ordered d e hd hgt he' (by omega) (by omega)
    omega

/-! ## Looking for a rule -/

theorem ruleFind_some (h : RulesShow lpm M) (hd : 1 ≤ depth) (hd' : depth ≤ 32)
    (hk : ruleFind lpm ip depth = some k) :
    InGroup (lpm.ruleInfo depth) k ∧ (lpm.rulesTbl k).ip = ip
      ∧ M depth ip = some (lpm.rulesTbl k).nextHop := by
  have hmem : InGroup (lpm.ruleInfo depth) k := by
    have hr := mem_of_find?_eq_some hk
    rwa [mem_range'_1] at hr
  have hip : (lpm.rulesTbl k).ip = ip := by
    unfold ruleFind at hk
    have hp := find?_some hk
    exact of_decide_eq_true hp
  refine ⟨hmem, hip, ?_⟩
  rw [(h.groups depth hd hd').mem_iff, ← hip]
  exact mem_rulesIn.mpr ⟨k, hmem, rfl⟩

theorem ruleFind_none (h : RulesShow lpm M) (hd : 1 ≤ depth) (hd' : depth ≤ 32)
    (hk : ruleFind lpm ip depth = none) :
    M depth ip = none := by
  cases hM : M depth ip with
  | none => rfl
  | some nextHop =>
    rw [(h.groups depth hd hd').mem_iff] at hM
    obtain ⟨k, hk', hr⟩ := mem_rulesIn.mp hM
    unfold ruleFind at hk
    have hnot := find?_eq_none.mp hk k (mem_range'_1.mpr hk')
    rw [hr] at hnot
    exact absurd (decide_eq_true rfl) hnot

/-- **A rule is found exactly if the table of prefixes has it**, with its
next hop. -/
theorem map_ruleFind (h : RulesShow lpm M) (ip : ℕ) (hd : 1 ≤ depth) (hd' : depth ≤ 32) :
    (ruleFind lpm ip depth).map (fun k => (lpm.rulesTbl k).nextHop) = M depth ip := by
  cases hk : ruleFind lpm ip depth with
  | none => exact (ruleFind_none h hd hd' hk).symm
  | some k => exact (ruleFind_some h hd hd' hk).2.2.symm

/-! ## Adding a rule -/

/-- **The state of the loop that makes room**: the groups deeper than `j`
have moved up by one place, none has gained or lost a rule, and no store has
left the array. -/
structure Shifted (lpm₀ lpm : RteLpm) (M : Table ℕ) (j : ℕ) : Prop where
  same : SameTables lpm₀ lpm
  info : ∀ e, lpm.ruleInfo e
    = if j < e ∧ e ≤ 32 ∧ 0 < (lpm₀.ruleInfo e).usedRules then
        ⟨(lpm₀.ruleInfo e).usedRules, (lpm₀.ruleInfo e).firstRule + 1⟩
      else lpm₀.ruleInfo e
  room : ∀ e, j < e → e ≤ 32 → 0 < (lpm₀.ruleInfo e).usedRules →
    (lpm₀.ruleInfo e).firstRule + (lpm₀.ruleInfo e).usedRules < lpm₀.maxRules
  groups : ∀ d, 1 ≤ d → d ≤ 32 → Holds (rulesIn lpm.rulesTbl (lpm.ruleInfo d)) (M d)

theorem shifted_refl (h : RulesShow lpm M) :
    Shifted lpm lpm M 32 where
  same := SameTables.refl lpm
  info e := by rw [if_neg (by omega)]
  room e he he' := absurd he (by omega)
  groups := h.groups

theorem Shifted.usedRules (h : Shifted lpm₀ lpm M j) (e : ℕ) :
    (lpm.ruleInfo e).usedRules = (lpm₀.ruleInfo e).usedRules := by
  rw [h.info]
  split <;> rfl

theorem Shifted.firstRule (h : Shifted lpm₀ lpm M j) (e : ℕ) :
    (lpm.ruleInfo e).firstRule = (lpm₀.ruleInfo e).firstRule
      + if j < e ∧ e ≤ 32 ∧ 0 < (lpm₀.ruleInfo e).usedRules then 1 else 0 := by
  rw [h.info]
  split <;> rfl

theorem Shifted.info_of_le {e : ℕ} (h : Shifted lpm₀ lpm M j) (he : e ≤ j) :
    lpm.ruleInfo e = lpm₀.ruleInfo e := by
  rw [h.info, if_neg (by omega)]

/-- A table some of whose groups have moved still holds its rules. -/
theorem Shifted.rulesShow (h₀ : RulesShow lpm₀ M) (h : Shifted lpm₀ lpm M j) : RulesShow lpm M where
  groups := h.groups
  ordered d e hd hde he hud hue := by
    rw [h.usedRules] at hud hue
    have hord := h₀.ordered d e hd hde he hud hue
    rw [h.firstRule d, h.firstRule e, h.usedRules]
    split_ifs <;> omega
  within d hd hd' hud := by
    rw [h.usedRules] at hud
    have hin := h₀.within d hd hd' hud
    rw [h.same.maxRules, h.firstRule d, h.usedRules]
    by_cases hc : j < d ∧ d ≤ 32 ∧ 0 < (lpm₀.ruleInfo d).usedRules
    · have hroom := h.room d hc.1 hc.2.1 hc.2.2
      rw [if_pos hc]
      omega
    · rw [if_neg hc]
      exact hin

theorem Shifted.step (h₀ : RulesShow lpm₀ M) (h : Shifted lpm₀ lpm M (j + 1)) (hj : j + 1 ≤ 32)
    (hused : 0 < (lpm₀.ruleInfo (j + 1)).usedRules)
    (hend : (lpm₀.ruleInfo (j + 1)).firstRule + (lpm₀.ruleInfo (j + 1)).usedRules
      ≠ lpm₀.maxRules) :
    Shifted lpm₀
      { lpm with
        rulesTbl := update lpm.rulesTbl
          ((lpm₀.ruleInfo (j + 1)).firstRule + (lpm₀.ruleInfo (j + 1)).usedRules)
          (lpm.rulesTbl (lpm₀.ruleInfo (j + 1)).firstRule)
        ruleInfo := update lpm.ruleInfo (j + 1)
          { lpm₀.ruleInfo (j + 1) with firstRule := (lpm₀.ruleInfo (j + 1)).firstRule + 1 } }
      M j where
  same := ⟨h.same.tbl24, h.same.tbl8, h.same.maxRules, h.same.numberTbl8s, h.same.rulesAlloc,
    h.same.tbl8Alloc⟩
  info e := by
    dsimp only
    by_cases he : e = j + 1
    · subst he
      rw [update_self, if_pos ⟨Nat.lt_succ_self j, hj, hused⟩]
    · rw [update_of_ne he, h.info]
      by_cases hc : j + 1 < e ∧ e ≤ 32 ∧ 0 < (lpm₀.ruleInfo e).usedRules
      · rw [if_pos hc, if_pos ⟨by omega, hc.2⟩]
      · rw [if_neg hc, if_neg (fun hh => hc ⟨by omega, hh.2⟩)]
  room e he he' hue := by
    by_cases heq : e = j + 1
    · subst heq
      have hin := h₀.within (j + 1) (by omega) hj hused
      omega
    · exact h.room e (by omega) he' hue
  groups d hd hd' := by
    have hgrp := h.groups d hd hd'
    dsimp only
    by_cases hdj : d = j + 1
    · subst hdj
      rw [update_self]
      rw [h.info_of_le (le_refl _)] at hgrp
      exact hgrp.perm (rulesIn_moveFirst lpm.rulesTbl hused)
    · rw [update_of_ne hdj, rulesIn_update]
      · exact hgrp
      · -- the place behind the group belongs to no other group
        intro hin
        unfold InGroup at hin
        rw [h.usedRules, h.firstRule] at hin
        have hud : 0 < (lpm₀.ruleInfo d).usedRules := by omega
        rcases Nat.lt_or_gt_of_ne hdj with hlt | hgt
        · have hord := h₀.ordered d (j + 1) hd hlt hj hud hused
          rw [if_neg (by omega)] at hin
          omega
        · have hord := h₀.ordered (j + 1) d (by omega) hgt hd' hused hud
          rw [if_pos ⟨hgt, hd', hud⟩] at hin
          omega

theorem Shifted.skip (h : Shifted lpm₀ lpm M (j + 1))
    (hused : ¬ 0 < (lpm₀.ruleInfo (j + 1)).usedRules) :
    Shifted lpm₀ lpm M j where
  same := h.same
  info e := by
    rw [h.info]
    by_cases hc : j + 1 < e ∧ e ≤ 32 ∧ 0 < (lpm₀.ruleInfo e).usedRules
    · rw [if_pos hc, if_pos ⟨by omega, hc.2⟩]
    · rw [if_neg hc, if_neg]
      rintro ⟨hlt, he, hue⟩
      by_cases heq : e = j + 1
      · subst heq
        exact hused hue
      · exact hc ⟨by omega, he, hue⟩
  room e he he' hue := by
    by_cases heq : e = j + 1
    · subst heq
      exact absurd hue hused
    · exact h.room e (by omega) he' hue
  groups := h.groups

/-- **What `makeRoom` does**: it ends with every group deeper than `depth`
moved up, or gives up with some of them moved; it leaves the memory of the
rules only if that is smaller than `max_rules`. -/
theorem makeRoom_spec (h₀ : RulesShow lpm₀ M) (n : ℕ) (hn : depth + n ≤ 32)
    (h : Shifted lpm₀ lpm M (depth + n)) :
    (∀ r, makeRoom depth n lpm = some r →
        (r.1 = true → Shifted lpm₀ r.2 M depth) ∧ (r.1 = false → ∃ j, Shifted lpm₀ r.2 M j))
      ∧ (lpm₀.maxRules ≤ lpm₀.rulesAlloc → (makeRoom depth n lpm).isSome) := by
  induction n generalizing lpm with
  | zero =>
    refine ⟨?_, fun _ => rfl⟩
    rintro r hr
    obtain rfl := Option.some.inj hr
    exact ⟨fun _ => h, fun hf => (by cases hf)⟩
  | succ n ih =>
    have hinfo : lpm.ruleInfo (depth + n + 1) = lpm₀.ruleInfo (depth + n + 1) :=
      h.info_of_le (le_refl _)
    unfold makeRoom
    dsimp only
    rw [hinfo, h.same.maxRules]
    by_cases hend : (lpm₀.ruleInfo (depth + n + 1)).firstRule
        + (lpm₀.ruleInfo (depth + n + 1)).usedRules = lpm₀.maxRules
    · rw [if_pos hend]
      refine ⟨?_, fun _ => rfl⟩
      rintro r hr
      obtain rfl := Option.some.inj hr
      exact ⟨fun hf => (by cases hf), fun _ => ⟨_, h⟩⟩
    · rw [if_neg hend]
      by_cases hused : (lpm₀.ruleInfo (depth + n + 1)).usedRules > 0
      · rw [if_pos hused]
        have hnext := h.step h₀ (by omega) hused hend
        have hin := h₀.within (depth + n + 1) (by omega) (by omega) hused
        unfold RteLpm.setRule
        by_cases halloc : (lpm₀.ruleInfo (depth + n + 1)).firstRule
            + (lpm₀.ruleInfo (depth + n + 1)).usedRules < lpm.rulesAlloc
        · rw [if_pos halloc]
          exact ih (by omega) hnext
        · rw [if_neg halloc]
          refine ⟨?_, fun hle => ?_⟩
          · rintro r hr
            cases hr
          · rw [h.same.rulesAlloc] at halloc
            omega
      · rw [if_neg hused]
        exact ih (by omega) (h.skip hused)

/-- **What an addition to the rule table leads to**: the table holds the new
rule, at the index that is returned; or there is an error, and it holds what
it held. -/
def RuleAdded (lpm : RteLpm) (M : Table ℕ) (ip depth nextHop : ℕ)
    (r : Except Int ℕ × RteLpm) : Prop :=
  SameTables lpm r.2 ∧
    match r.1 with
    | .error e =>
      RulesShow r.2 M ∧ ((e = -eexist ∧ M depth ip = some nextHop) ∨ e = -enospc)
    | .ok k =>
      RulesShow r.2 (M.insert depth ip nextHop) ∧ InGroup (r.2.ruleInfo depth) k
        ∧ r.2.rulesTbl k = ⟨ip, nextHop⟩

/-- The new rule, behind its group, once there is room. -/
theorem Shifted.insert (h₀ : RulesShow lpm₀ M) (h : Shifted lpm₀ lpm M depth) (hd : 1 ≤ depth)
    (hd' : depth ≤ 32) (hip : M depth ip = none) (nextHop : ℕ)
    (hk : k = (lpm₀.ruleInfo depth).firstRule + (lpm₀.ruleInfo depth).usedRules)
    (hlt : k < lpm₀.maxRules) (hbefore : ∀ d, 1 ≤ d → d < depth → 0 < (lpm₀.ruleInfo d).usedRules →
      (lpm₀.ruleInfo d).firstRule + (lpm₀.ruleInfo d).usedRules
        ≤ (lpm₀.ruleInfo depth).firstRule)
    (hafter : ∀ e, depth < e → e ≤ 32 → 0 < (lpm₀.ruleInfo e).usedRules →
      k ≤ (lpm₀.ruleInfo e).firstRule) :
    RuleAdded lpm₀ M ip depth nextHop
      (.ok k,
        { lpm with
          rulesTbl := update lpm.rulesTbl k ⟨ip, nextHop⟩
          ruleInfo := update lpm.ruleInfo depth
            { lpm.ruleInfo depth with usedRules := (lpm.ruleInfo depth).usedRules + 1 } }) := by
  have hinfo := h.info_of_le (le_refl depth)
  refine ⟨⟨h.same.tbl24, h.same.tbl8, h.same.maxRules, h.same.numberTbl8s, h.same.rulesAlloc,
    h.same.tbl8Alloc⟩, ⟨?_, ?_, ?_⟩, ?_, update_self _ _ _⟩
  · intro d hdge hdle
    have hgrp := h.groups d hdge hdle
    dsimp only
    by_cases hdd : d = depth
    · subst hdd
      rw [update_self, Table.insert_depth, hinfo, rulesIn_concat, rulesIn_update, ← hk,
        update_self]
      · rw [hinfo] at hgrp
        exact (hgrp.cons hip nextHop).perm (perm_append_singleton _ _)
      · unfold InGroup
        dsimp only
        omega
    · rw [update_of_ne hdd, Table.insert_of_depth_ne M ip nextHop hdd, rulesIn_update]
      · exact hgrp
      · unfold InGroup
        rw [h.usedRules, h.firstRule]
        intro hin
        have hud : 0 < (lpm₀.ruleInfo d).usedRules := by omega
        rcases Nat.lt_or_gt_of_ne hdd with hlt' | hgt
        · have hb := hbefore d hdge hlt' hud
          rw [if_neg (by omega)] at hin
          omega
        · have ha := hafter d hgt hdle hud
          rw [if_pos ⟨hgt, hdle, hud⟩] at hin
          omega
  · intro d e hdge hde hele hud hue
    dsimp only at hud hue ⊢
    by_cases hdd : d = depth
    · subst hdd
      have hee : e ≠ d := by omega
      rw [update_of_ne hee, h.usedRules] at hue
      rw [update_self, update_of_ne hee, hinfo, h.firstRule,
        if_pos ⟨hde, hele, hue⟩]
      have ha := hafter e hde hele hue
      dsimp only
      omega
    · rw [update_of_ne hdd, h.usedRules] at hud
      rw [update_of_ne hdd]
      by_cases hee : e = depth
      · subst hee
        rw [update_self, hinfo, h.info_of_le (le_of_lt hde)]
        exact hbefore d hdge hde hud
      · rw [update_of_ne hee, h.usedRules] at hue
        have hord := h₀.ordered d e hdge hde hele hud hue
        rw [update_of_ne hee, h.firstRule d, h.firstRule e, h.usedRules]
        split_ifs <;> omega
  · intro d hdge hdle hud
    dsimp only at hud ⊢
    rw [h.same.maxRules]
    by_cases hdd : d = depth
    · subst hdd
      rw [update_self, hinfo]
      dsimp only
      omega
    · rw [update_of_ne hdd] at hud ⊢
      have hin := (h.rulesShow h₀).within d hdge hdle hud
      rw [h.same.maxRules] at hin
      exact hin
  · dsimp only
    rw [update_self, hinfo]
    unfold InGroup
    dsimp only
    omega

theorem ruleInsert_spec (h : RulesShow lpm M) (hd : 1 ≤ depth) (hd' : depth ≤ 32)
    (hip : M depth ip = none) (nextHop : ℕ)
    (hk : k = (lpm.ruleInfo depth).firstRule + (lpm.ruleInfo depth).usedRules)
    (hlt : k < lpm.maxRules) (hbefore : ∀ d, 1 ≤ d → d < depth → 0 < (lpm.ruleInfo d).usedRules →
      (lpm.ruleInfo d).firstRule + (lpm.ruleInfo d).usedRules ≤ (lpm.ruleInfo depth).firstRule)
    (hafter : ∀ e, depth < e → e ≤ 32 → 0 < (lpm.ruleInfo e).usedRules →
      k ≤ (lpm.ruleInfo e).firstRule) :
    (∀ r, ruleInsert lpm k ip depth nextHop = some r → RuleAdded lpm M ip depth nextHop r)
      ∧ (lpm.maxRules ≤ lpm.rulesAlloc → (ruleInsert lpm k ip depth nextHop).isSome) := by
  have hstart : Shifted lpm lpm M (depth + (32 - depth)) := by
    rw [show depth + (32 - depth) = 32 by omega]
    exact shifted_refl h
  obtain ⟨hspec, hsome⟩ := makeRoom_spec h (32 - depth) (by omega) hstart
  unfold ruleInsert
  cases hroom : makeRoom depth (32 - depth) lpm with
  | none =>
    refine ⟨fun r hr => (by cases hr), fun hle => ?_⟩
    have hs := hsome hle
    rw [hroom] at hs
    cases hs
  | some q =>
    obtain ⟨b, lpm₁⟩ := q
    obtain ⟨hyes, hno⟩ := hspec _ hroom
    simp only [Option.bind_eq_bind, Option.bind_some]
    cases b with
    | false =>
      obtain ⟨j, hj⟩ := hno rfl
      refine ⟨fun r hr => ?_, fun _ => rfl⟩
      obtain rfl := Option.some.inj hr
      exact ⟨hj.same, hj.rulesShow h, Or.inr rfl⟩
    | true =>
      have hshift := hyes rfl
      rw [if_neg (by simp)]
      unfold RteLpm.setRule
      by_cases halloc : k < lpm₁.rulesAlloc
      · rw [if_pos halloc]
        refine ⟨fun r hr => ?_, fun _ => rfl⟩
        obtain rfl := Option.some.inj hr
        exact hshift.insert h hd hd' hip nextHop hk hlt hbefore hafter
      · rw [if_neg halloc]
        refine ⟨fun r hr => (by cases hr), fun hle => ?_⟩
        rw [hshift.same.rulesAlloc] at halloc
        omega

/-- The end of the groups before a depth. -/
theorem previousEnd_spec (h : RulesShow lpm M) {i : ℕ} (hi : i ≤ 31) :
    (∀ d, 1 ≤ d → d ≤ i → 0 < (lpm.ruleInfo d).usedRules →
        (lpm.ruleInfo d).firstRule + (lpm.ruleInfo d).usedRules ≤ previousEnd lpm i)
      ∧ (∀ e, i < e → e ≤ 32 → 0 < (lpm.ruleInfo e).usedRules →
        previousEnd lpm i ≤ (lpm.ruleInfo e).firstRule)
      ∧ previousEnd lpm i ≤ lpm.maxRules := by
  induction i with
  | zero => exact ⟨fun d hd hd' => absurd hd (by omega), fun _ _ _ _ => Nat.zero_le _, Nat.zero_le _⟩
  | succ i ih =>
    obtain ⟨hbefore, hafter, hmax⟩ := ih (by omega)
    unfold previousEnd
    by_cases hused : (lpm.ruleInfo (i + 1)).usedRules > 0
    · rw [if_pos hused]
      refine ⟨fun d hd hdi hud => ?_, fun e hie he hue => ?_, ?_⟩
      · by_cases hlast : d = i + 1
        · rw [hlast]
        · have hord := h.ordered d (i + 1) hd (by omega) (by omega) hud hused
          omega
      · exact h.ordered (i + 1) e (by omega) hie he hused hue
      · exact h.within (i + 1) (by omega) (by omega) hused
    · rw [if_neg hused]
      refine ⟨fun d hd hdi hud => ?_, fun e hie he hue => hafter e (by omega) he hue, hmax⟩
      by_cases hlast : d = i + 1
      · rw [hlast] at hud
        exact absurd hud hused
      · exact hbefore d hd (by omega) hud

theorem RulesShow.place (h : RulesShow lpm M) (hused : (lpm.ruleInfo depth).usedRules = 0) (k : ℕ) :
    RulesShow
      { lpm with
        ruleInfo := update lpm.ruleInfo depth
          { lpm.ruleInfo depth with firstRule := k } } M := by
  have huses : ∀ e, (update lpm.ruleInfo depth
      { lpm.ruleInfo depth with firstRule := k } e).usedRules = (lpm.ruleInfo e).usedRules := by
    intro e
    by_cases he : e = depth
    · subst he
      rw [update_self]
    · rw [update_of_ne he]
  have hsame : ∀ e, 0 < (lpm.ruleInfo e).usedRules →
      update lpm.ruleInfo depth { lpm.ruleInfo depth with firstRule := k } e
        = lpm.ruleInfo e := by
    intro e he
    refine update_of_ne ?_ _ _
    rintro rfl
    omega
  refine ⟨fun d hd hd' => ?_, fun d e hd hde he hud hue => ?_, fun d hd hd' hud => ?_⟩
  · have hgrp := h.groups d hd hd'
    dsimp only
    by_cases hdd : d = depth
    · subst hdd
      rw [update_self]
      unfold rulesIn at hgrp ⊢
      rw [hused] at hgrp ⊢
      exact hgrp
    · rw [update_of_ne hdd]
      exact hgrp
  · dsimp only at hud hue ⊢
    rw [huses] at hud hue
    rw [hsame d hud, hsame e hue]
    exact h.ordered d e hd hde he hud hue
  · dsimp only at hud ⊢
    rw [huses] at hud
    rw [hsame d hud]
    exact h.within d hd hd' hud

/-- **`rule_add` adds its rule or fails**, and it stays inside an array of
`max_rules` rules. -/
theorem ruleAdd_spec (h : RulesShow lpm M) (hd : 1 ≤ depth) (hd' : depth ≤ 32) (ip nextHop : ℕ) :
    (∀ r, ruleAdd lpm ip depth nextHop = some r → RuleAdded lpm M ip depth nextHop r)
      ∧ (lpm.maxRules ≤ lpm.rulesAlloc → (ruleAdd lpm ip depth nextHop).isSome) := by
  unfold ruleAdd
  dsimp only
  by_cases hused : (lpm.ruleInfo depth).usedRules > 0
  · rw [if_pos hused]
    cases hfind : ruleFind lpm ip depth with
    | some k =>
      obtain ⟨hin, hip, hM⟩ := ruleFind_some h hd hd' hfind
      dsimp only
      by_cases hhop : (lpm.rulesTbl k).nextHop = nextHop
      · -- the rule is there already
        rw [if_pos hhop]
        refine ⟨fun r hr => ?_, fun _ => rfl⟩
        obtain rfl := Option.some.inj hr
        exact ⟨SameTables.refl lpm, h, Or.inl ⟨rfl, by rw [hM, hhop]⟩⟩
      · -- the rule has another next hop
        rw [if_neg hhop]
        refine ⟨fun r hr => ?_, fun _ => rfl⟩
        obtain rfl := Option.some.inj hr
        refine ⟨⟨rfl, rfl, rfl, rfl, rfl, rfl⟩, ⟨fun d hdge hdle => ?_, h.ordered, h.within⟩, hin,
          ?_⟩
        · dsimp only
          by_cases hdd : d = depth
          · subst hdd
            rw [Table.insert_depth, ← hip]
            exact rulesIn_setHop (h.groups d hd hd') hin nextHop
          · rw [Table.insert_of_depth_ne M ip nextHop hdd, rulesIn_update]
            · exact h.groups d hdge hdle
            · exact h.not_inGroup hd hd' hdge hdle hdd hin
        · dsimp only
          rw [update_self, hip]
    | none =>
      dsimp only
      by_cases hfull : (lpm.ruleInfo depth).firstRule + (lpm.ruleInfo depth).usedRules
          = lpm.maxRules
      · rw [if_pos hfull]
        refine ⟨fun r hr => ?_, fun _ => rfl⟩
        obtain rfl := Option.some.inj hr
        exact ⟨SameTables.refl lpm, h, Or.inr rfl⟩
      · rw [if_neg hfull]
        have hin := h.within depth hd hd' hused
        exact ruleInsert_spec h hd hd' (ruleFind_none h hd hd' hfind) nextHop rfl (by omega)
          (fun d hdge hlt hud => h.ordered d depth hdge hlt hd' hud hused)
          (fun e hlt hele hue => h.ordered depth e hd hlt hele hused hue)
  · rw [if_neg hused]
    have hzero : (lpm.ruleInfo depth).usedRules = 0 := by omega
    obtain ⟨hbefore, hafter, hmax⟩ := previousEnd_spec h (show depth - 1 ≤ 31 by omega)
    by_cases hfull : previousEnd lpm (depth - 1) = lpm.maxRules
    · rw [if_pos hfull]
      refine ⟨fun r hr => ?_, fun _ => rfl⟩
      obtain rfl := Option.some.inj hr
      exact ⟨SameTables.refl lpm, h, Or.inr rfl⟩
    · rw [if_neg hfull]
      have hplace := h.place hzero (previousEnd lpm (depth - 1))
      have hip : M depth ip = none := by
        refine ruleFind_none h hd hd' ?_
        unfold ruleFind
        dsimp only
        rw [hzero]
        rfl
      have hk : previousEnd lpm (depth - 1)
          = (update lpm.ruleInfo depth
              { lpm.ruleInfo depth with firstRule := previousEnd lpm (depth - 1) } depth).firstRule
            + (update lpm.ruleInfo depth
              { lpm.ruleInfo depth with firstRule := previousEnd lpm (depth - 1) }
                depth).usedRules := by
        rw [update_self, hzero]
        rfl
      obtain ⟨hspec, hsome⟩ := ruleInsert_spec hplace hd hd' hip nextHop hk
        (by dsimp only; omega)
        (fun d hdge hlt hud => by
          dsimp only at hud ⊢
          rw [update_of_ne (by omega)] at hud ⊢
          rw [update_self]
          exact hbefore d hdge (by omega) hud)
        (fun e hlt hele hue => by
          dsimp only at hue ⊢
          rw [update_of_ne (by omega)] at hue ⊢
          exact hafter e (by omega) hele hue)
      have hsame : SameTables lpm
          { lpm with
            ruleInfo := update lpm.ruleInfo depth
              { lpm.ruleInfo depth with firstRule := previousEnd lpm (depth - 1) } } :=
        ⟨rfl, rfl, rfl, rfl, rfl, rfl⟩
      exact ⟨fun r hr => ⟨hsame.trans (hspec r hr).1, (hspec r hr).2⟩, hsome⟩

/-! ## Deleting a rule -/

/-- **The state of the loop that closes the gap**: the groups between `depth`
and `j` have moved down by one place; none has gained or lost a rule, but for
the rule that is deleted. -/
structure Closed (lpm₀ lpm : RteLpm) (M : Table ℕ) (depth ip j : ℕ) : Prop where
  same : SameTables lpm₀ lpm
  info : ∀ e, lpm.ruleInfo e
    = if depth < e ∧ e ≤ j ∧ 0 < (lpm₀.ruleInfo e).usedRules then
        ⟨(lpm₀.ruleInfo e).usedRules, (lpm₀.ruleInfo e).firstRule - 1⟩
      else lpm₀.ruleInfo e
  groups : ∀ d, 1 ≤ d → d ≤ 32 → d ≠ depth →
    Holds (rulesIn lpm.rulesTbl (lpm.ruleInfo d)) (M d)
  left : Holds (rulesIn lpm.rulesTbl
      ⟨(lpm₀.ruleInfo depth).usedRules - 1, (lpm₀.ruleInfo depth).firstRule⟩)
    (Function.update (M depth) ip none)

theorem Closed.usedRules (h : Closed lpm₀ lpm M depth ip j) (e : ℕ) :
    (lpm.ruleInfo e).usedRules = (lpm₀.ruleInfo e).usedRules := by
  rw [h.info]
  split <;> rfl

theorem Closed.firstRule (h : Closed lpm₀ lpm M depth ip j) (e : ℕ) :
    (lpm.ruleInfo e).firstRule = (lpm₀.ruleInfo e).firstRule
      - if depth < e ∧ e ≤ j ∧ 0 < (lpm₀.ruleInfo e).usedRules then 1 else 0 := by
  rw [h.info]
  split <;> rfl

/-- The last rule of the group takes the place of the deleted one. -/
theorem closed_start (h : RulesShow lpm M) (hd : 1 ≤ depth) (hd' : depth ≤ 32)
    (hr : InGroup (lpm.ruleInfo depth) r) :
    Closed lpm
      { lpm with
        rulesTbl := update lpm.rulesTbl r
          (lpm.rulesTbl ((lpm.ruleInfo depth).firstRule + (lpm.ruleInfo depth).usedRules - 1)) }
      M depth (lpm.rulesTbl r).ip depth where
  same := ⟨rfl, rfl, rfl, rfl, rfl, rfl⟩
  info e := by rw [if_neg (by omega)]
  groups d hdge hdle hne := by
    dsimp only
    rw [rulesIn_update (h.not_inGroup hd hd' hdge hdle hne hr)]
    exact h.groups d hdge hdle
  left := ((h.groups depth hd hd').perm (rulesIn_deleteAt lpm.rulesTbl hr)).tail

theorem Closed.step (h₀ : RulesShow lpm₀ M) (h : Closed lpm₀ lpm M depth ip j) (hd : 1 ≤ depth)
    (hj : depth ≤ j) (hj' : j + 1 ≤ 32) (hused : 0 < (lpm₀.ruleInfo depth).usedRules) :
    Closed lpm₀ (closeGap lpm (j + 1)) M depth ip (j + 1) := by
  have hinfo : lpm.ruleInfo (j + 1) = lpm₀.ruleInfo (j + 1) := by
    rw [h.info, if_neg (by omega)]
  unfold closeGap
  dsimp only
  rw [hinfo]
  by_cases hmove : (lpm₀.ruleInfo (j + 1)).usedRules > 0
  · rw [if_pos hmove]
    have hgap := h₀.ordered depth (j + 1) hd (by omega) hj' hused hmove
    refine ⟨⟨h.same.tbl24, h.same.tbl8, h.same.maxRules, h.same.numberTbl8s, h.same.rulesAlloc,
      h.same.tbl8Alloc⟩, fun e => ?_, fun d hdge hdle hne => ?_, ?_⟩
    · dsimp only
      by_cases he : e = j + 1
      · subst he
        rw [update_self, if_pos ⟨by omega, le_refl _, hmove⟩]
      · rw [update_of_ne he, h.info]
        by_cases hc : depth < e ∧ e ≤ j ∧ 0 < (lpm₀.ruleInfo e).usedRules
        · rw [if_pos hc, if_pos ⟨hc.1, by omega, hc.2.2⟩]
        · rw [if_neg hc, if_neg (fun hh => hc ⟨hh.1, by omega, hh.2.2⟩)]
    · have hgrp := h.groups d hdge hdle hne
      dsimp only
      by_cases hdj : d = j + 1
      · subst hdj
        rw [update_self]
        rw [hinfo] at hgrp
        exact hgrp.perm (rulesIn_moveLast lpm.rulesTbl (by omega) hmove)
      · rw [update_of_ne hdj, rulesIn_update]
        · exact hgrp
        · -- the place before the group belongs to no other group
          intro hin
          unfold InGroup at hin
          rw [h.usedRules, h.firstRule] at hin
          have hud : 0 < (lpm₀.ruleInfo d).usedRules := by omega
          rcases Nat.lt_or_gt_of_ne hdj with hlt | hgt
          · have hord := h₀.ordered d (j + 1) hdge hlt hj' hud hmove
            rcases Nat.lt_or_gt_of_ne hne with hlt' | hgt'
            · have hord' := h₀.ordered d depth hdge hlt' (by omega) hud hused
              rw [if_neg (by omega)] at hin
              omega
            · have hord' := h₀.ordered depth d hd hgt' hdle hused hud
              rw [if_pos ⟨hgt', by omega, hud⟩] at hin
              omega
          · have hord := h₀.ordered (j + 1) d (by omega) hgt hdle hmove hud
            rw [if_neg (by omega)] at hin
            omega
    · dsimp only
      rw [rulesIn_update]
      · exact h.left
      · unfold InGroup
        dsimp only
        omega
  · rw [if_neg hmove]
    refine ⟨h.same, fun e => ?_, h.groups, h.left⟩
    rw [h.info]
    by_cases hc : depth < e ∧ e ≤ j ∧ 0 < (lpm₀.ruleInfo e).usedRules
    · rw [if_pos hc, if_pos ⟨hc.1, by omega, hc.2.2⟩]
    · rw [if_neg hc, if_neg]
      rintro ⟨hlt, hle, hue⟩
      by_cases he : e = j + 1
      · subst he
        exact hmove hue
      · exact hc ⟨hlt, by omega, hue⟩

/-- `rule_delete` deletes its rule and keeps the others. -/
theorem ruleDelete_spec (h : RulesShow lpm M) (hd : 1 ≤ depth) (hd' : depth ≤ 32)
    (hr : InGroup (lpm.ruleInfo depth) r) :
    SameTables lpm (ruleDelete lpm r depth)
      ∧ RulesShow (ruleDelete lpm r depth) (M.erase depth (lpm.rulesTbl r).ip) := by
  have hused : 0 < (lpm.ruleInfo depth).usedRules := by
    unfold InGroup at hr
    omega
  unfold ruleDelete
  dsimp only
  generalize hlpm₁ : Loop.times (32 - depth) (fun i lpm => closeGap lpm (depth + 1 + i)) _ = lpm₁
  have hclosed : Closed lpm lpm₁ M depth (lpm.rulesTbl r).ip 32 := by
    rw [← hlpm₁, show (32 : ℕ) = depth + (32 - depth) by omega]
    rw [show depth + (32 - depth) - depth = 32 - depth by omega]
    refine Loop.times_invariant
      (fun i l => Closed lpm l M depth (lpm.rulesTbl r).ip (depth + i)) ?_ ?_
    · exact closed_start h hd hd' hr
    · intro i hi l hl
      have hstep := hl.step h hd (by omega) (by omega) hused
      rw [show depth + i + 1 = depth + 1 + i by omega] at hstep
      rw [show depth + (i + 1) = depth + 1 + i by omega]
      exact hstep
  clear hlpm₁
  have hinfo : lpm₁.ruleInfo depth = lpm.ruleInfo depth := by
    rw [hclosed.info, if_neg (by omega)]
  rw [hinfo]
  refine ⟨⟨hclosed.same.tbl24, hclosed.same.tbl8, hclosed.same.maxRules,
    hclosed.same.numberTbl8s, hclosed.same.rulesAlloc, hclosed.same.tbl8Alloc⟩,
    ⟨fun d hdge hdle => ?_, fun d e hdge hde hele hud hue => ?_, fun d hdge hdle hud => ?_⟩⟩
  · dsimp only
    by_cases hdd : d = depth
    · subst hdd
      rw [update_self, Table.erase_depth]
      exact hclosed.left
    · rw [update_of_ne hdd, Table.erase_of_depth_ne M _ hdd]
      exact hclosed.groups d hdge hdle hdd
  · dsimp only at hud hue ⊢
    by_cases hdd : d = depth
    · subst hdd
      have hee : e ≠ d := by omega
      rw [update_of_ne hee, hclosed.usedRules] at hue
      rw [update_self] at hud
      rw [update_self, update_of_ne hee, hclosed.firstRule,
        if_pos ⟨hde, hele, hue⟩]
      have hord := h.ordered d e hdge hde hele hused hue
      dsimp only at hud ⊢
      omega
    · rw [update_of_ne hdd, hclosed.usedRules] at hud
      rw [update_of_ne hdd, hclosed.usedRules, hclosed.firstRule]
      by_cases hee : e = depth
      · subst hee
        rw [update_self]
        have hord := h.ordered d e hdge hde hele hud hused
        rw [if_neg (by omega)]
        exact hord
      · rw [update_of_ne hee, hclosed.usedRules] at hue
        rw [update_of_ne hee, hclosed.firstRule]
        have hord := h.ordered d e hdge hde hele hud hue
        rcases Nat.lt_or_gt_of_ne hdd with hlt | hgt
        · rw [if_neg (by omega)]
          rcases Nat.lt_or_gt_of_ne hee with hlt' | hgt'
          · rw [if_neg (by omega)]
            exact hord
          · -- the groups on the two sides of `depth` have its rules between them
            have h₁ := h.ordered d depth hdge hlt hd' hud hused
            have h₂ := h.ordered depth e hd hgt' hele hused hue
            split_ifs <;> omega
        · have h₁ := h.ordered depth d hd hgt (by omega) hused hud
          rw [if_pos ⟨hgt, by omega, hud⟩, if_pos ⟨by omega, hele, hue⟩]
          omega
  · dsimp only at hud ⊢
    rw [hclosed.same.maxRules]
    by_cases hdd : d = depth
    · subst hdd
      rw [update_self]
      have hin := h.within d hdge hdle hused
      dsimp only
      omega
    · rw [update_of_ne hdd, hclosed.usedRules] at hud
      rw [update_of_ne hdd, hclosed.usedRules, hclosed.firstRule]
      have hin := h.within d hdge hdle hud
      omega

/-! ## The rule that takes over -/

theorem toNat_depthToMask (hd : 1 ≤ d) (hd' : d ≤ 32) :
    (depthToMask d).toNat = (2 ^ d - 1) * 2 ^ (32 - d) := by
  have hall : ∀ k : Fin 32, (depthToMask (k.val + 1)).toNat
      = (2 ^ (k.val + 1) - 1) * 2 ^ (32 - (k.val + 1)) := by
    decide
  have h := hall ⟨d - 1, by omega⟩
  dsimp only at h
  rwa [Nat.sub_add_cancel hd] at h

theorem toNat_and_depthToMask (ip : UInt32) (hd : 1 ≤ d) (hd' : d ≤ 32) :
    (ip &&& depthToMask d).toNat = trunc 32 d ip.toNat := by
  rw [UInt32.toNat_and, toNat_depthToMask hd hd']
  exact land_mask hd' ip.toNat_lt

/-- **`find_previous_rule` finds the longest match** among the rules of
smaller depth. -/
theorem map_findPreviousRule (h : RulesShow lpm M) (hzero : ∀ p, M 0 p = none) (ip : UInt32) {n : ℕ}
    (hn : n ≤ 32) :
    (findPreviousRule lpm ip n).map (fun s => (s.2, (lpm.rulesTbl s.1).nextHop))
      = longest 32 M ip.toNat (n + 1) := by
  induction n with
  | zero =>
    rw [longest_succ_of_none (hzero _)]
    rfl
  | succ n ih =>
    have hfind := map_ruleFind h (ip &&& depthToMask (n + 1)).toNat (Nat.succ_pos n) hn
    rw [toNat_and_depthToMask ip (Nat.succ_pos n) hn] at hfind
    unfold findPreviousRule
    rw [toNat_and_depthToMask ip (Nat.succ_pos n) hn]
    cases hk : ruleFind lpm (trunc 32 (n + 1) ip.toNat) (n + 1) with
    | none =>
      rw [hk] at hfind
      rw [longest_succ_of_none hfind.symm]
      exact ih (by omega)
    | some k =>
      rw [hk] at hfind
      rw [longest_succ_of_some hfind.symm]
      rfl

end Lpm
