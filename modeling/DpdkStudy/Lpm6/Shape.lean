import DpdkStudy.Lib.Pool
import DpdkStudy.Lpm6.Rules
import DpdkStudy.Lpm6.Tables

/-!
# Tables in shape

The tables of an LPM object are in shape for a table of prefixes (`Shape`) if
there is a right placement of the groups, the entries without groups say the
longest matches, the pool lists the groups that are not placed, which refer to
no others, and each header names the entry its group belongs to.

A rule stands for a range of entries of the level at which it ends, and for
what lies below them (`within_iff_covers`). A walk over that range puts the
tables in shape for the table with the rule (`Shape.insert`), or without it
(`Shape.erase`).
-/

open Nat

namespace Lpm6

open Net Prefix Levels Pool

variable {tbl : Option ℕ} {c d i k p v : ℕ}

/-- **The tables are in shape.** -/
structure Shape (lpm : RteLpm6) (loc : ℕ → Option (ℕ × ℕ)) (M : Table ℕ) : Prop where
  tree : Tree lpm.entry loc
  leaves : Leaves groupOf (Says M) lpm.entry loc
  pool : Lists lpm.tbl8Pool lpm.tbl8PoolPos lpm.numberTbl8s (vacant loc lpm.numberTbl8s)
  placed : ∀ t x, loc t = some x → t < lpm.numberTbl8s
  owners : ∀ t k c, loc t = some (k, c) →
    Cell loc (lpm.tbl8Hdrs t).ownerTblInd (lpm.tbl8Hdrs t).ownerEntryInd k c
  number : lpm.numberTbl8s ≤ 2 ^ 21
  clean : ∀ t < lpm.numberTbl8s, loc t = none → ∀ i < 256,
    (lpm.entry (some t) i).extEntry = false

theorem RulesShow.keyed {lpm : RteLpm6} {M : Table ℕ} (h : RulesShow lpm M) : Keyed M :=
  fun _ _ _ hM => h.wf hM

theorem Shape.congr {lpm lpm' : RteLpm6} {loc : ℕ → Option (ℕ × ℕ)} {M : Table ℕ}
    (h : Shape lpm loc M) (hsame : SameTables lpm lpm') : Shape lpm' loc M where
  tree := by
    rw [hsame.entry]
    exact h.tree
  leaves := by
    rw [hsame.entry]
    exact h.leaves
  pool := by
    rw [hsame.tbl8Pool, hsame.tbl8PoolPos, hsame.numberTbl8s]
    exact h.pool
  placed := by
    rw [hsame.numberTbl8s]
    exact h.placed
  owners := by
    rw [hsame.tbl8Hdrs]
    exact h.owners
  number := by
    rw [hsame.numberTbl8s]
    exact h.number
  clean := by
    rw [hsame.numberTbl8s, hsame.entry]
    exact h.clean

section

variable {lpm lpm' : RteLpm6} {loc : ℕ → Option (ℕ × ℕ)} {M : Table ℕ}

theorem Shape.not_ext (h : Shape lpm loc M) (hcell : Cell loc tbl i k c)
    (hleaf : groupOf (lpm.entry tbl i) = none) :
    (lpm.entry tbl i).extEntry = false := by
  rw [(h.leaves tbl i k c hcell hleaf).1]
  exact extEntry_leafEntry _

/-! ## The entries of a rule -/

theorem bits_lt_level (h : level d = k + 1) : bits k < d :=
  bits_lt_of_lt_level (by rw [h]; exact lt_succ_self k)

/-- The first entry of a rule is a multiple of their number. -/
theorem block_eq_mul (hd : d ≤ 128) (hp : trunc 128 d p = p) (hk : level d = k + 1) :
    block (k + 1) p = p / 2 ^ (128 - d) * 2 ^ (bits (k + 1) - d) := by
  have hhi := le_bits_level d
  rw [hk] at hhi
  have hle : bits (k + 1) ≤ 128 := bits_le (by rw [← hk]; exact level_le hd)
  have hsplit : 2 ^ (128 - d) = 2 ^ (bits (k + 1) - d) * 2 ^ (128 - bits (k + 1)) := by
    rw [← pow_add]
    congr 1
    omega
  have hmul : p = p / 2 ^ (128 - d) * 2 ^ (bits (k + 1) - d) * 2 ^ (128 - bits (k + 1)) := by
    rw [mul_assoc, ← hsplit]
    exact hp.symm
  rw [block]
  exact Nat.div_eq_of_eq_mul_left (Nat.two_pow_pos _) hmul

/-- A group has room for the entries of a rule that ends in it. -/
theorem group_eq_mul (hk : level d = k + 1) :
    256 = 2 ^ (d - bits k) * 2 ^ (bits (k + 1) - d) := by
  have hlo := bits_lt_level hk
  have hhi := le_bits_level d
  rw [hk] at hhi
  have hbits : bits (k + 1) = bits k + 8 := by
    unfold bits
    omega
  rw [← Nat.pow_add, show d - bits k + (bits (k + 1) - d) = 8 by omega]

/-- The range of a rule does not pass the end of its group. -/
theorem range_add_le (hd : d ≤ 128) (hp : trunc 128 d p = p) (hk : level d = k + 1) :
    block (k + 1) p % 256 + 2 ^ (bits (k + 1) - d) ≤ 256 := by
  rw [block_eq_mul hd hp hk, group_eq_mul hk, mul_mod_mul_right]
  have hlt := Nat.mod_lt (p / 2 ^ (128 - d)) (Nat.two_pow_pos (d - bits k))
  generalize p / 2 ^ (128 - d) % 2 ^ (d - bits k) = q at hlt ⊢
  generalize 2 ^ (bits (k + 1) - d) = s
  calc q * s + s = (q + 1) * s := by rw [add_mul, one_mul]
    _ ≤ 2 ^ (d - bits k) * s := mul_le_mul_right s hlt

/-- The index of the first entry of a rule has no bits past its depth. -/
theorem index_of_rule (hd : d ≤ 128) (hp : trunc 128 d p = p) (hk : level d = k + 1) :
    block (k + 1) p % 256 / 2 ^ (bits (k + 1) - d) * 2 ^ (bits (k + 1) - d)
      = block (k + 1) p % 256 := by
  rw [block_eq_mul hd hp hk, group_eq_mul hk, mul_mod_mul_right,
    Nat.mul_div_cancel _ (Nat.two_pow_pos _)]

/-- The entries of a rule, in the table in which it ends. -/
theorem cells_of_rule (hd : d ≤ 128) (hp : trunc 128 d p = p)
    (hcell : Cell loc tbl i (level d) (block (level d) p)) :
    ∀ n < 2 ^ (bits (level d) - d), Cell loc tbl (i + n) (level d) (block (level d) p + n) := by
  intro n hn
  cases tbl with
  | none => exact ⟨hcell.1, congrArg (· + n) hcell.2⟩
  | some t =>
    obtain ⟨hi, j, b, hloc, hk, hc⟩ := hcell
    have hrange := range_add_le hd hp hk
    rw [hk] at hc hn
    refine ⟨?_, j, b, hloc, hk, ?_⟩
    · rw [hc] at hrange
      omega
    · rw [hk, hc]
      omega

/-- The group in which a rule ends is that of its block. -/
theorem table_of_rule_iff {T : Option ℕ → ℕ → RteLpm6TblEntry} (h : Tree T loc) (hd : d ≤ 128)
    (hcell : Cell loc tbl i (level d) (block (level d) p)) {u : ℕ} (hu : loc u = some (k, c)) :
    tbl = some u ↔ level d = k + 1 ∧ block k p = c := by
  constructor
  · rintro rfl
    obtain ⟨hi, j, b, hloc, hk, hb⟩ := hcell
    obtain ⟨rfl, rfl⟩ := Prod.mk.inj (Option.some.inj (hu.symm.trans hloc))
    have hk13 : k < 13 := lt_of_succ_le (le_of_eq_of_le hk.symm (level_le hd))
    refine ⟨hk, ?_⟩
    rw [hk] at hb
    rw [← block_succ_div hk13, hb]
    omega
  · rintro ⟨hk, rfl⟩
    rw [hk] at hcell
    cases tbl with
    | none => exact absurd hcell.1 (succ_ne_zero k)
    | some u' =>
      obtain ⟨hi, j, b, hloc, hj, hb⟩ := hcell
      obtain rfl : k = j := succ_inj.mp hj
      have hk13 : k < 13 := lt_of_succ_le (le_of_eq_of_le hk.symm (level_le hd))
      have hb' : b = block k p := by
        rw [← block_succ_div hk13, hb]
        omega
      rw [hb'] at hloc
      exact congrArg some (h.apart u' u _ hloc hu)

/-- **A rule stands for the entries of its range**, and for those below
them. -/
theorem within_iff_covers (hd : d ≤ 128) (hp : trunc 128 d p = p) (hk : level d ≤ k) (hk' : k ≤ 13)
    :
    Within (level d) (block (level d) p) (block (level d) p + 2 ^ (bits (level d) - d)) k c
      ↔ trunc 128 d (c * 2 ^ (128 - bits k)) = p := by
  have hm : bits (level d) ≤ 128 := bits_le (level_le hd)
  have hsplit := div_add_mod' (c * 2 ^ (128 - bits k)) (2 ^ (128 - bits (level d)))
  have hup : c * 2 ^ (128 - bits k) / 2 ^ (128 - bits (level d)) = c / 256 ^ (k - level d) := by
    rw [← block, ← block_div hk hk', block_mul]
  rw [← hsplit, hup, trunc_eq_iff_of_le hp (le_bits_level d) hm (Nat.mod_lt _ (Nat.two_pow_pos _))]
  exact and_iff_right hk

theorem path_of_rule (h : Tree lpm.entry loc) {K : ℕ} (hK : K ≤ 13)
    (hcell : Cell loc tbl i K (block K p)) {j : ℕ} (hj : j < K) :
    ∃ t, loc t = some (j, block j p) := by
  obtain ⟨t, ht⟩ := h.above hcell hj
  rw [block_div (le_of_lt hj) hK] at ht
  exact ⟨t, ht⟩

/-- **No entry without a group lies above a rule** that has a group for every
level. -/
theorem block_ne_of_path (h : Tree lpm.entry loc) (hcell : Cell loc tbl i k c)
    (hleaf : groupOf (lpm.entry tbl i) = none) (hpath : ∃ t, loc t = some (k, block k p)) :
    block k p ≠ c := by
  rintro rfl
  obtain ⟨t, ht⟩ := hpath
  obtain ⟨tbl', i', hcell', hchild⟩ := h.owner t k (block k p) ht
  obtain ⟨rfl, rfl⟩ := h.cell_inj hcell hcell'
  rw [hleaf] at hchild
  cases hchild

/-! ## Adding a rule -/

theorem overwrite_leafEntry (d v : ℕ) (o : Option (ℕ × ℕ)) :
    overwrite d (tblEntry v d true false) (leafEntry o) = leafEntry (raise d v o) := by
  cases o with
  | none => rfl
  | some r =>
    obtain ⟨e, u⟩ := r
    rw [raise_some, leafEntry, overwrite]
    by_cases hde : d < e
    · rw [if_pos hde, if_neg (by simp [tblEntry, hde])]
      rfl
    · rw [if_neg hde, if_pos (by simp [tblEntry, Nat.le_of_not_lt hde])]
      rfl

theorem Bare.insert (h : Bare M k c) (hd : d ≤ bits k ∨ block k p ≠ c) :
    Bare (M.insert d p v) k c := by
  intro e q u he hq
  by_cases heq : e = d ∧ q = p
  · obtain ⟨rfl, rfl⟩ := heq
    rcases hd with hle | hne
    · exact absurd he (Nat.not_lt_of_le hle)
    · exact hne
  · rw [Table.insert, if_neg heq] at hq
    exact h e q u he hq

/-- **The walk of an addition** puts the tables in shape for the table with the
rule. -/
theorem Shape.insert_leaves (h : Shape lpm loc M) (hd : d ≤ 128) (hp : trunc 128 d p = p)
    (hcell : Cell loc tbl i (level d) (block (level d) p)) (hmap : Mapped groupOf loc
      (Within (level d) (block (level d) p) (block (level d) p + 2 ^ (bits (level d) - d)))
      (overwrite d (tblEntry v d true false)) lpm.entry lpm'.entry) :
    Leaves groupOf (Says (M.insert d p v)) lpm'.entry loc := by
  refine hmap.leaves h.leaves (fun tbl' i' k c hcell' hleaf hR hsaid => ?_)
    (fun tbl' i' k c hcell' hleaf hR hsaid => ?_)
  · have hcov := (within_iff_covers hd hp hR.1 (h.tree.level_le hcell')).mp hR
    have hdk : d ≤ bits k := le_trans (le_bits_level d) (bits_mono hR.1)
    refine ⟨?_, hsaid.2.insert (Or.inl hdk)⟩
    rw [hsaid.1, overwrite_leafEntry, longest_insert M v _ (lt_succ_of_le hdk), if_pos hcov]
  · by_cases hk : level d ≤ k
    · have hcov := (not_congr (within_iff_covers hd hp hk (h.tree.level_le hcell'))).mp hR
      have hdk : d ≤ bits k := le_trans (le_bits_level d) (bits_mono hk)
      refine ⟨?_, hsaid.2.insert (Or.inl hdk)⟩
      rw [longest_insert M v _ (lt_succ_of_le hdk), if_neg hcov]
      exact hsaid.1
    · -- the rule is too deep for the block, and lies in another one
      have hlt := Nat.lt_of_not_le hk
      have hne := block_ne_of_path h.tree hcell' hleaf
        (path_of_rule h.tree (level_le hd) hcell hlt)
      have hbits := bits_lt_of_lt_level hlt
      refine ⟨?_, hsaid.2.insert (Or.inr hne)⟩
      rw [hsaid.1]
      congr 1
      refine longest_congr_table (fun e he => ?_)
      rw [Table.insert_of_depth_ne M p v (by omega)]

/-! ## Removing a rule -/

theorem overwrite_leafEntry_lower (d : ℕ) (sub o : Option (ℕ × ℕ)) :
    overwrite d (leafEntry sub) (leafEntry o) = leafEntry (lower d sub o) := by
  cases o with
  | none => rfl
  | some r =>
    obtain ⟨e, u⟩ := r
    rw [lower_some, show leafEntry (some (e, u)) = tblEntry u e true false from rfl, overwrite]
    by_cases hde : d < e
    · rw [if_pos hde, if_neg (by simp [tblEntry, hde])]
      rfl
    · rw [if_neg hde, if_pos (by simp [tblEntry, Nat.le_of_not_lt hde])]

theorem Bare.erase (h : Bare M k c) (d p : ℕ) : Bare (M.erase d p) k c := by
  intro e q u he hq
  by_cases heq : e = d ∧ q = p
  · rw [Table.erase, if_pos heq] at hq
    cases hq
  · rw [Table.erase, if_neg heq] at hq
    exact h e q u he hq

theorem Keyed.erase (h : Keyed M) (d p : ℕ) : Keyed (M.erase d p) := by
  intro e q u hq
  by_cases heq : e = d ∧ q = p
  · rw [Table.erase, if_pos heq] at hq
    cases hq
  · rw [Table.erase, if_neg heq] at hq
    exact h e q u hq

/-- The entries that a removed rule does not cover say what they said. -/
theorem Says.erase {e : RteLpm6TblEntry} (h : Says M k c e)
    (hcov : d ≤ bits k → trunc 128 d (c * 2 ^ (128 - bits k)) ≠ p) :
    Says (M.erase d p) k c e := by
  refine ⟨?_, h.2.erase d p⟩
  rw [h.1]
  congr 1
  refine longest_congr_table (fun f hf => ?_)
  by_cases heq : f = d
  · subst heq
    rw [Table.erase, if_neg (fun hc => hcov (le_of_lt_succ hf) hc.2)]
  · rw [Table.erase_of_depth_ne M p heq]

/-- **The walk of a deletion** puts the tables in shape for the table without
the rule. -/
theorem Shape.erase_leaves (h : Shape lpm loc M) (hd : d ≤ 128) (hp : trunc 128 d p = p)
    (hM : M d p = some v) (hmap : Mapped groupOf loc
      (Within (level d) (block (level d) p) (block (level d) p + 2 ^ (bits (level d) - d)))
      (overwrite d (leafEntry (longest 128 M p d))) lpm.entry lpm'.entry) :
    Leaves groupOf (Says (M.erase d p)) lpm'.entry loc := by
  refine hmap.leaves h.leaves (fun tbl' i' k c hcell' hleaf hR hsaid => ?_)
    (fun tbl' i' k c hcell' hleaf hR hsaid => ?_)
  · have hcov := (within_iff_covers hd hp hR.1 (h.tree.level_le hcell')).mp hR
    have hdk : d ≤ bits k := le_trans (le_bits_level d) (bits_mono hR.1)
    have hsub : longest 128 M (c * 2 ^ (128 - bits k)) d = longest 128 M p d :=
      longest_congr hd (le_succ d) (hcov.trans hp.symm)
    refine ⟨?_, hsaid.2.erase d p⟩
    rw [hsaid.1, overwrite_leafEntry_lower, longest_erase _ (lt_succ_of_le hdk) hM,
      if_pos hcov, hsub]
  · refine hsaid.erase (fun hdk hcov => hR ?_)
    by_cases hk : level d ≤ k
    · exact (within_iff_covers hd hp hk (h.tree.level_le hcell')).mpr hcov
    · exact absurd (bits_lt_of_lt_level (Nat.lt_of_not_le hk)) (Nat.not_lt_of_le hdk)

/-! ## Walks keep the shape -/

/-- A walk keeps the shape, with what the entries then say. -/
theorem Shape.mapped (h : Shape lpm loc M) {R : ℕ → ℕ → Prop}
    {f : RteLpm6TblEntry → RteLpm6TblEntry} {M' : Table ℕ} (hrec : SameRecords lpm lpm')
    (hf : ∀ e, groupOf e = none → groupOf (f e) = none)
    (hmap : Mapped groupOf loc R f lpm.entry lpm'.entry)
    (hleaves : Leaves groupOf (Says M') lpm'.entry loc) : Shape lpm' loc M' where
  tree := hmap.placed h.tree hf
  leaves := hleaves
  pool := by
    rw [hrec.tbl8Pool, hrec.tbl8PoolPos, hrec.numberTbl8s]
    exact h.pool
  placed := by
    rw [hrec.numberTbl8s]
    exact h.placed
  owners := by
    rw [hrec.tbl8Hdrs]
    exact h.owners
  number := by
    rw [hrec.numberTbl8s]
    exact h.number
  clean t ht hloc i hi := by
    rw [hrec.numberTbl8s] at ht
    rw [hmap.off t i hi hloc]
    exact h.clean t ht hloc i hi

end

end Lpm6
