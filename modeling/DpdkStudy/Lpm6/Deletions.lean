import DpdkStudy.Lpm6.Additions

/-!
# Deletions from the IPv6 LPM table

A deletion finds the entries of the rule (`ruleFindRange_spec`) and gives them,
and what lies below them, to the less specific rule. If the rule was the last
reference to its group, the group is removed instead, and with it each group
above it that is left without references (`removeTbl_spec`).

Removing a group is right if nothing else refers to it. The reference counters
say so where they are exact; where they are not, it is asked of the groups that
would be removed, those of the path of the rule from its last one up, as long as
their counters are at one (`Spares`). Everything else a deletion does is right for any values of the
counters (`rteLpm6Delete_spec`).
-/

open Function Option Finset Nat

namespace Lpm6

open Net Prefix Levels Pool

variable {lpm : RteLpm6} {loc : ℕ → Option (ℕ × ℕ)} {M : Table ℕ}

variable {d j u v x : ℕ} {tbl : Option ℕ}

/-! ## The entries of a rule -/

theorem Shape.group_of_deep (h : Shape lpm loc M) {p k i : ℕ} (hM : M d p = some v)
    (hk : bits k < d) (hcell : Cell loc tbl i k (block k p)) :
    ∃ t, groupOf (lpm.entry tbl i) = some t ∧ loc t = some (k, block k p) := by
  cases hgroup : groupOf (lpm.entry tbl i) with
  | none => exact absurd rfl ((h.leaves tbl i k _ hcell hgroup).2 d p v hk hM)
  | some t => exact ⟨t, rfl, h.tree.below tbl i k _ t hcell hgroup⟩

/-- The loop of `rule_find_range` comes to the group in which the rule ends. -/
theorem ruleFindGroup_spec (h : Shape lpm loc M) {ip : RteIpv6Addr} (hM : M d ip.toNat = some v)
    (hd : d ≤ 128) (fuel : ℕ) {t k : ℕ} (hfuel : 13 ≤ k + fuel)
    (ht : loc t = some (k, block k ip.toNat)) (hk : bits k < d) :
    ∃ t' k', ruleFindGroup lpm ip fuel t (3 + k) (d - bits k) = some (t', 3 + k', d - bits k')
      ∧ loc t' = some (k', block k' ip.toNat) ∧ level d = k' + 1 := by
  induction fuel generalizing t k with
  | zero => exact absurd (h.tree.bound t k _ ht).1 (Nat.not_lt_of_le hfuel)
  | succ fuel ih =>
    have hk13 := (h.tree.bound t k _ ht).1
    unfold ruleFindGroup
    by_cases hmore : d - bits k > 8
    · have hnext : bits (k + 1) < d := by
        unfold bits at hmore ⊢
        omega
      obtain ⟨t', hgroup, ht'⟩ := h.group_of_deep hM hnext (cell_next hk13 ht)
      obtain ⟨⟨-, hext⟩, rfl⟩ := groupOf_eq_some.mp hgroup
      rw [if_pos hmore]
      dsimp only
      rw [if_neg (not_not.mpr hext), show d - bits k - 8 = d - bits (k + 1) by unfold bits; omega]
      exact ih (by omega) ht' hnext
    · rw [if_neg hmore]
      refine ⟨t, k, rfl, ht, ?_⟩
      unfold bits at hk hmore
      unfold level
      split <;> omega

/-- What `rule_find_range` finds, of a rule in the tables. -/
theorem ruleFindRange_spec (h : Shape lpm loc M) {ip : RteIpv6Addr} (hM : M d ip.toNat = some v)
    (hd : d ≤ 128) (hp : trunc 128 d ip.toNat = ip.toNat) :
    ∃ tbl i, ruleFindRange lpm ip d = some (tbl, i, 2 ^ (bits (level d) - d))
      ∧ Cell loc tbl i (level d) (block (level d) ip.toNat) := by
  unfold ruleFindRange
  dsimp only
  rw [first_three]
  by_cases hroot : d ≤ 24
  · have hlevel : level d = 0 := if_pos hroot
    rw [if_pos hroot, hlevel]
    refine ⟨none, block 0 ip.toNat, ?_, cell_root loc _⟩
    rw [shiftLeft_eq, one_mul]
    rfl
  · rw [if_neg hroot]
    have hdeep : bits 0 < d := Nat.lt_of_not_le hroot
    obtain ⟨t, hgroup, ht⟩ := h.group_of_deep hM hdeep (cell_root loc _)
    obtain ⟨⟨-, hext⟩, hnext⟩ := groupOf_eq_some.mp hgroup
    obtain ⟨t', k, hfind, ht', hlevel⟩ := ruleFindGroup_spec h hM hd 13 (le_add_left 13 0) ht
      hdeep
    have hk13 := (h.tree.bound t' k _ ht').1
    have hcell := cell_next hk13 ht'
    have hlo := bits_lt_level hlevel
    have hhi := le_bits_level d
    rw [hlevel] at hhi
    have hbits : bits (k + 1) = bits k + 8 := by
      unfold bits
      omega
    -- the byte of the rule has no bits past its depth
    have hbyte : (ip.byte (3 + k)).toNat = block (k + 1) ip.toNat % 256 := by
      have hlt := (ip.byte (3 + k)).toNat_lt
      rw [block_succ hk13]
      omega
    have hstart : (ip.byte (3 + k) &&& depthToMask1b (d - bits k)).toNat
        = (ip.byte (3 + k)).toNat := by
      rcases lt_or_ge (d - bits k) 8 with hlt | hge
      · rw [depthToMask1b_eq (by omega) hlt, toNat_and_byteMask, mod_eq_of_lt hlt, hbyte,
          show 8 - (d - bits k) = bits (k + 1) - d by omega]
        exact index_of_rule hd hp hlevel
      · rw [show d - bits k = 8 by omega, show depthToMask1b 8 = 255 from rfl, UInt8.toNat_and]
        exact (and_two_pow_sub_one_eq_mod _ 8).trans (mod_eq_of_lt (ip.byte (3 + k)).toNat_lt)
    rw [hlevel]
    refine ⟨some t', (ip.byte (3 + k)).toNat, ?_, hcell⟩
    show (if ¬ (lpm.entry none (block 0 ip.toNat)).extEntry = true then none
      else (ruleFindGroup lpm ip 13 (lpm.entry none (block 0 ip.toNat)).nextHop 3 (d - 24)).bind _)
        = _
    rw [if_neg (not_not.mpr hext), hnext, show d - 24 = d - bits 0 from rfl,
      show 3 = 3 + 0 from rfl, hfind]
    show some (some t', (ip.byte (3 + k) &&& depthToMask1b (d - bits k)).toNat,
      1 <<< (8 - (d - bits k))) = _
    rw [hstart, shiftLeft_eq, one_mul,
      show 8 - (d - bits k) = bits (k + 1) - d by omega]

/-- The value for the entries of a deleted rule: the less specific rule's. -/
theorem lessSpecific_entry {R : Table ℕ} (hrules : RulesShow lpm R) (ip : RteIpv6Addr)
    (hd : d ≤ 128) :
    (match ruleFindLessSpecific lpm d (rteIpv6AddrMask ip d) with
      | some (depth, nextHop) => tblEntry nextHop.toNat depth true false
      | none => tblEntry 0 0 false false)
      = leafEntry (longest 128 R ip.toNat d) := by
  have hspec := ruleFindLessSpecific_spec hrules ip hd
  rw [← hspec]
  cases ruleFindLessSpecific lpm d (rteIpv6AddrMask ip d) <;> rfl

/-- **The loop of `rte_lpm6_delete`** puts the tables in shape for the table
without the rule. -/
theorem deleteRange_shape (h : Shape lpm loc M) {p i : ℕ} (hM : M d p = some v) (hd : d ≤ 128)
    (hp : trunc 128 d p = p) (hcell : Cell loc tbl i (level d) (block (level d) p)) :
    ∃ lpm', deleteRange lpm tbl i (2 ^ (bits (level d) - d)) d (leafEntry (longest 128 M p d))
        = some lpm'
      ∧ Shape lpm' loc (M.erase d p) ∧ SameRecords lpm lpm'
      ∧ ∀ t k c, loc t = some (k, c) → childrenOf lpm'.entry t = childrenOf lpm.entry t := by
  have hleaf := groupOf_leafEntry (longest 128 M p d)
  have hcells := cells_of_rule hd hp hcell
  -- the rule itself covers its entries
  have hdeep : ∀ n < 2 ^ (bits (level d) - d), groupOf (lpm.entry tbl (i + n)) = none →
      ((lpm.entry tbl (i + n)).valid = true ∧ (lpm.entry tbl (i + n)).extEntry = false)
        ∧ d ≤ (lpm.entry tbl (i + n)).depth := by
    intro n hn hgroup
    have hcelln := hcells n hn
    have hin : Within (level d) (block (level d) p)
        (block (level d) p + 2 ^ (bits (level d) - d)) (level d) (block (level d) p + n) := by
      refine ⟨Nat.le_refl _, ?_, ?_⟩
      · rw [Nat.sub_self, Nat.pow_zero, Nat.div_one]
        exact Nat.le_add_right _ n
      · rw [Nat.sub_self, Nat.pow_zero, Nat.div_one]
        exact Nat.add_lt_add_left hn _
    have hcov := (within_iff_covers hd hp (Nat.le_refl _) (level_le hd)).mp hin
    rw [(h.leaves tbl _ _ _ hcelln hgroup).1]
    have hMcov : M d (trunc 128 d ((block (level d) p + n) * 2 ^ (128 - bits (level d)))) = some v := by
      rw [hcov, hM]
    obtain ⟨e, u, hlongest, hle⟩ := exists_longest_of_covers
      (Nat.lt_succ_of_le (le_bits_level d)) hMcov
    rw [hlongest]
    exact ⟨⟨rfl, rfl⟩, hle⟩
  obtain ⟨lpm', heq, hrec, hmap⟩ := deleteRange_spec hleaf h.tree hcells hdeep
  exact ⟨lpm', heq,
    h.mapped hrec (fun e he => groupOf_overwrite hleaf he) hmap (h.erase_leaves hd hp hM hmap), hrec,
    fun t k c ht => childrenOf_mapped hmap (fun e he => groupOf_overwrite hleaf he) ht⟩

/-! ## Removing a group -/

/-- A rule that is too deep for a level ends below it. -/
theorem lt_level (h : bits j < d) : j < level d := by
  refine Nat.lt_of_not_le (fun hle => ?_)
  have hd := le_bits_level d
  have hmono := bits_mono hle
  omega

/-- **A group of bare blocks, in which no rule ends**, belongs to a bare
block. -/
theorem bare_of_parts {b : ℕ} (hj : j < 13) (hparts : ∀ x < 256, Bare M (j + 1) (b * 256 + x))
    (hends : ∀ d p v, M d p = some v → level d = j + 1 → block j p ≠ b) : Bare M j b := by
  intro d p v hd hp hb
  rcases lt_or_eq_of_le (succ_le_of_lt (lt_level hd)) with hlt | heq
  · have hx : block (j + 1) p % 256 < 256 := mod_lt _ (by decide)
    refine hparts _ hx d p v (bits_lt_of_lt_level hlt) hp ?_
    rw [← hb, ← block_succ_div hj]
    exact (div_add_mod' _ 256).symm
  · exact hends d p v hp heq.symm hb

/-- The entry for a bare block that a rule was in: the less specific rule's. -/
theorem says_of_bare (hM : Keyed M) {k p : ℕ} (hk : k ≤ 13) (hbare : Bare M k (block k p))
    (hd : bits k < d) : Says M k (block k p) (leafEntry (longest 128 M p d)) :=
  ⟨by rw [longest_of_bare hM hk hbare rfl hd], hbare⟩

@[simp] theorem entry_setRefCnt (lpm : RteLpm6) (t : ℕ) (refCnt : UInt32) :
    (lpm.setRefCnt t refCnt).entry = lpm.entry := rfl

@[simp] theorem entry_setEntry_setRefCnt (lpm : RteLpm6) (t : ℕ) (refCnt : UInt32) (tbl : Option ℕ)
    (i : ℕ) (e : RteLpm6TblEntry) :
    ((lpm.setRefCnt t refCnt).setEntry tbl i e).entry = (lpm.setEntry tbl i e).entry := by
  cases tbl <;> rfl

theorem sameRules_setRefCnt (lpm : RteLpm6) (t : ℕ) (refCnt : UInt32) :
    SameRules lpm (lpm.setRefCnt t refCnt) := ⟨rfl, rfl, rfl, rfl⟩

theorem owner_setRefCnt (lpm : RteLpm6) (t : ℕ) (refCnt : UInt32) (u : ℕ) :
    ((lpm.setRefCnt t refCnt).tbl8Hdrs u).ownerTblInd = (lpm.tbl8Hdrs u).ownerTblInd
      ∧ ((lpm.setRefCnt t refCnt).tbl8Hdrs u).ownerEntryInd = (lpm.tbl8Hdrs u).ownerEntryInd := by
  by_cases hu : u = t
  · subst hu
    simp [RteLpm6.setRefCnt]
  · simp [RteLpm6.setRefCnt, hu]

theorem refCnt_setRefCnt (lpm : RteLpm6) (t : ℕ) (refCnt : UInt32) (u : ℕ) :
    ((lpm.setRefCnt t refCnt).tbl8Hdrs u).refCnt
      = if u = t then refCnt else (lpm.tbl8Hdrs u).refCnt := by
  by_cases hu : u = t
  · subst hu
    simp [RteLpm6.setRefCnt]
  · simp [RteLpm6.setRefCnt, hu]

/-- What `tbl8_put` does to a pool that does not have the group. -/
theorem tbl8Put_spec {n t : ℕ} {F : Finset ℕ} (hpool : Lists lpm.tbl8Pool lpm.tbl8PoolPos n F)
    (hF : F ⊆ range n) (ht : t < n) (hnot : t ∉ F) :
    Lists (tbl8Put lpm t).tbl8Pool (tbl8Put lpm t).tbl8PoolPos n (insert t F)
      ∧ (tbl8Put lpm t).entry = lpm.entry ∧ (tbl8Put lpm t).tbl8Hdrs = lpm.tbl8Hdrs
      ∧ SameRules lpm (tbl8Put lpm t) := by
  have hpos := hpool.pos_pos hF ht hnot
  unfold tbl8Put
  rw [if_neg (ne_of_gt hpos)]
  exact ⟨hpool.put hpos hnot, rfl, rfl, ⟨rfl, rfl, rfl, rfl⟩⟩

/-- **The counters on the path of a rule** are at one, from level `j` up to level
`k`: all those groups go, if that of level `k` loses a reference. -/
def Falls (hdrs : ℕ → RteLpmTbl8Hdr) (loc : ℕ → Option (ℕ × ℕ)) (p j k : ℕ) : Prop :=
  ∀ u m, j ≤ m → m < k → loc u = some (m, block m p) → (hdrs u).refCnt = 1

theorem Falls.succ {hdrs : ℕ → RteLpmTbl8Hdr} {p k : ℕ} (h : Falls hdrs loc p j k)
    (hone : (hdrs u).refCnt = 1) (huniq : ∀ w, loc w = some (k, block k p) → w = u) :
    Falls hdrs loc p j (k + 1) := by
  intro w m hj hm hw
  rcases Nat.lt_succ_iff_lt_or_eq.mp hm with hlt | rfl
  · exact h w m hj hlt hw
  · rw [huniq w hw]
    exact hone

theorem Falls.refl (hdrs : ℕ → RteLpmTbl8Hdr) (loc : ℕ → Option (ℕ × ℕ)) (p j : ℕ) :
    Falls hdrs loc p j j := fun _ _ hj hm => absurd hm (Nat.not_lt_of_le hj)

/-- **A group is being removed**: it is not placed any more, and the tables
would be in shape, had its entry been given the new value. The groups in `Pend`
wait for the same. -/
structure Removing (Exact : Prop) (lpm : RteLpm6) (loc : ℕ → Option (ℕ × ℕ)) (M : Table ℕ)
    (cnt : ℕ → ℕ → ℕ) (F : Finset ℕ) (Pend : ℕ → Prop) (p t : ℕ) (o : Option ℕ) (i k : ℕ)
    (new : RteLpm6TblEntry) : Prop where
  tree : Tree (lpm.setEntry o i new).entry loc
  leaves : Leaves groupOf (Says M) (lpm.setEntry o i new).entry loc
  cell : Cell loc o i k (block k p)
  off : loc t = none
  lt : t < lpm.numberTbl8s
  hdr : (lpm.tbl8Hdrs t).ownerTblInd = o ∧ (lpm.tbl8Hdrs t).ownerEntryInd = i
  ext : (lpm.entry o i).extEntry = true
  pool : Lists lpm.tbl8Pool lpm.tbl8PoolPos lpm.numberTbl8s F
  notFree : t ∉ F
  free : F ⊆ vacant loc lpm.numberTbl8s
  placed : ∀ u x, loc u = some x → u < lpm.numberTbl8s
  owners : ∀ u j b, loc u = some (j, b) →
    Cell loc (lpm.tbl8Hdrs u).ownerTblInd (lpm.tbl8Hdrs u).ownerEntryInd j b
  clean : ∀ u < lpm.numberTbl8s, loc u = none → ¬ Pend u → ∀ x < 256,
    (lpm.entry (some u) x).extEntry = false
  exact : Exact → ∀ u j b, loc u = some (j, b) → (lpm.tbl8Hdrs u).refCnt.toNat
    = cnt j b + childrenOf (lpm.setEntry o i new).entry u + if o = some u then 1 else 0
  used : Exact → ∀ u j b, loc u = some (j, b) → o ≠ some u →
    0 < cnt j b + childrenOf (lpm.setEntry o i new).entry u
  spare : ∀ u j, j < k → loc u = some (j, block j p) → Falls lpm.tbl8Hdrs loc p j k →
    (∀ x < 256, groupOf (lpm.entry (some u) x) ≠ none → block j p * 256 + x = block (j + 1) p)
      ∧ ∀ d q v, M d q = some v → level d = j + 1 → block j q ≠ block j p

/-- **A group has been removed**, and those above it that it was the last
reference to. -/
structure Removed (Exact : Prop) (lpm lpm' : RteLpm6) (loc loc' : ℕ → Option (ℕ × ℕ)) (M : Table ℕ)
    (cnt : ℕ → ℕ → ℕ) (F : Finset ℕ) (Pend : ℕ → Prop) (t : ℕ) : Prop where
  tree : Tree lpm'.entry loc'
  leaves : Leaves groupOf (Says M) lpm'.entry loc'
  pool : Lists lpm'.tbl8Pool lpm'.tbl8PoolPos lpm.numberTbl8s
    (F ∪ insert t (vacant loc' lpm.numberTbl8s \ vacant loc lpm.numberTbl8s))
  fewer : ∀ u x, loc' u = some x → loc u = some x
  owners : ∀ u j b, loc' u = some (j, b) →
    Cell loc' (lpm'.tbl8Hdrs u).ownerTblInd (lpm'.tbl8Hdrs u).ownerEntryInd j b
  clean : ∀ u < lpm.numberTbl8s, loc' u = none → ¬ Pend u → ∀ x < 256,
    (lpm'.entry (some u) x).extEntry = false
  counts : Exact → Counts lpm' loc' cnt none
  rules : SameRules lpm lpm'
  frame : ∀ u x, x < 256 → loc u = none → lpm'.entry (some u) x = lpm.entry (some u) x

section

variable {Exact : Prop} {cnt : ℕ → ℕ → ℕ} {F : Finset ℕ} {Pend : ℕ → Prop} {p t i k : ℕ}
  {o : Option ℕ} {new : RteLpm6TblEntry}

/-- The entry of a placed group is not one of a group that is not. -/
theorem Removing.entry_vacant (h : Removing Exact lpm loc M cnt F Pend p t o i k new) (hx : x < 256)
    (hu : loc u = none) :
    (lpm.setEntry o i new).entry (some u) x = lpm.entry (some u) x := by
  refine entry_setEntry_of_ne lpm new ?_ (fun _ _ => hx) ?_
  · rintro v rfl
    exact h.cell.1
  · rintro ⟨rfl, -⟩
    obtain ⟨-, j, b, hloc, -⟩ := h.cell
    rw [hu] at hloc
    cases hloc

/-- **The last group of a removal**: its entry is given the new value, and the
group is put back. -/
theorem Removing.last (h : Removing Exact lpm loc M cnt F Pend p t o i k new) {lpm₁ : RteLpm6}
    (hsame : SameRules lpm lpm₁) (hpool : lpm₁.tbl8Pool = lpm.tbl8Pool)
    (hpos : lpm₁.tbl8PoolPos = lpm.tbl8PoolPos)
    (hentry : (lpm₁.setEntry o i new).entry = (lpm.setEntry o i new).entry)
    (howner : ∀ u, (lpm₁.tbl8Hdrs u).ownerTblInd = (lpm.tbl8Hdrs u).ownerTblInd
      ∧ (lpm₁.tbl8Hdrs u).ownerEntryInd = (lpm.tbl8Hdrs u).ownerEntryInd)
    (hexact : Exact → ∀ u j b, loc u = some (j, b) → (lpm₁.tbl8Hdrs u).refCnt.toNat
      = cnt j b + childrenOf (lpm.setEntry o i new).entry u)
    (hused : Exact → ∀ u j b, loc u = some (j, b) →
      0 < cnt j b + childrenOf (lpm.setEntry o i new).entry u) :
    Removed Exact lpm (tbl8Put (lpm₁.setEntry o i new) t) loc loc M cnt F Pend t := by
  have hrec := sameRecords_setEntry lpm₁ o i new
  have hpool' : Lists (lpm₁.setEntry o i new).tbl8Pool (lpm₁.setEntry o i new).tbl8PoolPos
      lpm.numberTbl8s F := by
    rw [hrec.tbl8Pool, hrec.tbl8PoolPos, hpool, hpos]
    exact h.pool
  obtain ⟨hput, hputEntry, hputHdrs, hputRules⟩ := tbl8Put_spec hpool'
    (h.free.trans (vacant_subset loc _)) h.lt h.notFree
  have hent : (tbl8Put (lpm₁.setEntry o i new) t).entry = (lpm.setEntry o i new).entry :=
    hputEntry.trans hentry
  have hhdrs : (tbl8Put (lpm₁.setEntry o i new) t).tbl8Hdrs = lpm₁.tbl8Hdrs :=
    hputHdrs.trans hrec.tbl8Hdrs
  refine ⟨?_, ?_, ?_, fun u x hu => hu, fun u j b hu => ?_, fun u hu hloc hp x hx => ?_, fun he => ?_,
    (hsame.trans hrec.sameRules).trans hputRules, fun u x hx hu => ?_⟩
  · rw [hent]
    exact h.tree
  · rw [hent]
    exact h.leaves
  · rw [sdiff_self, union_insert]
    simpa using hput
  · rw [hhdrs, (howner u).1, (howner u).2]
    exact h.owners u j b hu
  · rw [hent, h.entry_vacant hx hloc]
    exact h.clean u hu hloc hp x hx
  · refine ⟨fun u j b hu => ?_, fun u j b hu _ => ?_⟩
    · rw [hhdrs, hent]
      exact hexact he u j b hu
    · rw [hent]
      exact hused he u j b hu
  · rw [hent, h.entry_vacant hx hu]

/-- **A group with no groups below it** is taken off the placement, and its
entry is to be given the new value. `T` is what the entries are taken for: the
entries of the group itself do not matter. -/
theorem Removing.of_group {M₀ : Table ℕ} {T : Option ℕ → ℕ → RteLpm6TblEntry}
    (hnew : groupOf new = none)
    (hT : ∀ tbl x, (∀ w, tbl = some w → x < 256) → tbl ≠ some u → T tbl x = lpm.entry tbl x)
    (htree : Tree T loc) (hleaves : Leaves groupOf (Says M₀) T loc)
    (hother : ∀ tbl x k' c', Cell loc tbl x k' c' → tbl ≠ some u → groupOf (T tbl x) = none →
      Says M₀ k' c' (T tbl x) → Says M k' c' (T tbl x)) (hu : loc u = some (j, block j p))
    (hchildless : ∀ x < 256, groupOf (T (some u) x) = none) (hsaid : Says M j (block j p) new)
    (hpool : Lists lpm.tbl8Pool lpm.tbl8PoolPos lpm.numberTbl8s F)
    (hfree : F ⊆ vacant loc lpm.numberTbl8s) (hplaced : ∀ w x, loc w = some x → w < lpm.numberTbl8s)
    (howners : ∀ w j b, loc w = some (j, b) →
      Cell loc (lpm.tbl8Hdrs w).ownerTblInd (lpm.tbl8Hdrs w).ownerEntryInd j b)
    (hclean : ∀ w < lpm.numberTbl8s, loc w = none ∨ w = u → ¬ Pend w → ∀ x < 256,
      (lpm.entry (some w) x).extEntry = false)
    (hexact : Exact → ∀ w j b, w ≠ u → loc w = some (j, b) →
      (lpm.tbl8Hdrs w).refCnt.toNat = cnt j b + childrenOf T w)
    (hused : Exact → ∀ w j b, w ≠ u → loc w = some (j, b) → 0 < cnt j b + childrenOf T w)
    (hspare : ∀ w j', j' < j → loc w = some (j', block j' p) → Falls lpm.tbl8Hdrs loc p j' j →
      (∀ x < 256, groupOf (lpm.entry (some w) x) ≠ none →
          block j' p * 256 + x = block (j' + 1) p)
        ∧ ∀ d q v, M d q = some v → level d = j' + 1 → block j' q ≠ block j' p) :
    Removing Exact (lpm.setRefCnt u 0) (update loc u none) M cnt F Pend p u
      (lpm.tbl8Hdrs u).ownerTblInd (lpm.tbl8Hdrs u).ownerEntryInd j new := by
  have hcell := howners u j _ hu
  generalize ho : (lpm.tbl8Hdrs u).ownerTblInd = o at hcell ⊢
  generalize hind : (lpm.tbl8Hdrs u).ownerEntryInd = i at hcell ⊢
  have hin : ∀ w, o = some w → i < 256 := by
    rintro w rfl
    exact hcell.1
  have houter : o ≠ some u := by
    rintro rfl
    obtain ⟨-, j', b, hloc, hj, -⟩ := hcell
    rw [hu] at hloc
    obtain ⟨rfl, -⟩ := Prod.mk.inj (some.inj hloc)
    exact absurd hj (Nat.ne_of_lt (Nat.lt_succ_self j))
  have hrefers : groupOf (T o i) = some u := by
    obtain ⟨tbl, x, hcellx, hgroup⟩ := htree.owner u j _ hu
    obtain ⟨rfl, rfl⟩ := htree.cell_inj hcell hcellx
    exact hgroup
  -- the entries, once that of the group is given the new value
  have hstore : ∀ tbl x, (∀ w, tbl = some w → x < 256) → ¬ (tbl = o ∧ x = i) →
      ((lpm.setRefCnt u 0).setEntry o i new).entry tbl x = lpm.entry tbl x := by
    intro tbl x hx hne
    rw [entry_setEntry_setRefCnt]
    exact entry_setEntry_of_ne lpm new hin hx hne
  have hsame : ∀ tbl x k' c', Cell loc tbl x k' c' → tbl ≠ some u → ¬ (tbl = o ∧ x = i) →
      ((lpm.setRefCnt u 0).setEntry o i new).entry tbl x = T tbl x := by
    intro tbl x k' c' hcellx htbl hne
    have hx : ∀ w, tbl = some w → x < 256 := by
      rintro w rfl
      exact hcellx.1
    rw [hstore tbl x hx hne, hT tbl x hx htbl]
  have hnewEntry : ((lpm.setRefCnt u 0).setEntry o i new).entry o i = new :=
    entry_setEntry_self _ _ _ _
  have hoff : ∀ {w x}, update loc u none w = some x → w ≠ u ∧ loc w = some x := by
    intro w x hw
    have hwu : w ≠ u := by
      rintro rfl
      rw [update_self] at hw
      cases hw
    rw [update_of_ne hwu] at hw
    exact ⟨hwu, hw⟩
  -- one group less refers to the group above
  have hchildren : ∀ w j' b', w ≠ u → loc w = some (j', b') →
      childrenOf T w = childrenOf ((lpm.setRefCnt u 0).setEntry o i new).entry w
        + if o = some w then 1 else 0 := by
    intro w j' b' hwu hw
    have hframe : ∀ x < 256, ¬ (some w = o ∧ x = i) → groupOf (T (some w) x)
        = groupOf (((lpm.setRefCnt u 0).setEntry o i new).entry (some w) x) := fun x hx hne => by
      rw [hsame (some w) x _ _ (cell_group hw hx) (fun hc => hwu (some.inj hc)) hne]
    by_cases how : o = some w
    · subst how
      rw [if_pos rfl]
      exact childrenOf_attach (hin w rfl) (by rw [hnewEntry, hnew]) (by rw [hrefers]; rfl)
        (fun x hx hne => hframe x hx (fun hc => hne hc.2))
    · rw [if_neg how]
      exact childrenOf_congr (fun x hx => hframe x hx (fun hc => how hc.1.symm))
  refine ⟨?_, ?_, cell_update_none.mpr ⟨houter, hcell⟩, update_self .., hplaced u _ hu,
    ?_, ?_, hpool, fun hF => ?_, ?_, fun w x hw => hplaced w x (hoff hw).2, fun w j' b' hw => ?_,
    fun w hw hloc hp x hx => ?_, fun he w j' b' hw => ?_, fun he w j' b' hw hne => ?_,
    fun w j' hj hw hfalls => ?_⟩
  · exact htree.detach hcell hu (by rw [hnewEntry, hnew]) hchildless hsame
  · refine hleaves.detach (fun k' c' hc => ?_) hsame hother
    obtain ⟨rfl, rfl⟩ := hcell.block_inj hc
    rw [hnewEntry]
    exact hsaid
  · exact ⟨(owner_setRefCnt lpm u 0 u).1.trans ho, (owner_setRefCnt lpm u 0 u).2.trans hind⟩
  · rw [entry_setRefCnt, ← hT o i hin houter]
    exact (groupOf_eq_some.mp hrefers).1.2
  · have hmem := (mem_vacant.mp (hfree hF)).2
    rw [hu] at hmem
    cases hmem
  · refine hfree.trans (fun w hw => ?_)
    obtain ⟨hlt, hnone⟩ := mem_vacant.mp hw
    refine mem_vacant.mpr ⟨hlt, ?_⟩
    by_cases hwu : w = u
    · rw [hwu, update_self]
    · rw [update_of_ne hwu, hnone]
  · obtain ⟨hwu, hw⟩ := hoff hw
    rw [(owner_setRefCnt lpm u 0 w).1, (owner_setRefCnt lpm u 0 w).2]
    have hcellw := howners w j' b' hw
    refine cell_update_none.mpr ⟨fun hc => ?_, hcellw⟩
    obtain ⟨tbl, x, hcellx, hgroup⟩ := htree.owner w j' b' hw
    obtain ⟨rfl, rfl⟩ := htree.cell_inj hcellw hcellx
    rw [hc] at hgroup hcellx
    rw [hchildless _ hcellx.1] at hgroup
    cases hgroup
  · refine hclean w hw ?_ hp x hx
    by_cases hwu : w = u
    · exact Or.inr hwu
    · rw [update_of_ne hwu] at hloc
      exact Or.inl hloc
  · obtain ⟨hwu, hw⟩ := hoff hw
    have hcount := hexact he w j' b' hwu hw
    rw [hchildren w j' b' hwu hw, ← add_assoc] at hcount
    rw [refCnt_setRefCnt, if_neg hwu]
    exact hcount
  · obtain ⟨hwu, hw⟩ := hoff hw
    have hpos := hused he w j' b' hwu hw
    rw [hchildren w j' b' hwu hw, if_neg hne, add_zero] at hpos
    exact hpos
  · refine hspare w j' hj (hoff hw).2 (fun v m hm hmj hv => ?_)
    have hvu : v ≠ u := by
      rintro rfl
      rw [hu] at hv
      exact absurd (Prod.mk.inj (some.inj hv)).1 (ne_of_gt hmj)
    have hfall := hfalls v m hm hmj (by rw [update_of_ne hvu, hv])
    rw [refCnt_setRefCnt, if_neg hvu] at hfall
    exact hfall

/-- The group above is left without references, and is removed in turn. -/
theorem Removing.up (h : Removing Exact lpm loc M cnt F Pend p t (some u) i k new)
    (hnew : groupOf new = none)
    (hsaid : ∀ j, j < k → Bare M j (block j p) → Says M j (block j p) new)
    (hone : (lpm.tbl8Hdrs u).refCnt = 1) :
    ∃ j, k = j + 1 ∧ loc u = some (j, block j p)
      ∧ (∀ x < 256, groupOf ((lpm.setEntry (some u) i new).entry (some u) x) = none)
      ∧ Removing Exact (lpm.setRefCnt u 0) (update loc u none) M cnt F
        (fun w => Pend w ∨ w = u) p u (lpm.tbl8Hdrs u).ownerTblInd (lpm.tbl8Hdrs u).ownerEntryInd j
        new := by
  obtain ⟨hi, j, b, hu, rfl, hb⟩ := h.cell
  have hj13 := (h.tree.bound u j b hu).1
  obtain rfl : b = block j p := by
    rw [← block_succ_div hj13, hb]
    omega
  have huniq : ∀ w, loc w = some (j, block j p) → w = u := fun w hw => h.tree.apart w u _ hw hu
  obtain ⟨hpath, hnone⟩ := h.spare u j (lt_succ_self j) hu ((Falls.refl _ _ p j).succ hone huniq)
  have hin : ∀ w, some u = some w → i < 256 := fun _ _ => hi
  -- nothing but the removed group referred to this one
  have hchildless : ∀ x < 256, groupOf ((lpm.setEntry (some u) i new).entry (some u) x) = none := by
    intro x hx
    by_cases hxi : x = i
    · subst hxi
      rw [entry_setEntry_self]
      exact hnew
    · rw [entry_setEntry_of_ne lpm new hin (fun _ _ => hx) (fun hc => hxi hc.2)]
      by_contra hne
      have hblock := hpath x hx hne
      omega
  have hbare := bare_of_parts hj13
    (fun x hx => (h.leaves _ _ _ _ (cell_group hu hx) (hchildless x hx)).2) hnone
  refine ⟨j, rfl, hu, hchildless, ?_⟩
  refine Removing.of_group hnew (fun tbl x hx htbl => ?_) h.tree h.leaves
    (fun _ _ _ _ _ _ _ hs => hs) hu hchildless (hsaid j (lt_succ_self j) hbare) h.pool h.free
    h.placed h.owners (fun w hw hloc hp x hx => ?_) (fun he w j' b' hwu hw => ?_)
    (fun he w j' b' hwu hw => ?_) (fun w j' hj hw hfalls => ?_)
  · exact entry_setEntry_of_ne lpm new hin hx (fun hc => htbl hc.1)
  · rcases hloc with hloc | hwu
    · exact h.clean w hw hloc (fun hc => hp (Or.inl hc)) x hx
    · exact absurd (Or.inr hwu) hp
  · have hcount := h.exact he w j' b' hw
    rw [if_neg (fun hc => hwu (some.inj hc).symm), add_zero] at hcount
    exact hcount
  · exact h.used he w j' b' hw (fun hc => hwu (some.inj hc).symm)
  · exact h.spare w j' (lt_succ_of_lt hj) hw (hfalls.succ hone huniq)

theorem toNat_pred {x : UInt32} {n : ℕ} (h : x.toNat = n + 1) : (x - 1).toNat = n := by
  rw [UInt32.toNat_sub_of_le _ _ (UInt32.le_iff_toNat_le.mpr (by rw [h]; exact le_add_left 1 n)),
    h]
  rfl

/-- A counter that is counted down to zero was at one. -/
theorem refCnt_eq_one {x : UInt32} (h : x - 1 = 0) : x = 1 := by
  have hx := UInt32.sub_add_cancel x 1
  rw [h, UInt32.zero_add] at hx
  exact hx.symm

/-- **Back from the groups above**: the entry of a group that has been removed
itself is given the new value, and the group below it is put back. -/
theorem Removing.resume (h : Removing Exact lpm loc M cnt F Pend p t (some u) i k new)
    (hnew : new.extEntry = false) (hu : loc u = some (j, block j p))
    (hchildless : ∀ x < 256, groupOf ((lpm.setEntry (some u) i new).entry (some u) x) = none)
    {lpm₃ : RteLpm6} {loc' : ℕ → Option (ℕ × ℕ)}
    (hdone : Removed Exact (lpm.setRefCnt u 0) lpm₃ (update loc u none) loc' M cnt F
      (fun w => Pend w ∨ w = u) u) :
    (lpm₃.entry (some u) i).extEntry = true
      ∧ Removed Exact lpm (tbl8Put (lpm₃.setEntry (some u) i new) t) loc loc' M cnt F Pend t := by
  have huvac : loc' u = none := by
    cases hloc : loc' u with
    | none => rfl
    | some x =>
      have hc := hdone.fewer u x hloc
      rw [update_self] at hc
      cases hc
  have hi : i < 256 := h.cell.1
  have hkeep : ∀ x < 256, lpm₃.entry (some u) x = lpm.entry (some u) x := fun x hx =>
    hdone.frame u x hx (update_self ..)
  have hut : u ≠ t := by
    rintro rfl
    rw [h.off] at hu
    cases hu
  -- the group is not placed any more: its entry does not count
  have hstore : ∀ {w x}, x < 256 → w ≠ u →
      (lpm₃.setEntry (some u) i new).entry (some w) x = lpm₃.entry (some w) x :=
    fun {w x} hx hw => entry_setEntry_of_ne lpm₃ new (fun _ _ => hi) (fun _ _ => hx)
      (fun hc => hw (some.inj hc.1))
  have hcells : ∀ tbl x k' c', Cell loc' tbl x k' c' →
      (lpm₃.setEntry (some u) i new).entry tbl x = lpm₃.entry tbl x := by
    intro tbl x k' c' hcell
    cases tbl with
    | none => rfl
    | some w =>
      refine hstore hcell.1 ?_
      rintro rfl
      obtain ⟨-, j', b, hloc, -⟩ := hcell
      rw [huvac] at hloc
      cases hloc
  have hrec := sameRecords_setEntry lpm₃ (some u) i new
  let V := vacant loc lpm.numberTbl8s
  let W := vacant loc' lpm.numberTbl8s
  have hV : vacant (update loc u none) lpm.numberTbl8s = insert u V :=
    vacant_update_none (h.placed u _ hu)
  have hpool : Lists (lpm₃.setEntry (some u) i new).tbl8Pool
      (lpm₃.setEntry (some u) i new).tbl8PoolPos lpm.numberTbl8s
      (F ∪ insert u (W \ insert u V)) := by
    rw [hrec.tbl8Pool, hrec.tbl8PoolPos, ← hV]
    exact hdone.pool
  have htV : t ∈ V := mem_vacant.mpr ⟨h.lt, h.off⟩
  have htF : t ∉ F ∪ insert u (W \ insert u V) := by
    simp only [mem_union, mem_insert, mem_sdiff, not_or, not_and, not_not]
    exact ⟨h.notFree, Ne.symm hut, fun _ _ => htV⟩
  have hsub : F ∪ insert u (W \ insert u V) ⊆ range lpm.numberTbl8s := by
    refine union_subset (h.free.trans (vacant_subset loc _)) ?_
    refine insert_subset (mem_range.mpr (h.placed u _ hu)) ?_
    exact sdiff_subset.trans (vacant_subset loc' _)
  obtain ⟨hput, hputEntry, hputHdrs, hputRules⟩ := tbl8Put_spec hpool hsub h.lt htF
  refine ⟨by rw [hkeep i hi]; exact h.ext, ?_, ?_, ?_, fun w x hw => ?_,
    fun w j' b' hw => ?_, fun w hw hloc hp x hx => ?_, fun he => ?_, ?_, fun w x hx hw => ?_⟩
  · rw [hputEntry]
    exact hdone.tree.congr hcells
  · rw [hputEntry]
    exact hdone.leaves.congr hcells
  · have hset : insert t (F ∪ insert u (W \ insert u V)) = F ∪ insert t (W \ V) := by
      have huV' : u ∈ W := mem_vacant.mpr ⟨h.placed u _ hu, huvac⟩
      have huV : u ∉ V := fun hc => by
        have hmem := (mem_vacant.mp hc).2
        rw [hu] at hmem
        cases hmem
      ext x
      simp only [mem_insert, mem_union, mem_sdiff]
      by_cases hx : x = u
      · subst hx
        simp [huV', huV]
      · simp only [hx, false_or]
        tauto
    rw [← hset]
    exact hput
  · have hw' := hdone.fewer w x hw
    have hwu : w ≠ u := by
      rintro rfl
      rw [update_self] at hw'
      cases hw'
    rw [update_of_ne hwu] at hw'
    exact hw'
  · rw [hputHdrs, hrec.tbl8Hdrs]
    exact hdone.owners w j' b' hw
  · rw [hputEntry]
    by_cases hwu : w = u
    · subst hwu
      by_cases hxi : x = i
      · subst hxi
        rw [entry_setEntry_self, hnew]
      · have hsaid := h.leaves _ _ _ _ (cell_group hu hx) (hchildless x hx)
        rw [entry_setEntry_of_ne lpm new (fun _ _ => hi) (fun _ _ => hx)
          (fun hc => hxi hc.2)] at hsaid
        rw [entry_setEntry_of_ne lpm₃ new (fun _ _ => hi) (fun _ _ => hx) (fun hc => hxi hc.2),
          hkeep x hx, hsaid.1]
        exact extEntry_leafEntry _
    · rw [hstore hx hwu]
      exact hdone.clean w hw hloc (fun hc => hc.elim hp hwu) x hx
  · have hcounts := hdone.counts he
    have hchildren : ∀ w x, loc' w = some x →
        childrenOf (tbl8Put (lpm₃.setEntry (some u) i new) t).entry w
          = childrenOf lpm₃.entry w := by
      intro w y hw
      refine childrenOf_congr (fun x hx => ?_)
      rw [hputEntry, hstore hx]
      rintro rfl
      rw [huvac] at hw
      cases hw
    refine ⟨fun w j' b' hw => ?_, fun w j' b' hw hne => ?_⟩
    · rw [hputHdrs, hrec.tbl8Hdrs, hchildren w _ hw]
      exact hcounts.exact w j' b' hw
    · rw [hchildren w _ hw]
      exact hcounts.used w j' b' hw hne
  · exact ((sameRules_setRefCnt lpm u 0).trans hdone.rules).trans (hrec.sameRules.trans hputRules)
  · have hwu : w ≠ u := by
      rintro rfl
      rw [hu] at hw
      cases hw
    rw [hputEntry, hstore hx hwu]
    refine hdone.frame w x hx ?_
    rw [update_of_ne hwu, hw]

theorem removeTbl_spec (hnew : new.extEntry = false)
    (fuel : ℕ) {lpm : RteLpm6} {loc : ℕ → Option (ℕ × ℕ)} {Pend : ℕ → Prop} {t i k : ℕ}
    {o : Option ℕ} (hfuel : k < fuel)
    (hsaid : ∀ j, j < k → Bare M j (block j p) → Says M j (block j p) new)
    (h : Removing Exact lpm loc M cnt F Pend p t o i k new) :
    ∃ lpm' loc', removeTbl fuel lpm t new = some lpm'
      ∧ Removed Exact lpm lpm' loc loc' M cnt F Pend t := by
  induction fuel generalizing lpm loc Pend t i k o with
  | zero => exact absurd hfuel (not_lt_zero k)
  | succ fuel ih =>
    unfold removeTbl
    dsimp only
    rw [h.hdr.1, h.hdr.2]
    cases o with
    | none =>
      refine ⟨_, loc, ?_, h.last (SameRules.refl lpm) rfl rfl rfl (fun u => ⟨rfl, rfl⟩)
        (fun he u j b hu => ?_) (fun he u j b hu => h.used he u j b hu (fun hc => nomatch hc))⟩
      · show (if ¬ (lpm.entry none i).extEntry = true then none
          else some (tbl8Put (lpm.setEntry none i new) t)) = _
        rw [if_neg (not_not.mpr h.ext)]
      · have hcount := h.exact he u j b hu
        rw [if_neg (fun hc => nomatch hc), add_zero] at hcount
        exact hcount
    | some u =>
      dsimp only
      by_cases hzero : (lpm.tbl8Hdrs u).refCnt - 1 = 0
      · obtain ⟨j, rfl, hu, hchildless, hup⟩ := h.up (groupOf_eq_none.mpr (by simp [hnew])) hsaid
          (refCnt_eq_one hzero)
        obtain ⟨lpm₃, loc', heq, hdone⟩ :=
          ih (lt_of_succ_lt_succ hfuel) (fun j' hj' => hsaid j' (lt_succ_of_lt hj')) hup
        obtain ⟨hext, hremoved⟩ := h.resume hnew hu hchildless hdone
        refine ⟨_, loc', ?_, hremoved⟩
        rw [if_pos hzero, hzero, heq]
        show (if ¬ (lpm₃.entry (some u) i).extEntry = true then none
          else some (tbl8Put (lpm₃.setEntry (some u) i new) t)) = _
        rw [if_neg (not_not.mpr hext)]
      · refine ⟨tbl8Put ((lpm.setRefCnt u ((lpm.tbl8Hdrs u).refCnt - 1)).setEntry (some u) i new) t,
          loc, ?_, h.last (sameRules_setRefCnt lpm u _) rfl rfl (entry_setEntry_setRefCnt ..)
            (owner_setRefCnt lpm u _) (fun he w j b hw => ?_) (fun he w j b hw => ?_)⟩
        · rw [if_neg hzero]
          show (if ¬ (lpm.entry (some u) i).extEntry = true then none else some _) = _
          rw [if_neg (not_not.mpr h.ext)]
        · have hcount := h.exact he w j b hw
          rw [refCnt_setRefCnt]
          by_cases hwu : w = u
          · subst hwu
            rw [if_pos rfl] at hcount ⊢
            exact toNat_pred hcount
          · rw [if_neg hwu]
            rw [if_neg (fun hc => hwu (some.inj hc).symm), add_zero] at hcount
            exact hcount
        · by_cases hwu : w = u
          · -- a counter that is not at zero counts something
            subst hwu
            have hcount := h.exact he w j b hw
            rw [if_pos rfl] at hcount
            refine pos_of_ne_zero (fun hc => hzero ?_)
            rw [hc] at hcount
            exact UInt32.toNat_inj.mp (toNat_pred hcount)
          · exact h.used he w j b hw (fun hc => hwu (some.inj hc).symm)

end

/-! ## The whole deletion -/

/-- **The groups that go with a rule** can be spared: they have one reference. -/
def Spares (lpm : RteLpm6) (loc : ℕ → Option (ℕ × ℕ)) (d p : ℕ) : Prop :=
  ∀ t k, k < level d → loc t = some (k, block k p) → Falls lpm.tbl8Hdrs loc p k (level d) →
    rulesOf lpm k (block k p) + childrenOf lpm.entry t = 1

theorem Counts.spares (h : Counts lpm loc (rulesOf lpm) none) (d p : ℕ) : Spares lpm loc d p := by
  intro t k hk ht hfalls
  rw [← h.exact t k _ ht, hfalls t k (le_refl k) hk ht]
  rfl

theorem rteLpm6Delete_of_depth {depth : UInt8} (lpm : RteLpm6) (ip : RteIpv6Addr)
    (hdepth : 1 ≤ depth.toNat ∧ depth.toNat ≤ 128) :
    rteLpm6Delete lpm ip depth
      = if (ruleDelete lpm (rteIpv6AddrMask ip depth.toNat) depth).1 < 0 then
          some (-enoent, (ruleDelete lpm (rteIpv6AddrMask ip depth.toNat) depth).2)
        else
          let lpm := (ruleDelete lpm (rteIpv6AddrMask ip depth.toNat) depth).2
          (ruleFindRange lpm (rteIpv6AddrMask ip depth.toNat) depth.toNat).bind (fun r =>
            let newTblEntry :=
              match ruleFindLessSpecific lpm depth.toNat (rteIpv6AddrMask ip depth.toNat) with
              | some (depth, nextHop) => tblEntry nextHop.toNat depth true false
              | none => tblEntry 0 0 false false
            match r.1 with
            | none => (deleteRange lpm none r.2.1 r.2.2 depth.toNat newTblEntry).map
                (fun lpm => (0, lpm))
            | some t =>
              let refCnt := (lpm.tbl8Hdrs t).refCnt - 1
              let lpm := lpm.setRefCnt t refCnt
              if refCnt = 0 then (removeTbl 14 lpm t newTblEntry).map (fun lpm => (0, lpm))
              else (deleteRange lpm (some t) r.2.1 r.2.2 depth.toNat newTblEntry).map
                (fun lpm => (0, lpm))) := by
  refine if_neg ?_
  rw [UInt8.lt_iff_toNat_lt, gt_iff_lt, UInt8.lt_iff_toNat_lt]
  show ¬ (depth.toNat < 1 ∨ 128 < depth.toNat)
  omega

theorem Shape.setRefCnt (h : Shape lpm loc M) (t : ℕ) (refCnt : UInt32) :
    Shape (lpm.setRefCnt t refCnt) loc M where
  tree := h.tree
  leaves := h.leaves
  pool := h.pool
  placed := h.placed
  owners u k c hu := by
    rw [(owner_setRefCnt lpm t refCnt u).1, (owner_setRefCnt lpm t refCnt u).2]
    exact h.owners u k c hu
  number := h.number
  clean := h.clean

/-- A rule of the table matters to the shorter ones no more than one that is not. -/
theorem longest_erase_shorter (M : Table ℕ) (d p a : ℕ) :
    longest 128 (M.erase d p) a d = longest 128 M a d :=
  longest_congr_table (fun e he => by rw [Table.erase_of_depth_ne M p (Nat.ne_of_lt he)])

/-- Entries that a rule covers lie below the group in which it ends. -/
theorem below_group_of_covers (h : Tree lpm.entry loc) {p t k : ℕ} (hd : d ≤ 128)
    (hlevel : level d = k + 1) (ht : loc t = some (k, block k p))
    (hchildless : ∀ x < 256, groupOf (lpm.entry (some t) x) = none) {k' c' : ℕ}
    (hcell : Cell loc tbl x k' c') (htbl : tbl ≠ some t) (hdk : d ≤ bits k') :
    trunc 128 d (c' * 2 ^ (128 - bits k')) ≠ p := by
  intro hcov
  have hk' : k + 1 ≤ k' := by
    rw [← hlevel]
    refine Nat.le_of_not_lt (fun hlt => ?_)
    exact absurd (bits_lt_of_lt_level hlt) (Nat.not_lt_of_le hdk)
  have hk13 := h.level_le hcell
  -- the part of the group's block that the entry lies in
  have hpart : c' / 256 ^ (k' - (k + 1)) / 256 = block k p := by
    have hlo := bits_lt_level hlevel
    have hblock : block k (c' * 2 ^ (128 - bits k')) = block k p := by
      rw [← trunc_bits_eq_iff, ← hcov, trunc_trunc (le_of_lt hlo) hd]
    rw [← hblock, ← block_succ_div (by omega), ← block_div hk' hk13, block_mul]
  have hgroup : ∀ w, loc w = some (k, c' / 256 ^ (k' - (k + 1)) / 256) → w = t := fun w hw =>
    h.apart w t _ hw (by rw [hpart]; exact ht)
  rcases lt_or_eq_of_le hk' with hlt | rfl
  · obtain ⟨w, hw⟩ := h.above hcell hlt
    obtain ⟨tbl', x', hcell', hchild⟩ := h.owner w _ _ hw
    cases tbl' with
    | none => exact absurd hcell'.1 (succ_ne_zero k)
    | some u =>
      obtain ⟨hx', j, b, hu, hj, hb⟩ := hcell'
      obtain rfl : k = j := succ_inj.mp hj
      rw [hgroup u (by rw [hu, hb]; congr 2; omega), hchildless x' hx'] at hchild
      cases hchild
  · cases tbl with
    | none => exact absurd hcell.1 (succ_ne_zero k)
    | some u =>
      obtain ⟨hx, j, b, hu, hj, hb⟩ := hcell
      obtain rfl : k = j := succ_inj.mp hj
      refine htbl (congrArg some (hgroup u ?_))
      rw [hu, hb, Nat.sub_self, Nat.pow_zero, Nat.div_one]
      congr 2
      omega

theorem eq_of_childrenOf_le_one {T : Option ℕ → ℕ → RteLpm6TblEntry} {t y : ℕ}
    (h : childrenOf T t ≤ 1) (hx : x < 256) (hx' : groupOf (T (some t) x) ≠ none) (hy : y < 256)
    (hy' : groupOf (T (some t) y) ≠ none) : x = y := by
  refine card_le_one.mp h x ?_ y ?_
  · exact mem_filter.mpr ⟨mem_range.mpr hx, isSome_iff_ne_none.mpr hx'⟩
  · exact mem_filter.mpr ⟨mem_range.mpr hy, isSome_iff_ne_none.mpr hy'⟩

/-- **The group of a deleted rule is removed**, if the rule was its last
reference. -/
theorem removeGroup_spec {Exact : Prop} {cnt₀ cnt : ℕ → ℕ → ℕ} (h : Shape lpm loc M) (hM : Keyed M)
    {p t k : ℕ} (hrule : M d p = some v) (hd : d ≤ 128) (hlevel : level d = k + 1)
    (ht : loc t = some (k, block k p)) (hone : (lpm.tbl8Hdrs t).refCnt = 1)
    (hcnt : ∀ j b, cnt₀ j b = cnt j b + if level d = j + 1 ∧ block j p = b then 1 else 0)
    (hends : ∀ j b, cnt j b = 0 → ∀ e q u, (M.erase d p) e q = some u → level e = j + 1 →
      block j q ≠ b) (hspares : ∀ w j, j < level d → loc w = some (j, block j p) →
      Falls lpm.tbl8Hdrs loc p j (level d) → cnt₀ j (block j p) + childrenOf lpm.entry w = 1)
    (hcounts : Exact → Counts lpm loc cnt₀ none) :
    ∃ lpm' loc', removeTbl 14 (lpm.setRefCnt t 0) t (leafEntry (longest 128 M p d)) = some lpm'
      ∧ Shape lpm' loc' (M.erase d p) ∧ (Exact → Counts lpm' loc' cnt none)
      ∧ SameRules lpm lpm' := by
  have hk13 := (h.tree.bound t k _ ht).1
  have hlo := bits_lt_level hlevel
  have hM' : Keyed (M.erase d p) := hM.erase d p
  have hsaid : ∀ j, j ≤ k → Bare (M.erase d p) j (block j p) →
      Says (M.erase d p) j (block j p) (leafEntry (longest 128 M p d)) := by
    intro j hj hbare
    rw [← longest_erase_shorter M d p p]
    exact says_of_bare hM' (by omega) hbare (lt_of_le_of_lt (bits_mono hj) hlo)
  -- the group has no reference but the rule
  have huniq : ∀ w, loc w = some (k, block k p) → w = t := fun w hw => h.tree.apart w t _ hw ht
  have hone' := hspares t k (by omega) ht (by
    rw [hlevel]
    exact (Falls.refl _ _ p k).succ hone huniq)
  rw [hcnt, if_pos ⟨hlevel, rfl⟩] at hone'
  have hchildless : ∀ x < 256, groupOf (lpm.entry (some t) x) = none :=
    childrenOf_eq_zero_iff.mp (by omega)
  have hbare : Bare (M.erase d p) k (block k p) :=
    bare_of_parts hk13
      (fun x hx => (h.leaves _ _ _ _ (cell_group ht hx) (hchildless x hx)).2.erase d p)
      (hends k _ (by omega))
  have hcnt' : ∀ w j b, w ≠ t → loc w = some (j, b) → cnt₀ j b = cnt j b := by
    intro w j b hwt hw
    rw [hcnt, if_neg, add_zero]
    rintro ⟨hj, rfl⟩
    obtain rfl : k = j := by omega
    exact hwt (h.tree.apart w t _ hw ht)
  have hremoving : Removing Exact (lpm.setRefCnt t 0) (update loc t none) (M.erase d p) cnt
      (vacant loc lpm.numberTbl8s) (fun _ => False) p t (lpm.tbl8Hdrs t).ownerTblInd
      (lpm.tbl8Hdrs t).ownerEntryInd k (leafEntry (longest 128 M p d)) := by
    refine Removing.of_group (groupOf_leafEntry _) (fun _ _ _ _ => rfl) h.tree h.leaves
      (fun tbl x k' c' hcell htbl hleaf hs => ?_) ht hchildless (hsaid k (le_refl k) hbare) h.pool
      (Finset.Subset.refl _) h.placed h.owners (fun w hw hloc _ x hx => ?_)
      (fun he w j b hwt hw => ?_) (fun he w j b hwt hw => ?_) (fun w j hj hw hfalls => ?_)
    · exact hs.erase (fun hdk => below_group_of_covers h.tree hd hlevel ht hchildless hcell htbl hdk)
    · rcases hloc with hloc | rfl
      · exact h.clean w hw hloc x hx
      · exact h.not_ext (cell_group ht hx) (hchildless x hx)
    · rw [(hcounts he).exact w j b hw, hcnt' w j b hwt hw]
    · rw [← hcnt' w j b hwt hw]
      exact (hcounts he).used w j b hw (fun hc => nomatch hc)
    · -- the reference of a group above is the next group of the path
      have hsum := hspares w j (by omega) hw (by
        rw [hlevel]
        exact hfalls.succ hone huniq)
      have hj13 : j < 13 := by omega
      have hpath : Cell loc (some w) (block (j + 1) p % 256) (j + 1) (block (j + 1) p) := by
        have hcell := cell_group hw (mod_lt (block (j + 1) p) (show 0 < 256 by decide))
        rw [← block_succ_div hj13, div_add_mod'] at hcell
        exact hcell
      obtain ⟨w', hgroup, -⟩ := h.group_of_deep hrule (bits_lt_of_lt_level (by omega)) hpath
      have hpos := childrenOf_pos hpath.1 hgroup
      refine ⟨fun x hx hne => ?_, ?_⟩
      · have hx' : x = block (j + 1) p % 256 :=
          eq_of_childrenOf_le_one (by omega) hx hne hpath.1 (by rw [hgroup]; exact some_ne_none _)
        rw [hx', ← block_succ_div hj13, div_add_mod']
      · refine hends j _ ?_
        have hle := hcnt j (block j p)
        omega
  obtain ⟨lpm', loc', heq, hdone⟩ := removeTbl_spec (extEntry_leafEntry _) 14 (by omega)
    (fun j hj => hsaid j (le_of_lt hj)) hremoving
  have hfewer : ∀ u x, loc' u = some x → loc u = some x := by
    intro u x hu
    have hu' := hdone.fewer u x hu
    by_cases hut : u = t
    · rw [hut, update_self] at hu'
      cases hu'
    · rw [update_of_ne hut] at hu'
      exact hu'
  have hoff : ∀ u, loc u = none → loc' u = none := by
    intro u hu
    cases hloc : loc' u with
    | none => rfl
    | some x =>
      rw [hfewer u x hloc] at hu
      cases hu
  have htoff : loc' t = none := by
    cases hloc : loc' t with
    | none => rfl
    | some x =>
      have hc := hdone.fewer t x hloc
      rw [update_self] at hc
      cases hc
  have hnum : lpm'.numberTbl8s = lpm.numberTbl8s := hdone.rules.numberTbl8s
  refine ⟨lpm', loc', heq, ⟨hdone.tree, hdone.leaves, ?_, fun u x hu => ?_, hdone.owners, ?_,
    fun u hu hloc x hx => ?_⟩, hdone.counts, (sameRules_setRefCnt lpm t 0).trans hdone.rules⟩
  · have hset : vacant loc lpm.numberTbl8s ∪ insert t (vacant loc' lpm.numberTbl8s
        \ vacant (update loc t none) lpm.numberTbl8s) = vacant loc' lpm.numberTbl8s := by
      rw [vacant_update_none (h.placed t _ ht)]
      ext u
      simp only [mem_union, mem_insert, mem_sdiff, mem_vacant]
      constructor
      · rintro (⟨hlt, hu⟩ | rfl | ⟨hu, -⟩)
        · exact ⟨hlt, hoff u hu⟩
        · exact ⟨h.placed u _ ht, htoff⟩
        · exact hu
      · rintro ⟨hlt, hu⟩
        by_cases hut : u = t
        · exact Or.inr (Or.inl hut)
        · by_cases hloc : loc u = none
          · exact Or.inl ⟨hlt, hloc⟩
          · exact Or.inr (Or.inr ⟨⟨hlt, hu⟩, fun hc => hc.elim hut (fun hc => hloc hc.2)⟩)
    rw [hnum, ← hset]
    exact hdone.pool
  · rw [hnum]
    exact h.placed u x (hfewer u x hu)
  · rw [hnum]
    exact h.number
  · rw [hnum] at hu
    exact hdone.clean u hu hloc (fun hc => hc) x hx

/-- **What `rte_lpm6_delete` does**, where the groups on the path of the rule
can be spared. It fails if there is no such rule, and then changes nothing. -/
theorem rteLpm6Delete_spec (Exact : Prop) (hrules : RulesShow lpm M) (hshape : Shape lpm loc M)
    (hcounts : Exact → Counts lpm loc (rulesOf lpm) none) (ip : RteIpv6Addr) {depth : UInt8}
    (hdepth : 1 ≤ depth.toNat ∧ depth.toNat ≤ 128)
    (hspares : (M depth.toNat (trunc 128 depth.toNat ip.toNat)).isSome →
      Spares lpm loc depth.toNat (trunc 128 depth.toNat ip.toNat)) :
    (M depth.toNat (trunc 128 depth.toNat ip.toNat) = none
        ∧ rteLpm6Delete lpm ip depth = some (-enoent, lpm))
    ∨ ∃ lpm' loc', (M depth.toNat (trunc 128 depth.toNat ip.toNat)).isSome
        ∧ rteLpm6Delete lpm ip depth = some (0, lpm')
        ∧ RulesShow lpm' (M.erase depth.toNat (trunc 128 depth.toNat ip.toNat))
        ∧ Shape lpm' loc' (M.erase depth.toNat (trunc 128 depth.toNat ip.toNat))
        ∧ (Exact → Counts lpm' loc' (rulesOf lpm') none) := by
  have hip := trunc_toNat_mask ip hdepth.2
  have hM := hrules.keyed
  rw [rteLpm6Delete_of_depth lpm ip hdepth]
  simp only [← toNat_mask ip hdepth.2] at hspares ⊢
  rcases ruleDelete_spec hrules (rteIpv6AddrMask ip depth.toNat) depth with
    ⟨hnone, hdel⟩ | ⟨lpm₁, hsome, hdel, hrules₁, htbl, hsame⟩
  · left
    rw [hdel]
    exact ⟨hnone, rfl⟩
  · right
    obtain ⟨v, hrule⟩ := isSome_iff_exists.mp hsome
    have hshape₁ := hshape.congr hsame
    obtain ⟨tbl, i, hrange, hcell⟩ := ruleFindRange_spec hshape₁ hrule hdepth.2 hip
    have hentry := lessSpecific_entry hrules₁ ip hdepth.2
    have hless : longest 128 (M.erase depth.toNat (rteIpv6AddrMask ip depth.toNat).toNat) ip.toNat
        depth.toNat = longest 128 M (rteIpv6AddrMask ip depth.toNat).toNat depth.toNat := by
      rw [longest_erase_shorter]
      refine longest_congr hdepth.2 (le_succ _) ?_
      rw [toNat_mask ip hdepth.2, trunc_idem]
    rw [hless] at hentry
    -- the rules that end in a group, before and after the rule was deleted
    have hcnt : ∀ j b, rulesOf lpm j b = rulesOf lpm₁ j b
        + if level depth.toNat = j + 1 ∧ block j (rteIpv6AddrMask ip depth.toNat).toNat = b then 1
          else 0 := by
      intro j b
      have hcount := countP_filter_key hrules (EndsIn j b) hsome
      unfold rulesOf
      rw [htbl, ← hcount]
      congr 1
      refine if_congr ?_ rfl rfl
      rw [EndsIn, decide_eq_true_iff]
    have hends : ∀ j b, rulesOf lpm₁ j b = 0 → ∀ e q u,
        (M.erase depth.toNat (rteIpv6AddrMask ip depth.toNat).toNat) e q = some u →
        level e = j + 1 → block j q ≠ b := by
      intro j b hzero e q u hq he hb
      obtain ⟨r, hr, rfl, rfl, -⟩ := (hrules₁.shows e q u).mp hq
      refine List.countP_eq_zero.mp hzero r hr (decide_eq_true ?_)
      exact ⟨he, hb⟩
    have hcounts₁ : Exact → Counts lpm₁ loc (rulesOf lpm) none := by
      intro he
      have hcounts := hcounts he
      refine ⟨fun t k c ht => ?_, fun t k c ht hne => ?_⟩
      · rw [hsame.tbl8Hdrs, hsame.entry]
        exact hcounts.exact t k c ht
      · rw [hsame.entry]
        exact hcounts.used t k c ht hne
    rw [hdel]
    dsimp only
    rw [if_neg (by decide), hrange, bind_some]
    dsimp only
    rw [hentry]
    generalize (rteIpv6AddrMask ip depth.toNat).toNat = p at *
    cases tbl with
    | none =>
      obtain ⟨lpm', heq, hshape', hrec, hchildren⟩ :=
        deleteRange_shape hshape₁ hrule hdepth.2 hip hcell
      refine ⟨lpm', loc, hsome, by dsimp only; rw [heq]; rfl, hrules₁.sameRules hrec.sameRules,
        hshape', fun he => ?_⟩
      have hcnt' : rulesOf lpm' = rulesOf lpm := by
        funext j b
        rw [hcnt, if_neg, add_zero]
        · unfold rulesOf
          rw [hrec.rulesTbl]
        · rintro ⟨hj, -⟩
          exact absurd (hcell.1.symm.trans hj) (succ_ne_zero j).symm
      rw [hcnt']
      refine ⟨fun t k c ht => ?_, fun t k c ht hne => ?_⟩
      · rw [hrec.tbl8Hdrs, hchildren t k c ht]
        exact (hcounts₁ he).exact t k c ht
      · rw [hchildren t k c ht]
        exact (hcounts₁ he).used t k c ht hne
    | some t =>
      have hcellt := hcell
      obtain ⟨hi, k, b, ht, hlevel, hb⟩ := hcellt
      obtain ⟨-, rfl⟩ := (table_of_rule_iff hshape₁.tree hdepth.2 hcell ht).mp rfl
      dsimp only
      by_cases hzero : (lpm₁.tbl8Hdrs t).refCnt - 1 = 0
      · obtain ⟨lpm', loc', heq, hshape', hcounts', hrules'⟩ := removeGroup_spec hshape₁ hM hrule
          hdepth.2 hlevel ht (refCnt_eq_one hzero) hcnt hends
          (fun w j hj hw hfalls => by
            rw [hsame.entry]
            rw [hsame.tbl8Hdrs] at hfalls
            exact hspares hsome w j hj hw hfalls) hcounts₁
        refine ⟨lpm', loc', hsome, ?_, hrules₁.sameRules hrules', hshape', fun he => ?_⟩
        · rw [if_pos hzero, hzero, heq]
          rfl
        · have hcnt' : rulesOf lpm' = rulesOf lpm₁ := by
            funext j b
            unfold rulesOf
            rw [hrules'.rulesTbl]
          rw [hcnt']
          exact hcounts' he
      · obtain ⟨lpm', heq, hshape', hrec, hchildren⟩ :=
          deleteRange_shape (hshape₁.setRefCnt t ((lpm₁.tbl8Hdrs t).refCnt - 1)) hrule hdepth.2 hip
            hcell
        refine ⟨lpm', loc, hsome, ?_, hrules₁.sameRules ((sameRules_setRefCnt lpm₁ t _).trans
          hrec.sameRules), hshape', fun he => ?_⟩
        · rw [if_neg hzero, heq]
          rfl
        · have hcnt' : rulesOf lpm' = rulesOf lpm₁ := by
            funext j b
            unfold rulesOf
            rw [hrec.rulesTbl]
            rfl
          rw [hcnt']
          have hexact := (hcounts₁ he).exact t k _ ht
          rw [hcnt, if_pos ⟨hlevel, rfl⟩] at hexact
          have hpred := toNat_pred (x := (lpm₁.tbl8Hdrs t).refCnt)
            (n := rulesOf lpm₁ k (block k p) + childrenOf lpm₁.entry t) (by omega)
          have hother : ∀ u j c, u ≠ t → loc u = some (j, c) → rulesOf lpm j c = rulesOf lpm₁ j c := by
            intro u j c hut hu
            rw [hcnt, if_neg, add_zero]
            rintro hc
            exact hut (some.inj
              ((table_of_rule_iff hshape₁.tree hdepth.2 hcell hu).mpr hc)).symm
          refine ⟨fun u j c hu => ?_, fun u j c hu _ => ?_⟩
          · rw [hrec.tbl8Hdrs, hchildren u j c hu, refCnt_setRefCnt, entry_setRefCnt]
            by_cases hut : u = t
            · subst hut
              obtain ⟨rfl, rfl⟩ := Prod.mk.inj (some.inj (hu.symm.trans ht))
              rw [if_pos rfl]
              exact hpred
            · rw [if_neg hut, (hcounts₁ he).exact u j c hu, hother u j c hut hu]
          · rw [hchildren u j c hu, entry_setRefCnt]
            by_cases hut : u = t
            · subst hut
              obtain ⟨rfl, rfl⟩ := Prod.mk.inj (some.inj (hu.symm.trans ht))
              refine pos_of_ne_zero (fun hc => hzero ?_)
              rw [hc] at hpred
              exact UInt32.toNat_inj.mp hpred
            · rw [← hother u j c hut hu]
              exact (hcounts₁ he).used u j c hu (fun hc => by cases hc)

end Lpm6
