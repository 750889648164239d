import DpdkStudy.Lpm6.Groups
import Mathlib.Algebra.Order.Interval.Finset.SuccPred
import Mathlib.Algebra.Order.SuccPred
import Mathlib.Data.Nat.SuccPred

/-!
# Additions to the IPv6 LPM table

An addition goes down the entries of its prefix, attaches a group to each entry
that has none until it has come to the level at which the rule ends
(`addStep_descend`), and walks over the entries of the rule there
(`addStep_last`). The simulation that comes first counts the entries without a
group (`totalNeed_eq`), so that the pool does not run out in between
(`addBody_spec`).

An addition succeeds if there are groups enough, and room for the rule. It then
puts the tables in shape for the table with the rule, and takes as many groups
as the simulation has counted (`rteLpm6Add_spec`).
-/

open Function Finset

namespace Lpm6

open Net Prefix Levels Pool

variable {lpm : RteLpm6} {loc : ℕ → Option (ℕ × ℕ)} {M : Table ℕ}

variable {Exact : Prop} {cnt : ℕ → ℕ → ℕ} {tbl : Option ℕ} {K bytes d firstByte i k p t : ℕ}
  {ip : RteIpv6Addr}

/-! ## Going down -/

theorem copy_leafEntry (o : Option (ℕ × ℕ)) :
    (if ¬ (leafEntry o).valid = true then zeroEntry
      else tblEntry (leafEntry o).nextHop (leafEntry o).depth true false) = leafEntry o := by
  cases o with
  | none => rfl
  | some r => simp [leafEntry, tblEntry]

/-- One step down: the entry has a group, or gets one. -/
theorem addStep_descend (nextHop : ℕ) (isNewRule : Bool) (h : Shape lpm loc M) (hM : Keyed M)
    (hcounts : Exact → Counts lpm loc cnt tbl) (hbare : Exact → ∀ k c, Bare M k c → cnt k c = 0)
    (hcnt : Exact → ∀ k c, cnt k c ≤ 2304) (hcell : Cell loc tbl i k (block k p)) (hk : k < 13)
    (hp : p < 2 ^ 128) {depth : ℕ} (hidx : getBitshift ip firstByte bytes = i)
    (hbits : (bytes + firstByte - 1) * 8 = bits k) (hdepth : bits k < depth)
    (hroom : groupOf (lpm.entry tbl i) = none → lpm.tbl8PoolPos < lpm.numberTbl8s) :
    ∃ t lpm' loc', addStep lpm tbl ip bytes firstByte depth nextHop isNewRule
        = some (1, some t, lpm')
      ∧ loc' t = some (k, block k p) ∧ Shape lpm' loc' M
      ∧ (Exact → Counts lpm' loc' cnt (some t)) ∧ SameRules lpm lpm'
      ∧ (groupOf (lpm.entry tbl i) = none →
        (loc t = none ∧ loc' = update loc t (some (k, block k p)))
          ∧ lpm'.tbl8PoolPos = lpm.tbl8PoolPos + 1)
      ∧ (groupOf (lpm.entry tbl i) = some t ∨ groupOf (lpm.entry tbl i) = none)
      ∧ (groupOf (lpm.entry tbl i) ≠ none → lpm' = lpm ∧ loc' = loc) := by
  have hin : ∀ u, tbl = some u → i < 256 := by
    rintro u rfl
    exact hcell.1
  unfold addStep
  dsimp only
  rw [hidx, hbits, if_neg (Nat.not_le_of_lt hdepth)]
  cases hgroup : groupOf (lpm.entry tbl i) with
  | some t =>
    obtain ⟨⟨hvalid, hext⟩, hnext⟩ := groupOf_eq_some.mp hgroup
    have hloc := h.tree.below tbl i k _ t hcell hgroup
    have hr : (if ¬ (lpm.entry tbl i).valid = true then newTbl8 lpm tbl i zeroEntry
        else if ¬ (lpm.entry tbl i).extEntry = true then
          newTbl8 lpm tbl i (tblEntry (lpm.entry tbl i).nextHop (lpm.entry tbl i).depth true false)
        else ((0 : Int), lpm)) = (0, lpm) := by
      rw [if_neg (not_not.mpr hvalid), if_neg (not_not.mpr hext)]
    refine ⟨t, lpm, loc, ?_, hloc, h, fun he => ⟨(hcounts he).exact, fun u k' c' hu hne => ?_⟩,
      SameRules.refl lpm, fun hc => (nomatch hc), Or.inl rfl, fun _ => ⟨rfl, rfl⟩⟩
    · rw [hr, if_neg (by simp), hnext]
    · by_cases htu : tbl = some u
      · -- the group of the entry is one of those that its own group counts
        subst htu
        have hpos := childrenOf_pos hcell.1 hgroup
        omega
      · exact (hcounts he).used u k' c' hu htu
  | none =>
    have hsaid := h.leaves tbl i k _ hcell hgroup
    have hpos := hroom hgroup
    obtain ⟨hfree, -⟩ := h.pool.get hpos
    obtain ⟨hlt, hvacant⟩ := mem_vacant.mp hfree
    have htbl : tbl ≠ some (lpm.tbl8Pool lpm.tbl8PoolPos) := by
      rintro rfl
      obtain ⟨-, j, b, hloc, -⟩ := hcell
      rw [hvacant] at hloc
      cases hloc
    obtain ⟨lpm', heq, hnew⟩ := newTbl8_eq lpm (lpm.entry tbl i) hpos hin
      (lt_of_lt_of_le hlt h.number) htbl
    obtain ⟨-, hshape⟩ := h.newTbl8 hM hcell hgroup hk (block_lt (Nat.le_of_lt hk) hp) hpos hnew
    have hr : (if ¬ (lpm.entry tbl i).valid = true then newTbl8 lpm tbl i zeroEntry
        else if ¬ (lpm.entry tbl i).extEntry = true then
          newTbl8 lpm tbl i (tblEntry (lpm.entry tbl i).nextHop (lpm.entry tbl i).depth true false)
        else ((0 : Int), lpm)) = (0, lpm') := by
      have hext := h.not_ext hcell hgroup
      have hcopy := copy_leafEntry (longest 128 M (block k p * 2 ^ (128 - bits k)) (bits k + 1))
      rw [← hsaid.1] at hcopy
      rw [← heq]
      split
      · next hvalid =>
        rw [if_pos hvalid] at hcopy
        rw [hcopy]
      · next hvalid =>
        rw [if_neg hvalid] at hcopy
        rw [if_pos (by simp [hext]), hcopy]
    refine ⟨lpm.tbl8Pool lpm.tbl8PoolPos, lpm', update loc _ (some (k, block k p)), ?_,
      update_self .., hshape,
      fun he => (hcounts he).newTbl8 hcell hgroup hvacant (hbare he _ _ hsaid.2) (hcnt he) hnew,
      hnew.rules, fun _ => ⟨⟨hvacant, rfl⟩, hnew.pos⟩, Or.inr rfl, fun hc => absurd rfl hc⟩
    rw [hr, if_neg (by simp)]
    dsimp only
    rw [(groupOf_eq_some.mp hnew.entry).2]

/-- The last step: the walk over the entries of the rule. -/
theorem addStep_last (h : Shape lpm loc M) {cnt' : ℕ → ℕ → ℕ}
    (hcounts : Exact → Counts lpm loc cnt tbl) (hcnt : Exact → ∀ k c, cnt k c ≤ 2304) {v : ℕ}
    (hd : d ≤ 128) (hp : trunc 128 d p = p) (hcell : Cell loc tbl i (level d) (block (level d) p))
    {isNewRule : Bool} (hidx : getBitshift ip firstByte bytes = i)
    (hbits : (bytes + firstByte - 1) * 8 = bits (level d)) (hnew : Exact → ∀ k c, cnt' k c = cnt k c
      + if isNewRule = true ∧ (level d = k + 1 ∧ block k p = c) then 1 else 0)
    (hold : Exact → ∀ k, isNewRule = false → level d = k + 1 → 0 < cnt k (block k p)) :
    ∃ lpm', addStep lpm tbl ip bytes firstByte d v isNewRule = some (0, none, lpm')
      ∧ Shape lpm' loc (M.insert d p v) ∧ (Exact → Counts lpm' loc cnt' none)
      ∧ SameRules lpm lpm' ∧ lpm'.tbl8PoolPos = lpm.tbl8PoolPos := by
  have hleaf : groupOf (tblEntry v d true false) = none := groupOf_leafEntry (some (d, v))
  obtain ⟨lpm₁, heq, hrec, hmap⟩ := expandRange_spec (x := block (level d) p) d hleaf
    h.tree (cells_of_rule hd hp hcell)
  have hshape : Shape lpm₁ loc (M.insert d p v) :=
    h.mapped hrec (fun e he => groupOf_overwrite hleaf he) hmap (h.insert_leaves hd hp hcell hmap)
  have hshl : 1 <<< (bits (level d) - d) = 2 ^ (bits (level d) - d) := by
    rw [Nat.shiftLeft_eq, Nat.one_mul]
  have hstep : addStep lpm tbl ip bytes firstByte d v isNewRule
      = some (0, none, if isNewRule then lpm₁.incRefCnt tbl else lpm₁) := by
    unfold addStep
    dsimp only
    rw [hidx, hbits, if_pos (le_bits_level d), hshl, heq]
    rfl
  have hchildren : ∀ u k c, loc u = some (k, c) →
      childrenOf lpm₁.entry u = childrenOf lpm.entry u := fun u k c hu =>
    childrenOf_mapped hmap (fun e he => groupOf_overwrite hleaf he) hu
  have hends : ∀ u k c, loc u = some (k, c) →
      (tbl = some u ↔ level d = k + 1 ∧ block k p = c) := fun u k c hu =>
    table_of_rule_iff h.tree hd hcell hu
  have hnew' : Exact → ∀ u k c, loc u = some (k, c) →
      cnt' k c = cnt k c + if isNewRule = true ∧ tbl = some u then 1 else 0 := by
    intro he u k c hu
    rw [hnew he]
    congr 1
    exact if_congr (and_congr_right (fun _ => (hends u k c hu).symm)) rfl rfl
  have hcounts' : Exact → Counts (if isNewRule then lpm₁.incRefCnt tbl else lpm₁) loc cnt' none := by
    intro he
    have hentry : (if isNewRule then lpm₁.incRefCnt tbl else lpm₁).entry = lpm₁.entry := by
      split
      · exact entry_incRefCnt lpm₁ tbl
      · rfl
    refine ⟨fun u k c hu => ?_, fun u k c hu _ => ?_⟩
    · have hexact := (hcounts he).exact u k c hu
      have hle := hcnt he k c
      have hle' := childrenOf_le (T := lpm.entry) (t := u)
      rw [hentry, hchildren u k c hu, hnew' he u k c hu]
      cases isNewRule with
      | false =>
        rw [if_neg Bool.false_ne_true, if_neg (by simp), hrec.tbl8Hdrs]
        exact hexact
      | true =>
        rw [if_pos rfl, refCnt_incRefCnt, hrec.tbl8Hdrs]
        by_cases htu : tbl = some u
        · rw [if_pos htu, if_pos ⟨rfl, htu⟩, toNat_succ hexact (by omega)]
          omega
        · rw [if_neg htu, if_neg (fun hc => htu hc.2), UInt32.add_zero]
          exact hexact
    · rw [hentry, hchildren u k c hu, hnew' he u k c hu]
      by_cases htu : tbl = some u
      · cases hrule : isNewRule with
        | true =>
          rw [if_pos ⟨rfl, htu⟩]
          omega
        | false =>
          obtain ⟨hk, rfl⟩ := (hends u k c hu).mp htu
          have hpos := hold he k hrule hk
          omega
      · have hpos := (hcounts he).used u k c hu htu
        omega
  refine ⟨_, hstep, ?_, hcounts', ?_, ?_⟩
  · cases isNewRule with
    | false => exact hshape
    | true =>
      have hsame := sameRules_incRefCnt lpm₁ tbl
      refine ⟨?_, ?_, ?_, ?_, fun t k c ht => ?_, ?_, ?_⟩
      · simpa using hshape.tree
      · simpa using hshape.leaves
      · cases tbl <;> exact hshape.pool
      · cases tbl <;> exact hshape.placed
      · obtain ⟨howner, hind⟩ := owner_incRefCnt lpm₁ tbl t
        rw [if_pos rfl, howner, hind]
        exact hshape.owners t k c ht
      · cases tbl <;> exact hshape.number
      · cases tbl <;> exact hshape.clean
  · cases isNewRule with
    | false => exact hrec.sameRules
    | true => exact hrec.sameRules.trans (sameRules_incRefCnt lpm₁ tbl)
  · cases isNewRule with
    | false => exact hrec.tbl8PoolPos
    | true => cases tbl <;> exact hrec.tbl8PoolPos

/-! ## The simulation -/

open Classical in
/-- The number of levels, from `k` up to `K`, at which a prefix has no group. -/
noncomputable def need (loc : ℕ → Option (ℕ × ℕ)) (p K k : ℕ) : ℕ :=
  ((Finset.Ico k K).filter (fun j => ∀ t, loc t ≠ some (j, block j p))).card

theorem need_self (loc : ℕ → Option (ℕ × ℕ)) (p K : ℕ) : need loc p K K = 0 := by
  simp [need]

theorem need_of_located (hk : k < K) (ht : loc t = some (k, block k p)) :
    need loc p K k = need loc p K (k + 1) := by
  classical
  unfold need
  rw [← insert_Ico_add_one_left_eq_Ico hk, filter_insert, if_neg]
  exact fun hall => hall t ht

theorem need_of_not_located (hk : k < K) (hnone : ∀ t, loc t ≠ some (k, block k p)) :
    need loc p K k = need loc p K (k + 1) + 1 := by
  classical
  unfold need
  rw [← insert_Ico_add_one_left_eq_Ico hk, filter_insert, if_pos hnone,
    card_insert_of_notMem]
  simp

/-- Where an entry has no group, there is none for its block. -/
theorem not_located (h : Tree lpm.entry loc) {c : ℕ} (hcell : Cell loc tbl i k c)
    (hleaf : groupOf (lpm.entry tbl i) = none) (t : ℕ) :
    loc t ≠ some (k, c) := by
  intro ht
  obtain ⟨tbl', i', hcell', hchild⟩ := h.owner t k c ht
  obtain ⟨rfl, rfl⟩ := h.cell_inj hcell hcell'
  rw [hleaf] at hchild
  cases hchild

/-- Below an entry without a group, every level needs one. -/
theorem need_eq_sub (h : Tree lpm.entry loc) (hK : K ≤ 13) (hcell : Cell loc tbl i k (block k p))
    (hleaf : groupOf (lpm.entry tbl i) = none) :
    need loc p K k = K - k := by
  classical
  unfold need
  rw [filter_true_of_mem, Nat.card_Ico]
  intro j hj t ht
  rw [mem_Ico] at hj
  obtain ⟨t', ht'⟩ := h.ancestor ht hj.1
  rw [block_div hj.1 (by omega)] at ht'
  exact not_located h hcell hleaf t' ht'

/-- A group at one level does not help at the deeper ones. -/
theorem need_update {c : ℕ} (ht : loc t = none) :
    need (update loc t (some (k, c))) p K (k + 1) = need loc p K (k + 1) := by
  classical
  unfold need
  congr 1
  refine filter_congr (fun j hj => ?_)
  rw [mem_Ico] at hj
  refine forall_congr' (fun u => not_congr ?_)
  by_cases hu : u = t
  · subst hu
    rw [update_self, ht]
    refine iff_of_false (fun hc => ?_) (fun hc => nomatch hc)
    obtain rfl := (Prod.mk.inj (Option.some.inj hc)).1
    omega
  · rw [update_of_ne hu]

/-- The levels below an entry, as `simulate_add_step` counts them. -/
theorem levels_eq (h : bits k < d) :
    (d - bits k) >>> 3 + (if (d - bits k) &&& 7 ≠ 0 then 1 else 0) = level d - k := by
  have hand : (d - bits k) &&& 7 = (d - bits k) % 8 :=
    Nat.and_two_pow_sub_one_eq_mod (d - bits k) 3
  rw [hand, Nat.shiftRight_eq_div_pow]
  unfold bits at h ⊢
  unfold level
  split <;> split <;> omega

theorem cell_next (hk : k < 13) (ht : loc t = some (k, block k ip.toNat)) :
    Cell loc (some t) (ip.byte (3 + k)).toNat (k + 1) (block (k + 1) ip.toNat) := by
  rw [block_succ hk]
  exact cell_group ht (ip.byte (3 + k)).toNat_lt

/-- The simulation counts the levels without a group. -/
theorem simulate_eq (h : Tree lpm.entry loc) (hd : d ≤ 128) (ip : RteIpv6Addr) (n : ℕ)
    (hn : n + k = 13) (hk : k ≤ level d) (hcell : Cell loc tbl i k (block k ip.toNat))
    (hidx : getBitshift ip firstByte bytes = i) (hbits : (bytes + firstByte - 1) * 8 = bits k) :
    simulateLoop lpm ip d n (simulateAddStep lpm tbl ip bytes firstByte d)
      = need loc ip.toNat (level d) k := by
  induction n generalizing k i bytes firstByte tbl with
  | zero =>
    have hlevel : level d = k := by
      have hle := level_le hd
      omega
    have hdepth : d ≤ bits k := by
      rw [← hlevel]
      exact le_bits_level d
    rw [hlevel, need_self]
    unfold simulateAddStep
    dsimp only
    rw [hbits, if_pos hdepth]
    rfl
  | succ n ih =>
    unfold simulateAddStep
    dsimp only
    rw [hbits, hidx]
    by_cases hlast : level d = k
    · have hdepth : d ≤ bits k := by
        rw [← hlast]
        exact le_bits_level d
      rw [if_pos hdepth, hlast, need_self]
      rfl
    · have hlt : k < level d := Nat.lt_of_le_of_ne hk (Ne.symm hlast)
      have hdepth := bits_lt_of_lt_level hlt
      rw [if_neg (Nat.not_le_of_lt hdepth)]
      cases hgroup : groupOf (lpm.entry tbl i) with
      | none =>
        have hnot : ¬ (lpm.entry tbl i).valid = true ∨ ¬ (lpm.entry tbl i).extEntry = true :=
          not_and_or.mp (groupOf_eq_none.mp hgroup)
        rw [if_pos hnot, need_eq_sub h (level_le hd) hcell hgroup, ← levels_eq hdepth]
        rfl
      | some t =>
        obtain ⟨⟨hvalid, hext⟩, hnext⟩ := groupOf_eq_some.mp hgroup
        have ht := h.below tbl i k _ t hcell hgroup
        have hk13 : k < 13 := by omega
        rw [if_neg (by simp [hvalid, hext]), need_of_located hlt ht, hnext]
        have hidx' : getBitshift ip (16 - n) 1 = (ip.byte (3 + k)).toNat := by
          rw [show 16 - n = 4 + k by omega]
          exact getBitshift_next ip hk13
        have hih := ih (k := k + 1) (by omega) (Nat.succ_le_of_lt hlt) (cell_next hk13 ht) hidx'
          (by unfold bits; omega)
        rw [← hih, simulateLoop, if_pos rfl]
        dsimp only
        rw [Nat.zero_add]

/-- **`totalNeed`** is the number of levels at which the prefix has no group. -/
theorem totalNeed_eq (h : Tree lpm.entry loc) (hd : d ≤ 128) (ip : RteIpv6Addr) :
    totalNeed lpm ip d = need loc ip.toNat (level d) 0 :=
  simulate_eq h hd ip 13 rfl (Nat.zero_le _) (cell_root loc _) (getBitshift_first ip) rfl

/-! ## The whole addition -/

theorem addLoop_zero (ip : RteIpv6Addr) (d v : ℕ) (isNewRule : Bool) (n : ℕ) (tbl : Option ℕ)
    (lpm : RteLpm6) : addLoop ip d v isNewRule n (0, tbl, lpm) = some (0, lpm) := by
  cases n <;> rfl

/-- **From one entry on**, an addition succeeds if there are groups enough for
the levels that have none. -/
theorem addBody_spec {cnt' : ℕ → ℕ → ℕ} (hM : Keyed M)
    (hbare : Exact → ∀ k c, Bare M k c → cnt k c = 0) (hcnt : Exact → ∀ k c, cnt k c ≤ 2304) {v : ℕ}
    (hd : d ≤ 128) (hp : trunc 128 d ip.toNat = ip.toNat) {isNewRule : Bool}
    (hnew : Exact → ∀ k c, cnt' k c = cnt k c
      + if isNewRule = true ∧ (level d = k + 1 ∧ block k ip.toNat = c) then 1 else 0)
    (hold : Exact → ∀ k, isNewRule = false → level d = k + 1 → 0 < cnt k (block k ip.toNat)) (n : ℕ)
    {lpm : RteLpm6} {loc : ℕ → Option (ℕ × ℕ)} (hn : n + k = 13) (h : Shape lpm loc M)
    (hcounts : Exact → Counts lpm loc cnt tbl) (hk : k ≤ level d)
    (hcell : Cell loc tbl i k (block k ip.toNat)) (hidx : getBitshift ip firstByte bytes = i)
    (hbits : (bytes + firstByte - 1) * 8 = bits k)
    (hroom : lpm.tbl8PoolPos + need loc ip.toNat (level d) k ≤ lpm.numberTbl8s) :
    ∃ lpm' loc', ((addStep lpm tbl ip bytes firstByte d v isNewRule).bind
        (fun s => if s.1 < 0 then none else addLoop ip d v isNewRule n s)) = some (0, lpm')
      ∧ Shape lpm' loc' (M.insert d ip.toNat v) ∧ (Exact → Counts lpm' loc' cnt' none)
      ∧ SameRules lpm lpm'
      ∧ lpm'.tbl8PoolPos = lpm.tbl8PoolPos + need loc ip.toNat (level d) k
      ∧ ∀ t j c, loc' t = some (j, c) →
        loc t = some (j, c) ∨ (bits j < d ∧ c = block j ip.toNat) := by
  induction n generalizing lpm loc tbl k i bytes firstByte with
  | zero =>
    have hlevel : level d = k := by
      have hle := level_le hd
      omega
    subst hlevel
    obtain ⟨lpm', heq, hshape, hcounts', hrules, hpos⟩ := addStep_last (v := v) h hcounts hcnt hd
      hp hcell hidx hbits hnew hold
    refine ⟨lpm', loc, ?_, hshape, hcounts', hrules, ?_, fun t j c ht => Or.inl ht⟩
    · rw [heq]
      rfl
    · rw [hpos, need_self, Nat.add_zero]
  | succ n ih =>
    by_cases hlast : level d = k
    · subst hlast
      obtain ⟨lpm', heq, hshape, hcounts', hrules, hpos⟩ := addStep_last (v := v) h hcounts hcnt hd
        hp hcell hidx hbits hnew hold
      refine ⟨lpm', loc, ?_, hshape, hcounts', hrules, ?_, fun t j c ht => Or.inl ht⟩
      · rw [heq]
        exact addLoop_zero ..
      · rw [hpos, need_self, Nat.add_zero]
    · have hlt : k < level d := Nat.lt_of_le_of_ne hk (Ne.symm hlast)
      have hdepth := bits_lt_of_lt_level hlt
      have hk13 : k < 13 := by omega
      have hneed : groupOf (lpm.entry tbl i) = none →
          need loc ip.toNat (level d) k = need loc ip.toNat (level d) (k + 1) + 1 := fun hgroup =>
        need_of_not_located hlt (not_located h.tree hcell hgroup)
      obtain ⟨t, lpm₁, loc₁, heq, ht, hshape, hcounts₁, hrules, hfresh, hor, hkeep⟩ :=
        addStep_descend v isNewRule h hM hcounts hbare hcnt hcell hk13
          ip.toNat_lt hidx hbits hdepth (fun hgroup => by
            have hsucc := hneed hgroup
            omega)
      -- what is needed below is what was needed, less the group of this level
      have hrest : lpm₁.tbl8PoolPos + need loc₁ ip.toNat (level d) (k + 1)
          = lpm.tbl8PoolPos + need loc ip.toNat (level d) k := by
        rcases hor with hgroup | hgroup
        · obtain ⟨rfl, rfl⟩ := hkeep (by rw [hgroup]; exact Option.some_ne_none t)
          rw [need_of_located hlt ht]
        · obtain ⟨⟨hnone, rfl⟩, hpos⟩ := hfresh hgroup
          rw [hpos, need_update hnone, hneed hgroup]
          omega
      have hidx' : getBitshift ip (16 - n) 1 = (ip.byte (3 + k)).toNat := by
        rw [show 16 - n = 4 + k by omega]
        exact getBitshift_next ip hk13
      obtain ⟨lpm', loc', heq', hshape', hcounts', hrules', hpos', hloc'⟩ :=
        ih (k := k + 1) (by omega) hshape hcounts₁ (Nat.succ_le_of_lt hlt) (cell_next hk13 ht) hidx'
          (by unfold bits; omega)
          (by rw [hrest, hrules.numberTbl8s]; exact hroom)
      refine ⟨lpm', loc', ?_, hshape', hcounts', hrules.trans hrules', hpos'.trans hrest,
        fun u j c hu => ?_⟩
      · rw [heq]
        exact heq'
      · rcases hloc' u j c hu with hu' | hu'
        · rcases hor with hgroup | hgroup
          · obtain ⟨-, rfl⟩ := hkeep (by rw [hgroup]; exact Option.some_ne_none t)
            exact Or.inl hu'
          · obtain ⟨⟨-, rfl⟩, -⟩ := hfresh hgroup
            by_cases hut : u = t
            · subst hut
              rw [update_self] at hu'
              obtain ⟨rfl, rfl⟩ := Prod.mk.inj (Option.some.inj hu')
              exact Or.inr ⟨hdepth, rfl⟩
            · rw [update_of_ne hut] at hu'
              exact Or.inl hu'
        · exact Or.inr hu'

theorem rteLpm6Add_of_depth {depth : UInt8} (lpm : RteLpm6) (ip : RteIpv6Addr) (nextHop : UInt32)
    (hdepth : 1 ≤ depth.toNat ∧ depth.toNat ≤ 128) :
    rteLpm6Add lpm ip depth nextHop
      = if simulateAdd lpm (rteIpv6AddrMask ip depth.toNat) depth.toNat < 0 then
          some (simulateAdd lpm (rteIpv6AddrMask ip depth.toNat) depth.toNat, lpm)
        else if (ruleAdd lpm (rteIpv6AddrMask ip depth.toNat) depth nextHop).1 < 0 then
          some (ruleAdd lpm (rteIpv6AddrMask ip depth.toNat) depth nextHop)
        else
          (addStep (ruleAdd lpm (rteIpv6AddrMask ip depth.toNat) depth nextHop).2 none
            (rteIpv6AddrMask ip depth.toNat) 3 1 depth.toNat nextHop.toNat
            (decide ((ruleAdd lpm (rteIpv6AddrMask ip depth.toNat) depth nextHop).1 ≠ 0))).bind
            (fun s => if s.1 < 0 then none
              else addLoop (rteIpv6AddrMask ip depth.toNat) depth.toNat nextHop.toNat
                (decide ((ruleAdd lpm (rteIpv6AddrMask ip depth.toNat) depth nextHop).1 ≠ 0))
                13 s) := by
  refine if_neg ?_
  rw [UInt8.lt_iff_toNat_lt, gt_iff_lt, UInt8.lt_iff_toNat_lt]
  show ¬ (depth.toNat < 1 ∨ 128 < depth.toNat)
  omega

/-- **What `rte_lpm6_add` does**, to rules that show one table of prefixes, and
tables in shape for another, which may be behind. It fails for want of groups
or of room for the rule, and then changes nothing. -/
theorem rteLpm6Add_spec (Exact : Prop) {R : Table ℕ} (hrules : RulesShow lpm R)
    (hshape : Shape lpm loc M) (hM : Keyed M)
    (hexact : Exact → M = R ∧ Counts lpm loc (rulesOf lpm) none) (ip : RteIpv6Addr)
    {depth : UInt8} (hdepth : 1 ≤ depth.toNat ∧ depth.toNat ≤ 128) (nextHop : UInt32) :
    ((lpm.numberTbl8s < lpm.tbl8PoolPos
            + need loc (trunc 128 depth.toNat ip.toNat) (level depth.toNat) 0
          ∨ R depth.toNat (trunc 128 depth.toNat ip.toNat) = none)
        ∧ rteLpm6Add lpm ip depth nextHop = some (-enospc, lpm))
    ∨ ∃ lpm' loc', rteLpm6Add lpm ip depth nextHop = some (0, lpm')
        ∧ RulesShow lpm' (R.insert depth.toNat (trunc 128 depth.toNat ip.toNat) nextHop.toNat)
        ∧ Shape lpm' loc' (M.insert depth.toNat (trunc 128 depth.toNat ip.toNat) nextHop.toNat)
        ∧ (Exact → Counts lpm' loc' (rulesOf lpm') none)
        ∧ lpm'.numberTbl8s = lpm.numberTbl8s
        ∧ lpm'.tbl8PoolPos = lpm.tbl8PoolPos
          + need loc (trunc 128 depth.toNat ip.toNat) (level depth.toNat) 0
        ∧ ∀ t j c, loc' t = some (j, c) → loc t = some (j, c)
          ∨ (bits j < depth.toNat ∧ c = block j (trunc 128 depth.toNat ip.toNat)) := by
  have hip := trunc_toNat_mask ip hdepth.2
  rw [rteLpm6Add_of_depth lpm ip nextHop hdepth]
  simp only [← toNat_mask ip hdepth.2]
  generalize rteIpv6AddrMask ip depth.toNat = maskedIp at hip ⊢
  have hneed := totalNeed_eq hshape.tree hdepth.2 maskedIp
  have hle := hshape.pool.le
  by_cases hroom : lpm.numberTbl8s < lpm.tbl8PoolPos + need loc maskedIp.toNat (level depth.toNat) 0
  · left
    have hsim : simulateAdd lpm maskedIp depth.toNat = -enospc := by
      refine if_pos ?_
      rw [hneed, tbl8Available]
      omega
    rw [hsim]
    exact ⟨Or.inl hroom, rfl⟩
  · have hsim : simulateAdd lpm maskedIp depth.toNat = 0 := by
      refine if_neg ?_
      rw [hneed, tbl8Available]
      omega
    rw [hsim, if_neg (by decide)]
    rcases ruleAdd_spec hrules nextHop hdepth hip with
      ⟨hnone, hadd⟩ | ⟨lpm₁, hadd, hrules₁, htbl, hsame⟩
    · left
      rw [hadd]
      exact ⟨Or.inr hnone, rfl⟩
    · right
      rw [hadd]
      dsimp only
      -- the rules that end in a group, before and after the rule was added
      have hcount : ∀ k c, rulesOf lpm₁ k c = rulesOf lpm k c
          + if (decide ((if (R depth.toNat maskedIp.toNat).isNone = true then (1 : Int) else 0) ≠ 0))
              = true ∧ (level depth.toNat = k + 1 ∧ block k maskedIp.toNat = c) then 1 else 0 := by
        intro k c
        have hcount := countP_hashAdd hrules (EndsIn k c) maskedIp depth nextHop
        unfold rulesOf
        rw [htbl, hcount]
        congr 1
        refine if_congr ?_ rfl rfl
        rw [EndsIn, decide_eq_true_iff, decide_eq_true_iff]
        refine and_congr_left (fun _ => ?_)
        cases (R depth.toNat maskedIp.toNat).isNone <;> simp
      have hold : ∀ k,
          (decide ((if (R depth.toNat maskedIp.toNat).isNone = true then (1 : Int) else 0) ≠ 0))
            = false → level depth.toNat = k + 1 → 0 < rulesOf lpm k (block k maskedIp.toNat) := by
        intro k hold hlevel
        cases hR : R depth.toNat maskedIp.toNat with
        | none =>
          rw [hR] at hold
          exact absurd hold (by decide)
        | some u =>
          obtain ⟨r, hr, hrd, hrip, -⟩ := (hrules.shows _ _ _).mp hR
          refine List.countP_pos_iff.mpr ⟨r, hr, decide_eq_true ?_⟩
          show level r.depth.toNat = k + 1 ∧ block k r.ip.toNat = block k maskedIp.toNat
          rw [hrd, hrip]
          exact ⟨hlevel, rfl⟩
      have hcounts₁ : Exact → Counts lpm₁ loc (rulesOf lpm) none := by
        intro he
        have hcounts := (hexact he).2
        refine ⟨fun t k c ht => ?_, fun t k c ht hne => ?_⟩
        · rw [hsame.tbl8Hdrs, hsame.entry]
          exact hcounts.exact t k c ht
        · rw [hsame.entry]
          exact hcounts.used t k c ht hne
      obtain ⟨lpm', loc', heq, hshape', hcounts', hrules', hpos', hloc'⟩ :=
        addBody_spec (v := nextHop.toNat) hM
          (fun (he : Exact) k c hbare => show rulesOf lpm k c = 0 from
            rulesOf_of_bare hrules ((hexact he).1 ▸ hbare))
          (fun _ => rulesOf_le hrules) hdepth.2 hip (fun _ => hcount) (fun _ => hold) 13 (k := 0) rfl
          (hshape.congr hsame) hcounts₁ (Nat.zero_le _) (cell_root loc _)
          (getBitshift_first maskedIp) rfl
          (by rw [hsame.tbl8PoolPos, hsame.numberTbl8s]; exact Nat.le_of_not_lt hroom)
      have hcnt : rulesOf lpm' = rulesOf lpm₁ := by
        funext k c
        unfold rulesOf
        rw [hrules'.rulesTbl]
      refine ⟨lpm', loc', ?_, hrules₁.sameRules hrules', hshape', fun he => ?_,
        hrules'.numberTbl8s.trans hsame.numberTbl8s, hpos'.trans (by rw [hsame.tbl8PoolPos]), hloc'⟩
      · rw [if_neg (by split <;> decide)]
        exact heq
      · rw [hcnt]
        exact hcounts' he

end Lpm6
