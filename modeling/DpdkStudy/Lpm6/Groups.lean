import DpdkStudy.Lpm6.Shape
import Mathlib.Data.Finset.Prod

/-!
# Groups and their references

The reference counters of the groups are exact (`Counts`) if each of them is
the number of the rules that end in the group and of the groups of its entries
(`childrenOf`). These are few enough for a counter (`rulesOf_le`).

An entry without a group is given one that is filled with the entry
(`newTbl8_eq`): the tables keep their shape (`Shape.newTbl8`), and the counters
stay exact (`Counts.newTbl8`).
-/

open Function Finset

namespace Lpm6

open Net Prefix Levels Pool

variable {c i k : ℕ} {loc : ℕ → Option (ℕ × ℕ)} {lpm lpm' : RteLpm6} {M : Table ℕ} {tbl : Option ℕ}

/-! ## Reference counters -/

/-- The number of the groups that the entries of a group have. -/
def childrenOf (T : Option ℕ → ℕ → RteLpm6TblEntry) (t : ℕ) : ℕ :=
  ((Finset.range 256).filter (fun i => (groupOf (T (some t) i)).isSome)).card

/-- A rule ends in the group of a block. -/
def EndsIn (k c : ℕ) (q : RteIpv6Addr × UInt8) : Bool :=
  decide (level q.2.toNat = k + 1 ∧ block k q.1.toNat = c)

/-- The number of rules that end in the group of a block. -/
def rulesOf (lpm : RteLpm6) (k c : ℕ) : ℕ := lpm.rulesTbl.countP (fun r => EndsIn k c (key r))

/-- **The reference counters are exact**, for a number of rules that end in each
group. All groups have a reference but for one, `cur`: an addition has come to
it, and it may be new. -/
structure Counts (lpm : RteLpm6) (loc : ℕ → Option (ℕ × ℕ)) (cnt : ℕ → ℕ → ℕ)
    (cur : Option ℕ) : Prop where
  exact : ∀ t k c, loc t = some (k, c) →
    (lpm.tbl8Hdrs t).refCnt.toNat = cnt k c + childrenOf lpm.entry t
  used : ∀ t k c, loc t = some (k, c) → cur ≠ some t → 0 < cnt k c + childrenOf lpm.entry t

section

variable {T T' : Option ℕ → ℕ → RteLpm6TblEntry} {t : ℕ}

theorem childrenOf_congr (h : ∀ i < 256, groupOf (T' (some t) i) = groupOf (T (some t) i)) :
    childrenOf T' t = childrenOf T t := by
  unfold childrenOf
  congr 1
  refine filter_congr (fun i hi => ?_)
  rw [h i (mem_range.mp hi)]

theorem childrenOf_attach (hi : i < 256) (hnone : groupOf (T (some t) i) = none)
    (hsome : (groupOf (T' (some t) i)).isSome)
    (h : ∀ j < 256, j ≠ i → groupOf (T' (some t) j) = groupOf (T (some t) j)) :
    childrenOf T' t = childrenOf T t + 1 := by
  unfold childrenOf
  rw [← card_insert_of_notMem (a := i)]
  · congr 1
    ext j
    simp only [mem_filter, mem_range, mem_insert]
    by_cases hj : j = i
    · subst hj
      simp [hi, hsome]
    · constructor
      · rintro ⟨hlt, hj'⟩
        rw [h j hlt hj] at hj'
        exact Or.inr ⟨hlt, hj'⟩
      · rintro (rfl | ⟨hlt, hj'⟩)
        · exact absurd rfl hj
        · rw [← h j hlt hj] at hj'
          exact ⟨hlt, hj'⟩
  · simp [hnone]

theorem childrenOf_eq_zero_iff :
    childrenOf T t = 0 ↔ ∀ i < 256, groupOf (T (some t) i) = none := by
  unfold childrenOf
  rw [card_eq_zero, filter_eq_empty_iff]
  simp

theorem childrenOf_le : childrenOf T t ≤ 256 :=
  (card_filter_le _ _).trans (le_of_eq (card_range 256))

theorem childrenOf_mapped {R : ℕ → ℕ → Prop} {f : RteLpm6TblEntry → RteLpm6TblEntry}
    (hmap : Mapped groupOf loc R f T T') (hf : ∀ e, groupOf e = none → groupOf (f e) = none)
    (ht : loc t = some (k, c)) :
    childrenOf T' t = childrenOf T t := by
  refine childrenOf_congr (fun j hj => ?_)
  have hcell := cell_group ht hj
  by_cases hR : R (k + 1) (c * 256 + j) ∧ groupOf (T (some t) j) = none
  · rw [hmap.leaf _ _ _ _ hcell hR.1 hR.2, hR.2, hf _ hR.2]
  · rw [hmap.other _ _ _ _ hcell hR]

theorem childrenOf_pos {u : ℕ} (hi : i < 256) (h : groupOf (T (some t) i) = some u) :
    0 < childrenOf T t := by
  refine Nat.pos_of_ne_zero (fun hzero => ?_)
  rw [childrenOf_eq_zero_iff.mp hzero i hi] at h
  cases h

end

theorem rulesOf_le (h : RulesShow lpm M) (k c : ℕ) :
    rulesOf lpm k c ≤ 2304 := by
  unfold rulesOf
  rw [List.countP_eq_length_filter]
  -- the depth and the byte of a rule that ends in the group say which one it is
  let code : RteLpm6Rule → ℕ × ℕ := fun r =>
    (r.depth.toNat - bits k, block (k + 1) r.ip.toNat % 256)
  have hmem : ∀ r ∈ lpm.rulesTbl.filter (fun r => EndsIn k c (key r)),
      r ∈ lpm.rulesTbl ∧ level r.depth.toNat = k + 1 ∧ block k r.ip.toNat = c := by
    intro r hr
    obtain ⟨hr, hends⟩ := List.mem_filter.mp hr
    exact ⟨hr, of_decide_eq_true hends⟩
  have hnodup : ((lpm.rulesTbl.filter (fun r => EndsIn k c (key r))).map code).Nodup := by
    have hrules : (lpm.rulesTbl.filter (fun r => EndsIn k c (key r))).Nodup :=
      List.Nodup.filter _ (List.Nodup.of_map key h.once)
    refine List.Nodup.map_on (fun r hr s hs hcode => ?_) hrules
    obtain ⟨hr, hlevel, hblock⟩ := hmem r hr
    obtain ⟨hs, hlevel', hblock'⟩ := hmem s hs
    obtain ⟨hdepth, hbyte⟩ := Prod.mk.inj hcode
    have hlt := bits_lt_level hlevel
    have hlt' := bits_lt_level hlevel'
    have hd : r.depth.toNat = s.depth.toNat := by omega
    have hk : k + 1 ≤ 13 := by
      rw [← hlevel]
      exact level_le (h.depth r hr).1.2
    have hsame : block (k + 1) r.ip.toNat = block (k + 1) s.ip.toNat := by
      have hdiv := block_succ_div (Nat.lt_of_succ_le hk) r.ip.toNat
      have hdiv' := block_succ_div (Nat.lt_of_succ_le hk) s.ip.toNat
      rw [hblock] at hdiv
      rw [hblock'] at hdiv'
      omega
    have hle : r.depth.toNat ≤ bits (k + 1) := by
      rw [← hlevel]
      exact le_bits_level _
    refine h.eq_of_key hr hs (Prod.ext (RteIpv6Addr.toNat_inj ?_) (UInt8.toNat_inj.mp hd))
    show r.ip.toNat = s.ip.toNat
    rw [← (h.depth r hr).2, ← (h.depth s hs).2, hd]
    refine trunc_eq_of_le (by rw [← hd]; exact hle) (bits_le hk) ?_
    exact trunc_bits_eq_iff.mpr hsame
  have hsub : ((lpm.rulesTbl.filter (fun r => EndsIn k c (key r))).map code).toFinset
      ⊆ range 9 ×ˢ range 256 := by
    intro q hq
    obtain ⟨r, hr, rfl⟩ := List.mem_map.mp (List.mem_toFinset.mp hq)
    obtain ⟨-, hlevel, -⟩ := hmem r hr
    have hle := le_bits_level r.depth.toNat
    rw [hlevel] at hle
    refine mem_product.mpr ⟨mem_range.mpr ?_,
      mem_range.mpr (Nat.mod_lt _ (by decide))⟩
    unfold bits at hle
    show r.depth.toNat - bits k < 9
    unfold bits
    omega
  calc (lpm.rulesTbl.filter (fun r => EndsIn k c (key r))).length
      = ((lpm.rulesTbl.filter (fun r => EndsIn k c (key r))).map code).toFinset.card := by
        rw [List.toFinset_card_of_nodup hnodup, List.length_map]
    _ ≤ (range 9 ×ˢ range 256).card := card_le_card hsub
    _ = 2304 := by rw [card_product, card_range, card_range]

theorem rulesOf_of_bare (h : RulesShow lpm M) (hbare : Bare M k c) : rulesOf lpm k c = 0 := by
  unfold rulesOf
  rw [List.countP_eq_zero]
  intro r hr hends
  obtain ⟨hlevel, hblock⟩ : level r.depth.toNat = k + 1 ∧ block k r.ip.toNat = c :=
    of_decide_eq_true hends
  exact hbare _ _ _ (bits_lt_level hlevel) ((h.shows _ _ _).mpr ⟨r, hr, rfl, rfl, rfl⟩) hblock

/-! ## A new group -/

/-- The rules, and the number of groups, are the same. -/
structure SameRules (lpm lpm' : RteLpm6) : Prop where
  maxRules : lpm'.maxRules = lpm.maxRules
  usedRules : lpm'.usedRules = lpm.usedRules
  numberTbl8s : lpm'.numberTbl8s = lpm.numberTbl8s
  rulesTbl : lpm'.rulesTbl = lpm.rulesTbl

theorem SameRules.refl (lpm : RteLpm6) : SameRules lpm lpm := ⟨rfl, rfl, rfl, rfl⟩

theorem SameRules.trans {lpm'' : RteLpm6} (h : SameRules lpm lpm') (h' : SameRules lpm' lpm'') :
    SameRules lpm lpm'' :=
  ⟨h'.maxRules.trans h.maxRules, h'.usedRules.trans h.usedRules,
    h'.numberTbl8s.trans h.numberTbl8s, h'.rulesTbl.trans h.rulesTbl⟩

theorem SameRecords.sameRules (h : SameRecords lpm lpm') :
    SameRules lpm lpm' :=
  ⟨h.maxRules, h.usedRules, h.numberTbl8s, h.rulesTbl⟩

theorem RulesShow.sameRules (h : RulesShow lpm M) (hsame : SameRules lpm lpm') : RulesShow lpm' M :=
  h.congr hsame.rulesTbl hsame.usedRules hsame.maxRules

@[simp] theorem entry_incRefCnt (lpm : RteLpm6) (tbl : Option ℕ) :
    (lpm.incRefCnt tbl).entry = lpm.entry := by
  cases tbl <;> rfl

theorem sameRules_incRefCnt (lpm : RteLpm6) (tbl : Option ℕ) :
    SameRules lpm (lpm.incRefCnt tbl) := by
  cases tbl <;> exact ⟨rfl, rfl, rfl, rfl⟩

theorem owner_incRefCnt (lpm : RteLpm6) (tbl : Option ℕ) (u : ℕ) :
    ((lpm.incRefCnt tbl).tbl8Hdrs u).ownerTblInd = (lpm.tbl8Hdrs u).ownerTblInd
      ∧ ((lpm.incRefCnt tbl).tbl8Hdrs u).ownerEntryInd = (lpm.tbl8Hdrs u).ownerEntryInd := by
  cases tbl with
  | none => exact ⟨rfl, rfl⟩
  | some t =>
    by_cases hu : u = t
    · subst hu
      simp [RteLpm6.incRefCnt, RteLpm6.setRefCnt]
    · simp [RteLpm6.incRefCnt, RteLpm6.setRefCnt, hu]

theorem refCnt_incRefCnt (lpm : RteLpm6) (tbl : Option ℕ) (u : ℕ) :
    ((lpm.incRefCnt tbl).tbl8Hdrs u).refCnt
      = (lpm.tbl8Hdrs u).refCnt + if tbl = some u then 1 else 0 := by
  cases tbl with
  | none => simp [RteLpm6.incRefCnt]
  | some t =>
    by_cases hu : u = t
    · subst hu
      simp [RteLpm6.incRefCnt, RteLpm6.setRefCnt]
    · simp [RteLpm6.incRefCnt, RteLpm6.setRefCnt, hu, Ne.symm hu]

/-- A counter that counts a few references does not wrap. -/
theorem toNat_succ {x : UInt32} {n : ℕ} (h : x.toNat = n) (hn : n < 2 ^ 31) :
    (x + 1).toNat = n + 1 := by
  rw [UInt32.toNat_add, h]
  refine Nat.mod_eq_of_lt ?_
  show n + 1 < 2 ^ 32
  omega

/-- **What a new group is.** -/
structure NewTbl8 (lpm lpm' : RteLpm6) (tbl : Option ℕ) (i : ℕ) (fill : RteLpm6TblEntry)
    (t : ℕ) : Prop where
  entry : groupOf (lpm'.entry tbl i) = some t
  fill : ∀ j < 256, lpm'.entry (some t) j = fill
  frame : ∀ tbl' i', (∀ u, tbl' = some u → i' < 256) → tbl' ≠ some t → ¬ (tbl' = tbl ∧ i' = i) →
    lpm'.entry tbl' i' = lpm.entry tbl' i'
  owner : (lpm'.tbl8Hdrs t).ownerTblInd = tbl ∧ (lpm'.tbl8Hdrs t).ownerEntryInd = i
  refCnt : (lpm'.tbl8Hdrs t).refCnt = 0
  owners : ∀ u, u ≠ t → (lpm'.tbl8Hdrs u).ownerTblInd = (lpm.tbl8Hdrs u).ownerTblInd
    ∧ (lpm'.tbl8Hdrs u).ownerEntryInd = (lpm.tbl8Hdrs u).ownerEntryInd
  refCnts : ∀ u, u ≠ t → (lpm'.tbl8Hdrs u).refCnt
    = (lpm.tbl8Hdrs u).refCnt + if tbl = some u then 1 else 0
  pool : lpm'.tbl8Pool = lpm.tbl8Pool
  pos : lpm'.tbl8PoolPos = lpm.tbl8PoolPos + 1
  rules : SameRules lpm lpm'

theorem newTbl8_eq (lpm : RteLpm6) (fill : RteLpm6TblEntry)
    (hpos : lpm.tbl8PoolPos < lpm.numberTbl8s) (hi : ∀ u, tbl = some u → i < 256)
    (ht : lpm.tbl8Pool lpm.tbl8PoolPos < 2 ^ 21) (htbl : tbl ≠ some (lpm.tbl8Pool lpm.tbl8PoolPos))
    :
    ∃ lpm', newTbl8 lpm tbl i fill = (0, lpm')
      ∧ NewTbl8 lpm lpm' tbl i fill (lpm.tbl8Pool lpm.tbl8PoolPos) := by
  have hget : tbl8Get lpm
      = some (lpm.tbl8Pool lpm.tbl8PoolPos, { lpm with tbl8PoolPos := lpm.tbl8PoolPos + 1 }) :=
    if_neg (Nat.ne_of_lt hpos)
  unfold newTbl8
  rw [hget]
  dsimp only
  generalize lpm.tbl8Pool lpm.tbl8PoolPos = t at ht htbl ⊢
  -- the object with the group filled, before its entry refers to it
  let filled : RteLpm6 :=
    { lpm with
      tbl8PoolPos := lpm.tbl8PoolPos + 1
      tbl8 := Loop.mapRange (t * 256) 256 (fun _ => fill) lpm.tbl8
      tbl8Hdrs := update lpm.tbl8Hdrs t ⟨tbl, i, 0⟩ }
  have hfill : ∀ j < 256, filled.entry (some t) j = fill := fun j hj =>
    Loop.mapRange_of_mem (show t * 256 ≤ t * 256 + j ∧ t * 256 + j < t * 256 + 256 by omega)
      (fun _ => fill) lpm.tbl8
  have hother : ∀ tbl' i', (∀ u, tbl' = some u → i' < 256) → tbl' ≠ some t →
      filled.entry tbl' i' = lpm.entry tbl' i' := by
    intro tbl' i' hi' hne
    cases tbl' with
    | none => rfl
    | some u =>
      have hlt := hi' u rfl
      have hu : u ≠ t := fun heq => hne (congrArg some heq)
      exact Loop.mapRange_of_notMem
        (show ¬ (t * 256 ≤ u * 256 + i' ∧ u * 256 + i' < t * 256 + 256) by omega)
        (fun _ => fill) lpm.tbl8
  have hstore : ∀ tbl' i', (∀ u, tbl' = some u → i' < 256) → ¬ (tbl' = tbl ∧ i' = i) →
      (filled.setEntry tbl i (tblEntry t 0 true true)).entry tbl' i' = filled.entry tbl' i' :=
    fun tbl' i' hi' hne => entry_setEntry_of_ne filled _ hi hi' hne
  have hhdrs : (filled.setEntry tbl i (tblEntry t 0 true true)).tbl8Hdrs = filled.tbl8Hdrs :=
    (sameRecords_setEntry filled tbl i _).tbl8Hdrs
  refine ⟨_, rfl, ?_⟩
  show NewTbl8 lpm ((filled.setEntry tbl i (tblEntry t 0 true true)).incRefCnt tbl) tbl i fill t
  refine ⟨?_, fun j hj => ?_, fun tbl' i' hi' hne hne' => ?_, ?_, ?_, fun u hu => ?_, fun u hu => ?_,
    ?_, ?_, ?_⟩
  · rw [entry_incRefCnt, entry_setEntry_self]
    exact groupOf_ext ht
  · rw [entry_incRefCnt, hstore (some t) j (fun _ _ => hj) (fun hc => htbl hc.1.symm)]
    exact hfill j hj
  · rw [entry_incRefCnt, hstore tbl' i' hi' hne', hother tbl' i' hi' hne]
  · obtain ⟨howner, hentry⟩ :=
      owner_incRefCnt (filled.setEntry tbl i (tblEntry t 0 true true)) tbl t
    rw [howner, hentry, hhdrs]
    simp [filled]
  · rw [refCnt_incRefCnt, hhdrs, if_neg htbl]
    simp [filled]
  · obtain ⟨howner, hentry⟩ :=
      owner_incRefCnt (filled.setEntry tbl i (tblEntry t 0 true true)) tbl u
    rw [howner, hentry, hhdrs]
    simp [filled, hu]
  · rw [refCnt_incRefCnt, hhdrs]
    simp [filled, hu]
  · cases tbl <;> rfl
  · cases tbl <;> rfl
  · cases tbl <;> exact ⟨rfl, rfl, rfl, rfl⟩

theorem Shape.newTbl8 (h : Shape lpm loc M) (hM : Keyed M) (hcell : Cell loc tbl i k c)
    (hleaf : groupOf (lpm.entry tbl i) = none) (hk : k < 13) (hc : c < 2 ^ 24 * 256 ^ k)
    (hpos : lpm.tbl8PoolPos < lpm.numberTbl8s)
    (hnew : NewTbl8 lpm lpm' tbl i (lpm.entry tbl i) (lpm.tbl8Pool lpm.tbl8PoolPos)) :
    loc (lpm.tbl8Pool lpm.tbl8PoolPos) = none
      ∧ Shape lpm' (update loc (lpm.tbl8Pool lpm.tbl8PoolPos) (some (k, c))) M := by
  obtain ⟨hfree, hpool⟩ := h.pool.get hpos
  obtain ⟨hlt, hvacant⟩ := mem_vacant.mp hfree
  generalize lpm.tbl8Pool lpm.tbl8PoolPos = t at hfree hlt hvacant hpool hnew ⊢
  have hsame : ∀ tbl' i' k' c', Cell loc tbl' i' k' c' → ¬ (tbl' = tbl ∧ i' = i) →
      lpm'.entry tbl' i' = lpm.entry tbl' i' := by
    intro tbl' i' k' c' hcell' hne
    refine hnew.frame tbl' i' ?_ ?_ hne
    · rintro u rfl
      exact hcell'.1
    · rintro rfl
      obtain ⟨-, j, b, hloc, -⟩ := hcell'
      rw [hvacant] at hloc
      cases hloc
  have hgroup : ∀ j < 256, groupOf (lpm'.entry (some t) j) = none := fun j hj => by
    rw [hnew.fill j hj, hleaf]
  refine ⟨hvacant, ?_, ?_, ?_, fun u x hu => ?_, fun u k' c' hu => ?_, ?_,
    fun u hu hloc j hj => ?_⟩
  · exact h.tree.attach hcell hleaf hk hc hvacant hnew.entry hgroup hsame
  · refine h.leaves.attach hvacant hnew.entry (fun j hj => ?_) hsame
    rw [hnew.fill j hj]
    exact (h.leaves tbl i k c hcell hleaf).part hM hk hj
  · rw [hnew.pool, hnew.pos, hnew.rules.numberTbl8s, vacant_update_some]
    exact hpool
  · rw [hnew.rules.numberTbl8s]
    by_cases hut : u = t
    · rw [hut]
      exact hlt
    · rw [update_of_ne hut] at hu
      exact h.placed u x hu
  · have hkeep : ∀ {tbl' i' k' c'}, Cell loc tbl' i' k' c' →
        Cell (update loc t (some (k, c))) tbl' i' k' c' := by
      intro tbl' i' k' c' hcell'
      refine (cell_update hvacant).mpr (Or.inl ⟨?_, hcell'⟩)
      rintro rfl
      obtain ⟨-, j, b, hloc, -⟩ := hcell'
      rw [hvacant] at hloc
      cases hloc
    by_cases hut : u = t
    · subst hut
      rw [update_self] at hu
      obtain ⟨rfl, rfl⟩ := Prod.mk.inj (Option.some.inj hu)
      rw [hnew.owner.1, hnew.owner.2]
      exact hkeep hcell
    · rw [update_of_ne hut] at hu
      rw [(hnew.owners u hut).1, (hnew.owners u hut).2]
      exact hkeep (h.owners u k' c' hu)
  · rw [hnew.rules.numberTbl8s]
    exact h.number
  · rw [hnew.rules.numberTbl8s] at hu
    have hut : u ≠ t := by
      rintro rfl
      rw [update_self] at hloc
      cases hloc
    rw [update_of_ne hut] at hloc
    have hne : ¬ (some u = tbl ∧ j = i) := by
      rintro ⟨rfl, -⟩
      obtain ⟨-, j', b, hloc', -⟩ := hcell
      rw [hloc] at hloc'
      cases hloc'
    rw [hnew.frame (some u) j (fun _ _ => hj) (fun hc => hut (Option.some.inj hc)) hne]
    exact h.clean u hu hloc j hj

theorem Counts.newTbl8 {cnt : ℕ → ℕ → ℕ} (h : Counts lpm loc cnt tbl) {t : ℕ}
    (hcell : Cell loc tbl i k c) (hleaf : groupOf (lpm.entry tbl i) = none) (ht : loc t = none)
    (hzero : cnt k c = 0) (hcnt : ∀ k c, cnt k c ≤ 2304)
    (hnew : NewTbl8 lpm lpm' tbl i (lpm.entry tbl i) t) :
    Counts lpm' (update loc t (some (k, c))) cnt (some t) := by
  have hfresh : childrenOf lpm'.entry t = 0 :=
    childrenOf_eq_zero_iff.mpr (fun j hj => by rw [hnew.fill j hj, hleaf])
  -- the group of the entry has one more group below it
  have hchildren : ∀ u k' c', u ≠ t → loc u = some (k', c') →
      childrenOf lpm'.entry u = childrenOf lpm.entry u + if tbl = some u then 1 else 0 := by
    intro u k' c' hut hu
    by_cases htu : tbl = some u
    · subst htu
      rw [if_pos rfl]
      refine childrenOf_attach hcell.1 hleaf (by rw [hnew.entry]; rfl) (fun j hj hne => ?_)
      rw [hnew.frame (some u) j (fun _ _ => hj) (fun hc => hut (Option.some.inj hc))
        (fun hc => hne hc.2)]
    · rw [if_neg htu]
      refine childrenOf_congr (fun j hj => ?_)
      rw [hnew.frame (some u) j (fun _ _ => hj) (fun hc => hut (Option.some.inj hc))
        (fun hc => htu hc.1.symm)]
  refine ⟨fun u k' c' hu => ?_, fun u k' c' hu hne => ?_⟩
  · by_cases hut : u = t
    · subst hut
      rw [update_self] at hu
      obtain ⟨rfl, rfl⟩ := Prod.mk.inj (Option.some.inj hu)
      rw [hnew.refCnt, hfresh, hzero]
      rfl
    · rw [update_of_ne hut] at hu
      have hexact := h.exact u k' c' hu
      have hle := hcnt k' c'
      have hle' := childrenOf_le (T := lpm.entry) (t := u)
      rw [hnew.refCnts u hut, hchildren u k' c' hut hu, ← Nat.add_assoc]
      split
      · exact toNat_succ hexact (by omega)
      · rw [UInt32.add_zero, Nat.add_zero]
        exact hexact
  · have hut : u ≠ t := fun heq => hne (congrArg some heq.symm)
    rw [update_of_ne hut] at hu
    rw [hchildren u k' c' hut hu]
    by_cases htu : tbl = some u
    · rw [if_pos htu]
      omega
    · rw [if_neg htu]
      exact h.used u k' c' hu htu

end Lpm6
