import DpdkStudy.Lpm6.LongestMatch

/-!
# The groups of the IPv6 LPM table

Each group of entries is free or in use. The pool lists the free ones, each of
them once. A group in use belongs to one extended entry, the one that its
header names, and its counter is the number of references to it: the rules that
end in it, and the groups that its entries have (`Owned`). A table without
rules has no group in use, so that all of them are in the pool again once the
rules are deleted, in whatever order (`tables_owned`).

The calls keep this but for one: a bulk deletion that leaves rules of more than
24 bits adds them again, and does not count them (`Recounted`).
-/

namespace Lpm6

open Net Prefix Levels Pool

variable {lpm : RteLpm6} {loc : ℕ → Option (ℕ × ℕ)} {M : Table ℕ}

/-! ## Groups in use -/

/-- **A group is free** if the pool lists it. -/
def Free (lpm : RteLpm6) (t : ℕ) : Prop :=
  ∃ i, lpm.tbl8PoolPos ≤ i ∧ i < lpm.numberTbl8s ∧ lpm.tbl8Pool i = t

/-- The entries that there are. -/
def IsEntry (lpm : RteLpm6) : Option ℕ → ℕ → Prop
  | none, i => i < 2 ^ 24
  | some t, i => t < lpm.numberTbl8s ∧ i < 256

/-- An extended entry refers to a group. -/
def Refers (lpm : RteLpm6) (tbl : Option ℕ) (i t : ℕ) : Prop :=
  (lpm.entry tbl i).extEntry = true ∧ (lpm.entry tbl i).nextHop = t

/-- **Every group is free, or belongs to one entry.** -/
structure Owned (lpm : RteLpm6) : Prop where
  /-- The pool lists no group twice. -/
  once : ∀ i j, lpm.tbl8PoolPos ≤ i → i < j → j < lpm.numberTbl8s →
    lpm.tbl8Pool i ≠ lpm.tbl8Pool j
  /-- It lists those that no entry refers to. -/
  free : ∀ t, Free lpm t ↔
    t < lpm.numberTbl8s ∧ ∀ tbl i, IsEntry lpm tbl i → ¬ Refers lpm tbl i t
  /-- No entry refers to a group that there is not. -/
  within : ∀ tbl i t, IsEntry lpm tbl i → Refers lpm tbl i t → t < lpm.numberTbl8s
  /-- The header of a group in use names the one entry that refers to it. -/
  owner : ∀ t < lpm.numberTbl8s, ¬ Free lpm t →
    IsEntry lpm (lpm.tbl8Hdrs t).ownerTblInd (lpm.tbl8Hdrs t).ownerEntryInd
      ∧ ∀ tbl i, IsEntry lpm tbl i → (Refers lpm tbl i t ↔
        tbl = (lpm.tbl8Hdrs t).ownerTblInd ∧ i = (lpm.tbl8Hdrs t).ownerEntryInd)
  /-- Its counter counts the references to it. -/
  refCnt : ∀ t < lpm.numberTbl8s, ¬ Free lpm t →
    (lpm.tbl8Hdrs t).refCnt.toNat = references lpm t

/-- **Tables in shape, with exact counters.** -/
structure Owning (lpm : RteLpm6) (M : Table ℕ) : Prop where
  rules : RulesShow lpm M
  groups : ∃ loc, Shape lpm loc M ∧ Counts lpm loc (rulesOf lpm) none

/-- The pool lists the groups that are not placed. -/
theorem Shape.free_iff (h : Shape lpm loc M) {t : ℕ} :
    Free lpm t ↔ t < lpm.numberTbl8s ∧ loc t = none := by
  rw [← mem_vacant, h.pool.mem_iff]
  rfl

/-- **The entries that there are** are those of a block, or of a group that is
not placed. -/
theorem Shape.isEntry_cases (h : Shape lpm loc M) {tbl : Option ℕ} {i : ℕ}
    (hentry : IsEntry lpm tbl i) :
    (∃ k c, Cell loc tbl i k c) ∨ (lpm.entry tbl i).extEntry = false := by
  cases tbl with
  | none => exact Or.inl ⟨0, i, cell_root loc i⟩
  | some t =>
    cases hloc : loc t with
    | none => exact Or.inr (h.clean t hentry.1 hloc i hentry.2)
    | some x => exact Or.inl ⟨x.1 + 1, _, cell_group hloc hentry.2⟩

theorem Shape.refers_iff (h : Shape lpm loc M) {tbl : Option ℕ} {i k c t : ℕ}
    (hcell : Cell loc tbl i k c) : Refers lpm tbl i t ↔ groupOf (lpm.entry tbl i) = some t := by
  unfold Refers
  rw [groupOf_eq_some]
  cases hgroup : groupOf (lpm.entry tbl i) with
  | none => simp [h.not_ext hcell hgroup]
  | some u => simp [(groupOf_eq_some.mp hgroup).1]

/-- The owner of a group is an entry that there is. -/
theorem Shape.isEntry_of_owner (h : Shape lpm loc M) {tbl : Option ℕ} {i t k c : ℕ}
    (hcell : Cell loc tbl i k c) (ht : loc t = some (k, c)) : IsEntry lpm tbl i := by
  cases tbl with
  | none =>
    obtain ⟨rfl, rfl⟩ := hcell
    have hbound := (h.tree.bound t 0 c ht).2
    rw [Nat.pow_zero, Nat.mul_one] at hbound
    exact hbound
  | some u =>
    obtain ⟨hi, j, b, hu, -, -⟩ := hcell
    exact ⟨h.placed u _ hu, hi⟩

theorem Shape.located_of_not_free (h : Shape lpm loc M) {t : ℕ} (ht : t < lpm.numberTbl8s)
    (hfree : ¬ Free lpm t) : ∃ k c, loc t = some (k, c) := by
  cases hloc : loc t with
  | none => exact absurd (h.free_iff.mpr ⟨ht, hloc⟩) hfree
  | some x => exact ⟨x.1, x.2, rfl⟩

/-- Groups in their places, with exact counters, are owned. -/
theorem Owning.owned (h : Owning lpm M) : Owned lpm := by
  obtain ⟨loc, hshape, hcounts⟩ := h.groups
  refine ⟨fun i j hi hij hj heq => ?_, fun t => ?_, fun tbl i t hentry hrefers => ?_,
    fun t ht hfree => ?_, fun t ht hfree => ?_⟩
  · have hmem : ∀ {x}, lpm.tbl8PoolPos ≤ x → x < lpm.numberTbl8s →
        x ∈ ((Finset.Ico lpm.tbl8PoolPos lpm.numberTbl8s : Finset ℕ) : Set ℕ) := fun hx hx' =>
      Finset.mem_coe.mpr (Finset.mem_Ico.mpr ⟨hx, hx'⟩)
    have hsame := hshape.pool.once (hmem hi (Nat.lt_trans hij hj))
      (hmem (Nat.le_trans hi (Nat.le_of_lt hij)) hj) heq
    exact absurd hsame (Nat.ne_of_lt hij)
  · rw [hshape.free_iff]
    refine and_congr_right (fun ht => ?_)
    constructor
    · intro hloc tbl i hentry hrefers
      rcases hshape.isEntry_cases hentry with ⟨k, c, hcell⟩ | hext
      · have hplaced := hshape.tree.below tbl i k c t hcell ((hshape.refers_iff hcell).mp hrefers)
        rw [hloc] at hplaced
        cases hplaced
      · rw [hrefers.1] at hext
        cases hext
    · intro hnone
      cases hloc : loc t with
      | none => rfl
      | some x =>
        obtain ⟨tbl, i, hcell, hgroup⟩ := hshape.tree.owner t x.1 x.2 hloc
        exact absurd ((hshape.refers_iff hcell).mpr hgroup)
          (hnone tbl i (hshape.isEntry_of_owner hcell hloc))
  · rcases hshape.isEntry_cases hentry with ⟨k, c, hcell⟩ | hext
    · exact hshape.placed t _ (hshape.tree.below tbl i k c t hcell
        ((hshape.refers_iff hcell).mp hrefers))
    · rw [hrefers.1] at hext
      cases hext
  · obtain ⟨k, c, hloc⟩ := hshape.located_of_not_free ht hfree
    have howner := hshape.owners t k c hloc
    refine ⟨hshape.isEntry_of_owner howner hloc, fun tbl i hentry => ⟨fun hrefers => ?_, ?_⟩⟩
    · rcases hshape.isEntry_cases hentry with ⟨k', c', hcell⟩ | hext
      · have hplaced := hshape.tree.below tbl i k' c' t hcell ((hshape.refers_iff hcell).mp hrefers)
        obtain ⟨rfl, rfl⟩ := Prod.mk.inj (Option.some.inj (hplaced.symm.trans hloc))
        exact hshape.tree.cell_inj hcell howner
      · rw [hrefers.1] at hext
        cases hext
    · rintro ⟨rfl, rfl⟩
      obtain ⟨tbl, i, hcell, hgroup⟩ := hshape.tree.owner t k c hloc
      obtain ⟨rfl, rfl⟩ := hshape.tree.cell_inj howner hcell
      exact (hshape.refers_iff hcell).mpr hgroup
  · obtain ⟨k, c, hloc⟩ := hshape.located_of_not_free ht hfree
    rw [references_eq h.rules hshape hloc]
    exact hcounts.exact t k c hloc

/-! ## Tables without rules -/

/-- **Without rules, there is no group in use**: one of the last level there is
would have no references. -/
theorem Owning.pos_eq_zero (h : Owning lpm M) (hempty : lpm.rulesTbl = []) :
    lpm.tbl8PoolPos = 0 := by
  obtain ⟨loc, hshape, hcounts⟩ := h.groups
  have hnone : ∀ n t k c, 13 ≤ k + n → loc t ≠ some (k, c) := by
    intro n
    induction n with
    | zero =>
      intro t k c hk hloc
      exact absurd (hshape.tree.bound t k c hloc).1 (Nat.not_lt_of_le hk)
    | succ n ih =>
      intro t k c hk hloc
      have hused := hcounts.used t k c hloc (fun hc => nomatch hc)
      have hrules : rulesOf lpm k c = 0 := by
        rw [rulesOf, hempty]
        rfl
      have hchildless : childrenOf lpm.entry t = 0 := by
        refine childrenOf_eq_zero_iff.mpr (fun i hi => ?_)
        cases hgroup : groupOf (lpm.entry (some t) i) with
        | none => rfl
        | some u =>
          have hplaced := hshape.tree.below _ i _ _ u (cell_group hloc hi) hgroup
          exact absurd hplaced (ih u _ _ (by omega))
      omega
  have hvacant : vacant loc lpm.numberTbl8s = Finset.range lpm.numberTbl8s := by
    ext t
    rw [mem_vacant, Finset.mem_range]
    refine and_iff_left_iff_imp.mpr (fun _ => ?_)
    cases hloc : loc t with
    | none => rfl
    | some x => exact absurd hloc (hnone 13 t x.1 x.2 (by omega))
  have hcard := hshape.pool.card_add
  rw [hvacant, Finset.card_range] at hcard
  omega

/-! ## Runs -/

/-- **A bulk deletion takes all rules of more than 24 bits**: those that are
left are in no group. -/
def Recounted (lpm : RteLpm6) : Lpm6Op → Prop
  | .deleteBulk keys _ => ∀ r ∈ lpm.rulesTbl, 24 < r.depth.toNat →
    ∃ key ∈ keys, r.HasKey (rteIpv6AddrMask key.1 key.2.toNat) key.2
  | _ => True

instance (lpm : RteLpm6) : (op : Lpm6Op) → Decidable (Recounted lpm op)
  | .deleteBulk keys _ => inferInstanceAs (Decidable (∀ r ∈ lpm.rulesTbl, 24 < r.depth.toNat →
      ∃ key ∈ keys, r.HasKey (rteIpv6AddrMask key.1 key.2.toNat) key.2))
  | .add .. | .delete .. | .deleteAll => isTrue trivial

theorem eraseAll_of_mem {keys : List (RteIpv6Addr × UInt8)} {key : RteIpv6Addr × UInt8}
    (h : key ∈ keys) (M : Table ℕ) :
    eraseAll M keys key.2.toNat (trunc 128 key.2.toNat key.1.toNat) = none := by
  induction keys generalizing M with
  | nil => exact absurd h List.not_mem_nil
  | cons key' keys ih =>
    rcases List.mem_cons.mp h with rfl | h
    · cases hleft : eraseAll M (key :: keys) key.2.toNat (trunc 128 key.2.toNat key.1.toNat) with
      | none => rfl
      | some v =>
        have hthere := eraseAll_part _ keys _ _ v hleft
        rw [Table.erase_self] at hthere
        cases hthere
    · exact ih h _

/-- **A deletion** leaves the table without the prefix, if there was one or
not. -/
theorem Owning.delete (h : Owning lpm M) (ip : RteIpv6Addr) (depth : UInt8) :
    ∃ r, rteLpm6Delete lpm ip depth = some r ∧ Owning r.2 (ruleSet M (.delete ip depth) r.1)
      ∧ ruleSet M (.delete ip depth) r.1
        = M.erase depth.toNat (trunc 128 depth.toNat ip.toNat) := by
  obtain ⟨loc, hshape, hcounts⟩ := h.groups
  by_cases hdepth : 1 ≤ depth.toNat ∧ depth.toNat ≤ 128
  · rcases rteLpm6Delete_spec True h.rules hshape (fun _ => hcounts) ip hdepth
      (fun _ => hcounts.spares _ _) with
      ⟨hnone, heq⟩ | ⟨lpm', loc', -, heq, hrules, hshape', hcounts'⟩
    · exact ⟨_, heq, h, (Table.erase_eq_self hnone).symm⟩
    · exact ⟨_, heq, ⟨hrules, loc', hshape', hcounts' trivial⟩, rfl⟩
  · refine ⟨_, if_pos (range_of_depth hdepth), h, (Table.erase_eq_self ?_).symm⟩
    show M depth.toNat (trunc 128 depth.toNat ip.toNat) = none
    cases hM : M depth.toNat (trunc 128 depth.toNat ip.toNat) with
    | none => rfl
    | some v => exact absurd (h.rules.wf hM).1 hdepth

/-- One call keeps the counters exact. -/
theorem Owning.step (h : Owning lpm M) {op : Lpm6Op} (hop : Recounted lpm op) :
    ∃ r, lpm6Step lpm op = some r ∧ Owning r.2 (ruleSet M op r.1) := by
  obtain ⟨loc, hshape, hcounts⟩ := h.groups
  cases op with
  | add ip depth nextHop =>
    by_cases hdepth : 1 ≤ depth.toNat ∧ depth.toNat ≤ 128
    · rcases rteLpm6Add_spec True h.rules hshape h.rules.keyed
        (fun _ => ⟨rfl, hcounts⟩) ip hdepth nextHop with
        ⟨-, heq⟩ | ⟨lpm', loc', heq, hrules, hshape', hcounts', -⟩
      · exact ⟨_, heq, h⟩
      · exact ⟨_, heq, ⟨hrules, loc', hshape', hcounts' trivial⟩⟩
    · exact ⟨_, if_pos (range_of_depth hdepth), h⟩
  | delete ip depth =>
    obtain ⟨r, heq, howning, -⟩ := h.delete ip depth
    exact ⟨r, heq, howning⟩
  | deleteBulk keys iteration =>
    obtain ⟨lpm', loc', heq, hrules, hshape', htight⟩ :=
      rteLpm6DeleteBulkFunc_spec h.rules hshape keys iteration
    -- a group would stand for a block with a rule inside, of more than 24 bits
    have hnone : ∀ t k c, loc' t ≠ some (k, c) := by
      intro t k c hloc
      refine htight t k c hloc (fun d p v hd hp _ => ?_)
      obtain ⟨r, hr, rfl, rfl, rfl⟩ := (h.rules.shows d p v).mp (eraseAll_part M keys d p v hp)
      have hdeep : 24 < r.depth.toNat := lt_of_le_of_lt (bits_mono (Nat.zero_le k)) hd
      obtain ⟨key, hkey, hip, hdepth⟩ := hop r hr hdeep
      have herased := eraseAll_of_mem hkey M
      rw [← toNat_mask_all, ← hip, ← hdepth, hp] at herased
      cases herased
    exact ⟨_, heq, ⟨hrules, loc', hshape', ⟨fun t k c ht => absurd ht (hnone t k c),
      fun t k c ht => absurd ht (hnone t k c)⟩⟩⟩
  | deleteAll =>
    obtain ⟨hrules, hshape'⟩ := rteLpm6DeleteAll_spec hshape h.rules.keyed
    exact ⟨_, rfl, ⟨hrules, _, hshape', ⟨fun t k c ht => (nomatch ht), fun t k c ht => (nomatch ht)⟩⟩⟩

/-- The deletion of rules one by one takes their keys out. -/
theorem Owning.deletes (rules : List RteLpm6Rule) (h : Owning lpm M) :
    ∃ s, lpm6Run (rules.map (fun r => .delete r.ip r.depth)) (lpm, M) = some s
      ∧ Owning s.1 s.2 ∧ s.2 = eraseAll M (rules.map key) := by
  induction rules generalizing lpm M with
  | nil => exact ⟨(lpm, M), rfl, h, rfl⟩
  | cons r rules ih =>
    obtain ⟨r', heq, howning, herase⟩ := h.delete r.ip r.depth
    obtain ⟨s, hs, howning', hM⟩ := ih howning
    refine ⟨s, ?_, howning', ?_⟩
    · show (rteLpm6Delete lpm r.ip r.depth).bind _ = some s
      rw [heq]
      exact hs
    · rw [hM, herase]
      rfl

/-- Deleting all rules returns all groups to the pool. -/
theorem Owning.emptied (h : Owning lpm M) {rules : List RteLpm6Rule}
    (hperm : rules.Perm lpm.rulesTbl) :
    ∃ s, lpm6Run (rules.map (fun r => .delete r.ip r.depth)) (lpm, M) = some s
      ∧ s.1.rulesTbl = [] ∧ s.1.tbl8PoolPos = 0 := by
  obtain ⟨s, hs, howning, hM⟩ := h.deletes rules
  have hempty : s.1.rulesTbl = [] := by
    refine List.eq_nil_iff_forall_not_mem.mpr (fun r hr => ?_)
    have hleft := (howning.rules.shows _ _ _).mpr ⟨r, hr, rfl, rfl, rfl⟩
    rw [hM] at hleft
    obtain ⟨r', hr', hdepth, hip, -⟩ :=
      (h.rules.shows _ _ _).mp (eraseAll_part M _ _ _ _ hleft)
    have herased := eraseAll_of_mem (List.mem_map_of_mem (f := key) (hperm.mem_iff.mpr hr')) M
    rw [show (key r').2 = r'.depth from rfl, show (key r').1 = r'.ip from rfl,
      (h.rules.depth r' hr').2, hdepth, hip, hleft] at herased
    cases herased
  exact ⟨s, hs, hempty, howning.pos_eq_zero hempty⟩

/-- **The groups of the IPv6 LPM table are owned**, for every sequence of calls
in which no bulk deletion leaves a rule of more than 24 bits; and they are all
free again once the rules are deleted one by one, in any order. -/
theorem tables_owned {maxRules numberTbl8s : UInt32} {pool : ℕ → ℕ} {hdrs : ℕ → RteLpmTbl8Hdr}
    {lpm : RteLpm6} (hcreate : rteLpm6Create maxRules numberTbl8s pool hdrs = some lpm)
    {ops : List Lpm6Op} (hrecounted : Throughout Recounted ops lpm) :
    ∃ s, lpm6Run ops (lpm, Table.empty) = some s ∧ Owned s.1
      ∧ ∀ rules : List RteLpm6Rule, rules.Perm s.1.rulesTbl →
        ∃ s', lpm6Run (rules.map (fun r => .delete r.ip r.depth)) s = some s'
          ∧ s'.1.rulesTbl = [] ∧ s'.1.tbl8PoolPos = 0 := by
  obtain ⟨hrules, hshape⟩ := rteLpm6Create_spec hcreate
  have hstart : Owning lpm Table.empty :=
    ⟨hrules, _, hshape, ⟨(fun t k c ht => nomatch ht), (fun t k c ht => nomatch ht)⟩⟩
  have hstep : ∀ op ∈ ops, ∀ lpm M, Owning lpm M → Recounted lpm op →
      ∃ r, lpm6Step lpm op = some r ∧ Owning r.2 (ruleSet M op r.1) :=
    fun op _ lpm M h hok => h.step hok
  obtain ⟨s, hs, howning⟩ := lpm6Run_invariant hstep hstart hrecounted
  exact ⟨s, hs, howning.owned, fun rules hperm => howning.emptied hperm⟩

/-- The theorem for a rule with a group, a bulk deletion that takes it, and
another rule. -/
theorem tables_owned_one_rule :
    ∃ lpm, rteLpm6Create 8 4 (fun _ => 0) (fun _ => ⟨none, 0, 0⟩) = some lpm ∧
      ∃ s, lpm6Run [.add documentation 32 1, .deleteBulk [(documentation, 32)] inOrder,
          .add neighbour 32 2] (lpm, Table.empty) = some s ∧ Owned s.1
        ∧ ∀ rules : List RteLpm6Rule, rules.Perm s.1.rulesTbl →
          ∃ s', lpm6Run (rules.map (fun r => .delete r.ip r.depth)) s = some s'
            ∧ s'.1.rulesTbl = [] ∧ s'.1.tbl8PoolPos = 0 := by
  have hrecounted : ∀ lpm ∈ rteLpm6Create 8 4 (fun _ => 0) (fun _ => ⟨none, 0, 0⟩),
      Throughout Recounted [.add documentation 32 1, .deleteBulk [(documentation, 32)] inOrder,
        .add neighbour 32 2] lpm := by
    decide +kernel
  obtain ⟨lpm, hcreate⟩ : ∃ lpm, rteLpm6Create 8 4 (fun _ => 0) (fun _ => ⟨none, 0, 0⟩) = some lpm :=
    ⟨_, rfl⟩
  exact ⟨lpm, hcreate, tables_owned hcreate (hrecounted lpm hcreate)⟩

/-- **Rules that are added again are not counted**: after a bulk deletion of
nothing, the group of a rule is in use, and its counter is at zero. -/
theorem tables_owned_fails :
    ∃ lpm, rteLpm6Create 8 4 (fun _ => 0) (fun _ => ⟨none, 0, 0⟩) = some lpm ∧
      ¬ ∀ ops : List Lpm6Op, ∃ s, lpm6Run ops (lpm, Table.empty) = some s ∧ Owned s.1 := by
  obtain ⟨lpm, hcreate⟩ : ∃ lpm, rteLpm6Create 8 4 (fun _ => 0) (fun _ => ⟨none, 0, 0⟩) = some lpm :=
    ⟨_, rfl⟩
  refine ⟨lpm, hcreate, fun h => ?_⟩
  obtain ⟨s, hs, howned⟩ := h [.add documentation 32 1, .deleteBulk [] inOrder]
  have hrun : ∀ {α : Type} (f : RteLpm6 × Table ℕ → α) {x : α},
      ((rteLpm6Create 8 4 (fun _ => 0) (fun _ => ⟨none, 0, 0⟩)).bind fun lpm =>
        (lpm6Run [.add documentation 32 1, .deleteBulk [] inOrder] (lpm, Table.empty)).map f)
          = some x → f s = x := by
    intro α f x hf
    rw [hcreate, Option.bind_some, hs] at hf
    exact Option.some.inj hf
  have hnum : s.1.numberTbl8s = 4 := hrun (fun s => s.1.numberTbl8s) (by decide +kernel)
  have hpos : s.1.tbl8PoolPos = 1 := hrun (fun s => s.1.tbl8PoolPos) (by decide +kernel)
  have hpool : [s.1.tbl8Pool 1, s.1.tbl8Pool 2, s.1.tbl8Pool 3] = [1, 2, 3] :=
    hrun (fun s => [s.1.tbl8Pool 1, s.1.tbl8Pool 2, s.1.tbl8Pool 3]) (by decide +kernel)
  have hzero : (s.1.tbl8Hdrs 0).refCnt.toNat = 0 :=
    hrun (fun s => (s.1.tbl8Hdrs 0).refCnt.toNat) (by decide +kernel)
  have hone : 1 ≤ references s.1 0 := by
    have hcount : s.1.rulesTbl.countP
        (fun r => lastTable s.1 r.ip r.depth.toNat = some (some 0)) = 1 :=
      hrun (fun s => s.1.rulesTbl.countP
        (fun r => lastTable s.1 r.ip r.depth.toNat = some (some 0))) (by decide +kernel)
    unfold references
    omega
  have hfree : ¬ Free s.1 0 := by
    rintro ⟨i, hi, hlt, heq⟩
    rw [hpos] at hi
    rw [hnum] at hlt
    simp only [List.cons.injEq, and_true] at hpool
    interval_cases i <;> omega
  have hcounted := howned.refCnt 0 (by omega) hfree
  omega

end Lpm6
