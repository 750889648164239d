import DpdkStudy.Lpm6.Rebuild

/-!
# The longest match of an IPv6 address

An IPv6 LPM object stands for a map from prefixes to next hops (`Consistent`):
the hash table has its rules, and the tables are in shape for it. A lookup goes
down the groups on the path of its address, to an entry that says the longest
match (`rteLpm6Lookup_eq`). Each call keeps the object standing for the rules
that are left or added (`lpm6Step_spec`).

There is one thing a call may be asked for. `rebuild_lpm` adds rules that the
hash table already has, and these do not count in the reference counters of
their groups. A deletion may then take a group for unused that is in use, and
remove it. The references to a group can be counted (`references`), and a
deletion is right if the groups that go with the rule (`goes`) have one
reference left (`Spared`).
-/

namespace Lpm6

open Net Prefix Levels Pool

variable {lpm : RteLpm6} {loc : ℕ → Option (ℕ × ℕ)} {M : Table ℕ}

/-! ## Lookups -/

/-- What a lookup answers for a match. -/
def answerOf : Option (ℕ × ℕ) → Int × ℕ
  | some (_, nextHop) => (0, nextHop % 2 ^ 21)
  | none => (-enoent, 0)

theorem lookupLoop_leaf (lpm : RteLpm6) (ip : RteIpv6Addr) (fuel firstByte : ℕ)
    (o : Option (ℕ × ℕ)) :
    lookupLoop lpm ip (fuel + 1) (leafEntry o) firstByte = some (answerOf o) := by
  cases o <;> simp [lookupLoop, leafEntry, zeroEntry, tblEntry, answerOf]

/-- **The loop of a lookup** comes to the longest match, from any entry on the
path of the address. -/
theorem lookupLoop_spec (h : Shape lpm loc M) (hM : Keyed M) (ip : RteIpv6Addr) (fuel : ℕ)
    {tbl : Option ℕ} {i k : ℕ} (hfuel : 14 ≤ k + fuel)
    (hcell : Cell loc tbl i k (block k ip.toNat)) :
    lookupLoop lpm ip fuel (lpm.entry tbl i) (4 + k)
      = some (answerOf (longest 128 M ip.toNat 129)) := by
  induction fuel generalizing tbl i k with
  | zero =>
    have hk := h.tree.level_le hcell
    omega
  | succ fuel ih =>
    have hk13 := h.tree.level_le hcell
    cases hgroup : groupOf (lpm.entry tbl i) with
    | none =>
      have hsaid := h.leaves tbl i k _ hcell hgroup
      have hbits := bits_le hk13
      rw [longest_of_bare hM hk13 hsaid.2 rfl (show bits k < 129 by omega), hsaid.1]
      exact lookupLoop_leaf ..
    | some t =>
      obtain ⟨hext, hnext⟩ := groupOf_eq_some.mp hgroup
      have ht := h.tree.below tbl i k _ t hcell hgroup
      have hnextCell := cell_group ht (ip.byte (3 + k)).toNat_lt
      rw [← block_succ (h.tree.bound t k _ ht).1] at hnextCell
      rw [lookupLoop, if_pos hext, hnext, show 4 + k - 1 = 3 + k by omega]
      exact ih (by omega) hnextCell

theorem rteLpm6Lookup_eq (h : Shape lpm loc M) (hM : Keyed M) (ip : RteIpv6Addr) :
    rteLpm6Lookup lpm ip = some (answerOf (longest 128 M ip.toNat 129)) := by
  unfold rteLpm6Lookup
  dsimp only
  rw [first_three]
  have hloop := lookupLoop_spec h hM ip 14 (Nat.le_refl 14) (cell_root loc (block 0 ip.toNat))
  exact hloop

/-! ## References -/

/-- The table in which a rule ends. -/
def lastTable (lpm : RteLpm6) (ip : RteIpv6Addr) (depth : ℕ) : Option (Option ℕ) :=
  (ruleFindRange lpm ip depth).map Prod.fst

/-- **The references to a group**: the rules that end in it, and the groups
that its entries have. -/
def references (lpm : RteLpm6) (t : ℕ) : ℕ :=
  lpm.rulesTbl.countP (fun r => lastTable lpm r.ip r.depth.toNat = some (some t))
    + childrenOf lpm.entry t

/-- **The groups that go** with a reference to a group: the group itself, if
that was its last one, and then those above it in turn. -/
def goes (lpm : RteLpm6) : ℕ → ℕ → List ℕ
  | 0, _ => []
  | fuel + 1, t =>
    if (lpm.tbl8Hdrs t).refCnt = 1 then
      t :: (match (lpm.tbl8Hdrs t).ownerTblInd with
        | none => []
        | some o => goes lpm fuel o)
    else []

/-- **The groups that go with a rule can be spared**: each has one reference. -/
def Spared (lpm : RteLpm6) (ip : RteIpv6Addr) (depth : UInt8) : Prop :=
  match lastTable lpm (rteIpv6AddrMask ip depth.toNat) depth.toNat with
  | some (some t) => ∀ u ∈ goes lpm 14 t, references lpm u = 1
  | _ => True

instance (lpm : RteLpm6) (ip : RteIpv6Addr) (depth : UInt8) : Decidable (Spared lpm ip depth) := by
  unfold Spared
  split <;> infer_instance

theorem lastTable_eq_iff (h : Shape lpm loc M) {ip : RteIpv6Addr} {d v : ℕ}
    (hM : M d ip.toNat = some v) (hd : d ≤ 128) (hp : trunc 128 d ip.toNat = ip.toNat) {t k c : ℕ}
    (ht : loc t = some (k, c)) :
    lastTable lpm ip d = some (some t) ↔ level d = k + 1 ∧ block k ip.toNat = c := by
  obtain ⟨tbl, i, hrange, hcell⟩ := ruleFindRange_spec h hM hd hp
  rw [lastTable, hrange, ← table_of_rule_iff h.tree hd hcell ht]
  exact Option.some_inj

/-- The references to a group are those of its block. -/
theorem references_eq (hrules : RulesShow lpm M) (h : Shape lpm loc M) {t k c : ℕ}
    (ht : loc t = some (k, c)) : references lpm t = rulesOf lpm k c + childrenOf lpm.entry t := by
  unfold references rulesOf
  congr 1
  refine List.countP_congr (fun r hr => ?_)
  have hM := (hrules.shows _ _ _).mpr ⟨r, hr, rfl, rfl, rfl⟩
  rw [decide_eq_true_iff, EndsIn, decide_eq_true_iff]
  exact lastTable_eq_iff h hM (hrules.depth r hr).1.2 (hrules.depth r hr).2 ht

/-- The groups on the path of a rule whose counters are at one go. -/
theorem mem_goes (h : Shape lpm loc M) {p j w : ℕ} (hw : loc w = some (j, block j p)) (fuel : ℕ)
    {t m : ℕ} (hfuel : m < fuel) (hjm : j ≤ m) (ht : loc t = some (m, block m p))
    (hfalls : Falls lpm.tbl8Hdrs loc p j (m + 1)) : w ∈ goes lpm fuel t := by
  induction fuel generalizing t m with
  | zero => exact absurd hfuel (Nat.not_lt_zero m)
  | succ fuel ih =>
    rw [goes, if_pos (hfalls t m hjm (Nat.lt_succ_self m) ht), List.mem_cons]
    rcases Nat.lt_or_eq_of_le hjm with hlt | rfl
    · right
      obtain ⟨n, rfl⟩ : ∃ n, m = n + 1 := ⟨m - 1, by omega⟩
      have howner := h.owners t (n + 1) _ ht
      cases ho : (lpm.tbl8Hdrs t).ownerTblInd with
      | none =>
        rw [ho] at howner
        exact absurd howner.1 (Nat.succ_ne_zero n)
      | some o =>
        rw [ho] at howner
        obtain ⟨hi, k, b, hloc, hk, hb⟩ := howner
        obtain rfl : n = k := Nat.succ_inj.mp hk
        have hn := (h.tree.bound o n b hloc).1
        obtain rfl : b = block n p := by
          rw [← block_succ_div hn, hb]
          omega
        exact ih (by omega) (Nat.le_of_lt_succ hlt) hloc
          (fun u l hl hln hu => hfalls u l hl (Nat.lt_succ_of_lt hln) hu)
    · left
      exact h.tree.apart w t _ hw ht

/-- The groups that go are counted on, if they can be spared. -/
theorem Spared.spares (hrules : RulesShow lpm M) (h : Shape lpm loc M) {ip : RteIpv6Addr}
    {depth : UInt8} (hdepth : depth.toNat ≤ 128)
    (hsome : (M depth.toNat (trunc 128 depth.toNat ip.toNat)).isSome)
    (hspared : Spared lpm ip depth) :
    Spares lpm loc depth.toNat (trunc 128 depth.toNat ip.toNat) := by
  intro t k hk ht hfalls
  have hip := trunc_toNat_mask ip hdepth
  rw [← toNat_mask ip hdepth] at hsome ht hfalls ⊢
  obtain ⟨v, hM⟩ := Option.isSome_iff_exists.mp hsome
  obtain ⟨m, hm⟩ : ∃ m, level depth.toNat = m + 1 := ⟨level depth.toNat - 1, by omega⟩
  obtain ⟨u, hu⟩ := h.located hM (bits_lt_level hm)
  have hlast := (lastTable_eq_iff h hM hdepth hip hu).mpr ⟨hm, rfl⟩
  unfold Spared at hspared
  rw [hlast] at hspared
  have hmax := (h.tree.bound u m _ hu).1
  rw [hm] at hfalls
  rw [← references_eq hrules h ht]
  exact hspared t (mem_goes h ht 14 (by omega) (by omega) hu hfalls)

/-! ## Objects that stand for a map -/

/-- **The rules and the tables are those of the map.** -/
structure Stands (lpm : RteLpm6) (M : Table ℕ) : Prop where
  rules : RulesShow lpm M
  shape : ∃ loc, Shape lpm loc M

/-- **The object stands for the map.** -/
structure Consistent (lpm : RteLpm6) (M : Table ℕ) : Prop where
  rules : RulesShow lpm M
  shape : ∃ loc, Shape lpm loc M
  hops : ∀ d p v, M d p = some v → v < 2 ^ 21

/-- The rule of a depth covers the address, and no deeper rule does. -/
def LongestRule (M : Table ℕ) (ip : RteIpv6Addr) (depth nextHop : ℕ) : Prop :=
  depth ≤ 128 ∧ M depth (trunc 128 depth ip.toNat) = some nextHop
    ∧ ∀ e, depth < e → e ≤ 128 → M e (trunc 128 e ip.toNat) = none

/-- **The object answers as the map does.** -/
structure Answers (lpm : RteLpm6) (M : Table ℕ) : Prop where
  /-- A lookup comes to an end. -/
  ends : ∀ ip, (rteLpm6Lookup lpm ip).isSome
  /-- It returns the next hop of the longest rule that covers the address. -/
  found : ∀ ip depth nextHop, LongestRule M ip depth nextHop →
    rteLpm6Lookup lpm ip = some (0, nextHop)
  /-- It fails exactly if no rule covers it. -/
  notFound : ∀ ip, (rteLpm6Lookup lpm ip).map Prod.fst = some (-enoent) ↔
    ∀ depth ≤ 128, M depth (trunc 128 depth ip.toNat) = none

/-- **Additions are all or nothing.** -/
structure Additions (lpm : RteLpm6) : Prop where
  /-- An addition comes to an end, and no step of it fails. -/
  ends : ∀ ip depth nextHop, (rteLpm6Add lpm ip depth nextHop).isSome
  /-- One that fails changes nothing. -/
  failed : ∀ ip depth nextHop r, rteLpm6Add lpm ip depth nextHop = some r → r.1 ≠ 0 → r.2 = lpm
  /-- One that succeeds takes as many groups as the simulation has counted. -/
  exact : ∀ ip depth nextHop lpm', rteLpm6Add lpm ip depth nextHop = some (0, lpm') →
    lpm'.tbl8PoolPos = lpm.tbl8PoolPos
      + totalNeed lpm (rteIpv6AddrMask ip depth.toNat) depth.toNat

/-- An object that stands for a map answers as the map does. -/
theorem Consistent.answers (h : Consistent lpm M) : Answers lpm M := by
  obtain ⟨loc, hshape⟩ := h.shape
  have heq := fun ip => rteLpm6Lookup_eq hshape h.rules.keyed ip
  refine ⟨fun ip => by rw [heq ip]; rfl, fun ip depth nextHop => ?_, fun ip => ?_⟩
  · rintro ⟨hd, hM, hdeep⟩
    rw [heq ip, longest_eq_some.mpr ⟨Nat.lt_succ_of_le hd, hM, fun e he he' =>
      hdeep e he (Nat.le_of_lt_succ he')⟩]
    show some (0, nextHop % 2 ^ 21) = some (0, nextHop)
    rw [Nat.mod_eq_of_lt (h.hops _ _ _ hM)]
  · rw [heq ip]
    have hnone := longest_eq_none (w := 128) (M := M) (a := ip.toNat) (n := 129)
    cases hl : longest 128 M ip.toNat 129 with
    | none =>
      rw [hl] at hnone
      exact iff_of_true rfl (fun d hd => hnone.mp rfl d (Nat.lt_succ_of_le hd))
    | some r =>
      rw [hl] at hnone
      refine iff_of_false (fun hc => ?_) (fun hall => ?_)
      · exact absurd (Option.some.inj hc) (show ¬ (0 : Int) = -enoent by decide)
      · exact nomatch hnone.mpr (fun d hd => hall d (Nat.le_of_lt_succ hd))

theorem range_of_depth {depth : UInt8} (h : ¬ (1 ≤ depth.toNat ∧ depth.toNat ≤ 128)) :
    depth < 1 ∨ depth > 128 := by
  rw [UInt8.lt_iff_toNat_lt, gt_iff_lt, UInt8.lt_iff_toNat_lt]
  show depth.toNat < 1 ∨ 128 < depth.toNat
  omega

theorem Consistent.stands (h : Consistent lpm M) : Stands lpm M := ⟨h.rules, h.shape⟩

/-- What `rte_lpm6_add` does to an object that stands for a map. -/
theorem Stands.add (h : Stands lpm M) (ip : RteIpv6Addr) (depth : UInt8)
    (nextHop : UInt32) :
    ∃ r, rteLpm6Add lpm ip depth nextHop = some r ∧ (r.1 ≠ 0 → r.2 = lpm)
      ∧ (r.1 = 0 → RulesShow r.2
          (M.insert depth.toNat (trunc 128 depth.toNat ip.toNat) nextHop.toNat)
        ∧ (∃ loc, Shape r.2 loc
          (M.insert depth.toNat (trunc 128 depth.toNat ip.toNat) nextHop.toNat))
        ∧ r.2.tbl8PoolPos = lpm.tbl8PoolPos
          + totalNeed lpm (rteIpv6AddrMask ip depth.toNat) depth.toNat) := by
  obtain ⟨loc, hshape⟩ := h.shape
  by_cases hdepth : 1 ≤ depth.toNat ∧ depth.toNat ≤ 128
  · rcases rteLpm6Add_spec False h.rules hshape h.rules.keyed (fun he => he.elim) ip
      hdepth nextHop with ⟨-, heq⟩ | ⟨lpm', loc', heq, hrules, hshape', -, -, hpos, -⟩
    · exact ⟨_, heq, fun _ => rfl, fun hc => absurd hc (show ¬ (-enospc : Int) = 0 by decide)⟩
    · refine ⟨_, heq, fun hne => absurd rfl hne, fun _ => ⟨hrules, ⟨loc', hshape'⟩, ?_⟩⟩
      rw [totalNeed_eq hshape.tree hdepth.2, toNat_mask ip hdepth.2]
      exact hpos
  · exact ⟨_, if_pos (range_of_depth hdepth), fun _ => rfl,
      fun hc => absurd hc (show ¬ (-einval : Int) = 0 by decide)⟩

theorem Consistent.additions (h : Consistent lpm M) : Additions lpm where
  ends ip depth nextHop := by
    obtain ⟨r, heq, -⟩ := h.stands.add ip depth nextHop
    rw [heq]
    rfl
  failed ip depth nextHop r hr hne := by
    obtain ⟨r', heq, hfail, -⟩ := h.stands.add ip depth nextHop
    obtain rfl := Option.some.inj (heq.symm.trans hr)
    exact hfail hne
  exact ip depth nextHop lpm' hadd := by
    obtain ⟨r', heq, -, hsucc⟩ := h.stands.add ip depth nextHop
    obtain rfl := Option.some.inj (heq.symm.trans hadd)
    exact (hsucc rfl).2.2

/-! ## Runs -/

/-- A call that changes the rules. -/
inductive Lpm6Op
  | add (ip : RteIpv6Addr) (depth : UInt8) (nextHop : UInt32)
  | delete (ip : RteIpv6Addr) (depth : UInt8)
  | deleteBulk (keys : List (RteIpv6Addr × UInt8)) (iteration : Iteration)
  | deleteAll

/-- One call: what it returns, and the object after it. -/
def lpm6Step (lpm : RteLpm6) : Lpm6Op → Option (Int × RteLpm6)
  | .add ip depth nextHop => rteLpm6Add lpm ip depth nextHop
  | .delete ip depth => rteLpm6Delete lpm ip depth
  | .deleteBulk keys iteration => rteLpm6DeleteBulkFunc lpm keys iteration
  | .deleteAll => some (0, rteLpm6DeleteAll lpm)

/-- **The rule set after a call** that returned `status`. -/
def ruleSet (M : Table ℕ) (op : Lpm6Op) (status : Int) : Table ℕ :=
  if status = 0 then
    match op with
    | .add ip depth nextHop =>
      M.insert depth.toNat (trunc 128 depth.toNat ip.toNat) nextHop.toNat
    | .delete ip depth => M.erase depth.toNat (trunc 128 depth.toNat ip.toNat)
    | .deleteBulk keys _ => eraseAll M keys
    | .deleteAll => Table.empty
  else M

/-- A sequence of calls, with the rule set they lead to. -/
def lpm6Run : List Lpm6Op → RteLpm6 × Table ℕ → Option (RteLpm6 × Table ℕ)
  | [], s => some s
  | op :: ops, s => do
    let r ← lpm6Step s.1 op
    lpm6Run ops (r.2, ruleSet s.2 op r.1)

/-- The next hop of an addition has 21 bits. -/
def HopFits : Lpm6Op → Prop
  | .add _ _ nextHop => nextHop.toNat < 2 ^ 21
  | _ => True

instance (op : Lpm6Op) : Decidable (HopFits op) := by
  cases op <;> unfold HopFits <;> infer_instance

/-- **A deletion of a rule takes no group away that is in use.** -/
def Safe (lpm : RteLpm6) : Lpm6Op → Prop
  | .delete ip depth =>
    (ruleFind lpm (rteIpv6AddrMask ip depth.toNat) depth).isSome → Spared lpm ip depth
  | _ => True

instance (lpm : RteLpm6) (op : Lpm6Op) : Decidable (Safe lpm op) := by
  cases op <;> unfold Safe <;> infer_instance

/-- Each call of a sequence is made in a state that allows it. -/
def Throughout (Ok : RteLpm6 → Lpm6Op → Prop) : List Lpm6Op → RteLpm6 → Prop
  | [], _ => True
  | op :: ops, lpm => Ok lpm op ∧ ∀ r ∈ lpm6Step lpm op, Throughout Ok ops r.2

instance decidableThroughout (Ok : RteLpm6 → Lpm6Op → Prop) [∀ lpm op, Decidable (Ok lpm op)] :
    (ops : List Lpm6Op) → (lpm : RteLpm6) → Decidable (Throughout Ok ops lpm)
  | [], _ => isTrue trivial
  | op :: ops, lpm =>
    have _ := fun lpm => decidableThroughout Ok ops lpm
    inferInstanceAs (Decidable (Ok lpm op ∧ ∀ r ∈ lpm6Step lpm op, Throughout Ok ops r.2))

/-- What every call keeps, a run keeps. -/
theorem lpm6Run_invariant {P : RteLpm6 → Table ℕ → Prop} {Ok : RteLpm6 → Lpm6Op → Prop}
    {ops : List Lpm6Op}
    (hstep : ∀ op ∈ ops, ∀ lpm M, P lpm M → Ok lpm op →
      ∃ r, lpm6Step lpm op = some r ∧ P r.2 (ruleSet M op r.1))
    (h : P lpm M) (hok : Throughout Ok ops lpm) :
    ∃ s, lpm6Run ops (lpm, M) = some s ∧ P s.1 s.2 := by
  induction ops generalizing lpm M with
  | nil => exact ⟨(lpm, M), rfl, h⟩
  | cons op ops ih =>
    obtain ⟨r, hr, hP⟩ := hstep op List.mem_cons_self lpm M h hok.1
    obtain ⟨s, hs, hP'⟩ := ih (fun o ho => hstep o (List.mem_cons_of_mem op ho)) hP (hok.2 r hr)
    refine ⟨s, ?_, hP'⟩
    rw [lpm6Run, hr]
    exact hs

/-- The rules of a call have next hops of 21 bits. -/
theorem ruleSet_hops (h : ∀ d p v, M d p = some v → v < 2 ^ 21) {op : Lpm6Op} (hop : HopFits op)
    (status : Int) {d p v : ℕ} (hv : ruleSet M op status d p = some v) : v < 2 ^ 21 := by
  unfold ruleSet at hv
  split at hv
  · cases op with
    | add ip depth nextHop =>
      dsimp only [Table.insert] at hv
      split at hv
      · obtain rfl := Option.some.inj hv
        exact hop
      · exact h d p v hv
    | delete ip depth =>
      dsimp only [Table.erase] at hv
      split at hv
      · cases hv
      · exact h d p v hv
    | deleteBulk keys iteration => exact h d p v (eraseAll_part M keys d p v hv)
    | deleteAll => cases hv
  · exact h d p v hv

/-- A deletion takes its key out, if it is there or not. -/
theorem Stands.delete (h : Stands lpm M) {ip : RteIpv6Addr} {depth : UInt8}
    (hsafe : Safe lpm (.delete ip depth)) :
    ∃ r, rteLpm6Delete lpm ip depth = some r
      ∧ Stands r.2 (M.erase depth.toNat (trunc 128 depth.toNat ip.toNat))
      ∧ ruleSet M (.delete ip depth) r.1
        = M.erase depth.toNat (trunc 128 depth.toNat ip.toNat) := by
  obtain ⟨loc, hshape⟩ := h.shape
  by_cases hdepth : 1 ≤ depth.toNat ∧ depth.toNat ≤ 128
  · have hspares : (M depth.toNat (trunc 128 depth.toNat ip.toNat)).isSome →
        Spares lpm loc depth.toNat (trunc 128 depth.toNat ip.toNat) := by
      intro hsome
      refine Spared.spares h.rules hshape hdepth.2 hsome (hsafe ?_)
      rw [ruleFind_isSome h.rules, toNat_mask ip hdepth.2]
      exact hsome
    rcases rteLpm6Delete_spec False h.rules hshape (fun he => he.elim) ip hdepth
      hspares with ⟨hnone, heq⟩ | ⟨lpm', loc', -, heq, hrules, hshape', -⟩
    · have herase := Table.erase_eq_self hnone
      exact ⟨_, heq, herase.symm ▸ h, herase.symm⟩
    · exact ⟨_, heq, ⟨hrules, ⟨loc', hshape'⟩⟩, rfl⟩
  · have hnone : M depth.toNat (trunc 128 depth.toNat ip.toNat) = none := by
      cases hM : M depth.toNat (trunc 128 depth.toNat ip.toNat) with
      | none => rfl
      | some v => exact absurd (h.rules.wf hM).1 hdepth
    have herase := Table.erase_eq_self hnone
    exact ⟨_, if_pos (range_of_depth hdepth), herase.symm ▸ h, herase.symm⟩

/-- One call keeps the object standing for the rule set. -/
theorem Stands.step (h : Stands lpm M) {op : Lpm6Op} (hsafe : Safe lpm op) :
    ∃ r, lpm6Step lpm op = some r ∧ Stands r.2 (ruleSet M op r.1) := by
  obtain ⟨loc, hshape⟩ := h.shape
  cases op with
  | add ip depth nextHop =>
    obtain ⟨r, heq, hfail, hsucc⟩ := h.add ip depth nextHop
    refine ⟨r, heq, ?_⟩
    by_cases hstatus : r.1 = 0
    · obtain ⟨hrules, hshape', -⟩ := hsucc hstatus
      rw [hstatus]
      exact ⟨hrules, hshape'⟩
    · rw [hfail hstatus, ruleSet, if_neg hstatus]
      exact h
  | delete ip depth =>
    obtain ⟨r, heq, hstands, hset⟩ := h.delete hsafe
    exact ⟨r, heq, hset.symm ▸ hstands⟩
  | deleteBulk keys iteration =>
    obtain ⟨lpm', loc', heq, hrules, hshape', -⟩ :=
      rteLpm6DeleteBulkFunc_spec h.rules hshape keys iteration
    exact ⟨_, heq, ⟨hrules, ⟨loc', hshape'⟩⟩⟩
  | deleteAll =>
    obtain ⟨hrules, hshape'⟩ := rteLpm6DeleteAll_spec hshape h.rules.keyed
    exact ⟨_, rfl, ⟨hrules, ⟨_, hshape'⟩⟩⟩

/-- **One call** keeps the object standing for the rule set, with next hops that
fit. -/
theorem lpm6Step_spec (h : Consistent lpm M) {op : Lpm6Op} (hop : HopFits op)
    (hsafe : Safe lpm op) :
    ∃ r, lpm6Step lpm op = some r ∧ Consistent r.2 (ruleSet M op r.1) := by
  obtain ⟨r, heq, hstands⟩ := h.stands.step hsafe
  exact ⟨r, heq, hstands.rules, hstands.shape, fun _ _ _ hv => ruleSet_hops h.hops hop r.1 hv⟩

/-- **The IPv6 LPM table is longest-prefix match**, for every sequence of calls
in which no deletion takes a group away that is in use. -/
theorem lookup_longestMatch {maxRules numberTbl8s : UInt32} {pool : ℕ → ℕ}
    {hdrs : ℕ → RteLpmTbl8Hdr} {lpm : RteLpm6}
    (hcreate : rteLpm6Create maxRules numberTbl8s pool hdrs = some lpm) {ops : List Lpm6Op}
    (hops : ∀ op ∈ ops, HopFits op) (hsafe : Throughout Safe ops lpm) :
    ∃ s, lpm6Run ops (lpm, Table.empty) = some s ∧ Answers s.1 s.2 ∧ Additions s.1 := by
  obtain ⟨hrules, hshape⟩ := rteLpm6Create_spec hcreate
  have hstart : Consistent lpm Table.empty := ⟨hrules, ⟨_, hshape⟩, fun _ _ _ hv => nomatch hv⟩
  have hstep : ∀ op ∈ ops, ∀ lpm M, Consistent lpm M → Safe lpm op →
      ∃ r, lpm6Step lpm op = some r ∧ Consistent r.2 (ruleSet M op r.1) :=
    fun op hop lpm M h hok => lpm6Step_spec h (hops op hop) hok
  obtain ⟨s, hs, hcons⟩ := lpm6Run_invariant hstep hstart hsafe
  exact ⟨s, hs, hcons.answers, hcons.additions⟩

/-- The order in which the rules were added. -/
def inOrder : Iteration := ⟨id, fun rules => List.Perm.refl rules⟩

/-- Two addresses with the same first three bytes. -/
def documentation : RteIpv6Addr := .ofBytes [0x20, 0x01, 0x0d, 0xb8]

def neighbour : RteIpv6Addr := .ofBytes [0x20, 0x01, 0x0d, 0xb9]

/-- The theorem for a rule that comes and goes, with its group. -/
theorem lookup_longestMatch_one_rule :
    ∃ lpm, rteLpm6Create 8 4 (fun _ => 0) (fun _ => ⟨none, 0, 0⟩) = some lpm ∧
      ∃ s, lpm6Run [.add documentation 32 1, .delete documentation 32] (lpm, Table.empty) = some s
        ∧ Answers s.1 s.2 ∧ Additions s.1 := by
  have hsafe : ∀ lpm ∈ rteLpm6Create 8 4 (fun _ => 0) (fun _ => ⟨none, 0, 0⟩),
      Throughout Safe [.add documentation 32 1, .delete documentation 32] lpm := by
    decide +kernel
  obtain ⟨lpm, hcreate⟩ : ∃ lpm, rteLpm6Create 8 4 (fun _ => 0) (fun _ => ⟨none, 0, 0⟩) = some lpm :=
    ⟨_, rfl⟩
  exact ⟨lpm, hcreate, lookup_longestMatch hcreate (by decide) (hsafe lpm hcreate)⟩

/-- **Rules that are added again are not counted**: after a bulk deletion of
nothing, the group of two rules goes with the second of them. -/
theorem lookup_longestMatch_fails :
    ∃ lpm, rteLpm6Create 8 4 (fun _ => 0) (fun _ => ⟨none, 0, 0⟩) = some lpm ∧
      ¬ ∀ ops : List Lpm6Op, (∀ op ∈ ops, HopFits op) →
        ∃ s, lpm6Run ops (lpm, Table.empty) = some s ∧ Answers s.1 s.2 ∧ Additions s.1 := by
  obtain ⟨lpm, hcreate⟩ : ∃ lpm, rteLpm6Create 8 4 (fun _ => 0) (fun _ => ⟨none, 0, 0⟩) = some lpm :=
    ⟨_, rfl⟩
  refine ⟨lpm, hcreate, fun h => ?_⟩
  obtain ⟨s, hs, hanswers, -⟩ := h [.add documentation 32 1, .deleteBulk [] inOrder,
    .add neighbour 32 2, .delete neighbour 32] (by decide)
  have hrun : ∀ {α : Type} (f : RteLpm6 × Table ℕ → α) {x : α},
      ((rteLpm6Create 8 4 (fun _ => 0) (fun _ => ⟨none, 0, 0⟩)).bind fun lpm =>
        (lpm6Run [.add documentation 32 1, .deleteBulk [] inOrder, .add neighbour 32 2,
          .delete neighbour 32] (lpm, Table.empty)).map f) = some x → f s = x := by
    intro α f x hf
    rw [hcreate, Option.bind_some, hs] at hf
    exact Option.some.inj hf
  have hlookup : (rteLpm6Lookup s.1 documentation).map Prod.fst = some (-enoent) :=
    hrun (fun s => (rteLpm6Lookup s.1 documentation).map Prod.fst) (by decide +kernel)
  have hrule : s.2 32 (trunc 128 32 documentation.toNat) = some 1 :=
    hrun (fun s => s.2 32 (trunc 128 32 documentation.toNat)) (by decide +kernel)
  rw [(hanswers.notFound documentation).mp hlookup 32 (by decide)] at hrule
  cases hrule

end Lpm6
