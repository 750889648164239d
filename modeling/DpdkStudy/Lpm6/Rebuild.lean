import DpdkStudy.Lpm6.Deletions

/-!
# Clearing and rebuilding the IPv6 LPM table

A bulk deletion takes its keys out of the rules, clears the tables, and adds
the rules that are left once more, in the order in which the hash table gives
them back. On the way the rules are ahead of the tables: all of them are there
already, but the tables are in shape for those that have been added again
(`Rebuilding`).

The pool does not run out on the way. A group stands for a block that has a
rule inside (`Tight`), and there were groups for all those blocks before the
tables were cleared (`Fits`).
-/

open Finset Nat

namespace Lpm6

open Net Prefix Levels Pool

variable {lpm lpm' : RteLpm6} {loc : ℕ → Option (ℕ × ℕ)} {M R : Table ℕ}

/-! ## Tables without groups -/

/-- Empty tables are in shape for the table without prefixes. -/
theorem shape_empty (h24 : ∀ i, lpm.tbl24 i = zeroEntry)
    (h8 : ∀ i < 256 * lpm.numberTbl8s, lpm.tbl8 i = zeroEntry)
    (hpool : ∀ t < lpm.numberTbl8s, lpm.tbl8Pool t = t) (hpos : lpm.tbl8PoolPos = 0)
    (hnum : lpm.numberTbl8s ≤ 2 ^ 21) : Shape lpm (fun _ => none) Table.empty := by
  have hroot : ∀ {tbl i k c}, Cell (fun _ => none) tbl i k c →
      tbl = none ∧ lpm.entry tbl i = zeroEntry := by
    intro tbl i k c hcell
    cases tbl with
    | none => exact ⟨rfl, h24 i⟩
    | some t =>
      obtain ⟨-, j, b, hloc, -⟩ := hcell
      cases hloc
  refine
    { tree := ⟨(fun t t' x ht => nomatch ht), fun tbl i k c t hcell hchild => ?_,
        (fun t k c ht => nomatch ht), (fun t k c ht => nomatch ht)⟩
      leaves := fun tbl i k c hcell _ => ?_
      pool := ?_
      placed := (fun t x ht => nomatch ht)
      owners := (fun t k c ht => nomatch ht)
      number := hnum
      clean := fun t ht _ i hi => ?_ }
  · rw [(hroot hcell).2] at hchild
    cases hchild
  · rw [(hroot hcell).2]
    have hnone : longest 128 (Table.empty : Table ℕ) (c * 2 ^ (128 - bits k)) (bits k + 1) = none :=
      longest_eq_none.mpr (fun _ _ => rfl)
    exact ⟨by rw [hnone]; rfl, fun d p v _ hM => nomatch hM⟩
  · rw [hpos]
    have hvacant : vacant (fun _ => (none : Option (ℕ × ℕ))) lpm.numberTbl8s
        = range lpm.numberTbl8s := by
      ext t
      simp
    rw [hvacant]
    exact lists_range hpool
  · show (lpm.tbl8 (t * 256 + i)).extEntry = false
    rw [h8 _ (by omega)]
    rfl

/-- The pool that is initialised holds each group at its own place. -/
theorem tbl8Pool_init (lpm : RteLpm6) {t : ℕ} (ht : t < lpm.numberTbl8s) :
    (tbl8PoolInit lpm).tbl8Pool t = t := by
  refine Loop.times_invariant (n := lpm.numberTbl8s)
    (fun n (pool : ℕ → ℕ) => ∀ i < n, pool i = i) (fun i hi => absurd hi (Nat.not_lt_zero i))
    (fun n _ pool hpool i hi => ?_) t ht
  rcases Nat.lt_succ_iff_lt_or_eq.mp hi with hlt | rfl
  · rw [Function.update_of_ne (Nat.ne_of_lt hlt)]
    exact hpool i hlt
  · exact Function.update_self ..

/-- What `rte_lpm6_create` makes. -/
theorem rteLpm6Create_spec {maxRules numberTbl8s : UInt32} {pool : ℕ → ℕ} {hdrs : ℕ → RteLpmTbl8Hdr}
    (h : rteLpm6Create maxRules numberTbl8s pool hdrs = some lpm) :
    RulesShow lpm Table.empty ∧ Shape lpm (fun _ => none) Table.empty := by
  unfold rteLpm6Create at h
  split_ifs at h with hargs
  obtain rfl := Option.some.inj h
  have hnum : numberTbl8s.toNat ≤ 2 ^ 21 := by
    by_contra hlt
    refine hargs (Or.inr (Or.inl (UInt32.lt_iff_toNat_lt.mpr ?_)))
    show 2097152 < numberTbl8s.toNat
    omega
  refine ⟨⟨List.nodup_nil, fun d p v => ⟨(fun hM => nomatch hM), ?_⟩, fun r hr => ?_, rfl,
    zero_le _⟩, shape_empty (fun i => rfl) (fun i _ => rfl) (fun t ht => tbl8Pool_init _ ht) rfl
    hnum⟩
  · rintro ⟨r, hr, -⟩
    exact absurd hr List.not_mem_nil
  · exact absurd hr List.not_mem_nil

theorem Shape.beyond (h : Shape lpm loc M) (hM : Keyed M) {i : ℕ} (hi : 2 ^ 24 ≤ i) :
    lpm.tbl24 i = zeroEntry := by
  have hcell := cell_root loc i
  have hleaf : groupOf (lpm.entry none i) = none := by
    cases hgroup : groupOf (lpm.entry none i) with
    | none => rfl
    | some t =>
      have hlt := (h.tree.bound t 0 i (h.tree.below none i 0 i t hcell hgroup)).2
      omega
  have hsaid := (h.leaves none i 0 i hcell hleaf).1
  have hnone : longest 128 M (i * 2 ^ (128 - bits 0)) (bits 0 + 1) = none := by
    refine longest_eq_none.mpr (fun d hd => ?_)
    cases hrule : M d (trunc 128 d (i * 2 ^ (128 - bits 0))) with
    | none => rfl
    | some v =>
      -- the prefix would be one of 128 bits, and the entry that of an address
      have hlt := (hM d _ v hrule).2.2
      have hzero := trunc_trunc (w := 128) (zero_le d) (hM d _ v hrule).1.2
        (i * 2 ^ (128 - bits 0))
      have hadd := lt_trunc_add 128 0 (i * 2 ^ (128 - bits 0))
      rw [← hzero, trunc, div_eq_of_lt hlt, zero_mul, zero_add] at hadd
      have hblock := block_lt (zero_le 13) hadd
      rw [block_mul, pow_zero, mul_one] at hblock
      exact absurd hblock (Nat.not_lt_of_le hi)
  rw [hnone] at hsaid
  exact hsaid

/-- **The tables that are cleared** are in shape for the table without
prefixes. -/
theorem clearTables_shape (h : Shape lpm loc M) (hM : Keyed M) :
    Shape (clearTables lpm) (fun _ => none) Table.empty := by
  refine shape_empty (fun i => ?_) (fun i hi => ?_) (fun t ht => tbl8Pool_init _ ht) rfl h.number
  · show Loop.mapRange 0 (2 ^ 24) (fun _ => zeroEntry) lpm.tbl24 i = zeroEntry
    by_cases hi : i < 2 ^ 24
    · exact Loop.mapRange_of_mem ⟨zero_le i, by omega⟩ _ _
    · rw [Loop.mapRange_of_notMem (by omega)]
      exact h.beyond hM (Nat.le_of_not_lt hi)
  · show Loop.mapRange 0 (256 * lpm.numberTbl8s) (fun _ => zeroEntry) lpm.tbl8 i = zeroEntry
    refine Loop.mapRange_of_mem ⟨zero_le i, ?_⟩ _ _
    rw [zero_add]
    exact hi

theorem RulesShow.clearTables (h : RulesShow lpm M) : RulesShow (clearTables lpm) M :=
  h.congr rfl rfl rfl

/-! ## Rules taken out -/

/-- A table of prefixes without those of some keys. -/
def eraseAll (M : Table ℕ) : List (RteIpv6Addr × UInt8) → Table ℕ
  | [] => M
  | (ip, depth) :: keys => eraseAll (M.erase depth.toNat (trunc 128 depth.toNat ip.toNat)) keys

/-- The number of a masked address, whatever the depth. -/
theorem toNat_mask_all (ip : RteIpv6Addr) (depth : ℕ) :
    (rteIpv6AddrMask ip depth).toNat = trunc 128 depth ip.toNat := by
  by_cases h : depth ≤ 128
  · exact toNat_mask ip h
  · have hself : rteIpv6AddrMask ip depth = ip := if_neg (by omega)
    rw [hself, trunc, Nat.sub_eq_zero_of_le (by omega), Nat.pow_zero, Nat.div_one, Nat.mul_one]

/-- The keys of a bulk deletion are taken out of the rules. -/
theorem ruleDeletes_spec (keys : List (RteIpv6Addr × UInt8)) (h : RulesShow lpm M) :
    RulesShow (ruleDeletes lpm keys) (eraseAll M keys)
      ∧ SameTables lpm (ruleDeletes lpm keys) := by
  induction keys generalizing lpm M with
  | nil => exact ⟨h, SameTables.refl lpm⟩
  | cons key keys ih =>
    obtain ⟨ip, depth⟩ := key
    show RulesShow (ruleDeletes (ruleDelete lpm (rteIpv6AddrMask ip depth.toNat) depth).2 keys)
        (eraseAll (M.erase depth.toNat (trunc 128 depth.toNat ip.toNat)) keys) ∧ SameTables lpm
        (ruleDeletes (ruleDelete lpm (rteIpv6AddrMask ip depth.toNat) depth).2 keys)
    rw [← toNat_mask_all]
    rcases ruleDelete_spec h (rteIpv6AddrMask ip depth.toNat) depth with
      ⟨hnone, hdel⟩ | ⟨lpm₁, -, hdel, hrules, -, hsame⟩
    · rw [hdel, Table.erase_eq_self hnone]
      exact ih h
    · rw [hdel]
      obtain ⟨hrules', hsame'⟩ := ih hrules
      exact ⟨hrules', hsame.trans hsame'⟩

/-! ## Room for the groups -/

/-- **Each group stands for a block with a rule inside.** -/
def Tight (loc : ℕ → Option (ℕ × ℕ)) (M : Table ℕ) : Prop :=
  ∀ t k c, loc t = some (k, c) → ¬ Bare M k c

/-- There are no more than `n` blocks with rules inside. -/
def Fits (n : ℕ) (M : Table ℕ) : Prop :=
  ∃ B : Finset (ℕ × ℕ), B.card ≤ n ∧ ∀ k c, ¬ Bare M k c → (k, c) ∈ B

/-- The prefixes of a table are those of another. -/
def Part (M R : Table ℕ) : Prop := ∀ d p v, M d p = some v → R d p = some v

theorem not_bare_of_rule {d p v k : ℕ} (hM : M d p = some v) (hk : bits k < d) :
    ¬ Bare M k (block k p) := fun h => h d p v hk hM rfl

theorem Part.not_bare (h : Part M R) {k c : ℕ} (hM : ¬ Bare M k c) : ¬ Bare R k c :=
  fun hR => hM (fun d p v hd hp => hR d p v hd (h d p v hp))

theorem Fits.part {n : ℕ} (h : Fits n R) (hpart : Part M R) : Fits n M := by
  obtain ⟨B, hcard, hB⟩ := h
  exact ⟨B, hcard, fun k c hM => hB k c (hpart.not_bare hM)⟩

theorem Shape.located (h : Shape lpm loc M) {d p v k : ℕ} (hM : M d p = some v) (hk : bits k < d) :
    ∃ t, loc t = some (k, block k p) := by
  have hd := le_of_lt hk
  induction k with
  | zero =>
    obtain ⟨t, -, ht⟩ := h.group_of_deep hM hk (cell_root loc (block 0 p))
    exact ⟨t, ht⟩
  | succ k ih =>
    have hk' : bits k < d := lt_of_le_of_lt (bits_mono (le_succ k)) hk
    obtain ⟨u, hu⟩ := ih hk' (le_of_lt hk')
    have hcell := cell_group hu (mod_lt (block (k + 1) p) (show 0 < 256 by decide))
    rw [← block_succ_div (h.tree.bound u k _ hu).1, div_add_mod'] at hcell
    obtain ⟨t, -, ht⟩ := h.group_of_deep hM hk hcell
    exact ⟨t, ht⟩

theorem Shape.fits (h : Shape lpm loc M) : Fits lpm.numberTbl8s M := by
  refine ⟨(range lpm.numberTbl8s).image (fun t => (loc t).getD (0, 0)), ?_,
    fun k c hM => ?_⟩
  · exact card_image_le.trans (le_of_eq (card_range _))
  · unfold Bare at hM
    push Not at hM
    obtain ⟨d, p, v, hd, hp, rfl⟩ := hM
    obtain ⟨t, ht⟩ := h.located hp hd
    refine mem_image.mpr ⟨t, mem_range.mpr (h.placed t _ ht), ?_⟩
    rw [ht]
    rfl

/-- **There is room for one more rule**, if the groups that are in use stand
for blocks with rules inside. -/
theorem Shape.room (h : Shape lpm loc M) (htight : Tight loc M) (hpart : Part M R)
    (hfits : Fits lpm.numberTbl8s R) {d p v : ℕ} (hrule : R d p = some v) :
    lpm.tbl8PoolPos + need loc p (level d) 0 ≤ lpm.numberTbl8s := by
  classical
  obtain ⟨B, hcard, hB⟩ := hfits
  let used := (range lpm.numberTbl8s).filter (fun t => ¬ (loc t).isNone)
  let missing := (Finset.Ico 0 (level d)).filter (fun j => ∀ t, loc t ≠ some (j, block j p))
  let place := fun t => (loc t).getD (0, 0)
  let step := fun j => (j, block j p)
  have hplace : ∀ {t}, t ∈ used → loc t = some (place t) := by
    intro t ht
    have hsome := (mem_filter.mp ht).2
    cases hloc : loc t with
    | none =>
      rw [hloc] at hsome
      exact absurd rfl hsome
    | some x => rw [show place t = (loc t).getD (0, 0) from rfl, hloc, Option.getD_some]
  have hused : used.card = lpm.tbl8PoolPos := by
    have hsum := h.pool.card_add
    have hsplit := card_filter_add_card_filter_not (s := range lpm.numberTbl8s)
      (fun t => (loc t).isNone = true)
    rw [card_range] at hsplit
    have hvacant : (vacant loc lpm.numberTbl8s).card
        = ((range lpm.numberTbl8s).filter (fun t => (loc t).isNone = true)).card := rfl
    show ((range lpm.numberTbl8s).filter (fun t => ¬ (loc t).isNone = true)).card = _
    omega
  have hplaces : (used.image place).card = lpm.tbl8PoolPos := by
    rw [Finset.card_image_of_injOn, hused]
    intro t ht u hu htu
    refine h.tree.apart t u (place t) (hplace ht) ?_
    rw [show place t = place u from htu]
    exact hplace hu
  have hsteps : (missing.image step).card = need loc p (level d) 0 := by
    rw [Finset.card_image_of_injective _ (fun i j hij => (Prod.mk.inj hij).1)]
    unfold need
    congr
  have hdisjoint : Disjoint (used.image place) (missing.image step) := by
    rw [disjoint_left]
    intro x hx hx'
    obtain ⟨t, ht, rfl⟩ := mem_image.mp hx
    obtain ⟨j, hj, hplaced⟩ := mem_image.mp hx'
    refine (mem_filter.mp hj).2 t ?_
    rw [hplace ht, ← hplaced]
  have hsub : used.image place ∪ missing.image step ⊆ B := by
    refine union_subset (fun x hx => ?_) (fun x hx => ?_)
    · obtain ⟨t, ht, rfl⟩ := mem_image.mp hx
      exact hB _ _ (hpart.not_bare (htight t _ _ (hplace ht)))
    · obtain ⟨j, hj, rfl⟩ := mem_image.mp hx
      have hlt := (mem_Ico.mp (mem_filter.mp hj).1).2
      exact hB _ _ (not_bare_of_rule hrule (bits_lt_of_lt_level hlt))
  calc lpm.tbl8PoolPos + need loc p (level d) 0
      = (used.image place ∪ missing.image step).card := by
        rw [card_union_of_disjoint hdisjoint, hplaces, hsteps]
    _ ≤ B.card := card_le_card hsub
    _ ≤ lpm.numberTbl8s := hcard

/-! ## Adding the rules again -/

/-- **Tables on the way**: the rules are those of `R`, and the tables are in
shape for `M`, a part of them. -/
structure Rebuilding (lpm : RteLpm6) (loc : ℕ → Option (ℕ × ℕ)) (M R : Table ℕ) : Prop where
  rules : RulesShow lpm R
  shape : Shape lpm loc M
  part : Part M R
  tight : Tight loc M
  fits : Fits lpm.numberTbl8s R

/-- What is there stays there, and a rule that is added is there. -/
theorem Part.insert (h : Part M R) {d p v : ℕ} (hR : R d p = some v) :
    Part (M.insert d p v) R ∧ Part M (M.insert d p v) := by
  refine ⟨fun e q u hq => ?_, fun e q u hq => ?_⟩
  · by_cases heq : e = d ∧ q = p
    · obtain ⟨rfl, rfl⟩ := heq
      rw [Table.insert_self] at hq
      rw [hR, hq]
    · rw [Table.insert, if_neg heq] at hq
      exact h e q u hq
  · by_cases heq : e = d ∧ q = p
    · obtain ⟨rfl, rfl⟩ := heq
      rw [Table.insert_self, ← hR]
      exact h e q u hq
    · rw [Table.insert, if_neg heq]
      exact hq

theorem Rebuilding.add (h : Rebuilding lpm loc M R) {r : RteLpm6Rule}
    (hr : R r.depth.toNat r.ip.toNat = some r.nextHop.toNat) :
    ∃ lpm' loc', rteLpm6Add lpm r.ip r.depth r.nextHop = some (0, lpm')
      ∧ Rebuilding lpm' loc' (M.insert r.depth.toNat r.ip.toNat r.nextHop.toNat) R := by
  obtain ⟨hdepth, hip, -⟩ := h.rules.wf hr
  have hM : Keyed M := fun d p v hp => h.rules.keyed d p v (h.part d p v hp)
  obtain ⟨hpart, hkept⟩ := h.part.insert hr
  have hspec := rteLpm6Add_spec False h.rules h.shape hM (fun he => he.elim) r.ip hdepth
    r.nextHop
  rw [hip] at hspec
  rcases hspec with ⟨hfull | hnone, -⟩ | ⟨lpm', loc', heq, hrules, hshape, -, hnum, -, hloc⟩
  · have hroom := h.shape.room h.tight h.part h.fits hr
    omega
  · rw [hr] at hnone
    cases hnone
  · rw [Table.insert_eq_self hr] at hrules
    refine ⟨lpm', loc', heq, hrules, hshape, hpart, fun t k c ht => ?_, by
      rw [hnum]
      exact h.fits⟩
    rcases hloc t k c ht with hold | ⟨hk, rfl⟩
    · exact hkept.not_bare (h.tight t k c hold)
    · exact not_bare_of_rule (Table.insert_self M _ _ _) hk

/-- **What `rebuild_lpm` does**: it always comes to its end, and all the rules
it goes over are in the tables then. -/
theorem rebuildLpm_spec (rules : List RteLpm6Rule)
    (hrules : ∀ r ∈ rules, R r.depth.toNat r.ip.toNat = some r.nextHop.toNat)
    (h : Rebuilding lpm loc M R) :
    ∃ lpm' loc' M', rebuildLpm lpm rules = some lpm' ∧ Rebuilding lpm' loc' M' R ∧ Part M M'
      ∧ ∀ r ∈ rules, M' r.depth.toNat r.ip.toNat = some r.nextHop.toNat := by
  induction rules generalizing lpm loc M with
  | nil =>
    exact ⟨lpm, loc, M, rfl, h, fun _ _ _ hM => hM, fun r hr => absurd hr List.not_mem_nil⟩
  | cons r rules ih =>
    have hr := hrules r List.mem_cons_self
    obtain ⟨lpm₁, loc₁, hadd, hadded⟩ := h.add hr
    obtain ⟨lpm', loc', M', heq, hbuilt, hpart, hall⟩ :=
      ih (fun r' hr' => hrules r' (List.mem_cons_of_mem r hr')) hadded
    refine ⟨lpm', loc', M', ?_, hbuilt,
      fun d p v hp => hpart d p v ((h.part.insert hr).2 d p v hp), fun r' hr' => ?_⟩
    · show (rteLpm6Add lpm r.ip r.depth r.nextHop).bind (fun s => rebuildLpm s.2 rules) = some lpm'
      rw [hadd]
      exact heq
    · rcases List.mem_cons.mp hr' with rfl | hr'
      · exact hpart _ _ _ (Table.insert_self M _ _ _)
      · exact hall r' hr'

theorem Part.eq (h : Part M R) (h' : Part R M) : M = R := by
  funext d p
  cases hR : R d p with
  | some v => exact h' d p v hR
  | none =>
    cases hM : M d p with
    | none => rfl
    | some v =>
      rw [h d p v hM] at hR
      cases hR

/-- The prefixes that are left are among those there were. -/
theorem eraseAll_part (M : Table ℕ) (keys : List (RteIpv6Addr × UInt8)) :
    Part (eraseAll M keys) M := by
  induction keys generalizing M with
  | nil => exact fun _ _ _ hM => hM
  | cons key keys ih =>
    obtain ⟨ip, depth⟩ := key
    intro d p v hM
    have herase := ih (M.erase depth.toNat (trunc 128 depth.toNat ip.toNat)) d p v hM
    unfold Table.erase at herase
    split at herase
    · cases herase
    · exact herase

/-- **A bulk deletion has taken its keys out and cleared the tables**: the rules
that are left are to be added again. -/
theorem rebuilding_clearTables (hrules : RulesShow lpm M) (hshape : Shape lpm loc M)
    (keys : List (RteIpv6Addr × UInt8)) :
    Rebuilding (clearTables (ruleDeletes lpm keys)) (fun _ => none) Table.empty
      (eraseAll M keys) := by
  obtain ⟨hrules₁, hsame⟩ := ruleDeletes_spec keys hrules
  have hfits : Fits (clearTables (ruleDeletes lpm keys)).numberTbl8s (eraseAll M keys) := by
    rw [show (clearTables (ruleDeletes lpm keys)).numberTbl8s = lpm.numberTbl8s from
      hsame.numberTbl8s]
    exact hshape.fits.part (eraseAll_part M keys)
  exact ⟨hrules₁.clearTables, clearTables_shape (hshape.congr hsame) hrules.keyed,
    (fun _ _ _ hM => nomatch hM), (fun _ _ _ ht => nomatch ht), hfits⟩

/-- The rules that are left, in the order in which the hash table gives them
back. -/
theorem order_ruleDeletes (hrules : RulesShow lpm M) (keys : List (RteIpv6Addr × UInt8))
    (iteration : Iteration) :
    ∀ r ∈ iteration.order (ruleDeletes lpm keys).rulesTbl,
      eraseAll M keys r.depth.toNat r.ip.toNat = some r.nextHop.toNat := fun r hr =>
  ((ruleDeletes_spec keys hrules).1.shows _ _ _).mpr
    ⟨r, (iteration.perm _).mem_iff.mp hr, rfl, rfl, rfl⟩

/-- What `rte_lpm6_delete_bulk_func` does. -/
theorem rteLpm6DeleteBulkFunc_spec (hrules : RulesShow lpm M) (hshape : Shape lpm loc M)
    (keys : List (RteIpv6Addr × UInt8)) (iteration : Iteration) :
    ∃ lpm' loc', rteLpm6DeleteBulkFunc lpm keys iteration = some (0, lpm')
      ∧ RulesShow lpm' (eraseAll M keys) ∧ Shape lpm' loc' (eraseAll M keys)
      ∧ Tight loc' (eraseAll M keys) := by
  obtain ⟨lpm', loc', M', heq, hbuilt, -, hall⟩ := rebuildLpm_spec _
    (order_ruleDeletes hrules keys iteration) (rebuilding_clearTables hrules hshape keys)
  -- every rule has been added again
  have hM' : M' = eraseAll M keys := by
    refine hbuilt.part.eq (fun d p v hM => ?_)
    obtain ⟨r, hr, rfl, rfl, rfl⟩ := ((ruleDeletes_spec keys hrules).1.shows d p v).mp hM
    exact hall r ((iteration.perm _).mem_iff.mpr hr)
  refine ⟨lpm', loc', ?_, hbuilt.rules, hM' ▸ hbuilt.shape, hM' ▸ hbuilt.tight⟩
  unfold rteLpm6DeleteBulkFunc
  dsimp only
  rw [heq]
  rfl

/-- What `rte_lpm6_delete_all` does. -/
theorem rteLpm6DeleteAll_spec (h : Shape lpm loc M) (hM : Keyed M) :
    RulesShow (rteLpm6DeleteAll lpm) Table.empty
      ∧ Shape (rteLpm6DeleteAll lpm) (fun _ => none) Table.empty := by
  have hsame : SameTables lpm { lpm with usedRules := 0 } := ⟨rfl, rfl, rfl, rfl, rfl, rfl, rfl⟩
  refine ⟨⟨List.nodup_nil, fun d p v => ⟨(fun hp => nomatch hp), ?_⟩, fun r hr => ?_, rfl,
    zero_le _⟩, (clearTables_shape (h.congr hsame) hM).congr ⟨rfl, rfl, rfl, rfl, rfl, rfl, rfl⟩⟩
  · rintro ⟨r, hr, -⟩
    exact absurd hr List.not_mem_nil
  · exact absurd hr List.not_mem_nil

end Lpm6
