import DpdkStudy.Lpm.Rules
import DpdkStudy.Lpm.Tables

/-!
# The longest match

An LPM object stands for a map from prefixes to next hops: every addition
that succeeded has put a rule in, every deletion that succeeded has taken one
out. This module says that the object answers as the map does, whatever the
calls were: a lookup with the next hop of the longest prefix that covers the
address, and the question for a rule with the rule.

`Shows` ties an object to its map – the rule table holds the rules, and the
lookup tables say the longest match of every address, as far as its next hop
fits an entry – and each call that returns keeps it (`rteLpmAdd_spec`,
`rteLpmDelete_spec`, `rteLpmDeleteAll_spec`). An object is `Consistent` with
its map if next hops fit and calls return. For that the arrays must be as
large as it believes, which `rte_lpm_create` sees to as long as their sizes
do not wrap: it computes them in 32 bits.
-/

namespace Lpm

open Prefix

variable {lpm : RteLpm} {M : Table ℕ} {a depth i j v : ℕ}

/-- The longest match of an address, by its first 24 bits and its last
eight. -/
def matches24 (M : Table ℕ) (i j : ℕ) : Option (ℕ × ℕ) := longest 32 M (i * 256 + j) 33

/-- **The object stands for the map.** -/
structure Consistent (lpm : RteLpm) (M : Table ℕ) : Prop where
  rules : RulesShow lpm M
  tables : Ordered lpm lpm (matches24 M)
  hops : ∀ d p v, M d p = some v → v < 2 ^ 24
  positive : ∀ p, M 0 p = none
  rulesAlloc : lpm.maxRules ≤ lpm.rulesAlloc
  tbl8Alloc : 256 * lpm.numberTbl8s ≤ lpm.tbl8Alloc

/-- A map with next hops as an entry of a lookup table can hold them. -/
def hops24 (M : Table ℕ) : Table ℕ := fun d p => (M d p).map (· % 2 ^ 24)

/-- **The object holds the map**, with any next hops. -/
structure Shows (lpm : RteLpm) (M : Table ℕ) : Prop where
  rules : RulesShow lpm M
  tables : Ordered lpm lpm (matches24 (hops24 M))
  positive : ∀ p, M 0 p = none

/-- There is memory for what the object believes there is. -/
def Allocated (lpm : RteLpm) : Prop :=
  256 * lpm.numberTbl8s ≤ lpm.tbl8Alloc ∧ lpm.maxRules ≤ lpm.rulesAlloc

/-- **A call returns only with `P`**, and it does return if `A`. -/
def Returns {β : Type} (A : Prop) (P : β → Prop) (o : Option β) : Prop :=
  (∀ r, o = some r → P r) ∧ (A → o.isSome)

theorem Returns.some {β : Type} {A : Prop} {P : β → Prop} {r : β} (h : P r) :
    Returns A P (some r) :=
  ⟨fun r' hr => by rwa [← Option.some.inj hr], fun _ => rfl⟩

theorem Returns.bind {β γ : Type} {A B : Prop} {P : β → Prop} {Q : γ → Prop} {o : Option β}
    {f : β → Option γ} (h : Returns B P o) (hA : A → B) (hf : ∀ a, P a → Returns A Q (f a)) :
    Returns A Q (o >>= f) := by
  refine ⟨fun r hr => ?_, fun hall => ?_⟩
  · obtain ⟨a, ha, hr⟩ := Option.bind_eq_some_iff.mp hr
    exact (hf a (h.1 a ha)).1 r hr
  · obtain ⟨a, ha⟩ := Option.isSome_iff_exists.mp (h.2 (hA hall))
    rw [ha]
    exact (hf a (h.1 a ha)).2 hall

/-! ## Next hops that do not fit -/

theorem hops24_of_lt (h : ∀ d p v, M d p = some v → v < 2 ^ 24) : hops24 M = M := by
  funext d p
  unfold hops24
  cases hM : M d p with
  | none => rfl
  | some v => rw [Option.map_some, Nat.mod_eq_of_lt (h d p v hM)]

theorem hops24_insert (p : ℕ) :
    hops24 (M.insert depth p v) = (hops24 M).insert depth p (v % 2 ^ 24) := by
  funext d q
  unfold hops24 Table.insert
  split <;> rfl

theorem hops24_erase (p : ℕ) : hops24 (M.erase depth p) = (hops24 M).erase depth p := by
  funext d q
  unfold hops24 Table.erase
  split <;> rfl

/-- The longest match is the same, with what an entry can hold of its next hop. -/
theorem longest_hops24 (M : Table ℕ) (a n : ℕ) :
    longest 32 (hops24 M) a n = (longest 32 M a n).map (fun s => (s.1, s.2 % 2 ^ 24)) := by
  cases h : longest 32 M a n with
  | none =>
    refine longest_eq_none.mpr fun d hd => ?_
    rw [hops24, longest_eq_none.mp h d hd]
    rfl
  | some s =>
    obtain ⟨hlt, hM, hdeep⟩ := longest_eq_some.mp (show longest 32 M a n = some (s.1, s.2) from h)
    refine longest_eq_some.mpr ⟨hlt, ?_, fun e he he' => ?_⟩
    · rw [hops24, hM]
      rfl
    · rw [hops24, hdeep e he he']
      rfl

theorem hop_lt {a n : ℕ} {s : ℕ × ℕ} (hs : s ∈ longest 32 (hops24 M) a n) : s.2 < 2 ^ 24 := by
  rw [longest_hops24] at hs
  obtain ⟨r, -, rfl⟩ := Option.mem_map.mp hs
  exact Nat.mod_lt _ (by decide)

/-- An entry is stored as with the next hop that fits. -/
theorem tblEntry_mod (nextHop : ℕ) (valid validGroup : Bool) (depth : ℕ) :
    tblEntry (nextHop % 2 ^ 24) valid validGroup depth
      = tblEntry nextHop valid validGroup depth := by
  rw [tblEntry, tblEntry, Nat.mod_mod]

theorem addDepthSmall_mod (lpm : RteLpm) (ip depth nextHop : ℕ) :
    addDepthSmall lpm ip depth (nextHop % 2 ^ 24) = addDepthSmall lpm ip depth nextHop := by
  simp only [addDepthSmall, addTbl24, tblEntry_mod]

theorem addDepthBig_mod (lpm : RteLpm) (ip depth nextHop : ℕ) :
    addDepthBig lpm ip depth (nextHop % 2 ^ 24) = addDepthBig lpm ip depth nextHop := by
  simp only [addDepthBig, tblEntry_mod]

theorem deleteDepthSmall_mod (lpm : RteLpm) (ip depth : ℕ) (sub : Option (ℕ × ℕ)) :
    deleteDepthSmall lpm ip depth (sub.map fun s => (s.1, s.2 % 2 ^ 24))
      = deleteDepthSmall lpm ip depth sub := by
  cases sub <;> simp only [deleteDepthSmall, deleteTbl24, Option.map_some, Option.map_none,
    tblEntry_mod]

theorem deleteDepthBig_mod (lpm : RteLpm) (ip depth : ℕ) (sub : Option (ℕ × ℕ)) :
    deleteDepthBig lpm ip depth (sub.map fun s => (s.1, s.2 % 2 ^ 24))
      = deleteDepthBig lpm ip depth sub := by
  cases sub <;> simp only [deleteDepthBig, Option.map_some, Option.map_none, tblEntry_mod]

/-! ## Frames -/

/-- The rule table does not depend on the lookup tables. -/
theorem RulesShow.congr {lpm' : RteLpm} (h : RulesShow lpm M) (hsame : SameRules lpm lpm') :
    RulesShow lpm' M where
  groups := by
    rw [hsame.ruleInfo, hsame.rulesTbl]
    exact h.groups
  ordered := by
    rw [hsame.ruleInfo]
    exact h.ordered
  within := by
    rw [hsame.ruleInfo, hsame.maxRules]
    exact h.within

/-- The lookup tables do not depend on the rule table. -/
theorem Ordered.of_sameTables {lpm' : RteLpm} {V : ℕ → ℕ → Option (ℕ × ℕ)} (h : Ordered lpm lpm V)
    (hsame : SameTables lpm lpm') : Ordered lpm' lpm' V := by
  have hext : ∀ i, Extended lpm' i ↔ Extended lpm i := by
    intro i
    unfold Extended
    rw [hsame.tbl24]
  refine ⟨SameRules.refl lpm', ⟨?_, fun i hi j hj => ?_, ?_, ?_, ?_, ?_⟩, ?_⟩
  · rw [hsame.numberTbl8s]
    exact h.tables.small
  · rw [← h.tables.shows i hi j hj]
    unfold entryAt
    simp only [hext, hsame.tbl24, hsame.tbl8]
  · simp only [hext, hsame.tbl24]
    exact h.tables.plain
  · simp only [hext, hsame.tbl24, hsame.tbl8, hsame.numberTbl8s]
    exact h.tables.group
  · simp only [hext, hsame.tbl24]
    exact h.tables.apart
  · simp only [hext, hsame.tbl24, hsame.tbl8, hsame.numberTbl8s]
    exact h.tables.owned
  · intro i hi hi'
    exact h.needed i hi ((hext i).mp hi')

/-- Another map, held by a rule table and said by lookup tables. -/
theorem Shows.remake {lpm₁ lpm₂ : RteLpm} {N : Table ℕ} (hrules : RulesShow lpm₁ N)
    (htables : Ordered lpm₁ lpm₂ (matches24 (hops24 N))) (hpositive : ∀ p, N 0 p = none) :
    Shows lpm₂ N :=
  ⟨hrules.congr htables.same, ⟨SameRules.refl lpm₂, htables.tables, htables.needed⟩, hpositive⟩

theorem SameTables.allocated {lpm' : RteLpm} (h : SameTables lpm lpm') (ha : Allocated lpm) :
    Allocated lpm' := by
  unfold Allocated
  rwa [h.numberTbl8s, h.tbl8Alloc, h.maxRules, h.rulesAlloc]

theorem SameRules.allocated {lpm' : RteLpm} (h : SameRules lpm lpm') (ha : Allocated lpm) :
    Allocated lpm' := by
  unfold Allocated
  rwa [h.numberTbl8s, h.tbl8Alloc, h.maxRules, h.rulesAlloc]

theorem Shows.consistent (h : Shows lpm M) (ha : Allocated lpm)
    (hhops : ∀ d p v, M d p = some v → v < 2 ^ 24) : Consistent lpm M where
  rules := h.rules
  tables := hops24_of_lt hhops ▸ h.tables
  hops := hhops
  positive := h.positive
  rulesAlloc := ha.2
  tbl8Alloc := ha.1

theorem Consistent.shows (h : Consistent lpm M) : Shows lpm M :=
  ⟨h.rules, (hops24_of_lt h.hops).symm ▸ h.tables, h.positive⟩

/-! ## Lookups -/

theorem rteLpmLookup_eq (h : Consistent lpm M) (ip : UInt32) :
    match longest 32 M ip.toNat 33 with
    | some (_, nextHop) => rteLpmLookup lpm ip = (0, nextHop)
    | none => (rteLpmLookup lpm ip).1 = -enoent := by
  have hshift : (ip >>> 8).toNat = ip.toNat / 256 := by
    rw [UInt32.toNat_shiftRight]
    exact Nat.shiftRight_eq_div_pow _ _
  have hlow : ip.toUInt8.toNat = ip.toNat % 256 := UInt32.toNat_toUInt8 ip
  have hi : ip.toNat / 256 < 2 ^ 24 := by
    have := ip.toNat_lt
    omega
  have hshow := h.tables.tables.shows _ hi _ (Nat.mod_lt ip.toNat (show 0 < 256 by decide))
  unfold matches24 at hshow
  rw [Nat.div_add_mod'] at hshow
  -- the entry the lookup ends with says the longest match
  have hentry : ∀ t : RteLpmTblEntry, answerOf t = longest 32 M ip.toNat 33 →
      match longest 32 M ip.toNat 33 with
      | some (_, nextHop) =>
        (if t.valid then ((0 : Int), t.nextHop) else (-enoent, t.nextHop)) = (0, nextHop)
      | none =>
        (if t.valid then ((0 : Int), t.nextHop) else (-enoent, t.nextHop)).1 = -enoent := by
    intro t ht
    rw [← ht]
    by_cases hv : t.valid = true
    · rw [answerOf_of_valid hv, if_pos hv]
    · rw [answerOf_of_not_valid hv, if_neg hv]
  unfold rteLpmLookup
  dsimp only
  rw [hshift, hlow]
  refine hentry _ ?_
  rw [← hshow]
  by_cases hext : Extended lpm (ip.toNat / 256)
  · rw [entryAt_of_extended hext, Nat.add_comm]
    exact congrArg answerOf (if_pos hext)
  · rw [entryAt_of_not_extended hext]
    exact congrArg answerOf (if_neg hext)

/-- The question for a rule is answered with the rule. -/
theorem rteLpmIsRulePresent_eq (h : RulesShow lpm M) (ip : UInt32) {depth : UInt8}
    (hd : 1 ≤ depth.toNat) (hd' : depth.toNat ≤ 32) :
    rteLpmIsRulePresent lpm ip depth
      = match M depth.toNat (trunc 32 depth.toNat ip.toNat) with
        | some nextHop => (1, some nextHop)
        | none => (0, none) := by
  have hfind := map_ruleFind h (trunc 32 depth.toNat ip.toNat) hd hd'
  unfold rteLpmIsRulePresent
  rw [if_neg, toNat_and_depthToMask ip hd hd', ← hfind]
  · cases ruleFind lpm (trunc 32 depth.toNat ip.toNat) depth.toNat with
    | none => rfl
    | some k => rfl
  · rw [UInt8.lt_iff_toNat_lt, gt_iff_lt, UInt8.lt_iff_toNat_lt]
    show ¬ (depth.toNat < 1 ∨ 32 < depth.toNat)
    omega

/-! ## Blocks of addresses -/

/-- The addresses a rule of depth up to 24 covers. -/
theorem covers_small (hd : depth ≤ 24) (hj : j < 256) :
    trunc 32 depth (i * 256 + j) = trunc 32 depth a
      ↔ trunc 32 depth a / 256 ≤ i ∧ i < trunc 32 depth a / 256 + 2 ^ (24 - depth) :=
  trunc_eq_iff_of_le (trunc_idem 32 depth a) hd (show 24 ≤ 32 by decide) hj

theorem covers_big (hd : 24 < depth) (hd' : depth ≤ 32) (hj : j < 256) :
    trunc 32 depth (i * 256 + j) = trunc 32 depth a
      ↔ i = trunc 32 depth a / 256 ∧ trunc 32 depth a % 256 ≤ j
        ∧ j < trunc 32 depth a % 256 + 2 ^ (32 - depth) :=
  trunc_eq_iff_of_gt (trunc_idem 32 depth a) (le_of_lt hd) hd' hj

theorem block_lt (h : a < 2 ^ 32) : trunc 32 depth a / 256 < 2 ^ 24 := by
  have := trunc_lt (d := depth) h
  omega

theorem block_add_le (hd : depth ≤ 24) (h : a < 2 ^ 32) :
    trunc 32 depth a / 256 + 2 ^ (24 - depth) ≤ 2 ^ 24 := by
  have hle := trunc_add_le (show depth ≤ 32 by omega) h
  have hsize : 2 ^ (32 - depth) = 2 ^ (24 - depth) * 256 := by
    rw [show (256 : ℕ) = 2 ^ 8 by decide, ← Nat.pow_add]
    congr 1
    omega
  rw [hsize] at hle
  omega

/-! ## Addition -/

/-- A rule that is in the map already keeps its prefix extended, if it is of
depth over 24. -/
theorem Shows.extended (h : Shows lpm M) (hd : 24 < depth) (hd' : depth ≤ 32)
    (ha : a < 2 ^ 32) (hM : M depth (trunc 32 depth a) = some v) : Extended lpm (a / 256) := by
  refine h.tables.tables.extended_of_isDeep (show a / 256 < 2 ^ 24 by omega)
    (Nat.mod_lt a (show 0 < 256 by decide)) ?_
  unfold matches24
  rw [Nat.div_add_mod']
  obtain ⟨d, u, hlong, hle⟩ := exists_longest_of_covers (show depth < 33 by omega)
    (show hops24 M depth (trunc 32 depth a) = some (v % 2 ^ 24) by rw [hops24, hM]; rfl)
  exact ⟨d, u, hlong, by omega⟩

/-- The map with one more rule, in the lookup tables. -/
theorem matches24_insert {nextHop : ℕ} (hd : depth ≤ 32) :
    matches24 (M.insert depth (trunc 32 depth a) nextHop) i j
      = if trunc 32 depth (i * 256 + j) = trunc 32 depth a then
          raise depth nextHop (matches24 M i j)
        else matches24 M i j :=
  longest_insert M nextHop _ (by omega)

theorem rteLpmAdd_of_depth {depth : UInt8} (lpm : RteLpm) (ip nextHop : UInt32)
    (h : ¬ (1 ≤ depth.toNat ∧ depth.toNat ≤ 32)) :
    rteLpmAdd lpm ip depth nextHop = some (-einval, lpm) := by
  unfold rteLpmAdd
  rw [if_pos]
  rw [UInt8.lt_iff_toNat_lt, gt_iff_lt, UInt8.lt_iff_toNat_lt]
  show depth.toNat < 1 ∨ 32 < depth.toNat
  omega

/-- **What `rte_lpm_add` does**: the object holds the map with the new rule if
the call succeeds, and the same map, with the same lookup tables, if it
fails. -/
theorem rteLpmAdd_spec (h : Shows lpm M) (ip : UInt32) (depth : UInt8) (nextHop : UInt32) :
    Returns (Allocated lpm)
      (fun r => Shows r.2
          (if r.1 = 0 then M.insert depth.toNat (trunc 32 depth.toNat ip.toNat) nextHop.toNat
            else M)
        ∧ (r.1 ≠ 0 → SameTables lpm r.2) ∧ (Allocated lpm → Allocated r.2))
      (rteLpmAdd lpm ip depth nextHop) := by
  by_cases hdepth : 1 ≤ depth.toNat ∧ depth.toNat ≤ 32
  · obtain ⟨hd, hd'⟩ := hdepth
    have hpositive : ∀ p,
        M.insert depth.toNat (trunc 32 depth.toNat ip.toNat) nextHop.toNat 0 p = none := by
      intro p
      rw [Table.insert_of_depth_ne M _ _ (by omega)]
      exact h.positive p
    have hhop : nextHop.toNat % 2 ^ 24 < 2 ^ 24 := Nat.mod_lt _ (by decide)
    have hrange : ¬ (depth < 1 ∨ depth > 32) := by
      rw [UInt8.lt_iff_toNat_lt, gt_iff_lt, UInt8.lt_iff_toNat_lt]
      show ¬ (depth.toNat < 1 ∨ 32 < depth.toNat)
      omega
    unfold rteLpmAdd
    rw [if_neg hrange, toNat_and_depthToMask ip hd hd']
    dsimp only
    refine Returns.bind (ruleAdd_spec h.rules hd hd' (trunc 32 depth.toNat ip.toNat) nextHop.toNat)
      (fun hall => hall.2) ?_
    rintro ⟨ruleIndex, lpm₁⟩ ⟨hsame, hcases⟩
    dsimp only at hsame hcases
    have htables : Ordered lpm₁ lpm₁ (matches24 (hops24 M)) := h.tables.of_sameTables hsame
    cases ruleIndex with
    | error e =>
      obtain ⟨hrules, herr⟩ := hcases
      have hheld : Shows lpm₁ M := ⟨hrules, htables, h.positive⟩
      rcases herr with ⟨rfl, hM⟩ | rfl
      · -- the rule is there already
        refine .some ⟨?_, fun hne => absurd rfl hne, hsame.allocated⟩
        rw [if_pos rfl, Table.insert_eq_self hM]
        exact hheld
      · exact .some ⟨hheld, fun _ => hsame, hsame.allocated⟩
    | ok k =>
      obtain ⟨hrules, hin, hk⟩ := hcases
      by_cases hsmall : depth ≤ 24
      · -- the rule covers whole blocks
        have hle : depth.toNat ≤ 24 := UInt8.le_iff_toNat_le.mp hsmall
        have hadd := addDepthSmall_spec htables hle hhop (block_add_le hle ip.toNat_lt)
        rw [addDepthSmall_mod] at hadd
        dsimp only
        rw [if_pos hsmall]
        refine .some ⟨?_, fun hne => absurd rfl hne, fun hall =>
          hadd.same.allocated (hsame.allocated hall)⟩
        rw [if_pos rfl]
        refine Shows.remake hrules (hadd.congr (fun i _ j hj => ?_)) hpositive
        rw [hops24_insert, matches24_insert hd']
        exact if_congr (covers_small hle hj) rfl rfl
      · -- the rule lies in one block
        have hgt : 24 < depth.toNat := by
          by_contra hle
          exact hsmall (UInt8.le_iff_toNat_le.mpr (show depth.toNat ≤ 24 by omega))
        have hbig := addDepthBig_spec htables hgt hhop (block_lt ip.toNat_lt)
          (trunc_mod_add_le (le_of_lt hgt) hd') (fun _ _ _ _ _ hs => hop_lt hs)
        rw [addDepthBig_mod] at hbig
        dsimp only
        rw [if_neg hsmall]
        refine Returns.bind hbig (fun hall => (hsame.allocated hall).1) ?_
        rintro ⟨status, lpm₂⟩ (⟨rfl, hord⟩ | ⟨rfl, rfl, hext⟩)
        · refine .some ⟨?_, fun hne => absurd rfl hne, fun hall =>
            hord.same.allocated (hsame.allocated hall)⟩
          rw [if_pos rfl]
          refine Shows.remake hrules (hord.congr (fun i _ j hj => ?_)) hpositive
          rw [hops24_insert, matches24_insert hd']
          exact if_congr (covers_big hgt hd' hj) rfl rfl
        · -- there is no group: the new rule is deleted again
          obtain ⟨hsame₃, hrules₃⟩ := ruleDelete_spec hrules hd hd' hin
          refine .some ⟨?_, fun _ => hsame.trans hsame₃, (hsame.trans hsame₃).allocated⟩
          rw [if_neg (show ¬ (-enospc : Int) = 0 by decide)]
          rw [hk] at hrules₃
          have hnew : M depth.toNat (trunc 32 depth.toNat ip.toNat) = none := by
            cases hM : M depth.toNat (trunc 32 depth.toNat ip.toNat) with
            | none => rfl
            | some v =>
              have hext₀ := h.extended hgt hd' (trunc_lt ip.toNat_lt)
                (show M _ (trunc 32 _ (trunc 32 depth.toNat ip.toNat)) = some v by
                  rw [trunc_idem]; exact hM)
              unfold Extended at hext hext₀
              rw [hsame.tbl24] at hext
              exact absurd hext₀ hext
          rw [Table.erase_insert _ hnew] at hrules₃
          exact ⟨hrules₃, htables.of_sameTables hsame₃, h.positive⟩
  · rw [rteLpmAdd_of_depth lpm ip nextHop hdepth]
    refine .some ⟨?_, fun _ => SameTables.refl lpm, id⟩
    rw [if_neg (show ¬ (-einval : Int) = 0 by decide)]
    exact h

/-! ## Deletion -/

/-- **The map with one rule less**, in the lookup tables: the addresses of
the rule fall back to the next shorter rule that covers it. -/
theorem matches24_erase (hd : depth ≤ 32) (hM : M depth (trunc 32 depth a) = some v) :
    matches24 (M.erase depth (trunc 32 depth a)) i j
      = if trunc 32 depth (i * 256 + j) = trunc 32 depth a then
          lower depth (longest 32 M a depth) (matches24 M i j)
        else matches24 M i j := by
  unfold matches24
  rw [longest_erase _ (by omega) hM]
  by_cases hcov : trunc 32 depth (i * 256 + j) = trunc 32 depth a
  · rw [if_pos hcov, if_pos hcov, longest_congr hd (Nat.le_succ depth) hcov]
  · rw [if_neg hcov, if_neg hcov]

/-- The addresses of a rule have a match at least as deep. -/
theorem exists_matches24 (hd : depth ≤ 32) (hM : M depth (trunc 32 depth a) = some v)
    (hcov : trunc 32 depth (i * 256 + j) = trunc 32 depth a) :
    ∃ d u, matches24 M i j = some (d, u) ∧ depth ≤ d :=
  exists_longest_of_covers (by omega) (by rw [hcov]; exact hM)

/-- **The answers of a block agree but for the deep ones**, whatever the
rules are. -/
theorem agree_matches24 (M : Table ℕ) (i : ℕ) : Agree (matches24 M i) := by
  -- an answer that is not deep is the longest match of depth up to 24
  have hshallow : ∀ j, ¬ IsDeep (matches24 M i j) →
      matches24 M i j = longest 32 M (i * 256 + j) 25 := by
    intro j hj
    refine longest_eq_of_forall_lt (by decide) (fun r hr => ?_)
    by_contra hlt
    exact hj ⟨r.1, r.2, hr, by omega⟩
  intro j hj j' hj' hdeep hdeep'
  rw [hshallow j hdeep, hshallow j' hdeep']
  refine longest_congr (show 24 ≤ 32 by decide) (le_refl _) (trunc_eq_trunc_iff.mpr ?_)
  show (i * 256 + j) / 256 = (i * 256 + j') / 256
  omega

theorem rteLpmDelete_of_depth {depth : UInt8} (lpm : RteLpm) (ip : UInt32)
    (h : ¬ (1 ≤ depth.toNat ∧ depth.toNat ≤ 32)) :
    rteLpmDelete lpm ip depth = (-einval, lpm) := by
  unfold rteLpmDelete
  rw [if_pos]
  rw [UInt8.lt_iff_toNat_lt, gt_iff_lt, UInt8.lt_iff_toNat_lt]
  show depth.toNat < 1 ∨ 32 < depth.toNat
  omega

theorem rteLpmDelete_of_none {ip : UInt32} {depth : UInt8} (hd : 1 ≤ depth.toNat)
    (hd' : depth.toNat ≤ 32)
    (hfind : ruleFind lpm (trunc 32 depth.toNat ip.toNat) depth.toNat = none) :
    rteLpmDelete lpm ip depth = (-einval, lpm) := by
  unfold rteLpmDelete
  split
  · rfl
  · rw [toNat_and_depthToMask ip hd hd']
    dsimp only
    rw [hfind]

/-- A rule that is there is deleted from the rule table, and then from the
lookup tables, where the next shorter rule takes over. -/
theorem rteLpmDelete_of_some {ip : UInt32} {depth : UInt8} {k : ℕ} (hd : 1 ≤ depth.toNat)
    (hd' : depth.toNat ≤ 32)
    (hfind : ruleFind lpm (trunc 32 depth.toNat ip.toNat) depth.toNat = some k) {lpm₁ : RteLpm}
    (hlpm₁ : ruleDelete lpm k depth.toNat = lpm₁) {sub : Option (ℕ × ℕ)}
    (hsub : (findPreviousRule lpm₁ ip (depth.toNat - 1)).map
      (fun s => (s.2, (lpm₁.rulesTbl s.1).nextHop)) = sub) :
    rteLpmDelete lpm ip depth
      = if depth ≤ 24 then
          (0, deleteDepthSmall lpm₁ (trunc 32 depth.toNat ip.toNat) depth.toNat sub)
        else (0, deleteDepthBig lpm₁ (trunc 32 depth.toNat ip.toNat) depth.toNat sub) := by
  have hrange : ¬ (depth < 1 ∨ depth > 32) := by
    rw [UInt8.lt_iff_toNat_lt, gt_iff_lt, UInt8.lt_iff_toNat_lt]
    show ¬ (depth.toNat < 1 ∨ 32 < depth.toNat)
    omega
  subst hlpm₁ hsub
  unfold rteLpmDelete
  rw [if_neg hrange, toNat_and_depthToMask ip hd hd']
  dsimp only
  rw [hfind]

/-- **What `rte_lpm_delete` does**: the object holds the map without the rule if
the call succeeds, and is the same if it fails. -/
theorem rteLpmDelete_spec (h : Shows lpm M) (ip : UInt32) (depth : UInt8) :
    Shows (rteLpmDelete lpm ip depth).2
      (if (rteLpmDelete lpm ip depth).1 = 0 then
        M.erase depth.toNat (trunc 32 depth.toNat ip.toNat)
      else M)
      ∧ ((rteLpmDelete lpm ip depth).1 ≠ 0 → (rteLpmDelete lpm ip depth).2 = lpm)
      ∧ (Allocated lpm → Allocated (rteLpmDelete lpm ip depth).2) := by
  by_cases hdepth : 1 ≤ depth.toNat ∧ depth.toNat ≤ 32
  · obtain ⟨hd, hd'⟩ := hdepth
    cases hfind : ruleFind lpm (trunc 32 depth.toNat ip.toNat) depth.toNat with
    | none =>
      rw [rteLpmDelete_of_none hd hd' hfind, if_neg (show ¬ (-einval : Int) = 0 by decide)]
      exact ⟨h, fun _ => rfl, id⟩
    | some k =>
      obtain ⟨hin, hip, hM⟩ := ruleFind_some h.rules hd hd' hfind
      obtain ⟨hsame, hrules⟩ := ruleDelete_spec h.rules hd hd' hin
      rw [hip] at hrules
      obtain ⟨lpm₁, hlpm₁⟩ : ∃ lpm₁, ruleDelete lpm k depth.toNat = lpm₁ := ⟨_, rfl⟩
      rw [hlpm₁] at hsame hrules
      have htables : Ordered lpm₁ lpm₁ (matches24 (hops24 M)) := h.tables.of_sameTables hsame
      have hM' : hops24 M depth.toNat (trunc 32 depth.toNat ip.toNat)
          = some ((lpm.rulesTbl k).nextHop % 2 ^ 24) := by
        rw [hops24, hM]
        rfl
      have hpositive : ∀ p, M.erase depth.toNat (trunc 32 depth.toNat ip.toNat) 0 p = none := by
        intro p
        rw [Table.erase_of_depth_ne M _ (by omega)]
        exact h.positive p
      -- the rule that takes over is the longest match of smaller depth
      have hsub : (findPreviousRule lpm₁ ip (depth.toNat - 1)).map
          (fun s => (s.2, (lpm₁.rulesTbl s.1).nextHop)) = longest 32 M ip.toNat depth.toNat := by
        rw [map_findPreviousRule hrules hpositive ip (by omega), Nat.sub_add_cancel hd]
        refine longest_congr_table (fun d hlt => ?_)
        rw [Table.erase_of_depth_ne M _ (by omega)]
      rw [rteLpmDelete_of_some hd hd' hfind hlpm₁ hsub]
      -- both deletions lower the addresses of the rule
      have hlower : ∀ lpm₂, Ordered lpm₁ lpm₂ (matches24
          (hops24 (M.erase depth.toNat (trunc 32 depth.toNat ip.toNat)))) →
          Shows lpm₂ (M.erase depth.toNat (trunc 32 depth.toNat ip.toNat)) ∧
            ((0 : Int) ≠ 0 → lpm₂ = lpm) ∧ (Allocated lpm → Allocated lpm₂) := fun lpm₂ hord =>
        ⟨Shows.remake hrules hord hpositive, fun hne => absurd rfl hne, fun hall =>
          hord.same.allocated (hsame.allocated hall)⟩
      by_cases hsmall : depth ≤ 24
      · have hle : depth.toNat ≤ 24 := UInt8.le_iff_toNat_le.mp hsmall
        rw [if_pos hsmall, if_pos rfl]
        refine hlower _ ?_
        have hsub' : ∀ s ∈ longest 32 (hops24 M) ip.toNat depth.toNat, s.1 ≤ 24 ∧ s.2 < 2 ^ 24 := by
          intro s hs
          have hlt := (longest_eq_some.mp
            (show longest 32 (hops24 M) ip.toNat depth.toNat = some (s.1, s.2) from hs)).1
          exact ⟨by omega, hop_lt hs⟩
        have hdel := deleteDepthSmall_spec htables hle hsub' (block_add_le hle ip.toNat_lt)
          (fun i hlo hhi j hj hnone => ?_)
        · rw [longest_hops24, deleteDepthSmall_mod, ← longest_hops24] at hdel
          refine hdel.congr (fun i _ j hj => ?_)
          rw [hops24_erase, matches24_erase hd' hM']
          exact if_congr (covers_small hle hj) rfl rfl
        · obtain ⟨d, u, hmatch, -⟩ :=
            exists_matches24 hd' hM' ((covers_small hle hj).mpr ⟨hlo, hhi⟩)
          rw [hnone] at hmatch
          cases hmatch
      · have hgt : 24 < depth.toNat := by
          by_contra hle
          exact hsmall (UInt8.le_iff_toNat_le.mpr (show depth.toNat ≤ 24 by omega))
        rw [if_neg hsmall, if_pos rfl]
        refine hlower _ ?_
        -- what the tables are to say, in the words of the deletion
        have hreads : ∀ i, ∀ j < 256,
            matches24 (hops24 (M.erase depth.toNat (trunc 32 depth.toNat ip.toNat))) i j
              = lowerBig (matches24 (hops24 M)) (trunc 32 depth.toNat ip.toNat) depth.toNat
                (longest 32 (hops24 M) ip.toNat depth.toNat) i j := by
          intro i j hj
          rw [hops24_erase, matches24_erase hd' hM']
          exact if_congr (covers_big hgt hd' hj) rfl rfl
        have hhop : ∀ s ∈ longest 32 (hops24 M) ip.toNat depth.toNat, s.2 < 2 ^ 24 :=
          fun _ => hop_lt
        have hdel := deleteDepthBig_spec htables hgt (block_lt ip.toNat_lt)
          (trunc_mod_add_le (le_of_lt hgt) hd') hhop (fun _ _ _ => hop_lt) (fun j hj => ?_)
          (fun j hj j' hj' => ?_)
        · rw [longest_hops24, deleteDepthBig_mod, ← longest_hops24] at hdel
          exact hdel.congr (fun i _ j hj => hreads i j hj)
        · have hmod := trunc_mod_add_le (a := ip.toNat) (le_of_lt hgt) hd'
          obtain ⟨d, u, hmatch, hle⟩ := exists_matches24 hd' hM'
            ((covers_big hgt hd' (show j < 256 by omega)).mpr ⟨rfl, hj⟩)
          exact ⟨d, u, hmatch, by omega⟩
        · rw [← hreads _ j hj, ← hreads _ j' hj']
          exact agree_matches24 _ _ j hj j' hj'
  · rw [rteLpmDelete_of_depth lpm ip hdepth, if_neg (show ¬ (-einval : Int) = 0 by decide)]
    exact ⟨h, fun _ => rfl, id⟩

/-! ## Creation and clearing -/

theorem shows_empty (h24 : ∀ i, lpm.tbl24 i = zeroEntry) (h8 : ∀ k, lpm.tbl8 k = zeroEntry)
    (hinfo : ∀ d, lpm.ruleInfo d = ⟨0, 0⟩) (hnum : lpm.numberTbl8s ≤ 2 ^ 24) :
    Shows lpm Table.empty := by
  have hext : ∀ i, ¬ Extended lpm i := by
    intro i he
    have hv := he.1
    rw [h24] at hv
    exact Bool.false_ne_true hv
  have hnone : ∀ i j, matches24 (hops24 Table.empty) i j = none :=
    fun i j => longest_eq_none.mpr (fun _ _ => rfl)
  refine
    { rules := ⟨fun d _ _ => ?_, fun d e _ _ _ hu => ?_, fun d _ _ hu => ?_⟩
      tables := ⟨SameRules.refl lpm, ⟨hnum, fun i _ j _ => ?_, fun i _ _ hv => ?_,
        fun i _ he => absurd he (hext i), fun i _ i' _ he => absurd he (hext i),
        fun g _ hg => ?_⟩, fun i _ he => absurd he (hext i)⟩
      positive := fun _ => rfl }
  · rw [hinfo]
    exact ⟨List.nodup_nil, fun ip v => ⟨(fun hv => nomatch hv), (fun hv => nomatch hv)⟩⟩
  · rw [hinfo] at hu
    exact absurd hu (lt_irrefl 0)
  · rw [hinfo] at hu
    exact absurd hu (lt_irrefl 0)
  · rw [entryAt_of_not_extended (hext i), hnone, h24]
    rfl
  · rw [h24] at hv
    exact absurd hv Bool.false_ne_true
  · rw [h8] at hg
    exact absurd hg Bool.false_ne_true

/-- **What `rte_lpm_create` makes**: the sizes of its arrays are those it
believes in exactly if they do not wrap. -/
theorem rteLpmCreate_spec {zmalloc : UInt32 → Bool} {maxRules numberTbl8s : UInt32}
    (h : rteLpmCreate zmalloc maxRules numberTbl8s = some lpm) :
    (Allocated lpm ↔ 8 * maxRules.toNat < 2 ^ 32 ∧ 1024 * numberTbl8s.toNat < 2 ^ 32)
      ∧ Shows lpm Table.empty := by
  have hrulesSize : (8 * maxRules).toNat = 8 * maxRules.toNat % 2 ^ 32 := UInt32.toNat_mul 8 _
  have htbl8sSize : (4 * 256 * numberTbl8s).toNat = 1024 * numberTbl8s.toNat % 2 ^ 32 :=
    UInt32.toNat_mul 1024 _
  unfold rteLpmCreate at h
  dsimp only at h
  split_ifs at h with hargs hrules htbl8s
  obtain rfl := Option.some.inj h
  have hnum : numberTbl8s.toNat ≤ 2 ^ 24 := by
    by_contra hlt
    exact hargs (Or.inr (UInt32.lt_iff_toNat_lt.mpr (show 16777216 < numberTbl8s.toNat by omega)))
  refine ⟨?_, shows_empty (fun _ => rfl) (fun _ => rfl) (fun _ => rfl) hnum⟩
  unfold Allocated
  dsimp only
  rw [hrulesSize, htbl8sSize]
  omega

/-- What `rte_lpm_delete_all` does: the object holds the empty map. -/
theorem rteLpmDeleteAll_spec (h : Shows lpm M) :
    Returns (Allocated lpm) (fun lpm' => Shows lpm' Table.empty ∧ Allocated lpm')
      (rteLpmDeleteAll lpm) := by
  unfold rteLpmDeleteAll
  split_ifs with hall
  · exact .some ⟨shows_empty (fun _ => rfl) (fun _ => rfl) (fun _ => rfl) h.tables.tables.small,
      hall⟩
  · exact ⟨fun _ hr => (nomatch hr), fun hall' => absurd hall' hall⟩

/-! ## Runs -/

/-- A call that changes the rules. -/
inductive LpmOp
  | add (ip : UInt32) (depth : UInt8) (nextHop : UInt32)
  | delete (ip : UInt32) (depth : UInt8)
  | deleteAll
deriving DecidableEq, Repr

/-- One call: what it returns, and the object after it. -/
def lpmStep (lpm : RteLpm) : LpmOp → Option (Int × RteLpm)
  | .add ip depth nextHop => rteLpmAdd lpm ip depth nextHop
  | .delete ip depth => some (rteLpmDelete lpm ip depth)
  | .deleteAll => (rteLpmDeleteAll lpm).map (fun lpm => (0, lpm))

/-- **The rule set after a call** that returned `status`. -/
def ruleSet (M : Table ℕ) (op : LpmOp) (status : Int) : Table ℕ :=
  if status = 0 then
    match op with
    | .add ip depth nextHop =>
      M.insert depth.toNat (trunc 32 depth.toNat ip.toNat) nextHop.toNat
    | .delete ip depth => M.erase depth.toNat (trunc 32 depth.toNat ip.toNat)
    | .deleteAll => Table.empty
  else M

/-- A sequence of calls, with the rule set they lead to. -/
def lpmRun : List LpmOp → RteLpm × Table ℕ → Option (RteLpm × Table ℕ)
  | [], s => some s
  | op :: ops, s => do
    let r ← lpmStep s.1 op
    lpmRun ops (r.2, ruleSet s.2 op r.1)

/-- The next hop of an addition has 24 bits. -/
def HopFits : LpmOp → Prop
  | .add _ _ nextHop => nextHop.toNat < 2 ^ 24
  | _ => True

instance (op : LpmOp) : Decidable (HopFits op) := by
  cases op <;> unfold HopFits <;> infer_instance

/-- The rule of a depth covers the address, and no deeper rule does. -/
def LongestRule (M : Table ℕ) (ip : UInt32) (depth nextHop : ℕ) : Prop :=
  depth ≤ 32 ∧ M depth (trunc 32 depth ip.toNat) = some nextHop
    ∧ ∀ e, depth < e → e ≤ 32 → M e (trunc 32 e ip.toNat) = none

/-- **The object answers as the map does.** -/
structure Answers (lpm : RteLpm) (M : Table ℕ) : Prop where
  /-- A lookup returns the next hop of the longest rule that covers the
  address. -/
  found : ∀ ip depth nextHop, LongestRule M ip depth nextHop → rteLpmLookup lpm ip = (0, nextHop)
  /-- It fails exactly if no rule covers it. -/
  notFound : ∀ ip, (rteLpmLookup lpm ip).1 = -enoent ↔
    ∀ depth ≤ 32, M depth (trunc 32 depth ip.toNat) = none
  /-- A rule is present exactly if the map has it, with its next hop. -/
  present : ∀ ip depth, rteLpmIsRulePresent lpm ip depth
    = if 1 ≤ depth.toNat ∧ depth.toNat ≤ 32 then
        match M depth.toNat (trunc 32 depth.toNat ip.toNat) with
        | some nextHop => ((1 : Int), some nextHop)
        | none => (0, none)
      else (-einval, none)

/-- **A call that fails leaves every answer as it was.** -/
def FailureKeeps (lpm : RteLpm) : Prop :=
  ∀ op, HopFits op → ∀ r, lpmStep lpm op = some r → r.1 ≠ 0 →
    (∀ ip, rteLpmLookup r.2 ip = rteLpmLookup lpm ip)
      ∧ ∀ ip depth, rteLpmIsRulePresent r.2 ip depth = rteLpmIsRulePresent lpm ip depth

/-- An object that stands for a map answers as the map does. -/
theorem Consistent.answers (h : Consistent lpm M) :
    Answers lpm M where
  found ip depth nextHop := by
    rintro ⟨hd, hM, hdeep⟩
    have hlookup := rteLpmLookup_eq h ip
    rw [longest_eq_some.mpr ⟨Nat.lt_succ_of_le hd, hM, fun e he he' =>
      hdeep e he (Nat.le_of_lt_succ he')⟩] at hlookup
    exact hlookup
  notFound ip := by
    have hlookup := rteLpmLookup_eq h ip
    have hnone := longest_eq_none (w := 32) (M := M) (a := ip.toNat) (n := 33)
    cases hl : longest 32 M ip.toNat 33 with
    | none =>
      rw [hl] at hlookup hnone
      exact iff_of_true hlookup (fun d hd => hnone.mp rfl d (Nat.lt_succ_of_le hd))
    | some s =>
      rw [hl] at hlookup hnone
      rw [show rteLpmLookup lpm ip = (0, s.2) from hlookup]
      refine iff_of_false (show ¬ (0 : Int) = -enoent by decide) (fun hall => ?_)
      exact nomatch hnone.mpr (fun d hd => hall d (Nat.le_of_lt_succ hd))
  present ip depth := by
    by_cases hdepth : 1 ≤ depth.toNat ∧ depth.toNat ≤ 32
    · rw [if_pos hdepth]
      exact rteLpmIsRulePresent_eq h.rules ip hdepth.1 hdepth.2
    · rw [if_neg hdepth]
      refine if_pos ?_
      rw [UInt8.lt_iff_toNat_lt, gt_iff_lt, UInt8.lt_iff_toNat_lt]
      show depth.toNat < 1 ∨ 32 < depth.toNat
      omega

/-- One call that returns keeps the object holding the rule set. -/
theorem lpmStep_spec (h : Shows lpm M) (op : LpmOp) :
    Returns (Allocated lpm)
      (fun r => Shows r.2 (ruleSet M op r.1) ∧ (r.1 ≠ 0 → SameTables lpm r.2)
        ∧ (Allocated lpm → Allocated r.2)) (lpmStep lpm op) := by
  cases op with
  | add ip depth nextHop => exact rteLpmAdd_spec h ip depth nextHop
  | delete ip depth =>
    obtain ⟨hheld, hfail, hall⟩ := rteLpmDelete_spec h ip depth
    refine .some ⟨hheld, fun hne => ?_, hall⟩
    rw [hfail hne]
    exact SameTables.refl lpm
  | deleteAll =>
    unfold lpmStep
    rw [Option.map_eq_bind]
    exact (rteLpmDeleteAll_spec h).bind id fun lpm' h' =>
      .some ⟨h'.1, fun hne => absurd rfl hne, fun _ => h'.2⟩

/-- An object that stands for a map is not changed by a call that fails, as
far as its answers go. -/
theorem Consistent.failureKeeps (h : Consistent lpm M) : FailureKeeps lpm := by
  intro op _ r hr hne
  obtain ⟨hheld, hsame, hall⟩ := (lpmStep_spec h.shows op).1 r hr
  have hM : ruleSet M op r.1 = M := if_neg hne
  rw [hM] at hheld
  refine ⟨fun ip => ?_, fun ip depth => ?_⟩
  · unfold rteLpmLookup
    rw [(hsame hne).tbl24, (hsame hne).tbl8]
  · rw [(hheld.consistent (hall ⟨h.tbl8Alloc, h.rulesAlloc⟩) h.hops).answers.present,
      h.answers.present]

/-- A run that returns keeps the object holding the rule set. -/
theorem lpmRun_spec (ops : List LpmOp) (h : Shows lpm M) :
    Returns (Allocated lpm) (fun s => Shows s.1 s.2 ∧ (Allocated lpm → Allocated s.1))
      (lpmRun ops (lpm, M)) := by
  induction ops generalizing lpm M with
  | nil => exact .some ⟨h, id⟩
  | cons op ops ih =>
    rw [lpmRun]
    refine ⟨fun s hs => ?_, fun hall => ?_⟩
    · obtain ⟨r, hr, hs⟩ := Option.bind_eq_some_iff.mp hs
      obtain ⟨hheld, -, hkeeps⟩ := (lpmStep_spec h op).1 r hr
      obtain ⟨hheld', hkeeps'⟩ := (ih hheld).1 s hs
      exact ⟨hheld', fun hall => hkeeps' (hkeeps hall)⟩
    · obtain ⟨r, hr⟩ := Option.isSome_iff_exists.mp ((lpmStep_spec h op).2 hall)
      obtain ⟨hheld, -, hkeeps⟩ := (lpmStep_spec h op).1 r hr
      obtain ⟨s, hs⟩ := Option.isSome_iff_exists.mp ((ih hheld).2 (hkeeps hall))
      exact Option.isSome_iff_exists.mpr ⟨s, Option.bind_eq_some_iff.mpr ⟨r, hr, hs⟩⟩

/-- The rules of a run have the next hops of its additions. -/
theorem hops_of_run {ops : List LpmOp} (hops : ∀ op ∈ ops, HopFits op)
    (hM : ∀ d p v, M d p = some v → v < 2 ^ 24) {s : RteLpm × Table ℕ}
    (hs : lpmRun ops (lpm, M) = some s) : ∀ d p v, s.2 d p = some v → v < 2 ^ 24 := by
  induction ops generalizing lpm M with
  | nil =>
    obtain rfl := Option.some.inj hs
    exact hM
  | cons op ops ih =>
    obtain ⟨r, -, hs⟩ := Option.bind_eq_some_iff.mp hs
    refine ih (fun o ho => hops o (List.mem_cons_of_mem op ho)) (fun d p v hv => ?_) hs
    have hop := hops op List.mem_cons_self
    unfold ruleSet at hv
    split at hv
    · cases op with
      | add ip depth nextHop =>
        dsimp only [Table.insert] at hv
        split at hv
        · exact Option.some.inj hv ▸ hop
        · exact hM d p v hv
      | delete ip depth =>
        dsimp only [Table.erase] at hv
        split at hv
        · cases hv
        · exact hM d p v hv
      | deleteAll => cases hv
    · exact hM d p v hv

/-- **The LPM table is longest-prefix match**, for every sequence of calls,
exactly if the sizes `rte_lpm_create` computes do not wrap. -/
theorem longestMatch_iff {zmalloc : UInt32 → Bool} {maxRules numberTbl8s : UInt32}
    {lpm : RteLpm} (hcreate : rteLpmCreate zmalloc maxRules numberTbl8s = some lpm) :
    (∀ ops : List LpmOp, (∀ op ∈ ops, HopFits op) →
        ∃ s, lpmRun ops (lpm, Table.empty) = some s ∧ Answers s.1 s.2 ∧ FailureKeeps s.1)
      ↔ 8 * maxRules.toNat < 2 ^ 32 ∧ 1024 * numberTbl8s.toNat < 2 ^ 32 := by
  obtain ⟨hsizes, hstart⟩ := rteLpmCreate_spec hcreate
  rw [← hsizes]
  constructor
  · -- clearing the object clears the arrays it believes in
    intro h
    by_contra hwrap
    obtain ⟨s, hs, -⟩ := h [.deleteAll] (fun op hop => by
      rw [List.mem_singleton.mp hop]
      exact trivial)
    have hnone : rteLpmDeleteAll lpm = none := if_neg hwrap
    rw [lpmRun, lpmStep, hnone] at hs
    cases hs
  · intro h ops hops
    obtain ⟨hholds, hruns⟩ := lpmRun_spec ops hstart
    obtain ⟨s, hs⟩ := Option.isSome_iff_exists.mp (hruns h)
    obtain ⟨hheld, hkeeps⟩ := hholds s hs
    have hcons := hheld.consistent (hkeeps h) (hops_of_run hops (fun _ _ _ hv => by cases hv) hs)
    exact ⟨s, hs, hcons.answers, hcons.failureKeeps⟩

/-- The theorem for a table of 16 rules and two groups. -/
theorem longestMatch_iff_small : ∃ lpm, rteLpmCreate (fun _ => true) 16 2 = some lpm ∧
    ∀ ops : List LpmOp, (∀ op ∈ ops, HopFits op) →
      ∃ s, lpmRun ops (lpm, Table.empty) = some s ∧ Answers s.1 s.2 ∧ FailureKeeps s.1 :=
  ⟨_, rfl, (longestMatch_iff (show rteLpmCreate (fun _ => true) 16 2 = some _ from rfl)).mpr
    ⟨by decide, by decide⟩⟩

/-- **Wrapped sizes**: with 4194305 groups, memory is allocated for one, and
the second rule that needs a group makes the library look past its end. -/
theorem longestMatch_fails_wrapped : ∃ lpm, rteLpmCreate (fun _ => true) 16 4194305 = some lpm ∧
    ¬ ∀ ops : List LpmOp, (∀ op ∈ ops, HopFits op) →
      ∃ s, lpmRun ops (lpm, Table.empty) = some s ∧ Answers s.1 s.2 ∧ FailureKeeps s.1 := by
  refine ⟨_, rfl, fun h => ?_⟩
  obtain ⟨s, hs, -⟩ := h [.add 0x0a000001 32 1, .add 0x0a000101 32 2] (by decide)
  exact absurd (Option.isSome_of_eq_some hs) (by decide +kernel)

/-- A table and its rule set, after calls from its creation on. -/
def Reached (s : RteLpm × Table ℕ) : Prop :=
  ∃ zmalloc maxRules numberTbl8s lpm ops, rteLpmCreate zmalloc maxRules numberTbl8s = some lpm
    ∧ (8 * maxRules.toNat < 2 ^ 32 ∧ 1024 * numberTbl8s.toNat < 2 ^ 32)
    ∧ (∀ op ∈ ops, HopFits op) ∧ lpmRun ops (lpm, Table.empty) = some s

end Lpm
