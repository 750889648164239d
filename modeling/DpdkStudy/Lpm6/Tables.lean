import DpdkStudy.Lib.Levels
import DpdkStudy.Lpm6.Lpm6

/-!
# The tables of the IPv6 LPM object

What the entries of the tables say, and what the loops over them do. An entry
of level `k` is the one of a block of addresses that share their first
`24 + 8 k` bits (`bits`, `block`). If it has no group (`groupOf`), it holds the
longest match of the addresses of its block, and no rule lies inside the block
(`Says`).

The two functions that go over the entries of a rule, and over all that lies
below them, rewrite the entries that have no group, and no others
(`expandRule_spec`, `expandRange_spec`, `deleteRange_spec`): a walk over a
group comes to an end, since there are thirteen levels of groups.
-/

open Nat

namespace Lpm6

open Net Prefix Levels

variable {a c count depth j k t x : ℕ} {e new : RteLpm6TblEntry} {M : Table ℕ} {tbl : Option ℕ}

/-! ## Blocks -/

/-- The bits that the entries of a level look at. -/
def bits (k : ℕ) : ℕ := 24 + 8 * k

/-- The block of an address. -/
def block (k a : ℕ) : ℕ := a / 2 ^ (128 - bits k)

/-- The level at which the rules of a depth end. -/
def level (depth : ℕ) : ℕ := if depth ≤ 24 then 0 else (depth - 17) / 8

theorem level_le (h : depth ≤ 128) : level depth ≤ 13 := by
  unfold level
  split <;> omega

theorem le_bits_level (depth : ℕ) : depth ≤ bits (level depth) := by
  unfold level bits
  split <;> omega

theorem bits_lt_of_lt_level (h : k < level depth) : bits k < depth := by
  unfold level at h
  unfold bits
  split at h <;> omega

theorem bits_le (h : k ≤ 13) : bits k ≤ 128 := by
  unfold bits
  omega

theorem bits_mono (h : j ≤ k) : bits j ≤ bits k := by
  unfold bits
  omega

theorem block_div (h : j ≤ k) (hk : k ≤ 13) (a : ℕ) :
    block k a / 256 ^ (k - j) = block j a := by
  have hpow : 256 ^ (k - j) = 2 ^ (bits k - bits j) := by
    rw [show 256 = 2 ^ 8 from rfl, ← pow_mul]
    congr 1
    unfold bits
    omega
  rw [hpow]
  exact div_div_pow (bits_mono h) (bits_le hk) a

theorem block_succ_div (hk : k < 13) (a : ℕ) : block (k + 1) a / 256 = block k a := by
  have h := block_div (le_succ k) hk a
  rw [show k.succ - k = 1 by omega, pow_one] at h
  exact h

theorem block_lt (hk : k ≤ 13) (h : a < 2 ^ 128) : block k a < 2 ^ 24 * 256 ^ k := by
  have hpow : 2 ^ 24 * 256 ^ k = 2 ^ bits k := by
    rw [show 256 = 2 ^ 8 from rfl, ← Nat.pow_mul, ← Nat.pow_add, bits]
  rw [hpow, block, Nat.div_lt_iff_lt_mul (Nat.two_pow_pos _), ← Nat.pow_add,
    Nat.add_sub_cancel' (bits_le hk)]
  exact h

theorem block_mul (k c : ℕ) : block k (c * 2 ^ (128 - bits k)) = c :=
  Nat.mul_div_cancel c (Nat.two_pow_pos _)

/-- Addresses of one block share the bits of its level. -/
theorem trunc_bits_eq_iff {b : ℕ} :
    trunc 128 (bits k) a = trunc 128 (bits k) b ↔ block k a = block k b := trunc_eq_trunc_iff

/-- The block of an address is the number of its first bytes. -/
theorem block_toNat (hk : k ≤ 13) (ip : RteIpv6Addr) :
    block k ip.toNat = ip.first (3 + k) := by
  rw [← ip.toNat_div (show 3 + k ≤ 16 by omega), block, show 256 = 2 ^ 8 from rfl, ← pow_mul]
  congr 2
  unfold bits
  omega

theorem block_succ (hk : k < 13) (ip : RteIpv6Addr) :
    block (k + 1) ip.toNat = block k ip.toNat * 256 + (ip.byte (3 + k)).toNat := by
  rw [block_toNat (succ_le_of_lt hk), block_toNat (le_of_lt hk)]
  rfl

theorem lor_bytes (x y z : UInt8) :
    x.toNat <<< 16 ||| y.toNat <<< 8 ||| z.toNat = (x.toNat * 256 + y.toNat) * 256 + z.toNat := by
  have hy := y.toNat_lt
  have hz := z.toNat_lt
  have hinner : y.toNat <<< 8 ||| z.toNat = y.toNat * 256 + z.toNat := by
    rw [← shiftLeft_add_eq_or_of_lt hz, shiftLeft_eq]
  rw [Nat.or_assoc, hinner,
    ← shiftLeft_add_eq_or_of_lt (show y.toNat * 256 + z.toNat < 2 ^ 16 by omega),
    shiftLeft_eq]
  omega

theorem first_three (ip : RteIpv6Addr) :
    (ip.byte 0).toNat <<< 16 ||| (ip.byte 1).toNat <<< 8 ||| (ip.byte 2).toNat
      = block 0 ip.toNat := by
  rw [block_toNat (zero_le 13), lor_bytes]
  simp [RteIpv6Addr.first_succ]

theorem getBitshift_first (ip : RteIpv6Addr) : getBitshift ip 1 3 = block 0 ip.toNat := by
  rw [← first_three]
  show (0 ||| _ <<< 16) ||| _ <<< 8 ||| _ <<< 0 = _
  rw [zero_or, shiftLeft_zero]

theorem getBitshift_next (ip : RteIpv6Addr) (hk : k < 13) :
    getBitshift ip (4 + k) 1 = (ip.byte (3 + k)).toNat := by
  have hneg : Int.bmod (((1 : ℕ) - ((4 + k + 0 : ℕ) : Int)) * 8) 256 < 0 := by
    interval_cases k <;> decide
  show 0 ||| (ip.byte (4 + k + 0 - 1)).toNat <<< (if _ < 0 then (0 : Int) else _).toNat = _
  rw [if_pos hneg, zero_or, show 4 + k + 0 - 1 = 3 + k by omega]
  exact shiftLeft_zero

/-! ## Entries -/

/-- The group of an entry. -/
def groupOf (e : RteLpm6TblEntry) : Option ℕ := if e.valid ∧ e.extEntry then some e.nextHop else none

/-- **A placement of the groups is right.** -/
abbrev Tree (T : Option ℕ → ℕ → RteLpm6TblEntry) (loc : ℕ → Option (ℕ × ℕ)) : Prop :=
  Placed groupOf (2 ^ 24) 13 T loc

/-- The entry for a match. -/
def leafEntry : Option (ℕ × ℕ) → RteLpm6TblEntry
  | none => zeroEntry
  | some (depth, nextHop) => tblEntry nextHop depth true false

@[simp] theorem groupOf_leafEntry (o : Option (ℕ × ℕ)) : groupOf (leafEntry o) = none := by
  cases o <;> simp [groupOf, leafEntry, zeroEntry, tblEntry]

@[simp] theorem extEntry_leafEntry (o : Option (ℕ × ℕ)) : (leafEntry o).extEntry = false := by
  cases o <;> rfl

theorem groupOf_eq_some :
    groupOf e = some t ↔ (e.valid = true ∧ e.extEntry = true) ∧ e.nextHop = t := by
  unfold groupOf
  split
  · next h => simp [h]
  · next h => simp [h]

theorem groupOf_eq_none :
    groupOf e = none ↔ ¬ (e.valid = true ∧ e.extEntry = true) := by
  unfold groupOf
  split
  · next h => simp [h]
  · next h => simp [h]

theorem groupOf_ext (ht : t < 2 ^ 21) : groupOf (tblEntry t 0 true true) = some t := by
  rw [groupOf_eq_some]
  exact ⟨⟨rfl, rfl⟩, mod_eq_of_lt ht⟩

/-- No rule of a table lies inside a block. -/
def Bare (M : Table ℕ) (k c : ℕ) : Prop := ∀ d p v, bits k < d → M d p = some v → block k p ≠ c

/-- **What an entry without a group says** of its block. -/
def Says (M : Table ℕ) (k c : ℕ) (e : RteLpm6TblEntry) : Prop :=
  e = leafEntry (longest 128 M (c * 2 ^ (128 - bits k)) (bits k + 1)) ∧ Bare M k c

/-- The prefixes of a table have their depth. -/
def Keyed (M : Table ℕ) : Prop :=
  ∀ d p v, M d p = some v → (1 ≤ d ∧ d ≤ 128) ∧ trunc 128 d p = p ∧ p < 2 ^ 128

/-- The match of a bare block is that of all its addresses. -/
theorem longest_of_bare {n : ℕ} (hM : Keyed M) (hk : k ≤ 13) (hbare : Bare M k c)
    (ha : block k a = c) (hn : bits k < n) :
    longest 128 M a n = longest 128 M (c * 2 ^ (128 - bits k)) (bits k + 1) := by
  have hshort : longest 128 M a n = longest 128 M a (bits k + 1) := by
    refine longest_eq_of_forall_lt hn (fun r hr => ?_)
    obtain ⟨e, u⟩ := r
    obtain ⟨-, hu, -⟩ := longest_eq_some.mp hr
    refine Nat.lt_succ_of_le (Nat.le_of_not_lt fun hlt => hbare e _ u hlt hu ?_)
    rw [← ha]
    refine div_eq_of_le (le_of_lt hlt) (hM e _ u hu).1.2 ?_
    exact trunc_eq_trunc_iff.mp (trunc_idem 128 e a)
  rw [hshort]
  refine longest_congr (bits_le hk) (le_refl _) (trunc_bits_eq_iff.mpr ?_)
  rw [ha, block_mul]

theorem Bare.part (hk : k < 13) (h : Bare M k c) (hj : j < 256) : Bare M (k + 1) (c * 256 + j) := by
  intro d p v hd hp hblock
  refine h d p v (lt_of_le_of_lt (bits_mono (le_succ k)) hd) hp ?_
  rw [← block_succ_div hk, hblock]
  omega

/-- **What an entry says**, the entries of its group say if they hold the
same. -/
theorem Says.part (hM : Keyed M) (hk : k < 13) (h : Says M k c e) (hj : j < 256) :
    Says M (k + 1) (c * 256 + j) e := by
  refine ⟨?_, h.2.part hk hj⟩
  rw [h.1]
  congr 1
  have hblock : block k ((c * 256 + j) * 2 ^ (128 - bits (k + 1))) = c := by
    rw [← block_succ_div hk, block_mul]
    omega
  rw [longest_of_bare hM (le_of_lt hk) h.2 hblock]
  exact lt_succ_of_le (bits_mono (le_succ k))

/-! ## Stores -/

@[simp] theorem entry_setEntry_self (lpm : RteLpm6) (tbl : Option ℕ) (i : ℕ)
    (e : RteLpm6TblEntry) : (lpm.setEntry tbl i e).entry tbl i = e := by
  cases tbl <;> simp [RteLpm6.setEntry, RteLpm6.entry]

theorem entry_setEntry_of_ne (lpm : RteLpm6) {tbl' : Option ℕ} {i i' : ℕ} (e : RteLpm6TblEntry)
    (hi : ∀ t, tbl = some t → i < 256) (hi' : ∀ t, tbl' = some t → i' < 256)
    (hne : ¬ (tbl' = tbl ∧ i' = i)) : (lpm.setEntry tbl i e).entry tbl' i' = lpm.entry tbl' i' := by
  cases tbl with
  | none =>
    cases tbl' with
    | none => exact Function.update_of_ne (fun heq => hne ⟨rfl, heq⟩) e lpm.tbl24
    | some t' => rfl
  | some t =>
    cases tbl' with
    | none => rfl
    | some t' =>
      have hlt := hi t rfl
      have hlt' := hi' t' rfl
      have hplace : t' * 256 + i' ≠ t * 256 + i := by
        intro heq
        obtain rfl : t' = t := by omega
        exact hne ⟨rfl, add_left_cancel heq⟩
      show Function.update lpm.tbl8 (t * 256 + i) e (t' * 256 + i') = lpm.tbl8 (t' * 256 + i')
      rw [Function.update_of_ne hplace]

theorem setEntry_entry (lpm : RteLpm6) (tbl : Option ℕ) (i : ℕ) :
    lpm.setEntry tbl i (lpm.entry tbl i) = lpm := by
  cases tbl <;> simp [RteLpm6.setEntry, RteLpm6.entry]

/-- Everything but the entries is the same. -/
structure SameRecords (lpm lpm' : RteLpm6) : Prop where
  maxRules : lpm'.maxRules = lpm.maxRules
  usedRules : lpm'.usedRules = lpm.usedRules
  numberTbl8s : lpm'.numberTbl8s = lpm.numberTbl8s
  rulesTbl : lpm'.rulesTbl = lpm.rulesTbl
  tbl8Pool : lpm'.tbl8Pool = lpm.tbl8Pool
  tbl8PoolPos : lpm'.tbl8PoolPos = lpm.tbl8PoolPos
  tbl8Hdrs : lpm'.tbl8Hdrs = lpm.tbl8Hdrs

theorem SameRecords.refl (lpm : RteLpm6) : SameRecords lpm lpm := ⟨rfl, rfl, rfl, rfl, rfl, rfl, rfl⟩

theorem SameRecords.trans {lpm lpm' lpm'' : RteLpm6} (h : SameRecords lpm lpm')
    (h' : SameRecords lpm' lpm'') : SameRecords lpm lpm'' :=
  ⟨h'.maxRules.trans h.maxRules, h'.usedRules.trans h.usedRules,
    h'.numberTbl8s.trans h.numberTbl8s, h'.rulesTbl.trans h.rulesTbl,
    h'.tbl8Pool.trans h.tbl8Pool, h'.tbl8PoolPos.trans h.tbl8PoolPos,
    h'.tbl8Hdrs.trans h.tbl8Hdrs⟩

theorem sameRecords_setEntry (lpm : RteLpm6) (tbl : Option ℕ) (i : ℕ) (e : RteLpm6TblEntry) :
    SameRecords lpm (lpm.setEntry tbl i e) := by
  cases tbl <;> exact ⟨rfl, rfl, rfl, rfl, rfl, rfl, rfl⟩

/-! ## Walks over the entries of a rule -/

variable {lpm : RteLpm6} {loc : ℕ → Option (ℕ × ℕ)}

/-- What becomes of an entry without a group. -/
def overwrite (oldDepth : ℕ) (new e : RteLpm6TblEntry) : RteLpm6TblEntry :=
  if ¬ e.valid ∨ (¬ e.extEntry ∧ e.depth ≤ oldDepth) then new else e

theorem groupOf_overwrite {oldDepth : ℕ} (hnew : groupOf new = none) (he : groupOf e = none) :
    groupOf (overwrite oldDepth new e) = none := by
  unfold overwrite
  split
  · exact hnew
  · exact he

/-- **A loop over entries next to each other**, which stores what `f` makes of
an entry without a group, and does so below the others. -/
theorem walk_spec (tbl : Option ℕ) (start : ℕ) {f : RteLpm6TblEntry → RteLpm6TblEntry}
    {g : ℕ → RteLpm6 → Option RteLpm6} (h : Tree lpm.entry loc)
    (hcells : ∀ n < count, Cell loc tbl (start + n) k (x + n))
    (hf : ∀ e, groupOf e = none → groupOf (f e) = none)
    (hleaf : ∀ n < count, ∀ s : RteLpm6, groupOf (lpm.entry tbl (start + n)) = none →
      s.entry tbl (start + n) = lpm.entry tbl (start + n) →
      g n s = some (s.setEntry tbl (start + n) (f (lpm.entry tbl (start + n)))))
    (hbelow : ∀ n < count, ∀ (s : RteLpm6) (t : ℕ), groupOf (lpm.entry tbl (start + n)) = some t →
      s.entry tbl (start + n) = lpm.entry tbl (start + n) → Tree s.entry loc →
      loc t = some (k, x + n) →
      ∃ s', g n s = some s' ∧ SameRecords s s'
        ∧ Mapped groupOf loc (Within (k + 1) ((x + n) * 256) ((x + n) * 256 + 256)) f
          s.entry s'.entry) :
    ∃ lpm', Loop.times count (fun n s => s.bind (g n)) (some lpm) = some lpm'
      ∧ SameRecords lpm lpm' ∧ Mapped groupOf loc (Within k x (x + count)) f lpm.entry lpm'.entry := by
  refine Loop.times_invariant
    (fun n s => ∃ lpm', s = some lpm' ∧ SameRecords lpm lpm'
      ∧ Mapped groupOf loc (Within k x (x + n)) f lpm.entry lpm'.entry)
    ⟨lpm, rfl, SameRecords.refl lpm, Mapped.start k x⟩ (fun n hn o ho => ?_)
  obtain ⟨s, rfl, hrec, hmap⟩ := ho
  have hcell := hcells n hn
  -- the loop has not come to this entry yet
  have hsame : s.entry tbl (start + n) = lpm.entry tbl (start + n) := by
    refine hmap.other tbl _ k (x + n) hcell (fun hc => ?_)
    have hlt := hc.1.2.2
    rw [Nat.sub_self, Nat.pow_zero, Nat.div_one] at hlt
    exact lt_irrefl _ hlt
  cases hgroup : groupOf (lpm.entry tbl (start + n)) with
  | none =>
    have hin : ∀ t, tbl = some t → start + n < 256 := by
      rintro t rfl
      exact hcell.1
    refine ⟨_, hleaf n hn s hgroup hsame, hrec.trans (sameRecords_setEntry s tbl _ _), ?_⟩
    refine hmap.step_leaf h (le_add_right x n) hcell hgroup (entry_setEntry_self s tbl _ _)
      (fun tbl' i' k' c' hcell' hne => ?_) (fun t i hi ht => ?_)
    · refine entry_setEntry_of_ne s _ hin ?_ hne
      rintro t rfl
      exact hcell'.1
    · refine entry_setEntry_of_ne s _ hin (fun _ _ => hi) ?_
      rintro ⟨rfl, -⟩
      obtain ⟨-, j, b, hloc, -⟩ := hcell
      rw [ht] at hloc
      cases hloc
  | some t =>
    have hloc := h.below tbl _ k (x + n) t hcell hgroup
    obtain ⟨s', hs', hrec', hmap'⟩ := hbelow n hn s t hgroup hsame (hmap.placed h hf) hloc
    exact ⟨s', hs', hrec.trans hrec',
      hmap.step_below (le_add_right x n) h hcell hgroup hmap'⟩

/-- **What `expand_rule` does** to a group and all that lies below it: there
are levels enough for the recursion. -/
theorem expandRule_spec {oldDepth : ℕ} (hnew : groupOf new = none) (fuel : ℕ) {lpm : RteLpm6}
    (h : Tree lpm.entry loc) (ht : loc t = some (k, c)) (hfuel : 13 ≤ k + fuel) :
    ∃ lpm', expandRule fuel lpm t oldDepth new = some lpm' ∧ SameRecords lpm lpm'
      ∧ Mapped groupOf loc (Within (k + 1) (c * 256) (c * 256 + 256)) (overwrite oldDepth new)
        lpm.entry lpm'.entry := by
  induction fuel generalizing lpm t k c with
  | zero => exact absurd (h.bound t k c ht).1 (Nat.not_lt_of_le hfuel)
  | succ fuel ih =>
    refine walk_spec (some t) 0 (g := fun j lpm =>
      let e := lpm.entry (some t) j
      if ¬ e.valid ∨ (¬ e.extEntry ∧ e.depth ≤ oldDepth) then
        some (lpm.setEntry (some t) j new)
      else if e.extEntry then expandRule fuel lpm e.nextHop oldDepth new
      else some lpm) h (fun j hj => ?_) (fun e he => groupOf_overwrite hnew he)
      (fun j hj s hgroup hsame => ?_) (fun j hj s u hgroup hsame hs hu => ?_)
    · rw [zero_add]
      exact cell_group ht hj
    · rw [zero_add] at hgroup hsame ⊢
      rw [groupOf_eq_none] at hgroup
      dsimp only
      rw [hsame]
      unfold overwrite
      by_cases hover : ¬ (lpm.entry (some t) j).valid = true
          ∨ (¬ (lpm.entry (some t) j).extEntry = true ∧ (lpm.entry (some t) j).depth ≤ oldDepth)
      · rw [if_pos hover, if_pos hover]
      · have hext : ¬ (lpm.entry (some t) j).extEntry = true := fun hext =>
          hgroup ⟨not_not.mp (fun hv => hover (Or.inl hv)), hext⟩
        rw [if_neg hover, if_neg hover, if_neg hext, ← hsame, setEntry_entry]
    · rw [zero_add] at hgroup hsame
      obtain ⟨⟨hvalid, hext⟩, rfl⟩ := groupOf_eq_some.mp hgroup
      dsimp only
      rw [hsame, if_neg (by simp [hvalid, hext]), if_pos hext]
      exact ih hs hu (by omega)

/-- What the loop of `add_step` does. -/
theorem expandRange_spec {start : ℕ} (oldDepth : ℕ) (hnew : groupOf new = none)
    (h : Tree lpm.entry loc) (hcells : ∀ n < count, Cell loc tbl (start + n) k (x + n)) :
    ∃ lpm', expandRange lpm tbl start count oldDepth new = some lpm' ∧ SameRecords lpm lpm'
      ∧ Mapped groupOf loc (Within k x (x + count)) (overwrite oldDepth new)
        lpm.entry lpm'.entry := by
  refine walk_spec tbl start (g := fun n lpm =>
    let e := lpm.entry tbl (start + n)
    if ¬ e.valid ∨ (¬ e.extEntry ∧ e.depth ≤ oldDepth) then
      some (lpm.setEntry tbl (start + n) new)
    else if e.extEntry then expandRule 13 lpm e.nextHop oldDepth new
    else some lpm) h hcells (fun e he => groupOf_overwrite hnew he)
    (fun n hn s hgroup hsame => ?_) (fun n hn s u hgroup hsame hs hu => ?_)
  · rw [groupOf_eq_none] at hgroup
    dsimp only
    rw [hsame]
    unfold overwrite
    by_cases hover : ¬ (lpm.entry tbl (start + n)).valid = true
        ∨ (¬ (lpm.entry tbl (start + n)).extEntry = true
          ∧ (lpm.entry tbl (start + n)).depth ≤ oldDepth)
    · rw [if_pos hover, if_pos hover]
    · have hext : ¬ (lpm.entry tbl (start + n)).extEntry = true := fun hext =>
        hgroup ⟨not_not.mp (fun hv => hover (Or.inl hv)), hext⟩
      rw [if_neg hover, if_neg hover, if_neg hext, ← hsame, setEntry_entry]
  · obtain ⟨⟨hvalid, hext⟩, rfl⟩ := groupOf_eq_some.mp hgroup
    dsimp only
    rw [hsame, if_neg (by simp [hvalid, hext]), if_pos hext]
    exact expandRule_spec hnew 13 hs hu (le_add_left 13 k)

/-- **What the loop of `rte_lpm6_delete` does**, where no entry of the rule is
of a shallower one. -/
theorem deleteRange_spec {start : ℕ} (hnew : groupOf new = none) (h : Tree lpm.entry loc)
    (hcells : ∀ n < count, Cell loc tbl (start + n) k (x + n))
    (hdeep : ∀ n < count, groupOf (lpm.entry tbl (start + n)) = none →
      ((lpm.entry tbl (start + n)).valid = true ∧ (lpm.entry tbl (start + n)).extEntry = false)
        ∧ depth ≤ (lpm.entry tbl (start + n)).depth) :
    ∃ lpm', deleteRange lpm tbl start count depth new = some lpm' ∧ SameRecords lpm lpm'
      ∧ Mapped groupOf loc (Within k x (x + count)) (overwrite depth new)
        lpm.entry lpm'.entry := by
  refine walk_spec tbl start (g := fun n lpm =>
    let e := lpm.entry tbl (start + n)
    if e.extEntry then expandRule 13 lpm e.nextHop depth new
    else if e.depth = depth then some (lpm.setEntry tbl (start + n) new)
    else some lpm) h hcells (fun e he => groupOf_overwrite hnew he)
    (fun n hn s hgroup hsame => ?_) (fun n hn s u hgroup hsame hs hu => ?_)
  · obtain ⟨⟨hvalid, hext⟩, hle⟩ := hdeep n hn hgroup
    dsimp only
    rw [hsame, if_neg (by simp [hext])]
    unfold overwrite
    by_cases heq : (lpm.entry tbl (start + n)).depth = depth
    · rw [if_pos heq, if_pos (Or.inr ⟨by simp [hext], le_of_eq heq⟩)]
    · have hnot : ¬ (¬ (lpm.entry tbl (start + n)).valid = true
          ∨ (¬ (lpm.entry tbl (start + n)).extEntry = true
            ∧ (lpm.entry tbl (start + n)).depth ≤ depth)) := by
        rintro (hv | ⟨-, hd⟩)
        · exact hv hvalid
        · exact heq (le_antisymm hd hle)
      rw [if_neg heq, if_neg hnot, ← hsame, setEntry_entry]
  · obtain ⟨⟨hvalid, hext⟩, rfl⟩ := groupOf_eq_some.mp hgroup
    dsimp only
    rw [hsame, if_pos hext]
    exact expandRule_spec hnew 13 hs hu (le_add_left 13 k)

end Lpm6
