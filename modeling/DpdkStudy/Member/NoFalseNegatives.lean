import DpdkStudy.Lib.Runs
import DpdkStudy.Member.Displacement

/-!
# What the membership hash table holds

In non-cache mode, an add that does not fail puts one entry into the table, and a delete that
finds its entry takes one out. So over any run of calls the entries in the table are those that
were added, less those that were deleted (`entries_run`). An add that fails leaves the table as
it was, and no entry is marked between calls.

A lookup with room for them reports all the sets of the entries of a key
(`mem_rteMemberLookupMultiHt`). Keys with the same signature and the same buckets have the same
entries, so a delete with one of them may take the entry that was added with another.
-/

open List

namespace Member

open Places Runs

variable {K : Type} {ss : RteMemberSetsum K}

/-! ## The entry of a key -/

/-- **The entry of a key and a set.** -/
def RteMemberSetsum.keyEntry (ss : RteMemberSetsum K) (key : K) (set_id : BitVec 16) : Entry ss :=
  let (prim_bucket, _, sig) := getBucketsIndex ss key
  ss.entry prim_bucket sig set_id

/-- In non-cache mode the secondary bucket is the other bucket of the primary one. -/
theorem getBucketsIndex_of_not_cache (hcache : ss.cache = false) (key : K) :
    ∃ b sig, getBucketsIndex ss key = (b, ss.nextBucket sig b, sig) := by
  refine ⟨ss.masked (ss.sec_hash (ss.prim_hash key)).toNat, (ss.prim_hash key).setWidth 16, ?_⟩
  simp only [getBucketsIndex, hcache, Bool.false_eq_true, if_false, RteMemberSetsum.nextBucket]
  rw [Nat.xor_comm]

/-- The entries of two slots are the same where the signatures and the sets are, and the buckets
are the same or each other's. -/
theorem entry_eq_iff {c : Fin ss.bucket_cnt} {s t w : BitVec 16} :
    ss.entry b s v = ss.entry c t w ↔ s = t ∧ (b = c ∨ b = ss.nextBucket t c) ∧ v = w := by
  simp only [RteMemberSetsum.entry, Prod.mk.injEq, Sym2.eq_iff]
  constructor
  · rintro ⟨rfl, hbc, rfl⟩
    exact ⟨rfl, hbc.imp And.left And.left, rfl⟩
  · rintro ⟨rfl, rfl | rfl, rfl⟩
    · exact ⟨rfl, Or.inl ⟨rfl, rfl⟩, rfl⟩
    · exact ⟨rfl, Or.inr ⟨rfl, nextBucket_nextBucket s c⟩, rfl⟩

namespace RteMemberSetsum.Table

variable {t t' : ss.Table}

/-- **No entry is marked.** -/
def Unmarked (t : ss.Table) : Prop := ∀ b i, (t b).sets i &&& flagMask = 0

theorem and_not_flagMask (h : v &&& flagMask = 0) : v &&& ~~~flagMask = v := by
  rw [← unmark_mark h, BitVec.and_assoc, BitVec.and_self]

theorem Unmarked.pushing (h : t.Unmarked) : t.Pushing := fun b i hflag => absurd (h b i) hflag

theorem Unmarked.put (h : t.Unmarked) (hv : v &&& flagMask = 0) (b : Fin ss.bucket_cnt)
    (i : Fin rteMemberBucketEntries) (sig : BitVec 16) :
    (t.put b i sig v).Unmarked := fun c j => by
  show ((t.put b i sig v).slot (c, j)).2 &&& flagMask = 0
  rw [slot_put]
  split
  · exact hv
  · exact h c j

theorem mem_entries (h : t.Unmarked) : e ∈ t.entries ↔
    ∃ b i, (t b).sets i ≠ rteMemberNoMatch ∧ ss.entry b ((t b).sigs i) ((t b).sets i) = e := by
  have hcontent : ∀ b i, e ∈ t.content (b, i) ↔ (t b).sets i ≠ rteMemberNoMatch ∧
      ss.entry b ((t b).sigs i) ((t b).sets i) = e := fun b i => by
    show e ∈ (if (t b).sets i = rteMemberNoMatch then 0
      else {ss.entry b ((t b).sigs i) ((t b).sets i &&& ~~~flagMask)} : Multiset (Entry ss)) ↔ _
    rw [and_not_flagMask (h b i)]
    split
    case isTrue hno => simp [hno]
    case isFalse hset => simp [hset, eq_comm]
  simp only [entries, Multiset.mem_sum, Finset.mem_univ, true_and, Prod.exists, hcontent]

/-- An entry that is written over what is in a slot. -/
theorem entries_put (t : ss.Table) (hno : v ≠ rteMemberNoMatch) (hv : v &&& flagMask = 0)
    (b : Fin ss.bucket_cnt) (i : Fin rteMemberBucketEntries) (sig : BitVec 16) :
    (t.put b i sig v).entries =
      {ss.entry b sig v} + without Finset.univ t.content (b, i) := by
  rw [entries, sum_eq_add_without (Finset.mem_univ (b, i)) fun p _ hp => content_congr (t := t) ?_]
  · congr 1
    rw [content, slot_put, if_pos rfl, if_neg hno, and_not_flagMask hv]
  · rw [slot_put, if_neg hp]

theorem entries_put_free (hno : v ≠ rteMemberNoMatch) (hv : v &&& flagMask = 0)
    {i : Fin rteMemberBucketEntries} (hfree : (t b).sets i = rteMemberNoMatch) (sig : BitVec 16) :
    (t.put b i sig v).entries = {ss.entry b sig v} + t.entries := by
  rw [entries_put t hno hv, without_of_empty (content_of_noMatch (p := (b, i)) hfree), entries]

end RteMemberSetsum.Table

open RteMemberSetsum.Table

/-! ## Add -/

/-- `try_insert` puts the entry into one of the two buckets. -/
theorem tryInsert_eq_some {t t' : ss.Table} (h : t.Unmarked) (hno : v ≠ rteMemberNoMatch)
    (hv : v &&& flagMask = 0) (ht' : tryInsert t b (ss.nextBucket sig b) sig v = some t') :
    t'.Unmarked ∧ t'.entries = {ss.entry b sig v} + t.entries := by
  unfold tryInsert at ht'
  split at ht'
  case h_1 i hi =>
    obtain rfl := Option.some.inj ht'
    exact ⟨h.put hv b i sig, entries_put_free hno hv (freeSlot_eq_some hi) sig⟩
  case h_2 =>
    obtain ⟨i, hi, rfl⟩ := Option.map_eq_some_iff.mp ht'
    refine ⟨h.put hv _ i sig, ?_⟩
    rw [entries_put_free hno hv (freeSlot_eq_some hi) sig, entry_nextBucket]

theorem tryInsert_eq_none {t : ss.Table} {c : Fin ss.bucket_cnt}
    (ht' : tryInsert t b c sig v = none) : t.Full b ∧ t.Full c := by
  unfold tryInsert at ht'
  split at ht'
  case h_1 => contradiction
  case h_2 hb => exact ⟨freeSlot_eq_none hb, freeSlot_eq_none (Option.map_eq_none_iff.mp ht')⟩

/-- **What an add does**: it puts the entry into the table, or it fails and does nothing. -/
theorem rteMemberAddHt_spec (hcache : ss.cache = false) {t : ss.Table} (h : t.Unmarked) (key : K)
    (v : BitVec 16) (rand : BitVec 64) : let out := rteMemberAddHt ss t key v rand
    0 ≤ out.1 ∧ out.2.Unmarked ∧ out.2.entries = {ss.keyEntry key v} + t.entries ∨
      out.1 < 0 ∧ out.2 = t := by
  intro out
  generalize hadd : out = result
  obtain ⟨r, t'⟩ := result
  simp only [out] at hadd
  unfold rteMemberAddHt at hadd
  split at hadd
  case isTrue =>
    obtain ⟨rfl, rfl⟩ := Prod.mk.inj hadd
    exact Or.inr ⟨show -einval < 0 by decide, rfl⟩
  case isFalse hset =>
    obtain ⟨hno, hv⟩ := not_or.mp hset
    replace hv := not_not.mp hv
    obtain ⟨b, sig, hkey⟩ := getBucketsIndex_of_not_cache hcache key
    have hentry : ss.keyEntry key v = ss.entry b sig v := by rw [RteMemberSetsum.keyEntry, hkey]
    simp only [hkey, hcache, Bool.false_eq_true, if_false] at hadd
    rw [hentry]
    cases hinsert : tryInsert t b (ss.nextBucket sig b) sig v with
    | some t₁ =>
      rw [hinsert] at hadd
      obtain ⟨rfl, rfl⟩ := Prod.mk.inj hadd
      exact Or.inl ⟨le_refl 0, tryInsert_eq_some h hno hv hinsert⟩
    | none =>
      rw [hinsert] at hadd
      obtain ⟨hb, hc⟩ := tryInsert_eq_none hinsert
      -- either bucket is one of the two that the entry may be in
      generalize hselect : (if sig &&& 1 ≠ 0 then b else ss.nextBucket sig b) = select at hadd
      have hfull : t.Full select := by
        rw [← hselect]
        split
        · exact hb
        · exact hc
      have hsame : ss.entry select sig v = ss.entry b sig v := by
        rw [← hselect]
        split
        · rfl
        · exact entry_nextBucket b sig v
      have hspec := makeSpaceBucket_spec rteMemberMaxPushes t select hfull h.pushing
      generalize makeSpaceBucket rteMemberMaxPushes t select = made at hadd hspec
      obtain ⟨e | i, t₁⟩ := made
      · obtain ⟨rfl, rfl⟩ := hspec
        obtain ⟨rfl, rfl⟩ := Prod.mk.inj hadd
        exact Or.inr ⟨show -enospc < 0 by decide, rfl⟩
      · obtain ⟨rfl, rfl⟩ := Prod.mk.inj hadd
        have h₁ : t₁.Unmarked := fun c j => (hspec.marks (c, j)).trans (h c j)
        refine Or.inl ⟨show (0 : Int) ≤ 1 by decide, h₁.put hv select i sig, ?_⟩
        rw [entries_put t₁ hno hv, hspec.entries, hsame]

/-! ## Delete -/

/-- One bucket is searched for the entry, and the entry is taken out of it. -/
theorem deleteFromBucket_eq_some {t t' : ss.Table} (h : t.Unmarked) (hno : v ≠ rteMemberNoMatch)
    (ht' : deleteFromBucket t b sig v = some t') :
    t'.Unmarked ∧ t.entries = {ss.entry b sig v} + t'.entries := by
  obtain ⟨i, hi, rfl⟩ := Option.map_eq_some_iff.mp ht'
  have hmatch := firstSlot_eq_some hi
  simp only [Bool.and_eq_true, beq_iff_eq] at hmatch
  obtain ⟨hsig, hset⟩ := hmatch
  have hput : t.putSet b i rteMemberNoMatch = t.put b i sig rteMemberNoMatch := by
    refine ext_slot fun p => ?_
    rw [slot_putSet, slot_put, hsig]
  have hcontent : t.content (b, i) = {ss.entry b sig v} := by
    show (if (t b).sets i = rteMemberNoMatch then 0
      else {ss.entry b ((t b).sigs i) ((t b).sets i &&& ~~~flagMask)} : Multiset (Entry ss)) = _
    rw [← hset, if_neg hno, ← hsig, and_not_flagMask (hset ▸ h b i)]
  refine ⟨hput ▸ h.put (by decide) b i sig, ?_⟩
  have hafter : (t.putSet b i rteMemberNoMatch).entries =
      without Finset.univ t.content (b, i) := by
    rw [entries, sum_eq_add_without (Finset.mem_univ (b, i))
        fun p _ hp => content_congr (t := t) ?_,
      content_of_noMatch, zero_add]
    · rw [slot_putSet, if_pos rfl]
    · rw [slot_putSet, if_neg hp]
  rw [hafter, entries, ← add_without (Finset.mem_univ (b, i)), hcontent]

/-- Where it is not there, no slot of the bucket holds it. -/
theorem deleteFromBucket_eq_none {t : ss.Table} (ht' : deleteFromBucket t b sig v = none)
    (i : Fin rteMemberBucketEntries) :
    ¬ ((t b).sigs i = sig ∧ (t b).sets i = v) := by
  rintro ⟨hsig, hset⟩
  have hi := firstSlot_eq_none (Option.map_eq_none_iff.mp ht') i
  simp [hsig, hset] at hi

/-- **What a delete does**: it takes the entry out of the table, or there is none. -/
theorem rteMemberDeleteHt_spec (hcache : ss.cache = false) {t : ss.Table} (h : t.Unmarked) (key : K)
    (hno : v ≠ rteMemberNoMatch) :
    let out := rteMemberDeleteHt ss t key v
    out.1 = 0 ∧ out.2.Unmarked ∧ t.entries = {ss.keyEntry key v} + out.2.entries ∨
      out.1 = -enoent ∧ out.2 = t ∧ ss.keyEntry key v ∉ t.entries := by
  intro out
  generalize hdelete : out = result
  obtain ⟨r, t'⟩ := result
  simp only [out] at hdelete
  obtain ⟨b, sig, hkey⟩ := getBucketsIndex_of_not_cache hcache key
  have hentry : ss.keyEntry key v = ss.entry b sig v := by rw [RteMemberSetsum.keyEntry, hkey]
  unfold rteMemberDeleteHt at hdelete
  simp only [hkey] at hdelete
  rw [hentry]
  cases hprim : deleteFromBucket t b sig v with
  | some t₁ =>
    rw [hprim, Option.some_or] at hdelete
    obtain ⟨rfl, rfl⟩ := Prod.mk.inj hdelete
    exact Or.inl ⟨rfl, deleteFromBucket_eq_some h hno hprim⟩
  | none =>
    rw [hprim, Option.none_or] at hdelete
    cases hsec : deleteFromBucket t (ss.nextBucket sig b) sig v with
    | some t₁ =>
      rw [hsec] at hdelete
      obtain ⟨rfl, rfl⟩ := Prod.mk.inj hdelete
      have hspec := deleteFromBucket_eq_some h hno hsec
      rw [entry_nextBucket] at hspec
      exact Or.inl ⟨rfl, hspec⟩
    | none =>
      rw [hsec] at hdelete
      obtain ⟨rfl, rfl⟩ := Prod.mk.inj hdelete
      refine Or.inr ⟨rfl, rfl, fun hmem => ?_⟩
      obtain ⟨c, i, -, heq⟩ := (mem_entries h).mp hmem
      obtain ⟨hsig, rfl | rfl, hset⟩ := entry_eq_iff.mp heq
      · exact deleteFromBucket_eq_none hprim i ⟨hsig, hset⟩
      · exact deleteFromBucket_eq_none hsec i ⟨hsig, hset⟩

/-! ## Lookup -/

/-- The sets that some slots of a bucket have for a signature. -/
def slotMatches (bkt : MemberHtBucket) (sig : BitVec 16)
    (l : List (Fin rteMemberBucketEntries)) : List (BitVec 16) :=
  (l.filter fun i => sig = bkt.sigs i ∧ bkt.sets i ≠ rteMemberNoMatch).map bkt.sets

/-- The sets that a bucket has for a signature. -/
def bucketMatches (bkt : MemberHtBucket) (sig : BitVec 16) : List (BitVec 16) :=
  slotMatches bkt sig (List.finRange rteMemberBucketEntries)

/-- **The sets that a table has for a key**: those of its primary and of its secondary bucket. -/
def RteMemberSetsum.keyMatches (ss : RteMemberSetsum K) (t : ss.Table) (key : K) :
    List (BitVec 16) :=
  let (prim_bucket, sec_bucket, sig) := getBucketsIndex ss key
  bucketMatches (t prim_bucket) sig ++ bucketMatches (t sec_bucket) sig

/-- With room for them, the loop finds all the sets. -/
theorem searchSlots_eq (bkt : MemberHtBucket) (sig : BitVec 16) (n : ℕ)
    (l : List (Fin rteMemberBucketEntries)) (found : List (BitVec 16))
    (hroom : found.length + (slotMatches bkt sig l).length ≤ n) :
    searchSlots bkt sig n l found = found ++ slotMatches bkt sig l := by
  induction l generalizing found with
  | nil => simp [searchSlots, slotMatches]
  | cons i l ih =>
    unfold searchSlots
    by_cases hi : sig = bkt.sigs i ∧ bkt.sets i ≠ rteMemberNoMatch
    · have hcons : slotMatches bkt sig (i :: l) = bkt.sets i :: slotMatches bkt sig l := by
        rw [slotMatches, filter_cons, if_pos (decide_eq_true hi), map_cons, slotMatches]
      rw [hcons, length_cons] at hroom
      rw [if_pos hi, hcons]
      dsimp only
      split
      case isTrue hfilled =>
        -- there is no room left, so there is nothing left to find
        rw [length_append, length_singleton] at hfilled
        rw [length_eq_zero_iff.mp (show (slotMatches bkt sig l).length = 0 by omega)]
      case isFalse =>
        rw [ih _ (by simpa [Nat.add_assoc, Nat.add_comm 1] using hroom), append_assoc]
        rfl
    · have hcons : slotMatches bkt sig (i :: l) = slotMatches bkt sig l := by
        rw [slotMatches, filter_cons, if_neg (mt of_decide_eq_true hi), slotMatches]
      rw [hcons] at hroom
      rw [if_neg hi, hcons, ih found hroom]

/-- With room for them, a lookup reports all the sets of a key. -/
theorem rteMemberLookupMultiHt_eq (ss : RteMemberSetsum K) (t : ss.Table) (key : K) {n : ℕ}
    (hroom : (ss.keyMatches t key).length ≤ n) :
    rteMemberLookupMultiHt ss t key n = ss.keyMatches t key := by
  unfold rteMemberLookupMultiHt
  unfold RteMemberSetsum.keyMatches at hroom ⊢
  generalize getBucketsIndex ss key = found at hroom ⊢
  obtain ⟨b, c, sig⟩ := found
  dsimp only at hroom ⊢
  rw [length_append] at hroom
  have hprim : searchBucketMulti b sig t n [] = bucketMatches (t b) sig := by
    refine searchSlots_eq (t b) sig n _ [] ?_
    rw [length_nil, Nat.zero_add]
    exact Nat.le_of_add_right_le hroom
  rw [hprim]
  split
  case isTrue => exact searchSlots_eq (t c) sig n _ _ hroom
  case isFalse hfilled =>
    rw [length_eq_zero_iff.mp (show (bucketMatches (t c) sig).length = 0 by omega),
      append_nil]

/-- Room for all the entries of two buckets is enough. -/
theorem length_keyMatches_le (ss : RteMemberSetsum K) (t : ss.Table) (key : K) :
    (ss.keyMatches t key).length ≤ 2 * rteMemberBucketEntries := by
  have hbucket : ∀ bkt sig, (bucketMatches bkt sig).length ≤ rteMemberBucketEntries :=
    fun bkt sig => by
      rw [bucketMatches, slotMatches, length_map]
      exact (length_filter_le _ _).trans_eq (length_finRange)
  rw [RteMemberSetsum.keyMatches, length_append, Nat.two_mul]
  exact Nat.add_le_add (hbucket _ _) (hbucket _ _)

theorem mem_keyMatches (hcache : ss.cache = false) {t : ss.Table} (h : t.Unmarked) {key : K}
    (hmem : ss.keyEntry key v ∈ t.entries) : v ∈ ss.keyMatches t key := by
  obtain ⟨b, sig, hkey⟩ := getBucketsIndex_of_not_cache hcache key
  have hentry : ss.keyEntry key v = ss.entry b sig v := by rw [RteMemberSetsum.keyEntry, hkey]
  obtain ⟨c, i, hno, heq⟩ := (mem_entries h).mp hmem
  obtain ⟨hsig, hc, hset⟩ := entry_eq_iff.mp (heq.trans hentry)
  have hfound : v ∈ bucketMatches (t c) sig := by
    refine mem_map.mpr ⟨i, mem_filter.mpr ⟨mem_finRange i, ?_⟩, hset⟩
    exact decide_eq_true ⟨hsig.symm, hno⟩
  rw [RteMemberSetsum.keyMatches, hkey]
  rcases hc with rfl | rfl
  · exact mem_append_left _ hfound
  · exact mem_append_right _ hfound

/-! ## Runs -/

/-- **A call**: of add, with what `rte_rand` returns, or of delete. -/
inductive Call (K : Type) : Type
  | add (key : K) (set_id : BitVec 16) (rand : BitVec 64)
  | delete (key : K) (set_id : BitVec 16)

variable {b : Fin ss.bucket_cnt} {sig v : BitVec 16} {e : Entry ss} {calls : List (Call K)}

/-- The set id of a call. -/
def Call.set_id : Call K → BitVec 16
  | .add _ set_id _ => set_id
  | .delete _ set_id => set_id

/-- The entry that a call is about. -/
def Call.entry (ss : RteMemberSetsum K) : Call K → Entry ss
  | .add key set_id _ => ss.keyEntry key set_id
  | .delete key set_id => ss.keyEntry key set_id

/-- What a call returns, and the table. -/
def Call.result (ss : RteMemberSetsum K) (t : ss.Table) : Call K → Int × ss.Table
  | .add key set_id rand => rteMemberAddHt ss t key set_id rand
  | .delete key set_id => rteMemberDeleteHt ss t key set_id

/-- The table after a call. -/
def RteMemberSetsum.step (ss : RteMemberSetsum K) (t : ss.Table) (c : Call K) : ss.Table :=
  (c.result ss t).2

/-- **The entries that are added** in a run: those of the adds that do not return a negative
number. -/
def RteMemberSetsum.added (ss : RteMemberSetsum K) : ss.Table → List (Call K) → Multiset (Entry ss)
  | _, [] => 0
  | t, .add key set_id rand :: calls =>
    (if 0 ≤ (rteMemberAddHt ss t key set_id rand).1 then {ss.keyEntry key set_id} else 0)
      + ss.added (ss.step t (.add key set_id rand)) calls
  | t, .delete key set_id :: calls => ss.added (ss.step t (.delete key set_id)) calls

/-- **The entries that are deleted** in a run: those of the deletes that return 0. -/
def RteMemberSetsum.deleted (ss : RteMemberSetsum K) :
    ss.Table → List (Call K) → Multiset (Entry ss)
  | _, [] => 0
  | t, .add key set_id rand :: calls => ss.deleted (ss.step t (.add key set_id rand)) calls
  | t, .delete key set_id :: calls =>
    (if (rteMemberDeleteHt ss t key set_id).1 = 0 then {ss.keyEntry key set_id} else 0)
      + ss.deleted (ss.step t (.delete key set_id)) calls

theorem step_unmarked (hcache : ss.cache = false) {t : ss.Table} (h : t.Unmarked) {c : Call K}
    (hset : c.set_id ≠ rteMemberNoMatch) : (ss.step t c).Unmarked := by
  cases c with
  | add key v rand =>
    show (rteMemberAddHt ss t key v rand).2.Unmarked
    rcases rteMemberAddHt_spec hcache h key v rand with ⟨-, h', -⟩ | ⟨-, ht'⟩
    · exact h'
    · rwa [ht']
  | delete key v =>
    show (rteMemberDeleteHt ss t key v).2.Unmarked
    rcases rteMemberDeleteHt_spec hcache h key (v := v) hset with ⟨-, h', -⟩ | ⟨-, ht', -⟩
    · exact h'
    · rwa [ht']

theorem run_unmarked (hcache : ss.cache = false) {t : ss.Table} (h : t.Unmarked)
    (hsets : ∀ c ∈ calls, c.set_id ≠ rteMemberNoMatch) :
    (run ss.step t calls).Unmarked := by
  have halong : Along ss.step (fun _ c => c.set_id ≠ rteMemberNoMatch) t calls :=
    along_of_forall (fun c hc _ => hsets c hc) t
  exact halong.invariant (P := Unmarked) (fun _ _ ht hc => step_unmarked hcache ht hc) h

/-- **The entries in the table** are those that were there and those that were added, less those
that were deleted. -/
theorem entries_run (hcache : ss.cache = false) {t : ss.Table} (h : t.Unmarked)
    (hsets : ∀ c ∈ calls, c.set_id ≠ rteMemberNoMatch) :
    (run ss.step t calls).entries + ss.deleted t calls = t.entries + ss.added t calls := by
  induction calls generalizing t with
  | nil => rfl
  | cons c calls ih =>
    have hset := hsets c mem_cons_self
    have hrest := ih (step_unmarked hcache h hset) fun c hc => hsets c (mem_cons_of_mem _ hc)
    cases c with
    | add key v rand =>
      show (run ss.step (ss.step t _) calls).entries + ss.deleted (ss.step t _) calls = _
      rw [hrest, RteMemberSetsum.added, ← add_assoc]
      congr 1
      rcases rteMemberAddHt_spec hcache h key v rand with ⟨hr, -, ht'⟩ | ⟨hr, ht'⟩
      · rw [if_pos hr, add_comm]
        exact ht'
      · rw [if_neg (not_le.mpr hr), add_zero]
        exact congrArg _ ht'
    | delete key v =>
      show (run ss.step (ss.step t _) calls).entries +
        ((if (rteMemberDeleteHt ss t key v).1 = 0 then {ss.keyEntry key v} else 0) +
        ss.deleted (ss.step t _) calls) = _ + ss.added (ss.step t _) calls
      rw [add_left_comm, hrest, ← add_assoc]
      congr 1
      rcases rteMemberDeleteHt_spec hcache h key (v := v) hset with ⟨hr, -, ht⟩ | ⟨hr, ht', -⟩
      · rw [if_pos hr]
        exact ht.symm
      · rw [if_neg (by rw [hr]; decide), zero_add]
        exact congrArg _ ht'

/-- An entry stays in the table until it is deleted. -/
theorem mem_entries_step (hcache : ss.cache = false) {t : ss.Table} (h : t.Unmarked) {c : Call K}
    (hset : c.set_id ≠ rteMemberNoMatch) (hmem : e ∈ t.entries)
    (hother : ∀ key v, c = .delete key v → ss.keyEntry key v ≠ e) :
    e ∈ (ss.step t c).entries := by
  cases c with
  | add key v rand =>
    show e ∈ (rteMemberAddHt ss t key v rand).2.entries
    rcases rteMemberAddHt_spec hcache h key v rand with ⟨-, -, ht'⟩ | ⟨-, ht'⟩
    · rw [ht']
      exact Multiset.mem_add.mpr (Or.inr hmem)
    · rwa [ht']
  | delete key v =>
    show e ∈ (rteMemberDeleteHt ss t key v).2.entries
    rcases rteMemberDeleteHt_spec hcache h key (v := v) hset with ⟨-, -, ht⟩ | ⟨-, ht', -⟩
    · rw [ht, Multiset.mem_add, Multiset.mem_singleton] at hmem
      exact hmem.resolve_left (hother key v rfl).symm
    · rwa [ht']

theorem mem_entries_run (hcache : ss.cache = false) {t : ss.Table} (h : t.Unmarked)
    (hsets : ∀ c ∈ calls, c.set_id ≠ rteMemberNoMatch) (hmem : e ∈ t.entries)
    (hother : ∀ key v, .delete key v ∈ calls → ss.keyEntry key v ≠ e) :
    e ∈ (run ss.step t calls).entries := by
  have halong : Along ss.step (fun _ c => c.set_id ≠ rteMemberNoMatch ∧
      ∀ key v, c = .delete key v → ss.keyEntry key v ≠ e) t calls :=
    along_of_forall (fun c hc _ => ⟨hsets c hc, fun key v hd => hother key v (hd ▸ hc)⟩) t
  exact (halong.invariant (P := fun t => t.Unmarked ∧ e ∈ t.entries) (fun t c ht hc =>
    ⟨step_unmarked hcache ht.1 hc.1, mem_entries_step hcache ht.1 hc.1 ht.2 hc.2⟩) ⟨h, hmem⟩).2

/-- **A set is reported for a key** by every lookup that has room for what the table has for the
key. -/
def RteMemberSetsum.Reported (ss : RteMemberSetsum K) (t : ss.Table) (key : K) (v : BitVec 16) :
    Prop :=
  ∀ n, (ss.keyMatches t key).length ≤ n → v ∈ rteMemberLookupMultiHt ss t key n

theorem reported_of_mem (hcache : ss.cache = false) {t : ss.Table} (h : t.Unmarked) {key : K}
    (hmem : ss.keyEntry key v ∈ t.entries) : ss.Reported t key v := fun n hn => by
  rw [rteMemberLookupMultiHt_eq ss t key hn]
  exact mem_keyMatches hcache h hmem

theorem emptyTable_unmarked : ss.emptyTable.Unmarked := fun _ _ => by
  show rteMemberNoMatch &&& flagMask = 0
  decide

theorem entries_emptyTable : ss.emptyTable.entries = 0 :=
  Finset.sum_eq_zero fun _ _ => content_of_noMatch rfl

/-- **The table holds what was added and not deleted.** After every run of calls the entries in
the table are those that were added, less those that were deleted. A delete finds its entry if
the table holds it. A set is reported for a key if its entry has been added more often than
deleted, and so if it has been added with no delete of the same entry since. An add that finds
no room leaves the table as it was, and no call leaves a mark. -/
theorem membership (hcache : ss.cache = false) {calls : List (Call K)}
    (hsets : ∀ c ∈ calls, c.set_id ≠ rteMemberNoMatch) :
    let t := run ss.step ss.emptyTable calls
    let added := ss.added ss.emptyTable calls
    let deleted := ss.deleted ss.emptyTable calls
    t.entries + deleted = added ∧
    (∀ key v, v ≠ rteMemberNoMatch →
      ((rteMemberDeleteHt ss t key v).1 = 0 ↔ ss.keyEntry key v ∈ t.entries)) ∧
    (∀ key v, deleted.count (ss.keyEntry key v) < added.count (ss.keyEntry key v) →
      ss.Reported t key v) ∧
    (∀ before after key v rand, calls = before ++ .add key v rand :: after →
      0 ≤ (rteMemberAddHt ss (run ss.step ss.emptyTable before) key v rand).1 →
      (∀ key' v', .delete key' v' ∈ after → ss.keyEntry key' v' ≠ ss.keyEntry key v) →
      ss.Reported t key v) ∧
    (∀ key v rand, (rteMemberAddHt ss t key v rand).1 = -enospc →
      (rteMemberAddHt ss t key v rand).2 = t) ∧
    ∀ b i, (t b).sets i &&& flagMask = 0 := by
  intro t added deleted
  have hunmarked : t.Unmarked := run_unmarked hcache emptyTable_unmarked hsets
  have hentries : t.entries + deleted = added := by
    rw [entries_run hcache emptyTable_unmarked hsets, entries_emptyTable, zero_add]
  refine ⟨hentries, fun key v hno => ?_, fun key v hcount => ?_, ?_, fun key v rand hr => ?_,
    hunmarked⟩
  · rcases rteMemberDeleteHt_spec hcache hunmarked key hno with ⟨hr, -, ht⟩ | ⟨hr, -, hmem⟩
    · rw [ht]
      simp [hr]
    · simp [hr, hmem, enoent]
  · refine reported_of_mem hcache hunmarked (Multiset.count_pos.mp ?_)
    rw [← hentries, Multiset.count_add] at hcount
    exact Nat.pos_of_lt_add_left hcount
  · rintro before after key v rand rfl hr hother
    have hrun : t = run ss.step (ss.step (run ss.step ss.emptyTable before) (.add key v rand))
        after := run_append _ _ _
    have hbefore : (run ss.step ss.emptyTable before).Unmarked :=
      run_unmarked hcache emptyTable_unmarked fun c hc => hsets c (mem_append_left _ hc)
    have hadd := hsets (.add key v rand) (mem_append_right _ mem_cons_self)
    refine reported_of_mem hcache hunmarked ?_
    rw [hrun]
    refine mem_entries_run hcache (step_unmarked hcache hbefore hadd) (fun c hc => hsets c
      (mem_append_right _ (mem_cons_of_mem _ hc))) ?_ hother
    rcases rteMemberAddHt_spec hcache hbefore key v rand with ⟨-, -, ht'⟩ | ⟨hneg, -⟩
    · show _ ∈ (rteMemberAddHt ss _ key v rand).2.entries
      rw [ht']
      exact Multiset.mem_add.mpr (Or.inl (Multiset.mem_singleton_self _))
    · exact absurd hr (not_le.mpr hneg)
  · rcases rteMemberAddHt_spec hcache hunmarked key v rand with ⟨hpos, -⟩ | ⟨-, ht'⟩
    · rw [hr] at hpos
      exact absurd hpos (by decide)
    · exact ht'

/-- A set summary of two buckets, in which the hashes are the keys. -/
def twoBuckets : RteMemberSetsum (BitVec 32) where
  prim_hash := id
  sec_hash := id
  bucket_cnt := 2
  bucket_mask := 1
  cache := false
  bucket_cnt_eq := ⟨1, rfl⟩
  bucket_mask_eq := rfl

theorem membership_two_buckets : 5 ∈ rteMemberLookupMultiHt twoBuckets
    (run twoBuckets.step twoBuckets.emptyTable [.add 18 5 0, .add 52 6 0, .delete 52 6]) 18 32 :=
  (@membership _ twoBuckets rfl [.add 18 5 0, .add 52 6 0, .delete 52 6] (by decide)).2.2.2.1
    [] [.add 52 6 0, .delete 52 6] 18 5 0 rfl (by decide) (by
      intro key v hmem
      simp only [mem_cons, reduceCtorEq, Call.delete.injEq, not_mem_nil, or_false,
        false_or] at hmem
      obtain ⟨rfl, rfl⟩ := hmem
      decide) 32 (length_keyMatches_le _ _ _)

/-- A key that was added and not deleted, and that is not reported: another key with the same
entry was deleted, which had not been added. -/
theorem other_key_deleted :
    let t := run twoBuckets.step twoBuckets.emptyTable [.add 18 5 0]
    (rteMemberAddHt twoBuckets twoBuckets.emptyTable 18 5 0).1 = 0 ∧
    (18 : BitVec 32) ≠ 65554 ∧ (rteMemberDeleteHt twoBuckets t 65554 5).1 = 0 ∧
    rteMemberLookupMultiHt twoBuckets (rteMemberDeleteHt twoBuckets t 65554 5).2 18 32 = [] := by
  decide

end Member
