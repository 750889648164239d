import DpdkStudy.Ipsec.AntiReplay
import Mathlib.Data.List.FinRange

/-!
# The membership hash table

A set summary in hash-table mode (`lib/member/rte_member_ht.c`) does not hold keys. It holds
signatures of 16 bits, each with the id of a set, in buckets of 16 entries. A key has a primary
and a secondary bucket. In non-cache mode either bucket is got from the other one and the
signature (`nextBucket`), so that an entry can be displaced without its key.

Where both buckets are full, an entry of one of them is pushed to its other bucket, in which
room is made in the same way (`makeSpaceBucket`). An entry that is being pushed is marked by the
top bit of its set id. The hash function (`MEMBER_HASH_FUNC`) is a parameter, and so is the
number that `rte_rand` returns, which only the cache mode looks at. The vector versions of the
searches and the lookups of several keys are left out.
-/

namespace Member

/-- `EINVAL`. -/
def einval : Int := 22

/-- `ENOENT`. -/
def enoent : Int := 2

/-- `ENOSPC`. -/
def enospc : Int := 28

/-- `RTE_MEMBER_NO_MATCH`: no set. -/
def rteMemberNoMatch : BitVec 16 := 0

/-- `RTE_MEMBER_BUCKET_ENTRIES`. -/
def rteMemberBucketEntries : ℕ := 16

/-- `RTE_MEMBER_ENTRIES_MAX`. -/
def rteMemberEntriesMax : ℕ := 2 ^ 30

/-- `RTE_MEMBER_MAX_PUSHES`. -/
def rteMemberMaxPushes : ℕ := 50

/-- `flag_mask`: the top bit of a set id. -/
def flagMask : BitVec 16 := 1 <<< 15

/-- **A bucket** (`struct member_ht_bucket`). -/
structure MemberHtBucket where
  sigs : Fin rteMemberBucketEntries → BitVec 16
  sets : Fin rteMemberBucketEntries → BitVec 16

/-- **A set summary** (`struct rte_member_setsum`) in hash-table mode, less its table. -/
structure RteMemberSetsum (K : Type) where
  /-- The hash of a key, with `prim_hash_seed`. -/
  prim_hash : K → BitVec 32
  /-- The hash of a hash, with `sec_hash_seed`. -/
  sec_hash : BitVec 32 → BitVec 32
  bucket_cnt : ℕ
  bucket_mask : ℕ
  cache : Bool
  bucket_cnt_eq : ∃ k, bucket_cnt = 2 ^ k
  bucket_mask_eq : bucket_mask = bucket_cnt - 1

variable {K : Type} (ss : RteMemberSetsum K)

/-- The buckets of a set summary. -/
abbrev RteMemberSetsum.Table : Type := Fin ss.bucket_cnt → MemberHtBucket

/-! ## Create -/

/-- **`rte_member_create_ht`**, with the hash functions and `num_keys`: the set summary. -/
def rteMemberCreateHt (prim_hash : K → BitVec 32) (sec_hash : BitVec 32 → BitVec 32)
    (num_keys : UInt32) (is_cache : Bool) : Except Int (RteMemberSetsum K) :=
  let num_entries := Ipsec.rteAlign32pow2 num_keys
  if h : num_entries.toNat > rteMemberEntriesMax ∨ num_entries.toNat < rteMemberBucketEntries then
    .error (-einval)
  else .ok
    { prim_hash, sec_hash
      bucket_cnt := num_entries.toNat / rteMemberBucketEntries
      bucket_mask := num_entries.toNat / rteMemberBucketEntries - 1
      cache := is_cache
      bucket_cnt_eq := by
        have hle : rteMemberBucketEntries ≤ num_entries.toNat := not_lt.mp (not_or.mp h).2
        obtain ⟨k, hk⟩ := Ipsec.rteAlign32pow2_eq num_keys fun hzero => by
          rw [show num_entries = 0 from hzero] at hle
          exact absurd hle (by decide)
        refine ⟨k - 4, ?_⟩
        rw [show num_entries.toNat = 2 ^ k from hk] at hle ⊢
        have hk4 : 4 ≤ k := (Nat.pow_le_pow_iff_right (show 1 < 2 by decide)).mp hle
        exact Nat.pow_div hk4 (by decide)
      bucket_mask_eq := rfl }

/-- The table when it is created: no slot has a set. -/
def RteMemberSetsum.emptyTable : ss.Table := fun _ =>
  { sigs := fun _ => 0, sets := fun _ => rteMemberNoMatch }

/-! ## Buckets -/

variable {ss}

/-- What is under the mask is the number of a bucket. -/
theorem RteMemberSetsum.and_mask_lt (ss : RteMemberSetsum K) (x : ℕ) :
    x &&& ss.bucket_mask < ss.bucket_cnt := by
  obtain ⟨k, hk⟩ := ss.bucket_cnt_eq
  rw [ss.bucket_mask_eq, hk, Nat.and_two_pow_sub_one_eq_mod]
  exact Nat.mod_lt _ (Nat.two_pow_pos k)

/-- The bucket of a number: the bits under `bucket_mask`. -/
def RteMemberSetsum.masked (ss : RteMemberSetsum K) (x : ℕ) : Fin ss.bucket_cnt :=
  ⟨x &&& ss.bucket_mask, ss.and_mask_lt x⟩

/-- The other bucket of an entry: `(bkt->sigs[i] ^ bkt_idx) & ss->bucket_mask`. -/
def RteMemberSetsum.nextBucket (ss : RteMemberSetsum K) (sig : BitVec 16)
    (bkt_idx : Fin ss.bucket_cnt) : Fin ss.bucket_cnt :=
  ss.masked (sig.toNat ^^^ bkt_idx.val)

/-- **`get_buckets_index`**: the primary bucket, the secondary bucket and the signature. -/
def getBucketsIndex (ss : RteMemberSetsum K) (key : K) :
    Fin ss.bucket_cnt × Fin ss.bucket_cnt × BitVec 16 :=
  let first_hash := ss.prim_hash key
  let sec_hash := ss.sec_hash first_hash
  let sig := first_hash.setWidth 16
  let prim_bkt := ss.masked sec_hash.toNat
  if ss.cache then (prim_bkt, ss.masked (sec_hash >>> 16).toNat, sig)
  else (prim_bkt, ss.masked (prim_bkt.val ^^^ sig.toNat), sig)

/-- A slot of a bucket is written. -/
def RteMemberSetsum.Table.put (buckets : ss.Table) (b : Fin ss.bucket_cnt)
    (i : Fin rteMemberBucketEntries) (sig set_id : BitVec 16) : ss.Table :=
  Function.update buckets b
    { sigs := Function.update (buckets b).sigs i sig
      sets := Function.update (buckets b).sets i set_id }

/-- The set id of a slot is written. -/
def RteMemberSetsum.Table.putSet (buckets : ss.Table) (b : Fin ss.bucket_cnt)
    (i : Fin rteMemberBucketEntries) (set_id : BitVec 16) : ss.Table :=
  Function.update buckets b
    { buckets b with sets := Function.update (buckets b).sets i set_id }

/-- **A loop over the slots** of a bucket: the first that has some property. -/
def firstSlot (p : Fin rteMemberBucketEntries → Bool) : Option (Fin rteMemberBucketEntries) :=
  (List.finRange rteMemberBucketEntries).find? p

theorem firstSlot_eq_some {p : Fin rteMemberBucketEntries → Bool} {i : Fin rteMemberBucketEntries}
    (h : firstSlot p = some i) : p i = true :=
  List.find?_some h

theorem firstSlot_eq_none {p : Fin rteMemberBucketEntries → Bool} (h : firstSlot p = none)
    (i : Fin rteMemberBucketEntries) : p i = false :=
  Bool.not_eq_true _ ▸ List.find?_eq_none.mp h i (List.mem_finRange i)

/-- The first slot that has no set. -/
def RteMemberSetsum.Table.freeSlot (buckets : ss.Table) (b : Fin ss.bucket_cnt) :
    Option (Fin rteMemberBucketEntries) :=
  firstSlot fun j => (buckets b).sets j == rteMemberNoMatch

/-! ## Lookup -/

/-- The loop of `search_bucket_multi`, with the sets that are found so far. -/
def searchSlots (bkt : MemberHtBucket) (tmp_sig : BitVec 16) (matches_per_key : ℕ) :
    List (Fin rteMemberBucketEntries) → List (BitVec 16) → List (BitVec 16)
  | [], set_id => set_id
  | iter :: rest, set_id =>
    if tmp_sig = bkt.sigs iter ∧ bkt.sets iter ≠ rteMemberNoMatch then
      let set_id := set_id ++ [bkt.sets iter]
      if set_id.length ≥ matches_per_key then set_id
      else searchSlots bkt tmp_sig matches_per_key rest set_id
    else searchSlots bkt tmp_sig matches_per_key rest set_id

/-- **`search_bucket_multi`**. -/
def searchBucketMulti (bucket_id : Fin ss.bucket_cnt) (tmp_sig : BitVec 16) (buckets : ss.Table)
    (matches_per_key : ℕ) (set_id : List (BitVec 16)) : List (BitVec 16) :=
  searchSlots (buckets bucket_id) tmp_sig matches_per_key
    (List.finRange rteMemberBucketEntries) set_id

/-- **`rte_member_lookup_multi_ht`**: the sets it writes, as many as it returns. -/
def rteMemberLookupMultiHt (ss : RteMemberSetsum K) (buckets : ss.Table) (key : K)
    (match_per_key : ℕ) : List (BitVec 16) :=
  let (prim_bucket, sec_bucket, tmp_sig) := getBucketsIndex ss key
  let set_id := searchBucketMulti prim_bucket tmp_sig buckets match_per_key []
  if set_id.length < match_per_key then
    searchBucketMulti sec_bucket tmp_sig buckets match_per_key set_id
  else set_id

/-! ## Add and delete -/

/-- **`try_insert`**: the table with the entry, or none for `-1`. -/
def tryInsert (buckets : ss.Table) (prim sec : Fin ss.bucket_cnt) (sig set_id : BitVec 16) :
    Option ss.Table :=
  match buckets.freeSlot prim with
  | some i => some (buckets.put prim i sig set_id)
  | none => (buckets.freeSlot sec).map fun i => buckets.put sec i sig set_id

/-- **`update_entry_search`**: the table with the new set id, or none for `0`. -/
def updateEntrySearch (bucket_id : Fin ss.bucket_cnt) (tmp_sig : BitVec 16) (buckets : ss.Table)
    (set_id : BitVec 16) : Option ss.Table :=
  (firstSlot fun i => (buckets bucket_id).sigs i == tmp_sig).map fun i =>
    buckets.putSet bucket_id i set_id

/-- **`try_update`**: the table with the new set id, or none for `-1`. -/
def tryUpdate (buckets : ss.Table) (prim sec : Fin ss.bucket_cnt) (sig set_id : BitVec 16) :
    Option ss.Table :=
  (updateEntrySearch prim sig buckets set_id).or (updateEntrySearch sec sig buckets set_id)

/-- **`evict_from_bucket`**, for the number that `rte_rand` returns. -/
def evictFromBucket (rand : BitVec 64) : Fin rteMemberBucketEntries :=
  ⟨rand.toNat &&& (rteMemberBucketEntries - 1), Nat.lt_of_le_of_lt Nat.and_le_right (by decide)⟩

/-- The first loop of `make_space_bucket`: an entry whose other bucket has room, and the slot
there. -/
def spareAlternative (buckets : ss.Table) (bkt_idx : Fin ss.bucket_cnt) :
    Option (Fin rteMemberBucketEntries × Fin rteMemberBucketEntries) :=
  (List.finRange rteMemberBucketEntries).findSome? fun i =>
    (buckets.freeSlot (ss.nextBucket ((buckets bkt_idx).sigs i) bkt_idx)).map fun j => (i, j)

/-- The second loop of `make_space_bucket`: an entry that is not being pushed. -/
def notPushed (buckets : ss.Table) (bkt_idx : Fin ss.bucket_cnt) :
    Option (Fin rteMemberBucketEntries) :=
  firstSlot fun i => (buckets bkt_idx).sets i &&& flagMask == 0

/-- **`make_space_bucket`**, for the number of pushes that are left until `*nr_pushes` passes
`RTE_MEMBER_MAX_PUSHES`: a slot of the bucket that may be overwritten, and the table. -/
def makeSpaceBucket : ℕ → (buckets : ss.Table) → (bkt_idx : Fin ss.bucket_cnt) →
    Except Int (Fin rteMemberBucketEntries) × ss.Table
  | pushes, buckets, bkt_idx =>
    match spareAlternative buckets bkt_idx with
    | some (i, j) =>
      let next := ss.nextBucket ((buckets bkt_idx).sigs i) bkt_idx
      (.ok i, buckets.put next j ((buckets bkt_idx).sigs i) ((buckets bkt_idx).sets i))
    | none =>
      match notPushed buckets bkt_idx, pushes with
      | none, _ => (.error (-enospc), buckets)
      | some _, 0 => (.error (-enospc), buckets)
      | some i, pushes + 1 =>
        let next := ss.nextBucket ((buckets bkt_idx).sigs i) bkt_idx
        let flagged := buckets.putSet bkt_idx i ((buckets bkt_idx).sets i ||| flagMask)
        let (ret, buckets) := makeSpaceBucket pushes flagged next
        let buckets := buckets.putSet bkt_idx i ((buckets bkt_idx).sets i &&& ~~~flagMask)
        match ret with
        | .ok ret =>
          (.ok i, buckets.put next ret ((buckets bkt_idx).sigs i) ((buckets bkt_idx).sets i))
        | .error ret => (.error ret, buckets)

/-- **`rte_member_add_ht`**: what it returns, and the table. -/
def rteMemberAddHt (ss : RteMemberSetsum K) (buckets : ss.Table) (key : K) (set_id : BitVec 16)
    (rand : BitVec 64) : Int × ss.Table :=
  if set_id = rteMemberNoMatch ∨ set_id &&& flagMask ≠ 0 then (-einval, buckets)
  else
    let (prim_bucket, sec_bucket, tmp_sig) := getBucketsIndex ss key
    match if ss.cache then tryUpdate buckets prim_bucket sec_bucket tmp_sig set_id else none with
    | some buckets => (0, buckets)
    | none =>
      match tryInsert buckets prim_bucket sec_bucket tmp_sig set_id with
      | some buckets => (0, buckets)
      | none =>
        let select_bucket := if tmp_sig &&& 1 ≠ 0 then prim_bucket else sec_bucket
        if ss.cache then (1, buckets.put select_bucket (evictFromBucket rand) tmp_sig set_id)
        else
          match makeSpaceBucket rteMemberMaxPushes buckets select_bucket with
          | (.ok ret, buckets) => (1, buckets.put select_bucket ret tmp_sig set_id)
          | (.error ret, buckets) => (ret, buckets)

/-- The loop of `rte_member_delete_ht` over one bucket: the table without the entry. -/
def deleteFromBucket (buckets : ss.Table) (bucket : Fin ss.bucket_cnt)
    (tmp_sig set_id : BitVec 16) : Option ss.Table :=
  (firstSlot fun i => tmp_sig == (buckets bucket).sigs i && set_id == (buckets bucket).sets i).map
    fun i => buckets.putSet bucket i rteMemberNoMatch

/-- **`rte_member_delete_ht`**: what it returns, and the table. -/
def rteMemberDeleteHt (ss : RteMemberSetsum K) (buckets : ss.Table) (key : K)
    (set_id : BitVec 16) : Int × ss.Table :=
  let (prim_bucket, sec_bucket, tmp_sig) := getBucketsIndex ss key
  match (deleteFromBucket buckets prim_bucket tmp_sig set_id).or
      (deleteFromBucket buckets sec_bucket tmp_sig set_id) with
  | some buckets => (0, buckets)
  | none => (-enoent, buckets)

end Member
