import DpdkStudy.Lib.Places
import DpdkStudy.Lib.Runs
import Mathlib.Tactic.Abel

/-!
# The caches of a mempool

Each user of a mempool (`lib/mempool`) may have a cache of objects in front of the backend that
all share. Objects are put in the cache, which is flushed when they would not fit
(`rteMempoolDoGenericPut`). They are taken from the cache first. If these are too few the
cache is filled from the backend, and if the backend has not got as many, the rest of the
request is taken from it directly (`rteMempoolDoGenericGet`).

A backend is a parameter: it takes any objects, and hands out as many as it is asked for, or
none. Where the code would leave the array of a cache, or would break what it tells the
compiler to assume (`__rte_assume`), there is no result. The numbers are `uint32_t`. Statistics
and cookies are left out.
-/

open List

namespace Mempool

/-- `RTE_MEMPOOL_CACHE_MAX_SIZE`. -/
def rteMempoolCacheMaxSize : ℕ := 512

/-- The length of `objs`. -/
def objsLen : ℕ := rteMempoolCacheMaxSize * 2

/-- The values of a `uint32_t`. -/
def word32 : ℕ := 2 ^ 32

/-- **A backend** (`struct rte_mempool_ops`). -/
structure Backend (α : Type) where
  State : Type
  /-- `rte_mempool_ops_enqueue_bulk`. -/
  enqueueBulk : State → List α → State
  /-- `rte_mempool_ops_dequeue_bulk`: the objects, or an error. -/
  dequeueBulk : State → ℕ → Except Int (List α) × State

/-- **A backend that is a bag**, and hands out all that it is asked for, or nothing. -/
structure Backend.IsBag {α : Type} (B : Backend α) (content : B.State → Multiset α) : Prop where
  enqueue : ∀ s objs, content (B.enqueueBulk s objs) = content s + ↑objs
  dequeue : ∀ {s n objs t}, B.dequeueBulk s n = (.ok objs, t) →
    objs.length = n ∧ content s = content t + ↑objs
  refuse : ∀ {s n r t}, B.dequeueBulk s n = (.error r, t) →
    r < 0 ∧ t = s ∧ (content s).card < n

/-- **A cache** (`struct rte_mempool_cache`). -/
structure MempoolCache (α : Type) where
  size : ℕ
  flushthresh : ℕ
  len : ℕ
  objs : ℕ → α

variable {α : Type}

/-- `mempool_cache_init`, on memory that holds anything. -/
def mempoolCacheInit (objs : ℕ → α) (size : ℕ) : MempoolCache α where
  size := size
  flushthresh := size * 3 / 2
  len := 0
  objs := objs

/-- The objects in some slots. -/
def slots (objs : ℕ → α) (start n : ℕ) : List α := (List.range n).map fun i => objs (start + i)

/-- The objects that are held: those in the first `len` slots. -/
def MempoolCache.held (cache : MempoolCache α) : List α := slots cache.objs 0 cache.len

/-- **What the compiler is told to assume** (`__rte_assume`). -/
def rteAssume (p : Prop) [Decidable p] : Option Unit := if p then some () else none

/-- The slots are read from below a position downwards. -/
def copyDown (objs : ℕ → α) : ℕ → ℕ → List α
  | _, 0 => []
  | top, n + 1 => objs (top - 1) :: copyDown objs (top - 1) n

/-- `*obj_table++ = *--cache_objs`, so many times, inside the array. -/
def readDown (objs : ℕ → α) (top n : ℕ) : Option (List α) :=
  if n ≤ top ∧ top ≤ objsLen then some (copyDown objs top n) else none

/-- Objects are written from a position on, inside the array. -/
def write (objs : ℕ → α) (start : ℕ) (l : List α) : Option (ℕ → α) :=
  if start + l.length ≤ objsLen then
    some fun i => if start ≤ i then (l[i - start]?).getD (objs i) else objs i
  else none

/-- The first slots are read, inside the array. -/
def readUp (objs : ℕ → α) (n : ℕ) : Option (List α) :=
  if n ≤ objsLen then some (slots objs 0 n) else none

variable (B : Backend α)

/-- **`rte_mempool_cache_flush`**. -/
def rteMempoolCacheFlush (cache : Option (MempoolCache α)) (mp : B.State) :
    Option (B.State × Option (MempoolCache α)) :=
  match cache with
  | none => some (mp, none)
  | some cache =>
    if cache.len = 0 then some (mp, some cache)
    else do
      let objs ← readUp cache.objs cache.len
      some (B.enqueueBulk mp objs, some { cache with len := 0 })

/-- **`rte_mempool_do_generic_put`**. -/
def rteMempoolDoGenericPut (mp : B.State) (obj_table : List α)
    (cache : Option (MempoolCache α)) : Option (B.State × Option (MempoolCache α)) :=
  let n := obj_table.length
  match cache with
  | none => some (B.enqueueBulk mp obj_table, none)
  | some cache => do
    rteAssume (cache.flushthresh ≤ rteMempoolCacheMaxSize * 2)
    rteAssume (cache.len ≤ rteMempoolCacheMaxSize * 2)
    rteAssume (cache.len ≤ cache.flushthresh)
    if (cache.len + n) % word32 ≤ cache.flushthresh then
      let objs ← write cache.objs cache.len obj_table
      some (mp, some { cache with
        len := (cache.len + n) % word32
        objs := objs })
    else if n ≤ cache.flushthresh then
      let flushed ← readUp cache.objs cache.len
      let objs ← write cache.objs 0 obj_table
      some (B.enqueueBulk mp flushed, some { cache with
        len := n
        objs := objs })
    else some (B.enqueueBulk mp obj_table, some cache)

/-- **What becomes of a request** before the rest of it is taken from the backend: it is
complete, or some objects are still to be taken. -/
inductive Request (α : Type)
  | complete (obj_table : List α)
  | driverDequeue (obj_table : List α) (remaining : ℕ)

/-- **`rte_mempool_do_generic_get`** up to `driver_dequeue`, for a number that is known when
the code is built, or not. -/
def rteMempoolDoGenericGet (mp : B.State) (constant : Bool) (n : ℕ)
    (cache : Option (MempoolCache α)) :
    Option (B.State × Option (MempoolCache α) × Request α) :=
  match cache with
  | none => some (mp, none, .driverDequeue [] n)
  | some cache => do
    rteAssume (cache.len ≤ rteMempoolCacheMaxSize * 2)
    if constant ∧ n ≤ cache.len then
      let obj_table ← readDown cache.objs cache.len n
      some (mp, some { cache with len := cache.len - n }, .complete obj_table)
    else
      let len := if constant then cache.len else min n cache.len
      let remaining := n - len
      let obj_table ← readDown cache.objs cache.len len
      let cache := { cache with len := cache.len - len }
      if ¬ constant ∧ remaining = 0 then some (mp, some cache, .complete obj_table)
      else if rteMempoolCacheMaxSize < remaining then
        some (mp, some cache, .driverDequeue obj_table remaining)
      else
        match B.dequeueBulk mp ((cache.size + remaining) % word32) with
        | (.error _, mp) => some (mp, some cache, .driverDequeue obj_table remaining)
        | (.ok fetched, mp) => do
          let objs ← write cache.objs 0 fetched
          rteAssume (cache.size ≤ rteMempoolCacheMaxSize)
          rteAssume (remaining ≤ rteMempoolCacheMaxSize)
          let rest ← readDown objs (cache.size + remaining) remaining
          some (mp, some { cache with
            len := cache.size
            objs := objs }, .complete (obj_table ++ rest))

/-- **`rte_mempool_do_generic_get`** from `driver_dequeue` on. -/
def driverDequeue (mp : B.State) (n : ℕ) (cache : Option (MempoolCache α)) (obj_table : List α)
    (remaining : ℕ) : B.State × Option (MempoolCache α) × Except Int (List α) :=
  match B.dequeueBulk mp remaining with
  | (.error ret, mp) => (mp, cache.map fun cache => { cache with len := n - remaining }, .error ret)
  | (.ok fetched, mp) => (mp, cache, .ok (obj_table ++ fetched))

/-! ## Slots -/

@[simp] theorem length_slots (objs : ℕ → α) (start n : ℕ) : (slots objs start n).length = n := by
  simp [slots]

theorem slots_add (objs : ℕ → α) (start m n : ℕ) :
    slots objs start (m + n) = slots objs start m ++ slots objs (start + m) n := by
  simp only [slots, range_add, map_append, map_map]
  congr 1
  refine map_congr_left fun i _ => ?_
  simp only [Function.comp_apply, Nat.add_assoc]

/-- What is read downwards are the slots below, the last one first. -/
theorem copyDown_eq (objs : ℕ → α) {top n : ℕ} (h : n ≤ top) :
    copyDown objs top n = (slots objs (top - n) n).reverse := by
  induction n generalizing top with
  | zero => rfl
  | succ n ih =>
    have hsub : top - 1 - n = top - (n + 1) := by omega
    have hlast : top - (n + 1) + n = top - 1 := by omega
    rw [copyDown, ih (by omega), slots_add, reverse_append, hsub]
    simp [slots, hlast]

theorem slots_eq_copyDown (objs : ℕ → α) {top n : ℕ} (h : n ≤ top) :
    (slots objs 0 top : Multiset α) = ↑(slots objs 0 (top - n)) + ↑(copyDown objs top n) := by
  have hsplit := slots_add objs 0 (top - n) n
  rw [Nat.sub_add_cancel h, Nat.zero_add] at hsplit
  rw [hsplit, copyDown_eq objs h, Multiset.coe_reverse, Multiset.coe_add]

/-- What has been written is there, and what is below it as well. -/
theorem write_spec {objs : ℕ → α} {start : ℕ} {l : List α} (h : start + l.length ≤ objsLen) :
    ∃ objs', write objs start l = some objs' ∧
      slots objs' 0 (start + l.length) = slots objs 0 start ++ l := by
  refine ⟨_, if_pos h, ?_⟩
  rw [slots_add, Nat.zero_add]
  congr 1
  · refine map_congr_left fun i hi => ?_
    rw [mem_range] at hi
    rw [Nat.zero_add]
    exact if_neg (not_le.mpr hi)
  · refine ext_getElem (length_slots _ _ _) fun i hi hl => ?_
    simp [slots, hl]

theorem length_copyDown (objs : ℕ → α) (top n : ℕ) : (copyDown objs top n).length = n := by
  induction n generalizing top with
  | zero => rfl
  | succ n ih => rw [copyDown, length_cons, ih]

/-! ## What the functions do -/

/-- **A cache that may be used.** -/
structure CacheOk (cache : MempoolCache α) : Prop where
  size_le : cache.size ≤ rteMempoolCacheMaxSize
  flushthresh_eq : cache.flushthresh = cache.size * 3 / 2
  len_le : cache.len ≤ cache.flushthresh

theorem CacheOk.init (objs : ℕ → α) {size : ℕ} (h : size ≤ rteMempoolCacheMaxSize) :
    CacheOk (mempoolCacheInit objs size) :=
  ⟨h, rfl, Nat.zero_le _⟩

theorem CacheOk.flushthresh_le {cache : MempoolCache α} (h : CacheOk cache) :
    cache.flushthresh ≤ objsLen := by
  have h₁ := h.size_le
  have h₂ := h.flushthresh_eq
  simp only [objsLen, rteMempoolCacheMaxSize] at *
  omega

variable {B : Backend α} {content : B.State → Multiset α}

/-- A flush leaves the cache empty. -/
theorem rteMempoolCacheFlush_spec (hB : B.IsBag content) {cache : MempoolCache α}
    (h : CacheOk cache) (mp : B.State) :
    ∃ mp' cache', rteMempoolCacheFlush B (some cache) mp = some (mp', some cache') ∧
      CacheOk cache' ∧ cache'.len = 0 ∧ content mp' = content mp + ↑cache.held := by
  rw [rteMempoolCacheFlush]
  by_cases hlen : cache.len = 0
  · refine ⟨mp, cache, if_pos hlen, h, hlen, ?_⟩
    simp [MempoolCache.held, hlen, slots]
  · have hread : readUp cache.objs cache.len = some cache.held :=
      if_pos (h.len_le.trans h.flushthresh_le)
    rw [if_neg hlen, hread]
    exact ⟨_, _, rfl, ⟨h.size_le, h.flushthresh_eq, Nat.zero_le _⟩, rfl, hB.enqueue _ _⟩

/-- A put puts the objects in the cache or the backend. -/
theorem rteMempoolDoGenericPut_spec (hB : B.IsBag content) {cache : MempoolCache α}
    (h : CacheOk cache) (mp : B.State) {objs : List α} (hn : cache.len + objs.length < word32) :
    ∃ mp' cache', rteMempoolDoGenericPut B mp objs (some cache) = some (mp', some cache') ∧
      CacheOk cache' ∧ content mp' + ↑cache'.held = content mp + ↑cache.held + ↑objs := by
  have hthresh := h.flushthresh_le
  have hlen := h.len_le
  have hassume : ∀ p : Prop, ∀ [Decidable p], p → rteAssume p = some () := fun p _ hp => if_pos hp
  rw [rteMempoolDoGenericPut]
  simp only [hassume _ (show cache.flushthresh ≤ rteMempoolCacheMaxSize * 2 from hthresh),
    hassume _ (show cache.len ≤ rteMempoolCacheMaxSize * 2 from hlen.trans hthresh),
    hassume _ hlen, Option.bind_eq_bind, Option.bind_some, Nat.mod_eq_of_lt hn]
  by_cases hroom : cache.len + objs.length ≤ cache.flushthresh
  · obtain ⟨mem, hwrite, hslots⟩ := @write_spec _ cache.objs cache.len objs (hroom.trans hthresh)
    rw [if_pos hroom, hwrite]
    refine ⟨_, _, rfl, ⟨h.size_le, h.flushthresh_eq, hroom⟩, ?_⟩
    rw [MempoolCache.held, hslots, ← Multiset.coe_add, ← add_assoc]
    rfl
  · rw [if_neg hroom]
    by_cases hfit : objs.length ≤ cache.flushthresh
    · have hread : readUp cache.objs cache.len = some cache.held := if_pos (hlen.trans hthresh)
      obtain ⟨mem, hwrite, hslots⟩ := @write_spec _ cache.objs 0 objs (by omega)
      rw [if_pos hfit, hread, hwrite]
      refine ⟨_, _, rfl, ⟨h.size_le, h.flushthresh_eq, hfit⟩, ?_⟩
      rw [Nat.zero_add] at hslots
      simp only [MempoolCache.held]
      rw [hB.enqueue, hslots]
      rfl
    · rw [if_neg hfit]
      refine ⟨_, _, rfl, h, ?_⟩
      rw [hB.enqueue, add_right_comm]

/-- **A get** is complete, or it has taken all that is in the cache and more is to come. -/
theorem rteMempoolDoGenericGet_spec (hB : B.IsBag content) {cache : MempoolCache α}
    (h : CacheOk cache) (mp : B.State) (constant : Bool) (n : ℕ) :
    (∃ mp' cache' objs, rteMempoolDoGenericGet B mp constant n (some cache) =
        some (mp', some cache', .complete objs) ∧ CacheOk cache' ∧ objs.length = n ∧
        content mp + ↑cache.held = content mp' + ↑cache'.held + ↑objs) ∨
    (rteMempoolDoGenericGet B mp constant n (some cache) =
        some (mp, some { cache with len := 0 },
          .driverDequeue (copyDown cache.objs cache.len cache.len) (n - cache.len)) ∧
      cache.len < n) := by
  have hthresh := h.flushthresh_le
  have hlen := h.len_le
  have hsize := h.size_le
  have hassume : ∀ p : Prop, ∀ [Decidable p], p → rteAssume p = some () := fun p _ hp => if_pos hp
  have hread : ∀ k ≤ cache.len, readDown cache.objs cache.len k =
      some (copyDown cache.objs cache.len k) := fun k hk => if_pos ⟨hk, hlen.trans hthresh⟩
  rw [rteMempoolDoGenericGet]
  simp only [hassume _ (show cache.len ≤ rteMempoolCacheMaxSize * 2 from hlen.trans hthresh),
    Option.bind_eq_bind, Option.bind_some]
  by_cases hall : n ≤ cache.len
  · -- The cache has all of them.
    have htaken : content mp + ↑cache.held = content mp +
        ↑({ cache with len := cache.len - n } : MempoolCache α).held +
        ↑(copyDown cache.objs cache.len n) := by
      rw [add_assoc, MempoolCache.held, slots_eq_copyDown cache.objs hall]
      rfl
    refine Or.inl ⟨mp, { cache with len := cache.len - n }, copyDown cache.objs cache.len n, ?_,
      ⟨hsize, h.flushthresh_eq, (Nat.sub_le _ _).trans hlen⟩, length_copyDown _ _ _, htaken⟩
    cases constant with
    | true => simp only [hall, and_self, if_true, hread n hall, Option.bind_some]
    | false =>
      simp only [Bool.false_eq_true, false_and, if_false, Nat.min_eq_left hall, Nat.sub_self,
        hread n hall, Option.bind_some, not_false_eq_true, and_self, if_true]
  · have hlt := not_le.mp hall
    have hlen_eq : (if constant = true then cache.len else min n cache.len) = cache.len := by
      split
      · rfl
      · exact Nat.min_eq_right hlt.le
    have hremaining : ¬ (¬ constant = true ∧ n - cache.len = 0) := by omega
    simp only [hall, and_false, if_false, hlen_eq, hread _ le_rfl, Option.bind_some, Nat.sub_self,
      if_neg hremaining]
    by_cases hmany : rteMempoolCacheMaxSize < n - cache.len
    · rw [if_pos hmany]
      exact Or.inr ⟨rfl, hlt⟩
    · rw [if_neg hmany]
      have hword : (cache.size + (n - cache.len)) % word32 = cache.size + (n - cache.len) := by
        refine Nat.mod_eq_of_lt ?_
        simp only [rteMempoolCacheMaxSize] at hmany hsize
        simp only [word32]
        omega
      rw [hword]
      cases hdequeue : B.dequeueBulk mp (cache.size + (n - cache.len)) with
      | mk result mp' =>
        cases result with
        | error ret =>
          obtain ⟨-, rfl, -⟩ := hB.refuse hdequeue
          exact Or.inr ⟨rfl, hlt⟩
        | ok fetched =>
          obtain ⟨hfetched, hcontent⟩ := hB.dequeue hdequeue
          have hfit : 0 + fetched.length ≤ objsLen := by
            simp only [rteMempoolCacheMaxSize] at hmany hsize
            simp only [objsLen, rteMempoolCacheMaxSize]
            omega
          obtain ⟨mem, hwrite, hslots⟩ := @write_spec _ cache.objs 0 fetched hfit
          have hrest : readDown mem (cache.size + (n - cache.len)) (n - cache.len) =
              some (copyDown mem (cache.size + (n - cache.len)) (n - cache.len)) :=
            if_pos ⟨Nat.le_add_left _ _, by omega⟩
          refine Or.inl ⟨mp', { cache with
            len := cache.size
            objs := mem }, copyDown cache.objs cache.len cache.len ++
              copyDown mem (cache.size + (n - cache.len)) (n - cache.len), ?_,
            ⟨hsize, h.flushthresh_eq, ?_⟩, ?_, ?_⟩
          · simp only [hwrite, hassume _ hsize, hassume _ (not_lt.mp hmany), hrest,
              Option.bind_some]
          · change cache.size ≤ cache.flushthresh
            rw [h.flushthresh_eq]
            omega
          · rw [length_append, length_copyDown, length_copyDown]
            omega
          · have hsplit := slots_eq_copyDown mem (Nat.le_add_left (n - cache.len) cache.size)
            rw [Nat.zero_add, hfetched] at hslots
            rw [hslots, Nat.add_sub_cancel, slots, range_zero, map_nil,
              nil_append] at hsplit
            have htaken := slots_eq_copyDown cache.objs (le_refl cache.len)
            rw [Nat.sub_self] at htaken
            rw [hcontent, hsplit, MempoolCache.held, htaken, MempoolCache.held, ← Multiset.coe_add]
            simp only [slots, range_zero, map_nil, Multiset.coe_nil, zero_add]
            abel

end Mempool
