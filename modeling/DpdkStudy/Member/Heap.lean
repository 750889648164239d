import DpdkStudy.Lib.MinHeap
import Mathlib.Data.List.FinRange

/-!
# The heap of the sketch

The heavy hitters of a sketch are in a min-heap (`lib/member/rte_member_heap.h`). A hash table
says for a key where in the heap it is. It holds a signature of 16 bits and a position of 16
bits, one more than the index in the array, and 0 is a slot that is free. When a bucket is full
the table is replaced by one with twice as many buckets, and again until all keys fit.

The key of a node is written into a slot of its own, so a node is shown with its key. The ring of
free slots is a list of their numbers. The number of buckets is an `uint16_t`, and where it has
become 0 the code divides by it: there is no result. Allocations are taken to succeed, and the
number of items of the table, which is only logged, is left out.
-/

namespace Member

open MinHeap

/-- `HASH_BKT_SIZE`. -/
def hashBktSize : ℕ := 16

/-- `HASH_RESIZE_MULTI`. -/
def hashResizeMulti : ℕ := 2

/-- The values of an `uint16_t`. -/
def word16 : ℕ := 2 ^ 16

/-- **A bucket** (`struct hash_bkt`). -/
structure HashBkt where
  sig : Fin hashBktSize → BitVec 16
  idx : Fin hashBktSize → ℕ

/-- **The hash table** (`struct hash`). -/
structure Hash where
  bkt_cnt : ℕ
  seed : BitVec 32
  buckets : ℕ → HashBkt
  bkt_cnt_pos : 0 < bkt_cnt

/-- **A node** (`struct node`), with the key in its slot. -/
structure Node (K : Type) where
  key : K
  count : ℕ

/-- **The heap** (`struct minheap`). -/
structure Minheap (K : Type) where
  size : ℕ
  hashtable : Hash
  elem : ℕ → Node K

variable {K : Type} (hash_func : BitVec 32 → K → BitVec 32)

/-! ## The hash table -/

/-- `hash % table->bkt_cnt`. -/
def Hash.bucketOf (table : Hash) (key : K) : ℕ :=
  (hash_func table.seed key).toNat % table.bkt_cnt

/-- `hash >> 16`. -/
def Hash.sigOf (table : Hash) (key : K) : BitVec 16 :=
  (hash_func table.seed key >>> 16).setWidth 16

/-- A slot is written: its signature and its position, an `uint16_t`. -/
def Hash.put (table : Hash) (b : ℕ) (i : Fin hashBktSize) (sig : BitVec 16) (value : ℕ) : Hash :=
  { table with
    buckets := Function.update table.buckets b
      { sig := Function.update (table.buckets b).sig i sig
        idx := Function.update (table.buckets b).idx i (value % word16) } }

/-- The position of a slot is written. -/
def Hash.putIdx (table : Hash) (b : ℕ) (i : Fin hashBktSize) (value : ℕ) : Hash :=
  table.put b i ((table.buckets b).sig i) value

/-- A table in which every slot is free, of a number of buckets and a seed. -/
def Hash.empty (bkt_cnt : ℕ) (seed : BitVec 32) (h : 0 < bkt_cnt) : Hash where
  bkt_cnt := bkt_cnt
  seed := seed
  buckets := fun _ => { sig := fun _ => 0, idx := fun _ => 0 }
  bkt_cnt_pos := h

/-- **`hash_table_insert`**, none for `-ENOMEM`. -/
def hashTableInsert (key : K) (value : ℕ) (table : Hash) : Option Hash :=
  let idx := table.bucketOf hash_func key
  ((List.finRange hashBktSize).find? fun i => (table.buckets idx).idx i == 0).map fun i =>
    table.put idx i (table.sigOf hash_func key) value

/-- **`hash_table_update`**, none for `-1`. -/
def hashTableUpdate (key : K) (old_value value : ℕ) (table : Hash) : Option Hash :=
  let idx := table.bucketOf hash_func key
  ((List.finRange hashBktSize).find? fun i =>
    (table.buckets idx).sig i == table.sigOf hash_func key &&
      (table.buckets idx).idx i == old_value).map fun i => table.putIdx idx i value

/-- **`hash_table_del`**, none for `-1`. -/
def hashTableDel (key : K) (value : ℕ) (table : Hash) : Option Hash :=
  let idx := table.bucketOf hash_func key
  ((List.finRange hashBktSize).find? fun i =>
    (table.buckets idx).sig i == table.sigOf hash_func key &&
      (table.buckets idx).idx i == value % word16).map fun i => table.putIdx idx i 0

/-- **`hash_table_lookup`**, none for `-ENOENT`. -/
def hashTableLookup [DecidableEq K] (key : K) (hp : Minheap K) : Option ℕ :=
  let table := hp.hashtable
  let bkt := table.buckets (table.bucketOf hash_func key)
  (List.finRange hashBktSize).findSome? fun i =>
    if bkt.sig i = table.sigOf hash_func key ∧ bkt.idx i ≠ 0 ∧ (hp.elem (bkt.idx i - 1)).key = key
    then some (bkt.idx i - 1) else none

/-- The keys of some nodes are inserted with their positions, none where a bucket is full. -/
def insertNodes (elem : ℕ → Node K) : List ℕ → Hash → Option Hash
  | [], table => some table
  | i :: l, table =>
    (hashTableInsert hash_func (elem i).key (i + 1) table).bind (insertNodes elem l)

/-- The loop of `resize_hash_table`. The number of buckets has become 0 after 16 rounds. -/
def resizeLoop (hp : Minheap K) : ℕ → ℕ → Option Hash
  | 0, _ => none
  | n + 1, bkt_cnt =>
    let new_bkt_cnt := bkt_cnt * hashResizeMulti % word16
    if h : 0 < new_bkt_cnt then
      match insertNodes hash_func hp.elem (List.range hp.size) (Hash.empty new_bkt_cnt 0 h) with
      | some table => some table
      | none => resizeLoop hp n new_bkt_cnt
    else none

/-- **`resize_hash_table`**. The seed of the new table is 0. -/
def resizeHashTable (hp : Minheap K) : Option (Minheap K) :=
  (resizeLoop hash_func hp 16 hp.hashtable.bkt_cnt).map fun table => { hp with hashtable := table }

/-- **`rte_member_minheap_find`**. -/
def rteMemberMinheapFind [DecidableEq K] (hp : Minheap K) (key : K) : Option ℕ :=
  hashTableLookup hash_func key hp

/-! ## The heap -/

/-- The recursion of `rte_member_heapify`, which is no deeper than the heap has places from an
index on. -/
def heapifyFrom (update_hash : Bool) : ℕ → Minheap K → ℕ → Minheap K
  | 0, hp, _ => hp
  | n + 1, hp, idx =>
    let smallest := smallest Node.count hp.elem hp.size idx
    if smallest ≠ idx then
      let hp := { hp with elem := swap hp.elem idx smallest }
      if update_hash then
        match hashTableUpdate hash_func (hp.elem smallest).key (idx + 1) (smallest + 1)
          hp.hashtable with
        | none => hp
        | some table =>
          let hp := { hp with hashtable := table }
          match hashTableUpdate hash_func (hp.elem idx).key (smallest + 1) (idx + 1)
            hp.hashtable with
          | none => hp
          | some table => heapifyFrom update_hash n { hp with hashtable := table } smallest
      else heapifyFrom update_hash n hp smallest
    else hp

/-- **`rte_member_heapify`**. -/
def rteMemberHeapify (hp : Minheap K) (idx : ℕ) (update_hash : Bool) : Minheap K :=
  heapifyFrom hash_func update_hash (hp.size - idx) hp idx

/-- The loop that `rte_member_minheap_insert_node` and `rte_member_minheap_replace_node` have in
common: the place for a count, or the heap when an update has failed. -/
def moveUp (count : ℕ) : ℕ → Minheap K → ℕ → Except (Minheap K) (Minheap K × ℕ)
  | 0, hp, i => .ok (hp, i)
  | n + 1, hp, i =>
    if i ≠ 0 ∧ count < (hp.elem (parent i)).count then
      let hp := { hp with elem := Function.update hp.elem i (hp.elem (parent i)) }
      match hashTableUpdate hash_func (hp.elem i).key (parent i + 1) (i + 1) hp.hashtable with
      | none => .error hp
      | some table => moveUp count n { hp with hashtable := table } (parent i)
    else .ok (hp, i)

/-- The rest of both functions, from `(hp->size)++` on: a node is put into the heap. -/
def putNode (hp : Minheap K) (nd : Node K) : Option (Int × Minheap K) :=
  let i := hp.size
  match moveUp hash_func nd.count i { hp with size := hp.size + 1 } i with
  | .error hp => some (-1, hp)
  | .ok (hp, i) =>
    let hp := { hp with elem := Function.update hp.elem i nd }
    match hashTableInsert hash_func nd.key (i + 1) hp.hashtable with
    | some table => some (0, { hp with hashtable := table })
    | none => (resizeHashTable hash_func hp).map fun hp => (0, hp)

/-- **`rte_member_minheap_insert_node`**: what it returns, the heap and the free key slots. -/
def rteMemberMinheapInsertNode (hp : Minheap K) (key : K) (counter : BitVec 32)
    (free_key_slot : List ℕ) : Option (Int × Minheap K × List ℕ) :=
  match free_key_slot with
  | [] => some (-1, hp, [])
  | _ :: free_key_slot =>
    (putNode hash_func hp { key, count := (counter.signExtend 64).toNat }).map fun r =>
      (r.1, r.2, free_key_slot)

/-- **`rte_member_minheap_replace_node`**: what it returns, and the heap. -/
def rteMemberMinheapReplaceNode (hp : Minheap K) (new_key : K) (new_counter : BitVec 32) :
    Option (Int × Minheap K) :=
  match hashTableDel hash_func (hp.elem 0).key 1 hp.hashtable with
  | none => some (-1, hp)
  | some table =>
    let hp := { hp with
      hashtable := table
      elem := Function.update hp.elem 0 (hp.elem (hp.size - 1)) }
    match hashTableUpdate hash_func (hp.elem 0).key hp.size 1 hp.hashtable with
    | none => some (-1, hp)
    | some table =>
      let hp := { hp with hashtable := table, size := hp.size - 1 }
      let hp := rteMemberHeapify hash_func hp 0 true
      putNode hash_func hp { key := new_key, count := (new_counter.signExtend 64).toNat }

/-- The loop of `rte_member_heapsort`. -/
def heapsortLoop : ℕ → Minheap K → Minheap K
  | 0, new_hp => new_hp
  | n + 1, new_hp =>
    if new_hp.size > 1 then
      let new_hp := { new_hp with
        elem := swap new_hp.elem 0 (new_hp.size - 1)
        size := new_hp.size - 1 }
      heapsortLoop n (rteMemberHeapify hash_func new_hp 0 false)
    else new_hp

/-- **`rte_member_heapsort`**: the array that it sorts the nodes into. -/
def rteMemberHeapsort (hp : Minheap K) : ℕ → Node K :=
  (heapsortLoop hash_func hp.size hp).elem

end Member
