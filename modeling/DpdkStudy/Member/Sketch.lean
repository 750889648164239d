import DpdkStudy.Ipsec.Sqn
import DpdkStudy.Member.Heap

/-!
# The sketch

A sketch (`lib/member/rte_member_sketch.c`) counts the packets of each key in a few rows of
counters: in each row the counter that the hash of the key says. The estimate of a key is the
least of its counters (`countMin`). The keys that have been added most are in a min-heap
(`heapUpdate`), and they are reported in the order of their estimates
(`rteMemberReportHeavyhitterSketch`).

This is the sketch that counts packets, with a sample rate of 1 and without vector instructions.
The hash function is a parameter, with its seed. The seeds of the rows are any numbers.
-/

namespace Member

/-- `NUM_ROW_SCALAR`. -/
def numRowScalar : ℕ := 5

/-- `UINT64_MAX`. -/
def uint64Max : ℕ := 2 ^ 64 - 1

/-- **A set summary** in sketch mode, as far as it is fixed when it is made. -/
structure SketchSetsum (K : Type) where
  /-- `MEMBER_HASH_FUNC`, of a seed and a key. -/
  hash_func : BitVec 32 → K → BitVec 32
  hash_seeds : ℕ → BitVec 32
  prim_hash_seed : BitVec 32
  num_col : ℕ
  topk : UInt32
  num_col_pos : 0 < num_col

/-- **What changes in a sketch**: the counters by row and column, and the `sketch_runtime`. -/
structure Sketch (K : Type) where
  table : ℕ → ℕ → ℕ
  heap : Minheap K
  free_key_slots : List ℕ

variable {K : Type} (ss : SketchSetsum K)

/-- The number of slots that a ring made by `rte_ring_create_elem` takes, one less than the size
that it is asked for. -/
def ringCapacity (count : UInt32) : ℕ := count.toNat - 1

/-- The column of a key in a row. -/
def SketchSetsum.col (cur_row : ℕ) (key : K) : ℕ :=
  (ss.hash_func (ss.hash_seeds cur_row) key).toNat % ss.num_col

/-- **`sketch_update_scalar`**: the counters are `uint64_t`. -/
def sketchUpdateScalar (table : ℕ → ℕ → ℕ) (key : K) (count : ℕ) : ℕ → ℕ → ℕ :=
  fun cur_row col =>
    if cur_row < numRowScalar ∧ col = ss.col cur_row key then
      (table cur_row col + count) % 2 ^ 64
    else table cur_row col

/-- **`count_min`**. -/
def countMin (table : ℕ → ℕ → ℕ) (hash_results : ℕ → ℕ) : ℕ :=
  (List.range numRowScalar).foldl
    (fun min cur_row =>
      let cnt := table cur_row (hash_results cur_row)
      if cnt < min then cnt else min) uint64Max

/-- **`sketch_lookup_scalar`**: the estimate of a key. -/
def sketchLookupScalar (table : ℕ → ℕ → ℕ) (key : K) : ℕ :=
  countMin table fun cur_row => ss.col cur_row key

/-- **`rte_member_update_heap`**. -/
def rteMemberUpdateHeap (s : Sketch K) : Sketch K :=
  { s with
    heap := { s.heap with
      elem := fun i =>
        if i < s.heap.size then
          { s.heap.elem i with count := sketchLookupScalar ss s.table (s.heap.elem i).key }
        else s.heap.elem i } }

/-- **`rte_member_report_heavyhitter_sketch`**: the keys and counts, as many as it returns, and
the sketch. -/
def rteMemberReportHeavyhitterSketch (s : Sketch K) : List (K × ℕ) × Sketch K :=
  let s := rteMemberUpdateHeap ss s
  let report_array := rteMemberHeapsort ss.hash_func s.heap
  ((List.range s.heap.size).map fun i => ((report_array i).key, (report_array i).count), s)

variable [DecidableEq K]

/-- A node of the heap that has been found gets a new count. -/
def updateFound (hp : Minheap K) (found key_cnt : ℕ) : Minheap K :=
  let hp := if (hp.elem found).count < key_cnt then rteMemberHeapify ss.hash_func hp found true
    else hp
  { hp with elem := Function.update hp.elem found { hp.elem found with count := key_cnt } }

/-- A key that is not in the heap is inserted. -/
def insertKey (s : Sketch K) (key : K) (key_cnt : ℕ) : Option (Sketch K) :=
  (rteMemberMinheapInsertNode ss.hash_func s.heap key (BitVec.ofNat 32 key_cnt)
    s.free_key_slots).map fun r => { s with heap := r.2.1, free_key_slots := r.2.2 }

/-- **`heap_update`**. What the functions of the heap return is not looked at. -/
def heapUpdate (s : Sketch K) (key : K) : Option (Sketch K) :=
  let key_cnt := sketchLookupScalar ss s.table key
  if key_cnt > (s.heap.elem 0).count then
    match rteMemberMinheapFind ss.hash_func s.heap key with
    | some found => some { s with heap := updateFound ss s.heap found key_cnt }
    | none =>
      if s.heap.size < ss.topk.toNat then insertKey ss s key key_cnt
      else
        (rteMemberMinheapReplaceNode ss.hash_func s.heap key (BitVec.ofNat 32 key_cnt)).map
          fun r => { s with heap := r.2 }
  else if s.heap.size < ss.topk.toNat then
    match rteMemberMinheapFind ss.hash_func s.heap key with
    | some found => some { s with heap := updateFound ss s.heap found key_cnt }
    | none => insertKey ss s key key_cnt
  else some s

/-- **`rte_member_add_sketch`**. -/
def rteMemberAddSketch (s : Sketch K) (key : K) : Option (Sketch K) :=
  heapUpdate ss { s with table := sketchUpdateScalar ss s.table key 1 } key

/-- **A call**: of add, or of a report. -/
inductive SketchCall (K : Type) : Type
  | add (key : K)
  | report
deriving DecidableEq

/-- The sketch after a call. -/
def SketchCall.step (s : Sketch K) : SketchCall K → Option (Sketch K)
  | .add key => rteMemberAddSketch ss s key
  | .report => some (rteMemberReportHeavyhitterSketch ss s).2

end Member
