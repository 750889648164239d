import Mathlib.Data.Nat.Log
import Mathlib.Data.List.Basic
import Mathlib.Logic.Function.Basic
import Mathlib.Algebra.Group.Nat.Defs

/-!
# The elements of a heap

The elements of `lib/eal/common/malloc_elem.c`, of which a heap is made up.
Each has a header in front of its data. They are linked in the order of their
addresses, and the free ones are listed by their size. An element is split
where less of it is needed, and joined with a neighbour where both are free.

A header is what the fields of the heap say at its address. Sizes and addresses
are machine words: where the code subtracts below zero or adds past the end,
the result wraps (`word`).
-/

namespace Malloc

open Function

/-- `RTE_CACHE_LINE_SIZE`. -/
def cacheLine : ℕ := 64

/-- `MIN_DATA_SIZE`. -/
def minDataSize : ℕ := cacheLine

/-- `MALLOC_ELEM_HEADER_LEN`: the fields of a header, aligned to a cache
line. -/
def headerLen : ℕ := 128

/-- `RTE_HEAP_NUM_FREELISTS`. -/
def heapNumFreelists : ℕ := 13

/-- `MALLOC_MINSIZE_LOG2`. -/
def minSizeLog2 : ℕ := 8

/-- `MALLOC_LOG2_INCREMENT`. -/
def log2Increment : ℕ := 2

/-- The values of a `size_t`, or of an address. -/
def word : ℕ := 2 ^ 64

/-- **How the library is built and run**: the length of a trailer, which is
there for debugging only, and whether memory is given back as it was
allocated. -/
structure Config where
  trailerLen : ℕ
  matchAllocations : Bool
  trailerLen_eq : trailerLen = 0 ∨ trailerLen = cacheLine

/-- `MALLOC_ELEM_OVERHEAD`. -/
def Config.overhead (cfg : Config) : ℕ := headerLen + cfg.trailerLen

/-- **The state of an element** (`enum elem_state`). A header in padding has
one of its own. -/
inductive ElemState
  | free
  | busy
  | pad
deriving DecidableEq, Repr

/-- **A heap** (`struct malloc_heap`) with the headers of its elements
(`struct malloc_elem`), each field by address. -/
structure Heap where
  first : Option ℕ
  last : Option ℕ
  prev : ℕ → Option ℕ
  next : ℕ → Option ℕ
  free_head : ℕ → List ℕ
  msl : ℕ → ℕ
  state : ℕ → ElemState
  pad : ℕ → ℕ
  size : ℕ → ℕ
  orig_elem : ℕ → ℕ
  orig_size : ℕ → ℕ

/-- A heap without memory. -/
def Heap.empty : Heap where
  first := none
  last := none
  prev _ := none
  next _ := none
  free_head _ := []
  msl _ := 0
  state _ := .free
  pad _ := 0
  size _ := 0
  orig_elem _ := 0
  orig_size _ := 0

/-- **`malloc_elem_init`**. -/
def mallocElemInit (h : Heap) (elem msl size orig_elem orig_size : ℕ) : Heap :=
  { h with
    msl := update h.msl elem msl
    prev := update h.prev elem none
    next := update h.next elem none
    state := update h.state elem .free
    size := update h.size elem size
    pad := update h.pad elem 0
    orig_elem := update h.orig_elem elem orig_elem
    orig_size := update h.orig_size elem orig_size }

/-! ## The chain of elements -/

/-- The search of `malloc_elem_insert` from an element below: the last one
before an address. The bound is on the addresses passed. -/
def searchUp (h : Heap) (elem : ℕ) : ℕ → ℕ → ℕ
  | 0, prev_elem => prev_elem
  | fuel + 1, prev_elem =>
    match h.next prev_elem with
    | some n => if n < elem then searchUp h elem fuel n else prev_elem
    | none => prev_elem

/-- The search of `malloc_elem_insert` from an element above: the first one
after an address. -/
def searchDown (h : Heap) (elem : ℕ) : ℕ → ℕ → ℕ
  | 0, next_elem => next_elem
  | fuel + 1, next_elem =>
    match h.prev next_elem with
    | some p => if elem < p then searchDown h elem fuel p else next_elem
    | none => next_elem

/-- The elements `malloc_elem_insert` puts a new one between. -/
def neighbours (h : Heap) (elem first last : ℕ) : Option ℕ × Option ℕ :=
  if elem < first then (none, some first)
  else if last < elem then (some last, none)
  else if elem - first < last - elem then
    let prev_elem := searchUp h elem elem first
    (some prev_elem, h.next prev_elem)
  else
    let next_elem := searchDown h elem last last
    (h.prev next_elem, some next_elem)

/-- The links of a new element between its neighbours. -/
def linkElem (h : Heap) (elem : ℕ) (prev_elem next_elem : Option ℕ) : Heap :=
  let h := { h with
    prev := update h.prev elem prev_elem
    next := update h.next elem next_elem }
  let h := match prev_elem with
    | some p => { h with next := update h.next p (some elem) }
    | none => { h with first := some elem }
  match next_elem with
  | some n => { h with prev := update h.prev n (some elem) }
  | none => { h with last := some elem }

/-- **`malloc_elem_insert`**. A heap with one end only is left alone. -/
def mallocElemInsert (h : Heap) (elem : ℕ) : Heap :=
  match h.first, h.last with
  | none, none => linkElem h elem none none
  | some first, some last =>
    let n := neighbours h elem first last
    linkElem h elem n.1 n.2
  | _, _ => h

/-! ## The free lists -/

/-- **`malloc_elem_free_list_index`**. -/
def mallocElemFreeListIndex (size : ℕ) : ℕ :=
  if size < 2 ^ minSizeLog2 then 0
  else
    let log2 := Nat.log 2 size + 1
    min ((log2 - minSizeLog2 + log2Increment - 1) / log2Increment) (heapNumFreelists - 1)

/-- **`malloc_elem_free_list_insert`**. -/
def mallocElemFreeListInsert (h : Heap) (elem : ℕ) : Heap :=
  let idx := mallocElemFreeListIndex (h.size elem - headerLen)
  { h with
    state := update h.state elem .free
    free_head := update h.free_head idx (elem :: h.free_head idx) }

/-- **`malloc_elem_free_list_remove`**, from the list the element is on. -/
def mallocElemFreeListRemove (h : Heap) (elem : ℕ) : Heap :=
  { h with free_head := fun idx => (h.free_head idx).erase elem }

/-! ## Splitting and joining -/

/-- **`split_elem`**. -/
def splitElem (h : Heap) (elem split_pt : ℕ) : Heap :=
  let next_elem := h.next elem
  let old_elem_size := split_pt - elem
  let new_elem_size := h.size elem - old_elem_size
  let h := mallocElemInit h split_pt (h.msl elem) new_elem_size (h.orig_elem elem)
    (h.orig_size elem)
  let h := { h with
    prev := update h.prev split_pt (some elem)
    next := update h.next split_pt next_elem }
  let h := match next_elem with
    | some n => { h with prev := update h.prev n (some split_pt) }
    | none => { h with last := some split_pt }
  let h := { h with
    next := update h.next elem (some split_pt)
    size := update h.size elem old_elem_size }
  -- the header in padding has the size as well
  if h.pad elem ≠ 0 then
    { h with size := update h.size (elem + h.pad elem) (old_elem_size - h.pad elem) }
  else h

/-- **`join_elem`**. -/
def joinElem (h : Heap) (elem1 elem2 : ℕ) : Heap :=
  let next := h.next elem2
  let h := { h with size := update h.size elem1 (h.size elem1 + h.size elem2) }
  let h := match next with
    | some n => { h with prev := update h.prev n (some elem1) }
    | none => { h with last := some elem1 }
  let h := { h with next := update h.next elem1 next }
  if h.pad elem1 ≠ 0 then
    { h with size := update h.size (elem1 + h.pad elem1) (h.size elem1 - h.pad elem1) }
  else h

/-- **Two elements can be one**: the test of `next_elem_is_adjacent` and
`prev_elem_is_adjacent` on an element and the one after it. -/
def Adjacent (cfg : Config) (h : Heap) (elem next : ℕ) : Prop :=
  next = elem + h.size elem ∧ h.msl next = h.msl elem ∧
    (cfg.matchAllocations = true → h.orig_elem elem = h.orig_elem next)

instance (cfg : Config) (h : Heap) (elem next : ℕ) : Decidable (Adjacent cfg h elem next) :=
  inferInstanceAs (Decidable (_ ∧ _ ∧ (_ → _)))

/-- The first half of `malloc_elem_join_adjacent_free`: the next element. -/
def joinNextFree (cfg : Config) (h : Heap) (elem : ℕ) : Heap :=
  match h.next elem with
  | some n =>
    if h.state n = .free ∧ Adjacent cfg h elem n then
      joinElem (mallocElemFreeListRemove h n) elem n
    else h
  | none => h

/-- The second half of `malloc_elem_join_adjacent_free`: the previous
element. -/
def joinPrevFree (cfg : Config) (h : Heap) (elem : ℕ) : Heap × ℕ :=
  match h.prev elem with
  | some p =>
    if h.state p = .free ∧ Adjacent cfg h p elem then
      (joinElem (mallocElemFreeListRemove h p) p elem, p)
    else (h, elem)
  | none => (h, elem)

/-- **`malloc_elem_join_adjacent_free`**. It returns the element that is
left. -/
def mallocElemJoinAdjacentFree (cfg : Config) (h : Heap) (elem : ℕ) : Heap × ℕ :=
  joinPrevFree cfg (joinNextFree cfg h elem) elem

/-- **`malloc_heap_add_memory`**. -/
def mallocHeapAddMemory (cfg : Config) (h : Heap) (msl start len : ℕ) : Heap :=
  let h := mallocElemInsert (mallocElemInit h start msl len start len) start
  let (h, elem) := mallocElemJoinAdjacentFree cfg h start
  mallocElemFreeListInsert h elem

/-! ## Allocating -/

/-- `RTE_ALIGN_FLOOR`, for an alignment that is a power of two. -/
def alignFloor (val align : ℕ) : ℕ := val - val % align

/-- `RTE_ALIGN_CEIL`, and `RTE_CACHE_LINE_ROUNDUP`. -/
def alignCeil (val align : ℕ) : ℕ := alignFloor ((val + (align - 1)) % word) align

/-- A difference of two words. -/
def wordSub (a b : ℕ) : ℕ := (a + (word - b % word)) % word

/-- Whether two addresses lie in one block of the size of a bound. The mask of
no bound is zero. -/
def sameBlock (bound a b : ℕ) : Prop :=
  bound = 0 ∨ alignFloor a bound = alignFloor b bound

instance (bound a b : ℕ) : Decidable (sameBlock bound a b) :=
  inferInstanceAs (Decidable (_ ∨ _))

/-- **Where the data would start** (`elem_start_pt` up to its new element), if
it does not cross a bound. -/
def dataStart (cfg : Config) (elem elem_size size align bound : ℕ) : Option ℕ :=
  let end_pt := elem + elem_size - cfg.trailerLen
  let new_data_start := alignFloor (wordSub end_pt size) align
  if sameBlock bound new_data_start (end_pt - 1) then
    some new_data_start
  else
    let end_pt := alignFloor end_pt bound
    let new_data_start := alignFloor (wordSub end_pt size) align
    let end_pt := (new_data_start + size) % word
    if sameBlock bound (wordSub end_pt 1) new_data_start then some new_data_start else none

/-- **`elem_start_pt`**, with no contiguity asked for. -/
def elemStartPt (cfg : Config) (h : Heap) (elem size align bound : ℕ) : Option ℕ :=
  if h.size elem < size then none
  else
    match dataStart cfg elem (h.size elem) size align bound with
    | some new_data_start =>
      let new_elem_start := wordSub new_data_start headerLen
      if new_elem_start < elem then none else some new_elem_start
    | none => none

/-- **`malloc_elem_can_hold`**. -/
def mallocElemCanHold (cfg : Config) (h : Heap) (elem size align bound : ℕ) : Bool :=
  (elemStartPt cfg h elem size align bound).isSome

/-- The first half of `malloc_elem_alloc`: what is not needed behind the new
element is split off. -/
def trimTail (cfg : Config) (h : Heap) (elem new_elem size : ℕ) : Heap :=
  let old_elem_size := new_elem - elem
  let trailer_size := wordSub (wordSub (wordSub (h.size elem) old_elem_size) size) cfg.overhead
  let h := mallocElemFreeListRemove h elem
  if cfg.overhead + minDataSize < trailer_size then
    let new_free_elem := new_elem + (size + cfg.overhead)
    mallocElemFreeListInsert (splitElem h elem new_free_elem) new_free_elem
  else h

/-- The second half of `malloc_elem_alloc`: the element is padded up to the new
one, or split once more and free up to it. -/
def handOut (cfg : Config) (h : Heap) (elem new_elem : ℕ) : Heap :=
  let old_elem_size := new_elem - elem
  if old_elem_size < cfg.overhead + minDataSize then
    let h := { h with
      state := update h.state elem .busy
      pad := update h.pad elem old_elem_size }
    -- a dummy header in the padding points to the real one
    if 0 < h.pad elem then
      { h with
        pad := update h.pad new_elem (h.pad elem)
        state := update h.state new_elem .pad
        size := update h.size new_elem (h.size elem - h.pad elem) }
    else h
  else
    let h := splitElem h elem new_elem
    let h := { h with state := update h.state new_elem .busy }
    mallocElemFreeListInsert h elem

/-- **`malloc_elem_alloc`**. It returns the heap and the new element. -/
def mallocElemAlloc (cfg : Config) (h : Heap) (elem size align bound : ℕ) : Option (Heap × ℕ) :=
  (elemStartPt cfg h elem size align bound).map (fun new_elem =>
    (handOut cfg (trimTail cfg h elem new_elem size) elem new_elem, new_elem))

/-- **A request** for memory: its size, its alignment, the bound it must not
cross, the page sizes that suit it and whether they are a hint only. -/
structure Request where
  size : ℕ
  align : ℕ
  bound : ℕ
  suits : ℕ → Bool
  hint : Bool
  size_lt : size < word
  align_lt : align < 2 ^ 32
  bound_eq : bound = 0 ∨ ∃ k, bound = 2 ^ k

/-- The size of the data, rounded up as `heap_alloc` does. -/
def Request.dataSize (req : Request) : ℕ := alignCeil req.size cacheLine

/-- The alignment of the data, rounded up as `heap_alloc` does. -/
def Request.dataAlign (req : Request) : ℕ :=
  alignCeil (if req.align = 0 then 1 else req.align) cacheLine

/-- **`find_suitable_element`**: the first element of the free lists that can
hold the data and suits the request, or else, if that is a hint, that can hold
it. -/
def findSuitableElement (cfg : Config) (h : Heap) (req : Request) : Option ℕ :=
  let idx := mallocElemFreeListIndex req.dataSize
  let elems := (List.range' idx (heapNumFreelists - idx)).flatMap h.free_head
  let holds := fun elem => mallocElemCanHold cfg h elem req.dataSize req.dataAlign req.bound
  match elems.find? (fun elem => holds elem && req.suits (h.msl elem)) with
  | some elem => some elem
  | none => if req.hint then elems.find? holds else none

/-- **`malloc_heap_alloc`** on one heap, and `heap_alloc`. It returns the heap
and the data. -/
def mallocHeapAlloc (cfg : Config) (h : Heap) (req : Request) : Option (Heap × ℕ) :=
  if req.size = 0 ∨ (req.align ≠ 0 ∧ req.align ≠ 2 ^ Nat.log 2 req.align) then none
  -- the roundup may have wrapped
  else if req.dataSize = 0 then none
  else
    match findSuitableElement cfg h req with
    | some elem =>
      (mallocElemAlloc cfg h elem req.dataSize req.dataAlign req.bound).map (fun r =>
        (r.1, r.2 + headerLen))
    | none => none

/-! ## Freeing and resizing -/

/-- **`malloc_elem_from_data`**: the element of some data. The header in front
of it may be one in padding. -/
def mallocElemFromData (h : Heap) (data : ℕ) : ℕ :=
  let elem := data - headerLen
  if h.state elem = .pad then elem - h.pad elem else elem

/-- **`malloc_elem_free`**. -/
def mallocElemFree (cfg : Config) (h : Heap) (elem : ℕ) : Heap :=
  let (h, elem) := mallocElemJoinAdjacentFree cfg h elem
  let h := mallocElemFreeListInsert h elem
  { h with pad := update h.pad elem 0 }

/-- **`malloc_heap_free`**, of an element that is busy. -/
def mallocHeapFree (cfg : Config) (h : Heap) (elem : ℕ) : Heap × Int :=
  if h.state elem = .busy then
    (mallocElemFree cfg { h with state := update h.state elem .free } elem, 0)
  else (h, -1)

/-- **`malloc_elem_resize`**. -/
def mallocElemResize (cfg : Config) (h : Heap) (elem size : ℕ) : Heap × Int :=
  let new_size := (size + h.pad elem + cfg.overhead) % word
  if new_size ≤ h.size elem then (h, 0)
  else
    match h.next elem with
    | some n =>
      if h.state n = .free ∧ Adjacent cfg h elem n then
        if h.size elem + h.size n < new_size then (h, -1)
        else
          let h := joinElem (mallocElemFreeListRemove h n) elem n
          if minDataSize + cfg.overhead ≤ h.size elem - new_size then
            let split_pt := alignCeil (elem + new_size) cacheLine
            (mallocElemFreeListInsert (splitElem h elem split_pt) split_pt, 0)
          else (h, 0)
      else (h, -1)
    | none => (h, -1)

/-- **`malloc_heap_resize`**, of an element that is busy. -/
def mallocHeapResize (cfg : Config) (h : Heap) (elem size : ℕ) : Heap × Int :=
  if h.state elem = .busy then mallocElemResize cfg h elem size else (h, -1)

end Malloc
