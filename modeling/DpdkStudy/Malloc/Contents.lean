import DpdkStudy.Malloc.HeapStructure

/-!
# What the memory of a heap holds

The elements of a heap lie in memory that somebody else has used before. A
header says whether the data behind it may be other than zero (`dirty`). A
split hands the bit down, a join takes it over from either part and clears the
header in between, and memory that is freed is cleared, unless what it is
joined with is dirty anyway: so `rte_zmalloc` has to clear only what is dirty.

This module follows what the operations do to the bytes and to the bits, beside
what they do to the headers. Which bytes the fields of a header are is left
open: a byte where a header has been written is not known.
-/

namespace Malloc

open Function

/-- **What memory holds**: its bytes, where they are known, and the bit of the
header at an address. -/
structure Memory where
  byte : ℕ → Option UInt8
  dirty : ℕ → Bool

namespace Memory

/-- Some bytes in a row become the same. -/
def fill (m : Memory) (start len : ℕ) (v : Option UInt8) : Memory :=
  { m with byte := fun x => if start ≤ x ∧ x < start + len then v else m.byte x }

/-- `memset` with `MALLOC_POISON`, which is zero. -/
def memset (m : Memory) (start len : ℕ) : Memory := m.fill start len (some 0)

/-- The fields of a header are written. -/
def writeHeader (m : Memory) (elem : ℕ) : Memory := m.fill elem headerLen none

/-- **`malloc_elem_init`**. -/
def mallocElemInit (m : Memory) (elem : ℕ) (dirty : Bool) : Memory :=
  { m.writeHeader elem with dirty := update m.dirty elem dirty }

/-- **`split_elem`**. -/
def splitElem (m : Memory) (elem split_pt : ℕ) : Memory :=
  m.mallocElemInit split_pt (m.dirty elem)

/-- **`join_elem`**. -/
def joinElem (m : Memory) (elem1 elem2 : ℕ) : Memory :=
  { m with dirty := update m.dirty elem1 (m.dirty elem1 || m.dirty elem2) }

/-- The first half of `malloc_elem_join_adjacent_free`, which erases trailer,
header and pad. -/
def joinNextFree (cfg : Config) (h : Heap) (m : Memory) (elem : ℕ) : Memory :=
  match h.next elem with
  | some n =>
    if h.state n = .free ∧ Adjacent cfg h elem n then
      (m.joinElem elem n).memset (n - cfg.trailerLen) (cfg.overhead + h.pad n)
    else m
  | none => m

/-- The second half of `malloc_elem_join_adjacent_free`. -/
def joinPrevFree (cfg : Config) (h : Heap) (m : Memory) (elem : ℕ) : Memory :=
  match h.prev elem with
  | some p =>
    if h.state p = .free ∧ Adjacent cfg h p elem then
      (m.joinElem p elem).memset (elem - cfg.trailerLen) (cfg.overhead + h.pad elem)
    else m
  | none => m

/-- **`malloc_elem_join_adjacent_free`**. -/
def mallocElemJoinAdjacentFree (cfg : Config) (h : Heap) (m : Memory) (elem : ℕ) : Memory :=
  joinPrevFree cfg (Malloc.joinNextFree cfg h elem) (joinNextFree cfg h m elem) elem

/-- **`malloc_heap_add_memory`**. -/
def mallocHeapAddMemory (cfg : Config) (h : Heap) (m : Memory) (msl start len : ℕ)
    (dirty : Bool) : Memory :=
  let h := mallocElemInsert (Malloc.mallocElemInit h start msl len start len) start
  mallocElemJoinAdjacentFree cfg h (m.mallocElemInit start dirty) start

/-- The first half of `malloc_elem_alloc`. -/
def trimTail (cfg : Config) (h : Heap) (m : Memory) (elem new_elem size : ℕ) : Memory :=
  let old_elem_size := new_elem - elem
  let trailer_size := wordSub (wordSub (wordSub (h.size elem) old_elem_size) size) cfg.overhead
  if cfg.overhead + minDataSize < trailer_size then
    m.splitElem elem (new_elem + (size + cfg.overhead))
  else m

/-- The second half of `malloc_elem_alloc`. -/
def handOut (cfg : Config) (m : Memory) (elem new_elem : ℕ) : Memory :=
  let old_elem_size := new_elem - elem
  if old_elem_size < cfg.overhead + minDataSize then
    if 0 < old_elem_size then m.writeHeader new_elem else m
  else m.splitElem elem new_elem

/-- **`malloc_elem_alloc`**. -/
def mallocElemAlloc (cfg : Config) (h : Heap) (m : Memory) (elem size align bound : ℕ) : Memory :=
  match elemStartPt cfg h elem size align bound with
  | some new_elem => (m.trimTail cfg h elem new_elem size).handOut cfg elem new_elem
  | none => m

/-- **`malloc_heap_alloc`** where it returns something. -/
def mallocHeapAlloc (cfg : Config) (h : Heap) (m : Memory) (req : Request) : Memory :=
  match findSuitableElement cfg h req with
  | some elem => m.mallocElemAlloc cfg h elem req.dataSize req.dataAlign req.bound
  | none => m

/-- **`malloc_elem_free`**, which clears the memory where the element that is
left is clean. -/
def mallocElemFree (cfg : Config) (h : Heap) (m : Memory) (elem : ℕ) : Memory :=
  let ptr := elem + headerLen
  let data_len := h.size elem - cfg.overhead
  -- the element counts as clean for the purpose of joining
  let m := { m with dirty := update m.dirty elem false }
  let m := m.mallocElemJoinAdjacentFree cfg h elem
  if m.dirty (Malloc.mallocElemJoinAdjacentFree cfg h elem).2 = false then m.memset ptr data_len
  else m

/-- **`malloc_heap_free`**. -/
def mallocHeapFree (cfg : Config) (h : Heap) (m : Memory) (elem : ℕ) : Memory :=
  if h.state elem = .busy then
    m.mallocElemFree cfg { h with state := update h.state elem .free } elem
  else m

/-- **`malloc_elem_resize`**, which erases nothing. -/
def mallocElemResize (cfg : Config) (h : Heap) (m : Memory) (elem size : ℕ) : Memory :=
  let new_size := (size + h.pad elem + cfg.overhead) % word
  if new_size ≤ h.size elem then m
  else
    match h.next elem with
    | some n =>
      if h.state n = .free ∧ Adjacent cfg h elem n then
        if h.size elem + h.size n < new_size then m
        else
          let h := Malloc.joinElem (mallocElemFreeListRemove h n) elem n
          let m := m.joinElem elem n
          if minDataSize + cfg.overhead ≤ h.size elem - new_size then
            m.splitElem elem (alignCeil (elem + new_size) cacheLine)
          else m
      else m
    | none => m

/-- **`malloc_heap_resize`**. -/
def mallocHeapResize (cfg : Config) (h : Heap) (m : Memory) (elem size : ℕ) : Memory :=
  if h.state elem = .busy then m.mallocElemResize cfg h elem size else m

/-- **`rte_zmalloc_socket`**, with the heap and the data that
`rte_malloc_socket` has returned: what is dirty is cleared. -/
def rteZmallocSocket (m : Memory) (h : Heap) (data size : ℕ) : Memory :=
  if m.dirty (mallocElemFromData h data) then m.memset data size else m

end Memory

/-! ## Using the memory -/

/-- **A heap in use, with what its memory holds.** -/
structure Usage extends St where
  mem : Memory

/-- The usage before any memory is added. -/
def Usage.init : Usage := { toSt := St.init, mem := ⟨fun _ => none, fun _ => false⟩ }

/-- **What is done with the memory.** A region comes with what it holds, and is
marked as dirty or not. -/
inductive Use
  | add (r : Region) (dirty : Bool) (bytes : ℕ → UInt8)
  | malloc (req : Request)
  | zmalloc (req : Request)
  | free (data : ℕ)
  | resize (data size : ℕ)
  | write (x : ℕ) (v : UInt8)

/-- What the bytes are after a region has been mapped. -/
def Memory.map (m : Memory) (r : Region) (bytes : ℕ → UInt8) : Memory :=
  { m with byte := fun x => if r.start ≤ x ∧ x < r.start + r.len then some (bytes x) else m.byte x }

/-- **One use of the memory.** -/
def use (cfg : Config) (st : Usage) : Use → Usage
  | .add r dirty bytes =>
    { toSt := step cfg st.toSt (.add r)
      mem := (st.mem.map r bytes).mallocHeapAddMemory cfg st.heap r.msl r.start r.len dirty }
  | .malloc req =>
    match mallocHeapAlloc cfg st.heap req with
    | some _ =>
      { toSt := step cfg st.toSt (.alloc req), mem := st.mem.mallocHeapAlloc cfg st.heap req }
    | none => st
  | .zmalloc req =>
    match mallocHeapAlloc cfg st.heap req with
    | some (h, data) =>
      { toSt := step cfg st.toSt (.alloc req)
        mem := (st.mem.mallocHeapAlloc cfg st.heap req).rteZmallocSocket h data req.size }
    | none => st
  | .free data =>
    { toSt := step cfg st.toSt (.free data)
      mem := st.mem.mallocHeapFree cfg st.heap (mallocElemFromData st.heap data) }
  | .resize data size =>
    { toSt := step cfg st.toSt (.resize data size)
      mem := st.mem.mallocHeapResize cfg st.heap (mallocElemFromData st.heap data) size }
  | .write x v => { st with mem := st.mem.fill x 1 (some v) }

/-- A byte is in an area that is handed out. -/
def Owned (st : Usage) (x : ℕ) : Prop := ∃ d ∈ st.areas, d.data ≤ x ∧ x < d.data + d.size

/-- **What the users promise**: a region is disjoint from the others and zero
where it is marked clean, what is freed or resized is handed out, and so is what
is written. -/
def Allowed (st : Usage) : Use → Prop
  | .add r dirty bytes => (∀ r' ∈ st.regions, ∀ x, ¬ (r.Has x ∧ r'.Has x)) ∧
      (dirty = false → ∀ x, r.Has x → bytes x = 0)
  | .malloc _ => True
  | .zmalloc _ => True
  | .free data => data ∈ st.areas.map Area.data
  | .resize data _ => data ∈ st.areas.map Area.data
  | .write x _ => Owned st x

/-- **Nothing wraps**: neither the start of the data in the element that is
found, nor the size of an element that would hold what a resize asks for. -/
def Counted (cfg : Config) (st : Usage) : Use → Prop
  | .malloc req => ∀ elem, findSuitableElement cfg st.heap req = some elem →
      NoWrap cfg elem (st.heap.size elem) req.dataSize req.dataAlign req.bound
  | .zmalloc req => ∀ elem, findSuitableElement cfg st.heap req = some elem →
      NoWrap cfg elem (st.heap.size elem) req.dataSize req.dataAlign req.bound
  | .resize data size =>
      size + st.heap.pad (mallocElemFromData st.heap data) + cfg.overhead < word
  | _ => True

/-- A byte is in the data of an element, behind its header and in front of its
trailer. -/
def Heap.DataHas (cfg : Config) (h : Heap) (a x : ℕ) : Prop :=
  a + headerLen ≤ x ∧ x + cfg.trailerLen < a + h.size a

/-- The data of an element is zero if it is marked clean. -/
def ZeroIfClean (cfg : Config) (h : Heap) (m : Memory) (a : ℕ) : Prop :=
  m.dirty a = false → ∀ x, h.DataHas cfg a x → m.byte x = some 0

/-- **The data of a free element is zero** where the element is marked clean. -/
def FreeIsZero (cfg : Config) (h : Heap) (m : Memory) : Prop :=
  ∀ i, ∀ a ∈ h.free_head i, ZeroIfClean cfg h m a

/-- **What `rte_zmalloc` returns is zero**, where a request is served. -/
def Zeroes (cfg : Config) (st : Usage) (req : Request) : Prop :=
  ∀ h data, mallocHeapAlloc cfg st.heap req = some (h, data) →
    ∀ x, data ≤ x → x < data + req.size → (use cfg st (.zmalloc req)).mem.byte x = some 0

end Malloc
