import Mathlib.Logic.Function.Basic
import DpdkStudy.Ipsec.Sqn

/-!
# The bitmap with two levels

The bitmap of `lib/eal/include/rte_bitmap.h`. Its bits are in slabs of 64
(`array2`), eight of which are a cache line. A second array (`array1`) has a bit
for each cache line, set where the line is not empty, so that a scan can pass
over empty lines. A scan goes on where the last one has stopped.

Numbers are 32-bit words and wrap (`word32`). An operation whose index leaves one
of the arrays has no result. The shifts and masks of the code by powers of two
are quotients and remainders here.
-/

namespace Bitmap

open Function

/-- The values of a `uint32_t`. -/
def word32 : ℕ := 2 ^ 32

/-- `RTE_BITMAP_SLAB_BIT_SIZE`. -/
def slabBitSize : ℕ := 64

/-- `RTE_CACHE_LINE_SIZE`. -/
def cacheLineSize : ℕ := 64

/-- `RTE_BITMAP_CL_BIT_SIZE`. -/
def clBitSize : ℕ := cacheLineSize * 8

/-- `RTE_BITMAP_CL_SLAB_SIZE`. -/
def clSlabSize : ℕ := clBitSize / slabBitSize

/-- `sizeof(struct rte_bitmap)`. -/
def bitmapHdrSize : ℕ := 40

/-- **A bitmap** (`struct rte_bitmap`). -/
structure RteBitmap where
  array1 : ℕ → BitVec 64
  array2 : ℕ → BitVec 64
  array1_size : ℕ
  array2_size : ℕ
  index1 : ℕ
  offset1 : ℕ
  index2 : ℕ
  go2 : ℕ

/-- **What `__rte_bitmap_get_memory_footprint` computes**: where the arrays are,
their numbers of slabs, and the number of bytes of all. -/
structure Footprint where
  array1_byte_offset : ℕ
  array1_slabs : ℕ
  array2_byte_offset : ℕ
  array2_slabs : ℕ
  n_bytes_total : ℕ
deriving DecidableEq, Repr

/-- **`__rte_bitmap_get_memory_footprint`**. -/
def footprint (n_bits : ℕ) : Footprint :=
  let n_cache_lines_array2 := (n_bits + clBitSize - 1) % word32 / clBitSize
  let n_slabs_array1 := (n_cache_lines_array2 + slabBitSize - 1) % word32 / slabBitSize
  let n_slabs_array1 := (Ipsec.rteAlign32pow2 (UInt32.ofNat n_slabs_array1)).toNat
  let n_slabs_context := (bitmapHdrSize + slabBitSize / 8 - 1) / (slabBitSize / 8)
  let n_cache_lines_context_and_array1 :=
    (n_slabs_context + n_slabs_array1 + clSlabSize - 1) % word32 / clSlabSize
  { array1_byte_offset := n_slabs_context * (slabBitSize / 8)
    array1_slabs := n_slabs_array1
    array2_byte_offset := n_cache_lines_context_and_array1 * cacheLineSize % word32
    array2_slabs := n_cache_lines_array2 * clSlabSize % word32
    n_bytes_total :=
      (n_cache_lines_context_and_array1 + n_cache_lines_array2) * cacheLineSize % word32 }

/-- **`rte_bitmap_get_memory_footprint`**, zero on error. -/
def rteBitmapGetMemoryFootprint (n_bits : ℕ) : ℕ :=
  if n_bits = 0 then 0 else (footprint n_bits).n_bytes_total

namespace RteBitmap

variable (bmp : RteBitmap)

/-- `__rte_bitmap_index1_inc`. -/
def index1Inc : RteBitmap :=
  { bmp with
    index1 := (bmp.index1 + 1) % word32 &&& (bmp.array1_size + (word32 - 1)) % word32 }

/-- `__rte_bitmap_mask1_get`. -/
def mask1Get : BitVec 64 := (~~~1#64) <<< bmp.offset1

/-- `__rte_bitmap_index2_set`. -/
def index2Set : RteBitmap :=
  { bmp with
    index2 := (bmp.index1 * slabBitSize + bmp.offset1) * clSlabSize % word32 }

/-- `__rte_bitmap_scan_init`. -/
def scanInit : RteBitmap :=
  let bmp := { bmp with
    index1 := (bmp.array1_size + (word32 - 1)) % word32
    offset1 := slabBitSize - 1 }
  let bmp := bmp.index2Set
  { bmp with index2 := (bmp.index2 + clSlabSize) % word32, go2 := 0 }

end RteBitmap

/-- The arrays of a bitmap in some memory, before a scan has begun. -/
def setup (f : Footprint) (array1 array2 : ℕ → BitVec 64) : RteBitmap :=
  RteBitmap.scanInit
    { array1 := array1
      array2 := array2
      array1_size := f.array1_slabs
      array2_size := f.array2_slabs
      index1 := 0
      offset1 := 0
      index2 := 0
      go2 := 0 }

/-- **`rte_bitmap_init`**, `none` for a null pointer. -/
def rteBitmapInit (n_bits mem mem_size : ℕ) : Option RteBitmap :=
  if n_bits = 0 then none
  else if mem = 0 ∨ mem % cacheLineSize ≠ 0 then none
  else
    let f := footprint n_bits
    if mem_size < f.n_bytes_total then none
    else some (setup f (fun _ => 0) (fun _ => 0))

/-- **`__rte_bitmap_clear_slab_overhead_bits`**: the bits from a position on are
cleared. -/
def clearSlabOverheadBits (slabs : ℕ → BitVec 64) (slab_size pos : ℕ) : Option (ℕ → BitVec 64) :=
  let index := pos / slabBitSize
  let offset := pos % slabBitSize
  if offset ≠ 0 then
    if index < slab_size then
      let slab := (List.range' offset (slabBitSize - offset)).foldl
        (fun slab i => slab &&& ~~~(1#64 <<< i)) (slabs index)
      let slabs := update slabs index slab
      some (fun i => if index + 1 ≤ i ∧ i < slab_size then 0 else slabs i)
    else none
  else some (fun i => if index ≤ i ∧ i < slab_size then 0 else slabs i)

/-- **`rte_bitmap_init_with_all_set`**, `none` for a null pointer. The size is
compared the other way. -/
def rteBitmapInitWithAllSet (n_bits mem mem_size : ℕ) : Option (Option RteBitmap) :=
  if n_bits = 0 ∨ mem = 0 ∨ mem % cacheLineSize ≠ 0 then some none
  else
    let f := footprint n_bits
    if f.n_bytes_total < mem_size then some none
    else do
      let array1 ← clearSlabOverheadBits (fun _ => BitVec.allOnes 64) f.array1_slabs
        (f.array2_slabs / clSlabSize)
      let array2 ← clearSlabOverheadBits (fun _ => BitVec.allOnes 64) f.array2_slabs n_bits
      some (some (setup f array1 array2))

namespace RteBitmap

variable (bmp : RteBitmap)

/-- **`rte_bitmap_reset`**. -/
def reset : RteBitmap := scanInit { bmp with array1 := fun _ => 0, array2 := fun _ => 0 }

/-- **`rte_bitmap_get`**. -/
def get (pos : ℕ) : Option (BitVec 64) :=
  let index2 := pos / slabBitSize
  let offset2 := pos % slabBitSize
  if index2 < bmp.array2_size then some (bmp.array2 index2 &&& 1#64 <<< offset2) else none

/-- The bit of `array1` for a position is set. -/
def markLine (pos : ℕ) : Option RteBitmap :=
  let index1 := pos / (slabBitSize * clBitSize)
  let offset1 := pos / clBitSize % slabBitSize
  if index1 < bmp.array1_size then
    some { bmp with array1 := update bmp.array1 index1 (bmp.array1 index1 ||| 1#64 <<< offset1) }
  else none

/-- **`rte_bitmap_set`**. -/
def set (pos : ℕ) : Option RteBitmap :=
  let index2 := pos / slabBitSize
  let offset2 := pos % slabBitSize
  if index2 < bmp.array2_size then
    { bmp with
      array2 := update bmp.array2 index2 (bmp.array2 index2 ||| 1#64 <<< offset2) }.markLine pos
  else none

/-- **`rte_bitmap_set_slab`**: the bits of the slab are set, too. The bit of
`array1` is set whatever the slab is. -/
def setSlab (pos : ℕ) (slab : BitVec 64) : Option RteBitmap :=
  let index2 := pos / slabBitSize
  if index2 < bmp.array2_size then
    { bmp with
      array2 := update bmp.array2 index2 (bmp.array2 index2 ||| slab) }.markLine pos
  else none

/-- **`__rte_bitmap_line_not_empty`**. -/
def lineNotEmpty (index2 : ℕ) : BitVec 64 :=
  let slab2 := fun i => bmp.array2 (index2 + i)
  let v1 := slab2 0 ||| slab2 1
  let v2 := slab2 2 ||| slab2 3
  let v3 := slab2 4 ||| slab2 5
  let v4 := slab2 6 ||| slab2 7
  (v1 ||| v2) ||| (v3 ||| v4)

/-- **`rte_bitmap_clear`**. -/
def clear (pos : ℕ) : Option RteBitmap :=
  let index2 := pos / slabBitSize
  let offset2 := pos % slabBitSize
  if index2 < bmp.array2_size then
    let bmp := { bmp with
      array2 := update bmp.array2 index2 (bmp.array2 index2 &&& ~~~(1#64 <<< offset2)) }
    if bmp.array2 index2 ≠ 0 then some bmp
    else
      -- the cache line of the slab
      let index2 := index2 / clSlabSize * clSlabSize
      if index2 + clSlabSize ≤ bmp.array2_size then
        if bmp.lineNotEmpty index2 ≠ 0 then some bmp
        else
          let index1 := pos / (slabBitSize * clBitSize)
          let offset1 := pos / clBitSize % slabBitSize
          if index1 < bmp.array1_size then
            some { bmp with
              array1 := update bmp.array1 index1 (bmp.array1 index1 &&& ~~~(1#64 <<< offset1)) }
          else none
      else none
  else none

end RteBitmap

/-! ## Scanning -/

/-- **`rte_bsf64_safe`**: the lowest bit that is set, if there is one. -/
def rteBsf64Safe (v : BitVec 64) : Option ℕ := (List.range 64).find? (fun i => v.getLsbD i)

namespace RteBitmap

/-- The loop of `__rte_bitmap_scan_search` over the other slabs of `array1`. -/
def searchSlabs : ℕ → RteBitmap → Option (Bool × RteBitmap)
  | 0, bmp => some (false, bmp)
  | n + 1, bmp =>
    if bmp.index1 < bmp.array1_size then
      match rteBsf64Safe (bmp.array1 bmp.index1) with
      | some offset1 => some (true, { bmp with offset1 := offset1 })
      | none => searchSlabs n bmp.index1Inc
    else none

/-- **`__rte_bitmap_scan_search`**: whether a line is found. -/
def scanSearch (bmp : RteBitmap) : Option (Bool × RteBitmap) :=
  if bmp.index1 < bmp.array1_size then
    match rteBsf64Safe (bmp.array1 bmp.index1 &&& bmp.mask1Get) with
    | some offset1 => some (true, { bmp with offset1 := offset1 })
    | none => searchSlabs bmp.array1_size { bmp.index1Inc with offset1 := 0 }
  else none

/-- **`__rte_bitmap_scan_read_init`**. -/
def scanReadInit (bmp : RteBitmap) : RteBitmap := { bmp.index2Set with go2 := 1 }

/-- The loop of `__rte_bitmap_scan_read` over a line, with what it stores: the
position and the slab. A line bounds its passes. -/
def readLine : ℕ → RteBitmap → Option (Option (ℕ × BitVec 64) × RteBitmap)
  | 0, _ => none
  | n + 1, bmp =>
    if bmp.go2 = 0 then some (none, bmp)
    else if bmp.index2 < bmp.array2_size then
      let index2 := (bmp.index2 + 1) % word32
      let bmp' := { bmp with index2 := index2, go2 := index2 % clSlabSize }
      if bmp.array2 bmp.index2 ≠ 0 then
        some (some (bmp.index2 * slabBitSize % word32, bmp.array2 bmp.index2), bmp')
      else readLine n bmp'
    else none

/-- **`__rte_bitmap_scan_read`**. -/
def scanRead (bmp : RteBitmap) : Option (Option (ℕ × BitVec 64) × RteBitmap) :=
  readLine (clSlabSize + 1) bmp

end RteBitmap

/-- **What a scan returns**, and what it has stored. -/
structure Scanned where
  ret : ℕ
  stored : Option (ℕ × BitVec 64)
deriving DecidableEq, Repr

namespace RteBitmap

/-- **`rte_bitmap_scan`**. A line that `array1` has is taken as not empty. -/
def scan (bmp : RteBitmap) : Option (Scanned × RteBitmap) :=
  bmp.scanRead.bind fun (stored, bmp) =>
    if stored.isSome then some (⟨1, stored⟩, bmp)
    else
      bmp.scanSearch.bind fun (found, bmp) =>
        if found then
          bmp.scanReadInit.scanRead.map fun (stored, bmp) => (⟨1, stored⟩, bmp)
        else some (⟨0, none⟩, bmp)

end RteBitmap

end Bitmap
