import Mathlib.Algebra.Group.Nat.Defs
import Mathlib.Data.List.Basic
import DpdkStudy.Lib.Monitor

/-!
# Walking the guest's descriptors

The functions of `lib/vhost/virtio_net.c` that follow a chain of descriptors
the guest made available, and map what each of them describes into the vector
of buffers. A descriptor may point to an indirect table. Where the table is
not contiguous in the process it is copied first.

Nothing the guest shows can be trusted, and it can change between two reads
of one field. A `Guest` therefore has a value for each read of the code and an
answer for each call of `vhost_iova_to_vva`.
-/

namespace Vhost

/-- `BUF_VECTOR_MAX`. -/
def bufVectorMax : ℕ := 256

/-- `VRING_DESC_F_NEXT`. -/
def vringDescFNext : UInt16 := 1

/-- `VRING_DESC_F_INDIRECT`. -/
def vringDescFIndirect : UInt16 := 4

/-- `VRING_DESC_F_AVAIL`. -/
def vringDescFAvail : UInt16 := (1 : UInt16) <<< 7

/-- `VRING_DESC_F_USED`. -/
def vringDescFUsed : UInt16 := (1 : UInt16) <<< 15

/-- `sizeof(struct vring_desc)`, and of `struct vring_packed_desc`. -/
def sizeofDesc : ℕ := 16

/-- **The permission a mapping is asked for** (`VHOST_ACCESS_RO`, `WO` and
`RW`). -/
inductive Perm
  | ro
  | wo
  | rw
deriving DecidableEq, Repr

/-- **A virtqueue**, as the descriptor walk reads it. -/
structure Vring where
  size : ℕ
  last_avail_idx : ℕ
  avail_wrap_counter : Bool
  /-- `vhost_user_set_vring_num` accepts no larger ring. -/
  size_le : size ≤ 32768

/-- **An address of the process** and the size that is mapped there. -/
structure Vva where
  addr : UInt64
  size : ℕ
deriving DecidableEq, Repr

/-! ## Translation without an IOMMU

With one, the answer is what the IOTLB holds at the time, which the guest has a
say in. Without one it is what `rte_vhost_va_from_guest_pa` finds in the table
of memory regions. -/

/-- **A region of guest memory** (`struct rte_vhost_mem_region`). -/
structure MemRegion where
  guest_phys_addr : UInt64
  host_user_addr : UInt64
  size : UInt64
deriving DecidableEq, Repr

/-- **`rte_vhost_va_from_guest_pa`**: the address in the first region that has
the guest's one, and what there is of the length up to the end of the region. -/
def rteVhostVaFromGuestPa (regions : List MemRegion) (gpa : UInt64) (len : ℕ) : Option Vva :=
  match regions with
  | [] => none
  | r :: rs =>
    if r.guest_phys_addr ≤ gpa ∧ gpa < r.guest_phys_addr + r.size then
      some ⟨gpa - r.guest_phys_addr + r.host_user_addr,
        min len (r.guest_phys_addr + r.size - gpa).toNat⟩
    else rteVhostVaFromGuestPa rs gpa len

/-- A range of addresses lies in a region. -/
def InRegion (regions : List MemRegion) (addr : UInt64) (size : ℕ) : Prop :=
  ∃ r ∈ regions, ∃ off : UInt64, addr = off + r.host_user_addr ∧
    off.toNat + size ≤ r.size.toNat

/-- What is answered is mapped, and no more than was asked for. -/
theorem rteVhostVaFromGuestPa_sound {regions : List MemRegion} {gpa : UInt64} {len : ℕ} {v : Vva}
    (h : rteVhostVaFromGuestPa regions gpa len = some v) :
    v.size ≤ len ∧ InRegion regions v.addr v.size := by
  induction regions with
  | nil => simp [rteVhostVaFromGuestPa] at h
  | cons r rs ih =>
    rw [rteVhostVaFromGuestPa] at h
    split at h
    · rename_i hin
      obtain ⟨hge, hlt⟩ := hin
      cases h
      refine ⟨Nat.min_le_left _ _, r, List.mem_cons_self, gpa - r.guest_phys_addr, rfl, ?_⟩
      -- the end of the region does not wrap, as the address lies before it
      rw [UInt64.le_iff_toNat_le] at hge
      rw [UInt64.lt_iff_toNat_lt, UInt64.toNat_add] at hlt
      have hoff : (gpa - r.guest_phys_addr).toNat = gpa.toNat - r.guest_phys_addr.toNat :=
        UInt64.toNat_sub_of_le _ _ hge
      have hrest : (r.guest_phys_addr + r.size - gpa).toNat =
          (r.guest_phys_addr.toNat + r.size.toNat) % 2 ^ 64 - gpa.toNat := by
        rw [UInt64.toNat_sub_of_le _ _ (by
          rw [UInt64.le_iff_toNat_le, UInt64.toNat_add]; omega), UInt64.toNat_add]
      have hsize := r.size.toNat_lt
      simp only [hoff, hrest]
      omega
    · obtain ⟨hle, r', hr', hin⟩ := ih h
      exact ⟨hle, r', List.mem_cons_of_mem r hr', hin⟩

/-! ## The guest -/

/-- **A descriptor**, as one step of a walk reads its fields. -/
structure Desc where
  addr : UInt64
  len : UInt32
  flags : UInt16
  next : UInt16
deriving DecidableEq, Repr

/-- **What the guest shows of a descriptor** that may point to an indirect
table, at each read of its fields. The length is read to map the table
(`len`), to see whether all of it was mapped (`lenTest`), to copy it
(`lenCopy`) and, in a packed ring, to count its entries (`lenCount`). -/
structure Shown where
  id : UInt16
  flags : UInt16
  addr : UInt64
  len : UInt32
  lenTest : UInt32
  addrCopy : UInt64
  lenCopy : UInt32
  lenCount : UInt32
  direct : Desc
deriving DecidableEq, Repr

/-- **A call of `vhost_iova_to_vva`**: for the `k`-th table, for the `j`-th
piece of the copy of the `k`-th table, for the `j`-th piece of the `i`-th
buffer described after the `k`-th descriptor. -/
inductive Call
  | table (k : ℕ)
  | copy (k j : ℕ)
  | buffer (k i j : ℕ)
deriving DecidableEq, Repr

/-- **The guest**, with what it does to the memory map. `vhost_iova_to_vva`
answers with an address whose size is mapped, and never more than was asked
for. -/
structure Guest where
  /-- The entry of the available ring. -/
  avail : UInt16
  /-- The flags `desc_is_avail` reads. -/
  availFlags : UInt16
  /-- The `k`-th descriptor of the ring that is walked to. -/
  ring : ℕ → Shown
  /-- The `i`-th step of a walk in the ring or in the `k`-th table. -/
  entry : ℕ → ℕ → Desc
  /-- The entries of the copy of the `k`-th table. -/
  copied : ℕ → ℕ → Desc
  /-- Whether an allocation for the copy of the `k`-th table succeeds. -/
  rteMalloc : ℕ → Bool
  /-- What is mapped with a permission. -/
  mapped : Perm → UInt64 → ℕ → Prop
  vhostIovaToVva : Call → UInt64 → ℕ → Perm → Option Vva
  vhostIovaToVva_sound : ∀ {c iova len perm v}, vhostIovaToVva c iova len perm = some v →
    v.size ≤ len ∧ mapped perm v.addr v.size

/-- **A guest without an IOMMU**: the regions of its memory answer. -/
def Guest.ofRegions (g : Guest) (regions : List MemRegion) : Guest :=
  { g with
    mapped := fun _ => InRegion regions
    vhostIovaToVva := fun _ gpa len _ => rteVhostVaFromGuestPa regions gpa len
    vhostIovaToVva_sound := rteVhostVaFromGuestPa_sound }

/-- **An entry of the vector of buffers** (`struct buf_vector`). -/
structure BufVector where
  buf_iova : UInt64
  buf_addr : UInt64
  buf_len : ℕ
deriving DecidableEq, Repr

/-- **What the walk does to memory**, and a loop that is not done when its
bound is used up. -/
inductive Access
  /-- An entry of the available ring is read. -/
  | avail (i : ℕ)
  /-- A descriptor of the ring is read. -/
  | ring (i : ℕ)
  /-- An entry of a table with so many bytes mapped is read. -/
  | table (size i : ℕ)
  /-- A table is allocated for a copy. -/
  | alloc (size : ℕ)
  /-- So many bytes are copied from an address to an offset of the copy. -/
  | fill (dst : ℕ) (src : UInt64) (len : ℕ)
  /-- An entry of the copy is read. -/
  | copied (i : ℕ)
  /-- The copy is freed. -/
  | free
  /-- An entry of the vector of buffers is written. -/
  | store (vec_id : ℕ) (buf : BufVector)
  /-- `*vec_idx` is assigned. -/
  | vecIdx (vec_id : ℕ)
  | hang
deriving DecidableEq, Repr

/-- **Where the entries of a walk are.** -/
inductive Table
  | ring
  | mapped (size : ℕ)
  | copied
deriving DecidableEq, Repr

/-- The access to an entry. -/
def Table.access : Table → ℕ → Access
  | ring, idx => .ring idx
  | mapped size, idx => .table size idx
  | copied, idx => .copied idx

/-- The entry that is read at a step of a walk. What was copied stays as it
is, what is the guest's can differ each time. -/
def Table.read (g : Guest) (k step : ℕ) (t : Table) (idx : ℕ) : Act Access Desc := do
  Act.emit (t.access idx)
  pure (if t = copied then g.copied k idx else g.entry k step)

/-- `free_ind_table`. -/
def freeIndTable (t : Table) : Act Access Unit :=
  if t = .copied then Act.emit .free else pure ()

/-! ## Mapping a buffer -/

/-- **The loop of `map_one_desc`**, from its `j`-th piece on. -/
def mapPieces (g : Guest) (k i : ℕ) (perm : Perm) : ℕ → ℕ → ℕ → UInt64 → ℕ → Act Access ℕ
  | 0, _, _, _, _ => do
    Act.emit .hang
    Act.fail
  | fuel + 1, j, vec_id, desc_iova, desc_len =>
    if desc_len = 0 then
      pure vec_id
    else if bufVectorMax ≤ vec_id then
      Act.fail
    else do
      let v ← Act.ofOption (g.vhostIovaToVva (.buffer k i j) desc_iova desc_len perm)
      Act.emit (.store vec_id ⟨desc_iova, v.addr, v.size % 2 ^ 32⟩)
      mapPieces g k i perm fuel (j + 1) (vec_id + 1) (desc_iova + UInt64.ofNat v.size)
        (desc_len - v.size)

/-- **`map_one_desc`**: the entries of the vector of buffers for one
descriptor. It returns the index after them. -/
def mapOneDesc (g : Guest) (k i vec_id : ℕ) (desc_iova : UInt64) (desc_len : ℕ) (perm : Perm) :
    Act Access ℕ :=
  mapPieces g k i perm (bufVectorMax + 1) 0 vec_id desc_iova desc_len

/-! ## Copying a table -/

/-- **The loop of `vhost_alloc_copy_ind_table`**, from its `j`-th piece on. -/
def copyPieces (g : Guest) (k : ℕ) : ℕ → ℕ → UInt64 → ℕ → ℕ → Act Access Unit
  | 0, _, _, _, _ => do
    Act.emit .hang
    Act.fail
  | fuel + 1, j, desc_addr, dst, remain =>
    if remain = 0 then
      pure ()
    else
      match g.vhostIovaToVva (.copy k j) desc_addr remain .ro with
      | none => do
        Act.emit .free
        Act.fail
      | some v =>
        if v.size = 0 then do
          Act.emit .free
          Act.fail
        else do
          Act.emit (.fill dst v.addr v.size)
          copyPieces g k fuel (j + 1) (desc_addr + UInt64.ofNat v.size) (dst + v.size)
            (remain - v.size)

/-- **`vhost_alloc_copy_ind_table`**. An allocation of no byte fails. -/
def vhostAllocCopyIndTable (g : Guest) (k : ℕ) (desc_addr : UInt64) (desc_len : ℕ) :
    Act Access Unit :=
  if desc_len = 0 ∨ g.rteMalloc k = false then
    Act.fail
  else do
    Act.emit (.alloc desc_len)
    copyPieces g k (desc_len + 1) 0 desc_addr 0 desc_len

/-! ## The split ring -/

/-- **The loop of `fill_vec_buf_split`**. A failure inside frees the copy. -/
def walkSplit (g : Guest) (perm : Perm) (descs : Table) (nr_descs : ℕ) :
    ℕ → ℕ → ℕ → ℕ → UInt32 → Act Access (ℕ × UInt32)
  | 0, _, _, _, _ => do
    Act.emit .hang
    Act.fail
  | fuel + 1, cnt, idx, vec_id, len =>
    if nr_descs ≤ idx ∨ nr_descs ≤ cnt then do
      freeIndTable descs
      Act.fail
    else do
      let d ← descs.read g 0 cnt idx
      let vec_id ← (mapOneDesc g 0 cnt vec_id d.addr d.len.toNat perm).onFail (freeIndTable descs)
      if d.flags &&& vringDescFNext = 0 then
        pure (vec_id, len + d.len)
      else
        walkSplit g perm descs nr_descs fuel (cnt + 1) d.next.toNat vec_id (len + d.len)

/-- **The indirect table of a descriptor of the split ring**: how many entries
it is taken to have, and where they are. -/
def splitTable (vq : Vring) (g : Guest) : Act Access (Table × ℕ) :=
  let nr_descs := (g.ring 0).len.toNat / sizeofDesc
  if vq.size < nr_descs then
    Act.fail
  else do
    let v ← Act.ofOption
      (g.vhostIovaToVva (.table 0) (g.ring 0).addr (g.ring 0).len.toNat .ro)
    if v.size < (g.ring 0).lenTest.toNat then do
      vhostAllocCopyIndTable g 0 (g.ring 0).addrCopy (g.ring 0).lenCopy.toNat
      pure (.copied, nr_descs)
    else
      pure (.mapped v.size, nr_descs)

/-- **`fill_vec_buf_split`**. It returns the head and the length of the
chain. -/
def fillVecBufSplit (vq : Vring) (g : Guest) (avail_idx : UInt32) (vec_idx : ℕ) (perm : Perm) :
    Act Access (ℕ × UInt32) := do
  Act.emit (.avail (avail_idx &&& (UInt32.ofNat vq.size - 1)).toNat)
  let idx := g.avail.toNat
  if vq.size ≤ idx then
    Act.fail
  else do
    Act.emit (.ring idx)
    let (descs, nr_descs) ←
      if (g.ring 0).flags &&& vringDescFIndirect = 0 then pure (.ring, vq.size)
      else splitTable vq g
    let start := if (g.ring 0).flags &&& vringDescFIndirect = 0 then idx else 0
    let (vec_id, len) ← walkSplit g perm descs nr_descs (nr_descs + 1) 0 start vec_idx 0
    Act.emit (.vecIdx vec_id)
    freeIndTable descs
    pure (idx, len)

/-! ## The packed ring -/

/-- **The loop of `fill_vec_buf_packed_indirect`**, with the entries still to
read. -/
def walkIndirect (g : Guest) (k : ℕ) (perm : Perm) (descs : Table) :
    ℕ → ℕ → ℕ → UInt32 → Act Access (ℕ × UInt32)
  | 0, _, vec_id, len => pure (vec_id, len)
  | n + 1, i, vec_id, len =>
    if bufVectorMax ≤ vec_id then do
      freeIndTable descs
      Act.fail
    else do
      let d ← descs.read g k i i
      -- a failure here returns with the copy still allocated
      let vec_id ← mapOneDesc g k i vec_id d.addr d.len.toNat perm
      walkIndirect g k perm descs n (i + 1) vec_id (len + d.len)

/-- **The body of `fill_vec_buf_packed_indirect`** up to the assignment of
`*vec_idx`, for the `k`-th descriptor, which is the one at `desc`. It returns
where the entries are as well. -/
def mapIndirect (vq : Vring) (g : Guest) (k desc vec_idx : ℕ) (len : UInt32) (perm : Perm) :
    Act Access (Table × ℕ × UInt32) := do
  Act.emit (.ring desc)
  let v ← Act.ofOption (g.vhostIovaToVva (.table k) (g.ring k).addr (g.ring k).len.toNat .ro)
  let descs ←
    if v.size < (g.ring k).lenTest.toNat then do
      vhostAllocCopyIndTable g k (g.ring k).addrCopy (g.ring k).lenCopy.toNat
      pure .copied
    else
      pure (.mapped v.size)
  let nr_descs := (g.ring k).lenCount.toNat / sizeofDesc
  if vq.size ≤ nr_descs then do
    freeIndTable descs
    Act.fail
  else do
    let r ← walkIndirect g k perm descs nr_descs 0 vec_idx len
    pure (descs, r)

/-- **`fill_vec_buf_packed_indirect`**. It returns the length. -/
def fillVecBufPackedIndirect (vq : Vring) (g : Guest) (k desc vec_idx : ℕ) (len : UInt32)
    (perm : Perm) : Act Access UInt32 := do
  let (descs, vec_id, len) ← mapIndirect vq g k desc vec_idx len perm
  Act.emit (.vecIdx vec_id)
  freeIndTable descs
  pure len

/-- **One descriptor of the packed ring**: the buffers of its indirect table,
or the one it describes itself. The index `fill_vec_buf_packed_indirect`
assigns here is a local one. -/
def mapPacked (vq : Vring) (g : Guest) (k avail_idx vec_id : ℕ) (len : UInt32) (perm : Perm) :
    Act Access (ℕ × UInt32) :=
  if (g.ring k).flags &&& vringDescFIndirect = 0 then do
    let vec_id ← mapOneDesc g k 0 vec_id (g.ring k).direct.addr (g.ring k).direct.len.toNat perm
    pure (vec_id, len + (g.ring k).direct.len)
  else do
    let (descs, vec_id, len) ← mapIndirect vq g k avail_idx vec_id len perm
    freeIndTable descs
    pure (vec_id, len)

/-- **The loop of `fill_vec_buf_packed`**, with `desc_count` descriptors
walked. It returns the index after the vector, the count, the id of the last
descriptor and the length. -/
def walkPacked (vq : Vring) (g : Guest) (perm : Perm) :
    ℕ → ℕ → ℕ → ℕ → UInt32 → Act Access (ℕ × ℕ × UInt16 × UInt32)
  | 0, _, _, _, _ => do
    Act.emit .hang
    Act.fail
  | fuel + 1, desc_count, avail_idx, vec_id, len =>
    if bufVectorMax ≤ vec_id ∨ vq.size ≤ desc_count then
      Act.fail
    else do
      Act.emit (.ring avail_idx)
      let (vec_id, len) ← mapPacked vq g desc_count avail_idx vec_id len perm
      if (g.ring desc_count).direct.flags &&& vringDescFNext = 0 then
        pure (vec_id, desc_count + 1, (g.ring desc_count).id, len)
      else
        let next := if vq.size ≤ avail_idx + 1 then avail_idx + 1 - vq.size else avail_idx + 1
        walkPacked vq g perm fuel (desc_count + 1) next vec_id len

/-- `desc_is_avail`, of the flags it reads. -/
def descIsAvail (flags : UInt16) (wrap_counter : Bool) : Bool :=
  wrap_counter == (flags &&& vringDescFAvail != 0) &&
    wrap_counter != (flags &&& vringDescFUsed != 0)

/-- **`fill_vec_buf_packed`**. It returns the count of descriptors, the id of
the buffer and the length. -/
def fillVecBufPacked (vq : Vring) (g : Guest) (avail_idx vec_idx : ℕ) (perm : Perm) :
    Act Access (ℕ × UInt16 × UInt32) := do
  let wrap_counter := if avail_idx < vq.last_avail_idx then !vq.avail_wrap_counter
    else vq.avail_wrap_counter
  Act.emit (.ring avail_idx)
  if descIsAvail g.availFlags wrap_counter then do
    let (vec_id, desc_count, buf_id, len) ←
      walkPacked vq g perm (vq.size + 1) 0 avail_idx vec_idx 0
    Act.emit (.vecIdx vec_id)
    pure (desc_count, buf_id, len)
  else
    Act.fail

end Vhost
