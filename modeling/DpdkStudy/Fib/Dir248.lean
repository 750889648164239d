import DpdkStudy.Lib.Loop
import DpdkStudy.Rib.Rib

/-!
# The IPv4 FIB

The forwarding information base of `lib/fib/rte_fib.c` over its DIR24_8 data
plane, `lib/fib/dir24_8.c`, without RCU. The routes are in a RIB. The data
plane has an entry for the first 24 bits of an address, which holds a next
hop or, if its last bit is set, the index of a group of 256 entries, one for
each value of the last eight bits. The entries of a group have their last bit
set too. An addition or a deletion of a route installs a next hop on the
addresses of the route that no more specific route has, range by range.

A table is a function of the index of its entries, and an entry is a number
below the power of two that its size gives. The bitmap of the groups in use
is a function too.
-/

namespace Fib

open Rib

/-- `ENOSPC`. -/
def enospc : Int := 28

/-- The size of an entry (`enum rte_fib_dir24_8_nh_sz`). -/
inductive NhSz
  | b1
  | b2
  | b4
  | b8
deriving DecidableEq, Repr

/-- The value of the enumeration: an entry has `1 << nh_sz` bytes. -/
def NhSz.val : NhSz → ℕ
  | b1 => 0
  | b2 => 1
  | b4 => 2
  | b8 => 3

/-- `bits_in_nh`. -/
def bitsInNh (nhSz : NhSz) : ℕ := 8 * 2 ^ nhSz.val

/-- `get_max_nh`. -/
def getMaxNh (nhSz : NhSz) : ℕ := 2 ^ (bitsInNh nhSz - 1) - 1

/-- **The data plane** (`struct dir24_8_tbl`). -/
structure Dir24_8Tbl where
  numberTbl8s : UInt32
  rsvdTbl8s : UInt32
  curTbl8s : UInt32
  nhSz : NhSz
  defNh : ℕ
  tbl8 : ℕ → ℕ
  /-- The groups in use (`tbl8_idxes`, a bit for each). -/
  tbl8Idxes : ℕ → Bool
  tbl24 : ℕ → ℕ

/-- `DIR24_8_TBL24_MASK`. -/
def tbl24Mask : UInt32 := 0xffffff00

/-- `ROUNDUP(x, 24)`. -/
def roundup24 (x : UInt32) : UInt32 := (x + 255) &&& 0xffffff00

/-- The lookup of an address (`LOOKUP_FUNC`). -/
def dir24_8Lookup (dp : Dir24_8Tbl) (ip : UInt32) : ℕ :=
  let tmp := dp.tbl24 (ip.toNat / 256)
  if tmp % 2 = 1 then dp.tbl8 (ip.toNat % 256 + tmp / 2 * 256) / 2 else tmp / 2

/-- **`dir24_8_create`**, with the configuration it is given, where there is
memory: `num_tbl8` is rounded up to whole words of the bitmap. -/
def dir24_8Create (nhSz : NhSz) (numTbl8 : UInt32) (defaultNh : ℕ) : Except Int Dir24_8Tbl :=
  if numTbl8.toNat > getMaxNh nhSz ∨ numTbl8 = 0 ∨ defaultNh > getMaxNh nhSz then .error einval
  else
    .ok {
      numberTbl8s := (numTbl8 + 63) &&& 0xffffffc0
      rsvdTbl8s := 0
      curTbl8s := 0
      nhSz := nhSz
      defNh := defaultNh
      tbl8 := fun _ => 0
      tbl8Idxes := fun _ => false
      tbl24 := fun _ => defaultNh * 2 }

/-! ## Groups -/

/-- `write_to_fib`: `n` entries are written, from the index `lo` on. The count
is an `int`: there is nothing to write if it is negative. -/
def writeToFib (table : ℕ → ℕ) (lo val : ℕ) (size : NhSz) (n : UInt32) : ℕ → ℕ :=
  Loop.mapRange lo (if n.toNat < 2 ^ 31 then n.toNat else 0)
    (fun _ => val % 2 ^ bitsInNh size) table

/-- The first group that is not in use, of a number of groups. -/
def firstFree (idxes : ℕ → Bool) (n : ℕ) : Option ℕ := (List.range n).find? (fun i => !idxes i)

/-- `tbl8_get_idx`: a group that is not in use, of those that whole words of
the bitmap stand for, and is now. The index is an `int`: from `2 ^ 31` on it
is negative, and taken for an error. -/
def tbl8GetIdx (dp : Dir24_8Tbl) : Option ℕ × Dir24_8Tbl :=
  match firstFree dp.tbl8Idxes (dp.numberTbl8s.toNat / 64 * 64) with
  | none => (none, dp)
  | some idx =>
    (if idx < 2 ^ 31 then some idx else none,
      { dp with tbl8Idxes := Function.update dp.tbl8Idxes idx true })

/-- `tbl8_free_idx`. -/
def tbl8FreeIdx (dp : Dir24_8Tbl) (idx : ℕ) : Dir24_8Tbl :=
  { dp with tbl8Idxes := Function.update dp.tbl8Idxes idx false }

/-- `tbl8_alloc`: a group filled with the entry it is to replace. -/
def tbl8Alloc (dp : Dir24_8Tbl) (nh : ℕ) : Option ℕ × Dir24_8Tbl :=
  let r := tbl8GetIdx dp
  match r.1 with
  | none => (none, r.2)
  | some idx =>
    (some idx,
      { r.2 with
        tbl8 := writeToFib r.2.tbl8 (idx * 256) (nh ||| 1) r.2.nhSz 256
        curTbl8s := r.2.curTbl8s + 1 })

/-- `tbl8_cleanup_and_free`. -/
def tbl8CleanupAndFree (dp : Dir24_8Tbl) (idx : ℕ) : Dir24_8Tbl :=
  tbl8FreeIdx
    { dp with
      tbl8 := Loop.mapRange (idx * 256) 256 (fun _ => 0) dp.tbl8
      curTbl8s := dp.curTbl8s - 1 }
    idx

/-- **`tbl8_recycle`**: a group whose entries are all the same is replaced by
one entry. -/
def tbl8Recycle (dp : Dir24_8Tbl) (ip : UInt32) (idx : ℕ) : Dir24_8Tbl :=
  let nh := dp.tbl8 (idx * 256)
  if (List.range 256).all (fun i => dp.tbl8 (idx * 256 + i) = nh) then
    tbl8CleanupAndFree
      { dp with tbl24 := Function.update dp.tbl24 (ip.toNat / 256) (nh / 2 * 2) } idx
  else dp

/-- The group of the entry for an address, which gets one if it has none. With
`two` there has to be one more group that is not in use. -/
def groupOf (dp : Dir24_8Tbl) (ip : UInt32) (two : Bool) : Option ℕ × Dir24_8Tbl :=
  let tmp := dp.tbl24 (ip.toNat / 256)
  if tmp % 2 = 1 then (some (tmp / 2), dp)
  else
    let r := tbl8Alloc dp tmp
    let s := if two then tbl8GetIdx r.2 else (some 0, r.2)
    match r.1, s.1 with
    | none, _ => (none, s.2)
    | some idx, none => (none, tbl8FreeIdx s.2 idx)
    | some idx, some other =>
      let dp := if two then tbl8FreeIdx s.2 other else s.2
      (some idx,
        { dp with
          tbl24 := writeToFib dp.tbl24 (ip.toNat / 256) (idx * 2 ||| 1) dp.nhSz 1 })

/-- A next hop on `n` addresses of the 256 that have the first 24 bits of an
address, from this address on, as `install_to_fib` does it in three places.
The place in `tbl8` is computed in 32 bits, as a number of bytes. -/
def installTbl8 (dp : Dir24_8Tbl) (ip n : UInt32) (nextHop : ℕ) (two : Bool) :
    Int × Dir24_8Tbl :=
  let r := groupOf dp ip two
  match r.1 with
  | none => (-enospc, r.2)
  | some idx =>
    let bytes := (idx * 256 + ip.toNat % 256) * 2 ^ r.2.nhSz.val % 2 ^ 32
    let dp := { r.2 with
      tbl8 := writeToFib r.2.tbl8 (bytes / 2 ^ r.2.nhSz.val) (nextHop * 2 ||| 1) r.2.nhSz n }
    (0, tbl8Recycle dp ip idx)

/-- **`install_to_fib`**: a next hop on the addresses from `ledge` up to
`redge`. -/
def installToFib (dp : Dir24_8Tbl) (ledge redge : UInt32) (nextHop : ℕ) : Int × Dir24_8Tbl :=
  let len : UInt32 :=
    if ledge = 0 ∧ redge = 0 then 0x1000000 else ((redge &&& tbl24Mask) - roundup24 ledge) >>> 8
  if ledge >>> 8 ≠ redge >>> 8 ∨ len = 0x1000000 then
    let r :=
      if roundup24 ledge - ledge ≠ 0 then
        installTbl8 dp ledge (roundup24 ledge - ledge) nextHop true
      else (0, dp)
    if r.1 ≠ 0 then r
    else
      let dp := { r.2 with
        tbl24 := writeToFib r.2.tbl24 ((roundup24 ledge).toNat / 256) (nextHop * 2) r.2.nhSz len }
      if redge &&& 255 ≠ 0 then installTbl8 dp (redge &&& tbl24Mask) (redge &&& 255) nextHop false
      else (0, dp)
  else if redge - ledge ≠ 0 then installTbl8 dp ledge (redge - ledge) nextHop false
  else (0, dp)

/-! ## Routes -/

/-- The number of addresses of a depth, in 32 bits. -/
def prefixSize (depth : ℕ) : UInt32 := ((1 : UInt64) <<< UInt64.ofNat (32 - depth)).toUInt32

/-- The loop of `modify_fib`, from the route `tmp` of the walk on. It comes
past a node of the tree once at most, and is run once more than there are
nodes. -/
def modifyLoop (rib : RteRib) (ip : UInt32) (depth nextHop : ℕ) :
    ℕ → Dir24_8Tbl → Option Cursor → UInt32 → Int × Dir24_8Tbl
  | 0, dp, _, _ => (0, dp)
  | fuel + 1, dp, tmp, ledge =>
    match rteRibGetNxt rib ip depth tmp true with
    | some c =>
      if rteRibGetDepth c = depth then modifyLoop rib ip depth nextHop fuel dp (some c) ledge
      else
        let redge := rteRibGetIp c &&& rteRibDepthToMask (rteRibGetDepth c)
        let next := redge + prefixSize (rteRibGetDepth c)
        if ledge = redge then modifyLoop rib ip depth nextHop fuel dp (some c) next
        else
          let r := installToFib dp ledge redge nextHop
          if r.1 ≠ 0 then r
          else if next = 0 then (0, r.2)
          else modifyLoop rib ip depth nextHop fuel r.2 (some c) next
    | none =>
      let redge := ip + prefixSize depth
      if ledge = redge ∧ ledge ≠ 0 then (0, dp) else installToFib dp ledge redge nextHop

/-- The number of nodes of a tree. -/
def sizeOfTree : RteRibNode → ℕ
  | .null => 0
  | .node _ _ _ _ left right => sizeOfTree left + sizeOfTree right + 1

/-- **`modify_fib`**. -/
def modifyFib (dp : Dir24_8Tbl) (rib : RteRib) (ip : UInt32) (depth nextHop : ℕ) :
    Int × Dir24_8Tbl :=
  modifyLoop rib ip depth nextHop (sizeOfTree rib.tree + 1) dp none ip

/-- **The FIB** (`struct rte_fib`): its routes, and its data plane. -/
structure RteFib where
  rib : RteRib
  dp : Dir24_8Tbl

/-- `rte_fib_create`, for a data plane that was created. -/
def rteFibCreate (maxRoutes : ℕ) (dp : Dir24_8Tbl) : RteFib := ⟨rteRibCreate (maxRoutes * 2), dp⟩

/-- The next hop of an existing route is changed. Whether the data plane could
follow is not told. -/
def changeNextHop (fib : RteFib) (node : Cursor) (ip : UInt32) (depth nextHop : ℕ) :
    Int × RteFib :=
  if rteRibGetNh node = nextHop then (0, fib)
  else
    let r := modifyFib fib.dp fib.rib ip depth nextHop
    if r.1 = 0 then (0, ⟨fib.rib.at (rteRibSetNh node nextHop), r.2⟩)
    else (0, ⟨fib.rib, r.2⟩)

/-- The first route of more than 24 bits among those that share the first 24
bits of an address. -/
def deepRoute (rib : RteRib) (ip : UInt32) : Option Cursor := rteRibGetNxt rib ip 24 none true

/-- A new route is added. -/
def addRoute (fib : RteFib) (ip : UInt32) (depth nextHop : ℕ) : Int × RteFib :=
  let tmp := deepRoute fib.rib ip
  if depth > 24 ∧ tmp.isNone ∧ fib.dp.rsvdTbl8s ≥ fib.dp.numberTbl8s then (-enospc, fib)
  else
    match rteRibInsert fib.rib ip depth with
    | (.error e, rib) => (-e, { fib with rib := rib })
    | (.ok node, rib) =>
      let node := rteRibSetNh node nextHop
      let rib := rib.at node
      if (rteRibLookupParent node.node node.parents).map rteRibGetNh = some nextHop then
        (0, { fib with rib := rib })
      else
        let r := modifyFib fib.dp rib ip depth nextHop
        if r.1 ≠ 0 then (r.1, ⟨rteRibRemove rib ip depth, r.2⟩)
        else if depth > 24 ∧ tmp.isNone then
          (0, ⟨rib, { r.2 with rsvdTbl8s := r.2.rsvdTbl8s + 1 }⟩)
        else (0, ⟨rib, r.2⟩)

/-- A route is deleted: its addresses get the next hop of its parent. -/
def deleteRoute (fib : RteFib) (node : Cursor) (ip : UInt32) (depth : ℕ) : Int × RteFib :=
  let r :=
    match rteRibLookupParent node.node node.parents with
    | some parent =>
      if rteRibGetNh parent ≠ rteRibGetNh node then
        modifyFib fib.dp fib.rib ip depth (rteRibGetNh parent)
      else (0, fib.dp)
    | none => modifyFib fib.dp fib.rib ip depth fib.dp.defNh
  if r.1 = 0 then
    let rib := rteRibRemove fib.rib ip depth
    if depth > 24 ∧ (deepRoute rib ip).isNone then
      (0, ⟨rib, { r.2 with rsvdTbl8s := r.2.rsvdTbl8s - 1 }⟩)
    else (0, ⟨rib, r.2⟩)
  else (r.1, { fib with dp := r.2 })

/-- `RTE_FIB_ADD` and `RTE_FIB_DEL`. -/
inductive FibOp
  | add
  | del
deriving DecidableEq, Repr

/-- **`dir24_8_modify`**. -/
def dir24_8Modify (fib : RteFib) (ip : UInt32) (depth nextHop : ℕ) (op : FibOp) : Int × RteFib :=
  if depth > 32 then (-einval, fib)
  else if nextHop > getMaxNh fib.dp.nhSz then (-einval, fib)
  else
    let ip := ip &&& rteRibDepthToMask depth
    match op, rteRibLookupExact fib.rib ip depth with
    | .add, some node => changeNextHop fib node ip depth nextHop
    | .add, none => addRoute fib ip depth nextHop
    | .del, none => (-enoent, fib)
    | .del, some node => deleteRoute fib node ip depth

/-- A call of `rte_fib_add` or `rte_fib_delete`. -/
inductive FibCall
  | add (ip : UInt32) (depth nextHop : ℕ)
  | delete (ip : UInt32) (depth : ℕ)
deriving DecidableEq, Repr

/-- **`rte_fib_add`** and **`rte_fib_delete`**. -/
def rteFibCall (fib : RteFib) : FibCall → Int × RteFib
  | .add ip depth nextHop => dir24_8Modify fib ip depth nextHop .add
  | .delete ip depth => dir24_8Modify fib ip depth 0 .del

/-! ## The dummy data plane -/

/-- **`dummy_modify`**, for the two calls. -/
def dummyCall (rib : RteRib) : FibCall → Int × RteRib
  | .add ip depth nextHop =>
    if depth > 32 then (-einval, rib)
    else
      match rteRibLookupExact rib ip depth with
      | some node => (0, rib.at (rteRibSetNh node nextHop))
      | none =>
        match rteRibInsert rib ip depth with
        | (.error e, rib) => (-e, rib)
        | (.ok node, rib) => (0, rib.at (rteRibSetNh node nextHop))
  | .delete ip depth =>
    if depth > 32 then (-einval, rib)
    else
      match rteRibLookupExact rib ip depth with
      | none => (-enoent, rib)
      | some _ => (0, rteRibRemove rib ip depth)

/-- **`dummy_lookup`**. -/
def dummyLookup (rib : RteRib) (defNh : ℕ) (ip : UInt32) : ℕ :=
  match rteRibLookup rib ip with
  | some node => rteRibGetNh node
  | none => defNh

end Fib
