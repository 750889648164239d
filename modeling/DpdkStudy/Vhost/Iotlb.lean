import Mathlib.Algebra.Group.Int.Defs
import Mathlib.Logic.Function.Basic
import DpdkStudy.Lib.Runs

/-!
# The IOTLB of a vhost device

`lib/vhost/iotlb.c`, and `__vhost_iova_to_vva` of `lib/vhost/vhost.c`. The front-end
tells a device which ranges of I/O addresses are mapped to which host addresses, and with
which permissions. The device keeps these entries in a list sorted by I/O address, and a list
of the misses that it has asked the front-end about. The nodes of both lists come from one
pool of `IOTLB_CACHE_SIZE` nodes; if the pool is empty, misses are forgotten or an entry is
evicted at random.

A node is its index in the pool. A number that `rte_rand` returns is an argument of the call
it is drawn in, a division by zero has no result. Calls of other threads while a translation
waits for its miss are a list of calls (`Miss`). Locks, statistics, and what is told to the
core dump and to the owner of a removed entry are left out.
-/

namespace Vhost.Iotlb

open Function

/-- **An entry** (`struct vhost_iotlb_entry`). -/
structure VhostIotlbEntry where
  iova : BitVec 64
  uaddr : BitVec 64
  uoffset : BitVec 64
  size : BitVec 64
  perm : BitVec 8
deriving DecidableEq, Repr

/-- `IOTLB_CACHE_SIZE`. -/
def iotlbCacheSize : ℕ := 2048

/-- **The IOTLB of a device**, from `struct virtio_net`. -/
structure VirtioNet where
  iotlb_pool : ℕ → VhostIotlbEntry
  iotlb_free_list : List ℕ
  iotlb_list : List ℕ
  iotlb_pending_list : List ℕ
  iotlb_cache_nr : ℤ

namespace VirtioNet

variable (dev : VirtioNet)

/-- `vhost_user_iotlb_pool_get`, `none` for a null pointer. -/
def poolGet : Option (ℕ × VirtioNet) :=
  match dev.iotlb_free_list with
  | [] => none
  | node :: rest => some (node, { dev with iotlb_free_list := rest })

/-- `vhost_user_iotlb_pool_put`. -/
def poolPut (node : ℕ) : VirtioNet :=
  { dev with iotlb_free_list := node :: dev.iotlb_free_list }

/-- A node goes from the pending list back to the pool. -/
def dropPending (node : ℕ) : VirtioNet :=
  { dev with iotlb_pending_list := dev.iotlb_pending_list.erase node }.poolPut node

/-- A node goes from the cache back to the pool. -/
def unlink (node : ℕ) : VirtioNet :=
  { dev with iotlb_list := dev.iotlb_list.erase node }.poolPut node

/-- A node goes from the cache back to the pool, and is counted. -/
def dropCached (node : ℕ) : VirtioNet :=
  let dev := dev.unlink node
  { dev with iotlb_cache_nr := dev.iotlb_cache_nr - 1 }

end VirtioNet

/-- **`RTE_TAILQ_FOREACH_SAFE`** over a list of nodes: nodes that are hit are taken, up to the
first one that stops the loop. -/
def foreachSafe (stop hit : ℕ → Bool) (take : VirtioNet → ℕ → VirtioNet) :
    List ℕ → VirtioNet → VirtioNet
  | [], dev => dev
  | node :: rest, dev =>
    if stop node then dev
    else if hit node then foreachSafe stop hit take rest (take dev node)
    else foreachSafe stop hit take rest dev

namespace VirtioNet

variable (dev : VirtioNet)

/-- `vhost_user_iotlb_pending_remove_all`. -/
def pendingRemoveAll : VirtioNet :=
  foreachSafe (fun _ => false) (fun _ => true) dropPending dev.iotlb_pending_list dev

/-- `vhost_user_iotlb_pending_miss`. -/
def pendingMiss (iova : BitVec 64) (perm : BitVec 8) : Bool :=
  dev.iotlb_pending_list.any fun node =>
    (dev.iotlb_pool node).iova = iova && (dev.iotlb_pool node).perm = perm

/-- **`vhost_user_iotlb_pending_remove`**. -/
def pendingRemove (iova size : BitVec 64) (perm : BitVec 8) : VirtioNet :=
  foreachSafe (fun _ => false)
    (fun node =>
      let node := dev.iotlb_pool node
      !(node.iova < iova) && !(node.iova ≥ iova + size) && !(node.perm &&& perm ≠ node.perm))
    dropPending dev.iotlb_pending_list dev

/-- `vhost_user_iotlb_cache_remove_all`. -/
def cacheRemoveAll : VirtioNet :=
  { foreachSafe (fun _ => false) (fun _ => true) unlink dev.iotlb_list dev with
    iotlb_cache_nr := 0 }

/-- The loop of `vhost_user_iotlb_cache_random_evict`. -/
def evictLoop : List ℕ → ℕ → VirtioNet
  | [], _ => dev
  | node :: _, 0 => dev.dropCached node
  | _ :: rest, entry_idx + 1 => evictLoop rest entry_idx

/-- **`vhost_user_iotlb_cache_random_evict`**. -/
def cacheRandomEvict (rand : BitVec 64) : Option VirtioNet :=
  if dev.iotlb_cache_nr = 0 then none
  else
    let entry_idx := rand.toNat % (dev.iotlb_cache_nr % 2 ^ 64).toNat
    some (dev.evictLoop dev.iotlb_list entry_idx)

/-- A node is linked to the pending list. -/
def linkPending (node : ℕ) (iova : BitVec 64) (perm : BitVec 8) : VirtioNet :=
  { dev with
    iotlb_pool := update dev.iotlb_pool node
      { dev.iotlb_pool node with iova := iova, perm := perm }
    iotlb_pending_list := dev.iotlb_pending_list ++ [node] }

/-- "clear entries for pending insertion". -/
def clearForPending (rand : BitVec 64) : Option VirtioNet :=
  if dev.iotlb_pending_list ≠ [] then some dev.pendingRemoveAll else dev.cacheRandomEvict rand

/-- "clear entries for cache insertion". -/
def clearForCache (rand : BitVec 64) : Option VirtioNet :=
  if dev.iotlb_list ≠ [] then dev.cacheRandomEvict rand else some dev.pendingRemoveAll

/-- **`vhost_user_iotlb_pending_insert`**. -/
def pendingInsert (iova : BitVec 64) (perm : BitVec 8) (rand : BitVec 64) : Option VirtioNet :=
  match dev.poolGet with
  | some (node, dev) => some (dev.linkPending node iova perm)
  | none => do
    let dev ← dev.clearForPending rand
    match dev.poolGet with
    | some (node, dev) => some (dev.linkPending node iova perm)
    | none => some dev

end VirtioNet

/-- The loop of `vhost_user_iotlb_cache_insert`: the list with the new node, `none` if there
is an entry for its address already. -/
def insertLoop (pool : ℕ → VhostIotlbEntry) (new_node : ℕ) : List ℕ → Option (List ℕ)
  | [] => some [new_node]
  | node :: rest =>
    if (pool node).iova = (pool new_node).iova then none
    else if (pool node).iova > (pool new_node).iova then some (new_node :: node :: rest)
    else (insertLoop pool new_node rest).map (node :: ·)

namespace VirtioNet

variable (dev : VirtioNet)

/-- A node is linked to the cache, or put back if there is an entry for its address. -/
def linkSorted (new_node : ℕ) : VirtioNet :=
  match insertLoop dev.iotlb_pool new_node dev.iotlb_list with
  | none => dev.poolPut new_node
  | some list => { dev with iotlb_list := list, iotlb_cache_nr := dev.iotlb_cache_nr + 1 }

/-- A node is filled and linked to the cache. Misses that it answers are forgotten. -/
def linkCached (new_node : ℕ) (entry : VhostIotlbEntry) : VirtioNet :=
  let dev := { dev with iotlb_pool := update dev.iotlb_pool new_node entry }.linkSorted new_node
  dev.pendingRemove entry.iova entry.size entry.perm

/-- **`vhost_user_iotlb_cache_insert`**. -/
def cacheInsert (entry : VhostIotlbEntry) (rand : BitVec 64) : Option VirtioNet :=
  match dev.poolGet with
  | some (new_node, dev) => some (dev.linkCached new_node entry)
  | none => do
    let dev ← dev.clearForCache rand
    match dev.poolGet with
    | some (new_node, dev) => some (dev.linkCached new_node entry)
    | none => some dev

/-- **`vhost_user_iotlb_cache_remove`**. -/
def cacheRemove (iova size : BitVec 64) : VirtioNet :=
  if size = 0 then dev
  else foreachSafe
    (fun node => iova + size < (dev.iotlb_pool node).iova)
    (fun node => iova < (dev.iotlb_pool node).iova + (dev.iotlb_pool node).size)
    dropCached dev.iotlb_list dev

/-- `vhost_user_iotlb_flush_all`. -/
def flushAll : VirtioNet := dev.cacheRemoveAll.pendingRemoveAll

/-- The loop of `vhost_user_iotlb_cache_find`, with its variables: `vva` and `mapped` when it
ends. -/
def findLoop (size : BitVec 64) (perm : BitVec 8) :
    List ℕ → (iova vva mapped : BitVec 64) → BitVec 64 × BitVec 64
  | [], _, vva, mapped => (vva, mapped)
  | node :: rest, iova, vva, mapped =>
    let node := dev.iotlb_pool node
    if iova < node.iova then (vva, mapped)
    else if iova ≥ node.iova + node.size then findLoop size perm rest iova vva mapped
    else if perm &&& node.perm ≠ perm then (0, mapped)
    else
      let offset := iova - node.iova
      let vva := if vva = 0 then node.uaddr + node.uoffset + offset else vva
      let mapped := mapped + (node.size - offset)
      let iova := node.iova + node.size
      if mapped ≥ size then (vva, mapped) else findLoop size perm rest iova vva mapped

/-- **`vhost_user_iotlb_cache_find`**: the host address, and the size that is returned in
`*size`. -/
def cacheFind (iova size : BitVec 64) (perm : BitVec 8) : BitVec 64 × BitVec 64 :=
  let (vva, mapped) := if size = 0 then (0, 0) else dev.findLoop size perm dev.iotlb_list iova 0 0
  (vva, if mapped < size then mapped else size)

end VirtioNet

/-- `vhost_user_iotlb_init` for a device with an IOMMU: the pool is zeroed, and its nodes are
put into it one after the other. -/
def vhostUserIotlbInit : VirtioNet :=
  (List.range iotlbCacheSize).foldl VirtioNet.poolPut
    { iotlb_pool := fun _ => ⟨0, 0, 0, 0, 0⟩
      iotlb_free_list := []
      iotlb_list := []
      iotlb_pending_list := []
      iotlb_cache_nr := 0 }

/-! ## Calls -/

/-- **A call** that changes the IOTLB, with the number drawn in it. -/
inductive Call
  | cacheInsert (entry : VhostIotlbEntry) (rand : BitVec 64)
  | cacheRemove (iova size : BitVec 64)
  | pendingInsert (iova : BitVec 64) (perm : BitVec 8) (rand : BitVec 64)
  | pendingRemove (iova size : BitVec 64) (perm : BitVec 8)
  | flushAll

/-- The device after a call. -/
def VirtioNet.call (dev : VirtioNet) : Call → Option VirtioNet
  | .cacheInsert entry rand => dev.cacheInsert entry rand
  | .cacheRemove iova size => some (dev.cacheRemove iova size)
  | .pendingInsert iova perm rand => dev.pendingInsert iova perm rand
  | .pendingRemove iova size perm => some (dev.pendingRemove iova size perm)
  | .flushAll => some dev.flushAll

/-- **What happens during a miss**: calls of others before it is noted, and until it has been
answered or has failed, and after; the number drawn when it is noted. -/
structure Miss where
  before : List Call
  rand : BitVec 64
  during : List Call
  failed : Bool
  after : List Call

/-- The calls while the lock is not held. -/
def Miss.calls (miss : Miss) (iova : BitVec 64) (perm : BitVec 8) : List Call :=
  miss.before ++ [.pendingInsert iova perm miss.rand] ++ miss.during ++
    (if miss.failed then [.pendingRemove iova 1 perm] else []) ++ miss.after

/-- The calls of a translation that has found a part of its range: none if the miss is pending
already. -/
def VirtioNet.missCalls (dev : VirtioNet) (iova : BitVec 64) (perm : BitVec 8) (miss : Miss) :
    List Call :=
  if dev.pendingMiss iova perm then [] else miss.calls iova perm

/-- **`__vhost_iova_to_vva`**: the address that is returned, and the device then. -/
def VirtioNet.vhostIovaToVva (dev : VirtioNet) (iova size : BitVec 64) (perm : BitVec 8)
    (miss : Miss) : Option (BitVec 64 × VirtioNet) :=
  if size = 0 then some (0, dev)
  else
    let (vva, tmp_size) := dev.cacheFind iova size perm
    if tmp_size = size then some (vva, dev)
    else do
      let iova := iova + tmp_size
      let dev ← Runs.runOption VirtioNet.call dev (dev.missCalls iova perm miss)
      let (vva, tmp_size) := dev.cacheFind iova size perm
      if tmp_size = size then some (vva, dev) else some (0, dev)

end Vhost.Iotlb
