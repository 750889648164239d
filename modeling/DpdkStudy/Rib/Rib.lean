import Mathlib.Algebra.Group.Nat.Defs

/-!
# The routing information base

The IPv4 RIB (`lib/rib/rte_rib.c`): the routes in a compressed binary tree.
A node stands for a prefix; its left and its right subtree hold longer
prefixes of it, with the next bit clear and set. A node that only holds two
subtrees together is not valid: it is no route.

The C code works on pointers, and a node points to its parent. A pointer to a
node is modelled as what can be reached through it (`Cursor`): the node with
all that is below it, and the nodes above it, the nearest first, each with
its other subtree (`Frame`). Going up fills a frame, and a change at a cursor
is a change of the tree that the filled frames make up (`plug`).
-/

namespace Rib

/-- `EINVAL`. -/
def einval : Int := 22

/-- `ENOENT`. -/
def enoent : Int := 2

/-- `ENOMEM`. -/
def enomem : Int := 12

/-- `EEXIST`. -/
def eexist : Int := 17

/-- **A node and all that is below it** (`struct rte_rib_node`), `null` for
no node. -/
inductive RteRibNode
  | null
  | node (ip : UInt32) (depth : ℕ) (valid : Bool) (nh : ℕ) (left right : RteRibNode)
deriving DecidableEq, Repr

/-- The pointer is `NULL`. -/
def RteRibNode.isNull : RteRibNode → Bool
  | null => true
  | node .. => false

/-- A node seen from one of its subtrees, the right or the left one, with the
other subtree. -/
structure Frame where
  right : Bool
  ip : UInt32
  depth : ℕ
  valid : Bool
  nh : ℕ
  sibling : RteRibNode
deriving DecidableEq, Repr

/-- The node of a frame, once its subtree is there. -/
def Frame.fill (f : Frame) (t : RteRibNode) : RteRibNode :=
  if f.right then .node f.ip f.depth f.valid f.nh f.sibling t
  else .node f.ip f.depth f.valid f.nh t f.sibling

/-- **A pointer to a node**, with the nodes above it, the nearest first. -/
structure Cursor where
  node : RteRibNode
  parents : List Frame
deriving DecidableEq, Repr

/-- The whole tree, from a node and the nodes above it. -/
def plug (t : RteRibNode) : List Frame → RteRibNode
  | [] => t
  | f :: parents => plug (f.fill t) parents

/-- **The RIB** (`struct rte_rib`). -/
structure RteRib where
  tree : RteRibNode
  curNodes : ℕ
  curRoutes : ℕ
  maxNodes : ℕ

/-- An empty RIB. -/
def rteRibCreate (maxNodes : ℕ) : RteRib := ⟨.null, 0, 0, maxNodes⟩

/-! ## Bits -/

/-- `rte_rib_depth_to_mask`. -/
def rteRibDepthToMask (depth : ℕ) : UInt32 :=
  ((0xffffffffffffffff : UInt64) <<< UInt64.ofNat (32 - depth)).toUInt32

/-- `is_covered`: the two addresses share their first `depth` bits. -/
def isCovered (ip1 ip2 : UInt32) (depth : ℕ) : Bool :=
  ((ip1 ^^^ ip2) &&& rteRibDepthToMask depth) = 0

/-- The bit of an address after its first `depth` bits. -/
def nextBit (ip : UInt32) (depth : ℕ) : Bool :=
  (ip &&& ((1 : UInt32) <<< UInt32.ofNat (31 - depth))) ≠ 0

/-- `rte_clz32`, for a number that is not zero. -/
def rteClz32 (x : UInt32) : ℕ := 31 - Nat.log2 x.toNat

/-! ## Lookups -/

/-- The loop of `rte_rib_lookup`. -/
def lookupFrom (ip : UInt32) : RteRibNode → List Frame → Option Cursor → Option Cursor
  | .null, _, prev => prev
  | .node curIp depth valid nh left right, parents, prev =>
    if isCovered ip curIp depth then
      let prev :=
        if valid then some ⟨.node curIp depth valid nh left right, parents⟩ else prev
      if depth = 32 then prev
      else if nextBit ip depth then
        lookupFrom ip right (⟨true, curIp, depth, valid, nh, left⟩ :: parents) prev
      else lookupFrom ip left (⟨false, curIp, depth, valid, nh, right⟩ :: parents) prev
    else prev

/-- **`rte_rib_lookup`**. -/
def rteRibLookup (rib : RteRib) (ip : UInt32) : Option Cursor := lookupFrom ip rib.tree [] none

/-- **`rte_rib_lookup_parent`**: the nearest valid node above a node. -/
def rteRibLookupParent : RteRibNode → List Frame → Option Cursor
  | _, [] => none
  | t, f :: parents =>
    if f.valid then some ⟨f.fill t, parents⟩ else rteRibLookupParent (f.fill t) parents

/-- The loop of `__rib_lookup_exact`. -/
def lookupExactFrom (ip : UInt32) (depth : ℕ) : RteRibNode → List Frame → Option Cursor
  | .null, _ => none
  | .node curIp curDepth valid nh left right, parents =>
    if curIp = ip ∧ curDepth = depth ∧ valid then
      some ⟨.node curIp curDepth valid nh left right, parents⟩
    else if curDepth > depth ∨ ¬ isCovered ip curIp curDepth then none
    else if curDepth = 32 then none
    else if nextBit ip curDepth then
      lookupExactFrom ip depth right (⟨true, curIp, curDepth, valid, nh, left⟩ :: parents)
    else lookupExactFrom ip depth left (⟨false, curIp, curDepth, valid, nh, right⟩ :: parents)

/-- **`rte_rib_lookup_exact`**. -/
def rteRibLookupExact (rib : RteRib) (ip : UInt32) (depth : ℕ) : Option Cursor :=
  if depth > 32 then none
  else lookupExactFrom (ip &&& rteRibDepthToMask depth) depth rib.tree []

/-! ## Walking -/

/-- The node `tmp` of `rte_rib_get_nxt` is an answer for the prefix. -/
def isMoreSpecific (ip : UInt32) (depth : ℕ) : RteRibNode → Bool
  | .null => false
  | .node curIp curDepth valid _ _ _ => valid ∧ isCovered curIp ip depth ∧ curDepth > depth

/-- The first loop of `rte_rib_get_nxt`, for the first call. -/
def skipTo (ip : UInt32) (depth : ℕ) : RteRibNode → List Frame → Cursor
  | .null, parents => ⟨.null, parents⟩
  | .node curIp curDepth valid nh left right, parents =>
    if curDepth < depth then
      if curDepth = 32 then ⟨.null, parents⟩
      else if nextBit ip curDepth then
        skipTo ip depth right (⟨true, curIp, curDepth, valid, nh, left⟩ :: parents)
      else skipTo ip depth left (⟨false, curIp, curDepth, valid, nh, right⟩ :: parents)
    else ⟨.node curIp curDepth valid nh left right, parents⟩

/-- The last loop of `rte_rib_get_nxt`: along the left children, and the
right ones where there is no left one. With `cover` it stops at the first
answer. -/
def descend (ip : UInt32) (depth : ℕ) (cover : Bool) :
    RteRibNode → List Frame → Option Cursor → Option Cursor
  | .null, _, prev => prev
  | .node curIp curDepth valid nh left right, parents, prev =>
    let tmp := RteRibNode.node curIp curDepth valid nh left right
    let found := isMoreSpecific ip depth tmp
    let prev := if found then some ⟨tmp, parents⟩ else prev
    if found ∧ cover then prev
    else if ¬ left.isNull then
      descend ip depth cover left (⟨false, curIp, curDepth, valid, nh, right⟩ :: parents) prev
    else descend ip depth cover right (⟨true, curIp, curDepth, valid, nh, left⟩ :: parents) prev

/-- The loop of `rte_rib_get_nxt` that goes up from the last answer, to the
first node with a right subtree that was not visited, and down this
subtree. -/
def ascend (ip : UInt32) (depth : ℕ) (cover : Bool) :
    RteRibNode → List Frame → Option Cursor
  | _, [] => none
  | t, f :: parents =>
    if f.right ∨ f.sibling.isNull then
      if isMoreSpecific ip depth (f.fill t) then some ⟨f.fill t, parents⟩
      else ascend ip depth cover (f.fill t) parents
    else descend ip depth cover f.sibling ({ f with right := true, sibling := t } :: parents) none

/-- **`rte_rib_get_nxt`**. -/
def rteRibGetNxt (rib : RteRib) (ip : UInt32) (depth : ℕ) (last : Option Cursor)
    (cover : Bool) : Option Cursor :=
  if depth > 32 then none
  else
    match last with
    | none =>
      let tmp := skipTo ip depth rib.tree []
      descend ip depth cover tmp.node tmp.parents none
    | some last => ascend ip depth cover last.node last.parents

/-! ## Changes -/

/-- **`rte_rib_set_nh`**, at a cursor. -/
def rteRibSetNh (c : Cursor) (nh : ℕ) : Cursor :=
  match c.node with
  | .null => c
  | .node ip depth valid _ left right => ⟨.node ip depth valid nh left right, c.parents⟩

/-- `rte_rib_get_nh`. -/
def rteRibGetNh (c : Cursor) : ℕ :=
  match c.node with
  | .null => 0
  | .node _ _ _ nh _ _ => nh

/-- `rte_rib_get_ip`. -/
def rteRibGetIp (c : Cursor) : UInt32 :=
  match c.node with
  | .null => 0
  | .node ip _ _ _ _ _ => ip

/-- `rte_rib_get_depth`. -/
def rteRibGetDepth (c : Cursor) : ℕ :=
  match c.node with
  | .null => 0
  | .node _ depth _ _ _ _ => depth

/-- The RIB after a change at a cursor. -/
def RteRib.at (rib : RteRib) (c : Cursor) : RteRib := { rib with tree := plug c.node c.parents }

/-- `node_alloc`: a node of the pool, where there is one. -/
def RteRib.nodeAlloc (rib : RteRib) : Option RteRib :=
  if rib.curNodes < rib.maxNodes then some { rib with curNodes := rib.curNodes + 1 } else none

/-- `node_free`. -/
def RteRib.nodeFree (rib : RteRib) : RteRib := { rib with curNodes := rib.curNodes - 1 }

/-- The loop of `rte_rib_remove`, from the node `cur` up: a node that is not
valid and holds less than two subtrees together is replaced by what it
holds, and freed. -/
def unlink (rib : RteRib) : List Frame → RteRibNode → RteRib
  | parents, .null => rib.at ⟨.null, parents⟩
  | parents, .node ip depth valid nh left right =>
    if valid ∨ (¬ left.isNull ∧ ¬ right.isNull) then
      rib.at ⟨.node ip depth valid nh left right, parents⟩
    else
      let child := if left.isNull then right else left
      match parents with
      | [] => { rib with tree := child }.nodeFree
      | f :: parents => unlink rib.nodeFree parents (f.fill child)

/-- **`rte_rib_remove`**. -/
def rteRibRemove (rib : RteRib) (ip : UInt32) (depth : ℕ) : RteRib :=
  match rteRibLookupExact rib ip depth with
  | none => rib
  | some cur =>
    match cur.node with
    | .null => rib
    | .node ip depth _ nh left right =>
      unlink { rib with curRoutes := rib.curRoutes - 1 } cur.parents
        (.node ip depth false nh left right)

/-- A new route at a cursor. -/
def RteRib.addRoute (rib : RteRib) (c : Cursor) : Except Int Cursor × RteRib :=
  (.ok c, { rib.at c with curRoutes := rib.curRoutes + 1 })

/-- The end of `rte_rib_insert`, where the closest node is `tmp`: the new
node becomes its parent, or the two get a new parent, for which there may be
no memory. -/
def insertAbove (ip : UInt32) (depth : ℕ) (rib : RteRib) (tmp : RteRibNode) (tmpIp : UInt32)
    (tmpDepth : ℕ) (parents : List Frame) : Except Int Cursor × RteRib :=
  let d := if ip ^^^ tmpIp = 0 then 32 else rteClz32 (ip ^^^ tmpIp)
  let commonDepth := min d (min depth tmpDepth)
  let commonPrefix := ip &&& rteRibDepthToMask commonDepth
  if commonPrefix = ip ∧ commonDepth = depth then
    if nextBit tmpIp depth then rib.addRoute ⟨.node ip depth true 0 .null tmp, parents⟩
    else rib.addRoute ⟨.node ip depth true 0 tmp .null, parents⟩
  else
    match rib.nodeAlloc with
    | none => (.error enomem, rib.nodeFree)
    | some rib =>
      rib.addRoute ⟨.node ip depth true 0 .null .null,
        ⟨nextBit ip commonDepth, commonPrefix, commonDepth, false, 0, tmp⟩ :: parents⟩

/-- The loop of `rte_rib_insert`, from `tmp` down, for a RIB with a node
allocated. The memory of a new node is not cleared: its next hop is not
defined before `rte_rib_set_nh`, and zero here. -/
def insertFrom (ip : UInt32) (depth : ℕ) (rib : RteRib) :
    RteRibNode → List Frame → Except Int Cursor × RteRib
  | .null, parents => rib.addRoute ⟨.node ip depth true 0 .null .null, parents⟩
  | .node tmpIp tmpDepth valid nh left right, parents =>
    if ip = tmpIp ∧ depth = tmpDepth then
      rib.nodeFree.addRoute ⟨.node tmpIp tmpDepth true nh left right, parents⟩
    else if tmpDepth ≥ depth ∨ ¬ isCovered ip tmpIp tmpDepth then
      insertAbove ip depth rib (.node tmpIp tmpDepth valid nh left right) tmpIp tmpDepth parents
    else if nextBit ip tmpDepth then
      insertFrom ip depth rib right (⟨true, tmpIp, tmpDepth, valid, nh, left⟩ :: parents)
    else insertFrom ip depth rib left (⟨false, tmpIp, tmpDepth, valid, nh, right⟩ :: parents)

/-- **`rte_rib_insert`**: it answers with the new node, or with an error in
`rte_errno`. -/
def rteRibInsert (rib : RteRib) (ip : UInt32) (depth : ℕ) : Except Int Cursor × RteRib :=
  if depth > 32 then (.error einval, rib)
  else
    let ip := ip &&& rteRibDepthToMask depth
    if (lookupExactFrom ip depth rib.tree []).isSome then (.error eexist, rib)
    else
      match rib.nodeAlloc with
      | none => (.error enomem, rib)
      | some rib => insertFrom ip depth rib rib.tree []

end Rib
