import DpdkStudy.Lib.Loop
import Mathlib.Data.Nat.Notation

/-!
# The IPv4 LPM table

The longest-prefix-match table of the LPM library (`lib/lpm/rte_lpm.c`). The
rules are held twice. The rule table holds them as they are: one array in
which the rules of each depth form a group, the groups in the order of their
depths. The lookup tables hold them expanded: an entry of `tbl24` for the
first 24 bits of an address, which holds a next hop itself or points to a
group of 256 entries of `tbl8`, one for each value of the last eight bits.
An addition and a deletion patch the lookup tables in place, comparing the
depth of a rule with the depths stored in the entries.

The model follows the C code without RCU. An array is a function of its
index, with the number of entries that were allocated for it; the accesses
that go where nothing was stored before – a new rule, the search for a free
group of `tbl8`, the clearing of a whole array – answer `none` past the end
of the allocation, and every other access is to an entry that was found in
the tables before. `ruleInfo depth` is `rule_info[depth - 1]`.
-/

namespace Lpm

/-- `EINVAL`. -/
def einval : Int := 22

/-- `ENOENT`. -/
def enoent : Int := 2

/-- `EEXIST`. -/
def eexist : Int := 17

/-- `ENOSPC`. -/
def enospc : Int := 28

/-- A rule (`struct rte_lpm_rule`). -/
structure RteLpmRule where
  ip : ℕ
  nextHop : ℕ
deriving DecidableEq, Repr

/-- Where the rules of a depth are (`struct rte_lpm_rule_info`). -/
structure RteLpmRuleInfo where
  usedRules : ℕ
  firstRule : ℕ
deriving DecidableEq, Repr

/-- **An entry of a lookup table** (`struct rte_lpm_tbl_entry`): the next
hop, of 24 bits, is the index of a group in an extended entry of `tbl24`; in
the first entry of a group of `tbl8`, `validGroup` says that the group is in
use. -/
structure RteLpmTblEntry where
  nextHop : ℕ
  valid : Bool
  validGroup : Bool
  depth : ℕ
deriving DecidableEq, Repr

/-- The entry of zeros. -/
def zeroEntry : RteLpmTblEntry := ⟨0, false, false, 0⟩

/-- An entry as it is stored: the next hop is cut to 24 bits. -/
def tblEntry (nextHop : ℕ) (valid validGroup : Bool) (depth : ℕ) : RteLpmTblEntry :=
  ⟨nextHop % 2 ^ 24, valid, validGroup, depth⟩

/-- **The LPM object** (`struct __rte_lpm`). -/
structure RteLpm where
  tbl24 : ℕ → RteLpmTblEntry
  tbl8 : ℕ → RteLpmTblEntry
  maxRules : ℕ
  numberTbl8s : ℕ
  ruleInfo : ℕ → RteLpmRuleInfo
  rulesTbl : ℕ → RteLpmRule
  /-- The rules there is memory for. -/
  rulesAlloc : ℕ
  /-- The entries of `tbl8` there is memory for. -/
  tbl8Alloc : ℕ

/-- `depth_to_mask`. -/
def depthToMask (depth : ℕ) : UInt32 :=
  (Int32.ofInt (-2147483648) >>> Int32.ofNat (depth - 1)).toUInt32

/-- `depth_to_range`. -/
def depthToRange (depth : ℕ) : ℕ :=
  if depth ≤ 24 then 1 <<< (24 - depth) else 1 <<< (32 - depth)

/-- **`rte_lpm_create`**; `zmalloc` says which sizes `rte_zmalloc_socket` can
allocate, and a size of zero it never can. The sizes are computed in
`uint32_t`. -/
def rteLpmCreate (zmalloc : UInt32 → Bool) (maxRules numberTbl8s : UInt32) : Option RteLpm :=
  if maxRules = 0 ∨ numberTbl8s > 16777216 then none
  else
    let rulesSize : UInt32 := 8 * maxRules
    let tbl8sSize : UInt32 := 4 * 256 * numberTbl8s
    if rulesSize = 0 ∨ ¬ zmalloc rulesSize then none
    else if tbl8sSize = 0 ∨ ¬ zmalloc tbl8sSize then none
    else
      some
        { tbl24 := fun _ => zeroEntry
          tbl8 := fun _ => zeroEntry
          maxRules := maxRules.toNat
          numberTbl8s := numberTbl8s.toNat
          ruleInfo := fun _ => ⟨0, 0⟩
          rulesTbl := fun _ => ⟨0, 0⟩
          rulesAlloc := rulesSize.toNat / 8
          tbl8Alloc := tbl8sSize.toNat / 4 }

/-! ## The rule table -/

/-- `rule_find`: the index of a rule, `none` for `-EINVAL`. -/
def ruleFind (lpm : RteLpm) (ipMasked depth : ℕ) : Option ℕ :=
  let info := lpm.ruleInfo depth
  (List.range' info.firstRule info.usedRules).find?
    (fun ruleIndex => (lpm.rulesTbl ruleIndex).ip = ipMasked)

/-- A store to the rule table. -/
def RteLpm.setRule (lpm : RteLpm) (ruleIndex : ℕ) (rule : RteLpmRule) : Option RteLpm :=
  if ruleIndex < lpm.rulesAlloc then
    some { lpm with rulesTbl := Function.update lpm.rulesTbl ruleIndex rule }
  else none

/-- The end of the deepest group of depth at most `i` that has rules. -/
def previousEnd (lpm : RteLpm) : ℕ → ℕ
  | 0 => 0
  | i + 1 =>
    if (lpm.ruleInfo (i + 1)).usedRules > 0 then
      (lpm.ruleInfo (i + 1)).firstRule + (lpm.ruleInfo (i + 1)).usedRules
    else previousEnd lpm i

/-- The loop of `rule_add` that makes room: each group of depth
`depth + n, …, depth + 1` moves its first rule to its end. The answer is
`false` where a group ends at `max_rules`. -/
def makeRoom (depth : ℕ) : ℕ → RteLpm → Option (Bool × RteLpm)
  | 0, lpm => some (true, lpm)
  | n + 1, lpm =>
    let info := lpm.ruleInfo (depth + n + 1)
    if info.firstRule + info.usedRules = lpm.maxRules then some (false, lpm)
    else if info.usedRules > 0 then do
      let lpm ← lpm.setRule (info.firstRule + info.usedRules) (lpm.rulesTbl info.firstRule)
      makeRoom depth n
        { lpm with
          ruleInfo := Function.update lpm.ruleInfo (depth + n + 1)
            { info with firstRule := info.firstRule + 1 } }
    else makeRoom depth n lpm

/-- The end of `rule_add`: the new rule at `ruleIndex`, behind its group. -/
def ruleInsert (lpm : RteLpm) (ruleIndex ipMasked depth nextHop : ℕ) :
    Option (Except Int ℕ × RteLpm) := do
  let (room, lpm) ← makeRoom depth (32 - depth) lpm
  if ¬ room then some (.error (-enospc), lpm)
  else
    let lpm ← lpm.setRule ruleIndex ⟨ipMasked, nextHop⟩
    let info := lpm.ruleInfo depth
    some (.ok ruleIndex,
      { lpm with
        ruleInfo := Function.update lpm.ruleInfo depth
          { info with usedRules := info.usedRules + 1 } })

/-- **`rule_add`**: the index of the rule, or an error. -/
def ruleAdd (lpm : RteLpm) (ipMasked depth nextHop : ℕ) : Option (Except Int ℕ × RteLpm) :=
  let info := lpm.ruleInfo depth
  if info.usedRules > 0 then
    match ruleFind lpm ipMasked depth with
    | some ruleIndex =>
      if (lpm.rulesTbl ruleIndex).nextHop = nextHop then some (.error (-eexist), lpm)
      else
        some (.ok ruleIndex,
          { lpm with
            rulesTbl := Function.update lpm.rulesTbl ruleIndex
              { lpm.rulesTbl ruleIndex with nextHop := nextHop } })
    | none =>
      let ruleIndex := info.firstRule + info.usedRules
      if ruleIndex = lpm.maxRules then some (.error (-enospc), lpm)
      else ruleInsert lpm ruleIndex ipMasked depth nextHop
  else
    let ruleIndex := previousEnd lpm (depth - 1)
    if ruleIndex = lpm.maxRules then some (.error (-enospc), lpm)
    else
      ruleInsert
        { lpm with
          ruleInfo := Function.update lpm.ruleInfo depth { info with firstRule := ruleIndex } }
        ruleIndex ipMasked depth nextHop

/-- The body of the loop of `rule_delete`: a group moves its last rule in
front of its first. -/
def closeGap (lpm : RteLpm) (depth : ℕ) : RteLpm :=
  let info := lpm.ruleInfo depth
  if info.usedRules > 0 then
    { lpm with
      rulesTbl := Function.update lpm.rulesTbl (info.firstRule - 1)
        (lpm.rulesTbl (info.firstRule + info.usedRules - 1))
      ruleInfo := Function.update lpm.ruleInfo depth
        { info with firstRule := info.firstRule - 1 } }
  else lpm

/-- **`rule_delete`**. -/
def ruleDelete (lpm : RteLpm) (ruleIndex depth : ℕ) : RteLpm :=
  let info := lpm.ruleInfo depth
  let lpm :=
    { lpm with
      rulesTbl := Function.update lpm.rulesTbl ruleIndex
        (lpm.rulesTbl (info.firstRule + info.usedRules - 1)) }
  let lpm := Loop.times (32 - depth) (fun i lpm => closeGap lpm (depth + 1 + i)) lpm
  let info := lpm.ruleInfo depth
  { lpm with
    ruleInfo := Function.update lpm.ruleInfo depth
      { info with usedRules := info.usedRules - 1 } }

/-- `find_previous_rule`: the rule of the greatest depth below `prevDepth + 1`
that covers an address, by its index and its depth. -/
def findPreviousRule (lpm : RteLpm) (ip : UInt32) : ℕ → Option (ℕ × ℕ)
  | 0 => none
  | prevDepth + 1 =>
    match ruleFind lpm (ip &&& depthToMask (prevDepth + 1)).toNat (prevDepth + 1) with
    | some ruleIndex => some (ruleIndex, prevDepth + 1)
    | none => findPreviousRule lpm ip prevDepth

/-! ## Groups of `tbl8` -/

/-- The search of `_tbl8_alloc`: the first free group from `groupIdx` on,
among `n` of them. -/
def tbl8Scan (lpm : RteLpm) : ℕ → ℕ → Option (Option ℕ)
  | 0, _ => some none
  | n + 1, groupIdx =>
    if groupIdx * 256 < lpm.tbl8Alloc then
      if ¬ (lpm.tbl8 (groupIdx * 256)).validGroup then some (some groupIdx)
      else tbl8Scan lpm n (groupIdx + 1)
    else none

/-- **`tbl8_alloc`**: the index of a group that was free and is clean, or no
group for `-ENOSPC`. -/
def tbl8AllocGroup (lpm : RteLpm) : Option (Option ℕ × RteLpm) := do
  match ← tbl8Scan lpm lpm.numberTbl8s 0 with
  | none => some (none, lpm)
  | some groupIdx =>
    let tbl8 := Loop.mapRange (groupIdx * 256) 256 (fun _ => zeroEntry) lpm.tbl8
    some (some groupIdx,
      { lpm with
        tbl8 := Function.update tbl8 (groupIdx * 256) (tblEntry 0 false true 0) })

/-- `tbl8_free`. -/
def tbl8Free (lpm : RteLpm) (tbl8GroupStart : ℕ) : RteLpm :=
  { lpm with tbl8 := Function.update lpm.tbl8 tbl8GroupStart zeroEntry }

/-! ## Addition -/

/-- The body of the loop of `add_depth_small`, for the entry `i` of
`tbl24`. -/
def addTbl24 (lpm : RteLpm) (depth nextHop i : ℕ) : RteLpm :=
  let entry := lpm.tbl24 i
  if ¬ entry.valid ∨ (¬ entry.validGroup ∧ entry.depth ≤ depth) then
    { lpm with tbl24 := Function.update lpm.tbl24 i (tblEntry nextHop true false depth) }
  else if entry.validGroup then
    { lpm with
      tbl8 := Loop.mapRange (entry.nextHop * 256) 256
        (fun t =>
          if ¬ t.valid ∨ t.depth ≤ depth then tblEntry nextHop true true depth else t)
        lpm.tbl8 }
  else lpm

/-- **`add_depth_small`**. -/
def addDepthSmall (lpm : RteLpm) (ip depth nextHop : ℕ) : RteLpm :=
  Loop.times (depthToRange depth) (fun i lpm => addTbl24 lpm depth nextHop ((ip >>> 8) + i)) lpm

/-- **`add_depth_big`**. -/
def addDepthBig (lpm : RteLpm) (ipMasked depth nextHop : ℕ) : Option (Int × RteLpm) :=
  let tbl24Index := ipMasked >>> 8
  let tbl8Range := depthToRange depth
  let entry := lpm.tbl24 tbl24Index
  if ¬ entry.valid then do
    let (group, lpm) ← tbl8AllocGroup lpm
    match group with
    | none => some (-enospc, lpm)
    | some groupIdx =>
      some (0,
        { lpm with
          tbl8 := Loop.mapRange (groupIdx * 256 + (ipMasked &&& 0xff)) tbl8Range
            (fun t => tblEntry nextHop true t.validGroup depth) lpm.tbl8
          tbl24 := Function.update lpm.tbl24 tbl24Index (tblEntry groupIdx true true 0) })
  else if ¬ entry.validGroup then do
    let (group, lpm) ← tbl8AllocGroup lpm
    match group with
    | none => some (-enospc, lpm)
    | some groupIdx =>
      let tbl8 := Loop.mapRange (groupIdx * 256) 256
        (fun t => tblEntry entry.nextHop true t.validGroup entry.depth) lpm.tbl8
      some (0,
        { lpm with
          tbl8 := Loop.mapRange (groupIdx * 256 + (ipMasked &&& 0xff)) tbl8Range
            (fun t => tblEntry nextHop true t.validGroup depth) tbl8
          tbl24 := Function.update lpm.tbl24 tbl24Index (tblEntry groupIdx true true 0) })
  else
    some (0,
      { lpm with
        tbl8 := Loop.mapRange (entry.nextHop * 256 + (ipMasked &&& 0xff)) tbl8Range
          (fun t =>
            if ¬ t.valid ∨ t.depth ≤ depth then tblEntry nextHop true t.validGroup depth else t)
          lpm.tbl8 })

/-- **`rte_lpm_add`**. -/
def rteLpmAdd (lpm : RteLpm) (ip : UInt32) (depth : UInt8) (nextHop : UInt32) :
    Option (Int × RteLpm) :=
  if depth < 1 ∨ depth > 32 then some (-einval, lpm)
  else do
    let ipMasked := (ip &&& depthToMask depth.toNat).toNat
    let (ruleIndex, lpm) ← ruleAdd lpm ipMasked depth.toNat nextHop.toNat
    match ruleIndex with
    | .error e => if e = -eexist then some (0, lpm) else some (e, lpm)
    | .ok ruleIndex =>
      if depth ≤ 24 then some (0, addDepthSmall lpm ipMasked depth.toNat nextHop.toNat)
      else
        let (status, lpm) ← addDepthBig lpm ipMasked depth.toNat nextHop.toNat
        if status < 0 then some (status, ruleDelete lpm ruleIndex depth.toNat)
        else some (0, lpm)

/-! ## Deletion -/

/-- The body of the loops of `delete_depth_small`, for the entry `i` of
`tbl24`; the rule that takes over is given by its depth and its next hop. -/
def deleteTbl24 (lpm : RteLpm) (depth : ℕ) (sub : Option (ℕ × ℕ)) (i : ℕ) : RteLpm :=
  let entry := lpm.tbl24 i
  if ¬ entry.validGroup ∧ entry.depth ≤ depth then
    match sub with
    | none => { lpm with tbl24 := Function.update lpm.tbl24 i zeroEntry }
    | some (subDepth, subHop) =>
      { lpm with tbl24 := Function.update lpm.tbl24 i (tblEntry subHop true false subDepth) }
  else if entry.validGroup then
    match sub with
    | none =>
      { lpm with
        tbl8 := Loop.mapRange (entry.nextHop * 256) 256
          (fun t => if t.depth ≤ depth then { t with valid := false } else t) lpm.tbl8 }
    | some (subDepth, subHop) =>
      { lpm with
        tbl8 := Loop.mapRange (entry.nextHop * 256) 256
          (fun t => if t.depth ≤ depth then tblEntry subHop true true subDepth else t) lpm.tbl8 }
  else lpm

/-- **`delete_depth_small`**. -/
def deleteDepthSmall (lpm : RteLpm) (ipMasked depth : ℕ) (sub : Option (ℕ × ℕ)) : RteLpm :=
  Loop.times (depthToRange depth) (fun i lpm => deleteTbl24 lpm depth sub ((ipMasked >>> 8) + i))
    lpm

/-- **`tbl8_recycle_check`**: the start of a group whose entries all say the
same, `-EINVAL` for a group without valid entries, `-EEXIST` for one that
has to stay. -/
def tbl8RecycleCheck (tbl8 : ℕ → RteLpmTblEntry) (tbl8GroupStart : ℕ) : Except Int ℕ :=
  let first := tbl8 tbl8GroupStart
  if first.valid then
    if first.depth ≤ 24 then
      if (List.range' (tbl8GroupStart + 1) 255).all (fun i => (tbl8 i).depth = first.depth) then
        .ok tbl8GroupStart
      else .error (-eexist)
    else .error (-eexist)
  else if (List.range' (tbl8GroupStart + 1) 255).any (fun i => (tbl8 i).valid) then
    .error (-eexist)
  else .error (-einval)

/-- The end of `delete_depth_big`: the group of a `tbl24` entry is freed if
it can be. -/
def recycleGroup (lpm : RteLpm) (tbl24Index tbl8GroupStart : ℕ) : RteLpm :=
  match tbl8RecycleCheck lpm.tbl8 tbl8GroupStart with
  | .ok recycleIndex =>
    let t := lpm.tbl8 recycleIndex
    tbl8Free
      { lpm with
        tbl24 := Function.update lpm.tbl24 tbl24Index (tblEntry t.nextHop true false t.depth) }
      tbl8GroupStart
  | .error e =>
    if e = -einval then
      tbl8Free
        { lpm with
          tbl24 := Function.update lpm.tbl24 tbl24Index
            { lpm.tbl24 tbl24Index with valid := false } }
        tbl8GroupStart
    else lpm

/-- **`delete_depth_big`**. -/
def deleteDepthBig (lpm : RteLpm) (ipMasked depth : ℕ) (sub : Option (ℕ × ℕ)) : RteLpm :=
  let tbl24Index := ipMasked >>> 8
  let tbl8GroupStart := (lpm.tbl24 tbl24Index).nextHop * 256
  let tbl8Index := tbl8GroupStart + (ipMasked &&& 0xff)
  let tbl8 :=
    match sub with
    | none =>
      Loop.mapRange tbl8Index (depthToRange depth)
        (fun t => if t.depth ≤ depth then { t with valid := false } else t) lpm.tbl8
    | some (subDepth, subHop) =>
      Loop.mapRange tbl8Index (depthToRange depth)
        (fun t =>
          if t.depth ≤ depth then
            tblEntry subHop true (lpm.tbl8 tbl8GroupStart).validGroup subDepth
          else t)
        lpm.tbl8
  recycleGroup { lpm with tbl8 := tbl8 } tbl24Index tbl8GroupStart

/-- **`rte_lpm_delete`**. -/
def rteLpmDelete (lpm : RteLpm) (ip : UInt32) (depth : UInt8) : Int × RteLpm :=
  if depth < 1 ∨ depth > 32 then (-einval, lpm)
  else
    let ipMasked := (ip &&& depthToMask depth.toNat).toNat
    match ruleFind lpm ipMasked depth.toNat with
    | none => (-einval, lpm)
    | some ruleIndex =>
      let lpm := ruleDelete lpm ruleIndex depth.toNat
      let sub := (findPreviousRule lpm ip (depth.toNat - 1)).map
        (fun (subIndex, subDepth) => (subDepth, (lpm.rulesTbl subIndex).nextHop))
      if depth ≤ 24 then (0, deleteDepthSmall lpm ipMasked depth.toNat sub)
      else (0, deleteDepthBig lpm ipMasked depth.toNat sub)

/-- **`rte_lpm_delete_all`**. -/
def rteLpmDeleteAll (lpm : RteLpm) : Option RteLpm :=
  if 256 * lpm.numberTbl8s ≤ lpm.tbl8Alloc ∧ lpm.maxRules ≤ lpm.rulesAlloc then
    some
      { lpm with
        ruleInfo := fun _ => ⟨0, 0⟩
        tbl24 := fun _ => zeroEntry
        tbl8 := fun _ => zeroEntry
        rulesTbl := fun _ => ⟨0, 0⟩ }
  else none

/-! ## Queries -/

/-- **`rte_lpm_is_rule_present`**: the answer, and the next hop it
returns. -/
def rteLpmIsRulePresent (lpm : RteLpm) (ip : UInt32) (depth : UInt8) : Int × Option ℕ :=
  if depth < 1 ∨ depth > 32 then (-einval, none)
  else
    match ruleFind lpm (ip &&& depthToMask depth.toNat).toNat depth.toNat with
    | some ruleIndex => (1, some (lpm.rulesTbl ruleIndex).nextHop)
    | none => (0, none)

/-- **`rte_lpm_lookup`**: the answer, and the next hop it returns. -/
def rteLpmLookup (lpm : RteLpm) (ip : UInt32) : Int × ℕ :=
  let entry := lpm.tbl24 (ip >>> 8).toNat
  let entry :=
    if entry.valid ∧ entry.validGroup then lpm.tbl8 (ip.toUInt8.toNat + entry.nextHop * 256)
    else entry
  if entry.valid then (0, entry.nextHop) else (-enoent, entry.nextHop)

end Lpm
