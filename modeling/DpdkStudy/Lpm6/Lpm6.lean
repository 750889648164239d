import DpdkStudy.Lib.Loop
import DpdkStudy.Net.Ipv6

/-!
# The IPv6 LPM table

The IPv6 longest-prefix-match table of the LPM library
(`lib/lpm/rte_lpm6.c`). An entry of `tbl24` stands for the first three bytes
of an address. It holds a next hop, or it is extended and holds the index of a
group of 256 entries of `tbl8`, one for each value of the next byte, and so on
down to the last byte. The groups that are free are in a pool. A header says of
a group which entry it belongs to, and counts the rules that end in the group
and the groups that belong to its entries: a group that is counted down to zero
goes back to the pool.

The rules themselves are in a hash table, which is taken for what it is meant
to be, a map with room for the rules: a list in which a rule is found by its
address and its depth. It gives its rules back in an order of its own
(`Iteration`).

An array is a function of its index. A table is `none` for `tbl24`, which is
what `TBL24_IND` stands for, and otherwise the index of a group. A function
that the code leaves by a failed assertion, or never, answers `none`.
-/

namespace Lpm6

open Net

/-- `EINVAL`. -/
def einval : Int := 22

/-- `ENOENT`. -/
def enoent : Int := 2

/-- `ENOSPC`. -/
def enospc : Int := 28

/-- **An entry of a table** (`struct rte_lpm6_tbl_entry`): its next hop has 21
bits, and is the index of a group if the entry is extended. -/
structure RteLpm6TblEntry where
  nextHop : ℕ
  depth : ℕ
  valid : Bool
  extEntry : Bool
deriving DecidableEq, Repr

/-- The entry of zeros. -/
def zeroEntry : RteLpm6TblEntry := ⟨0, 0, false, false⟩

/-- An entry as it is stored: the next hop is cut to 21 bits. -/
def tblEntry (nextHop depth : ℕ) (valid extEntry : Bool) : RteLpm6TblEntry :=
  ⟨nextHop % 2 ^ 21, depth, valid, extEntry⟩

/-- A rule (`struct rte_lpm6_rule`). -/
structure RteLpm6Rule where
  ip : RteIpv6Addr
  depth : UInt8
  nextHop : UInt32
deriving DecidableEq

/-- **The header of a group** (`struct rte_lpm_tbl8_hdr`). -/
structure RteLpmTbl8Hdr where
  ownerTblInd : Option ℕ
  ownerEntryInd : ℕ
  refCnt : UInt32

/-- **The LPM object** (`struct rte_lpm6`). -/
structure RteLpm6 where
  maxRules : UInt32
  usedRules : UInt32
  numberTbl8s : ℕ
  rulesTbl : List RteLpm6Rule
  tbl24 : ℕ → RteLpm6TblEntry
  tbl8Pool : ℕ → ℕ
  tbl8PoolPos : ℕ
  tbl8Hdrs : ℕ → RteLpmTbl8Hdr
  tbl8 : ℕ → RteLpm6TblEntry

namespace RteLpm6

/-- The entry `i` of a table. -/
def entry (lpm : RteLpm6) : Option ℕ → ℕ → RteLpm6TblEntry
  | none, i => lpm.tbl24 i
  | some t, i => lpm.tbl8 (t * 256 + i)

/-- A store to the entry `i` of a table. -/
def setEntry (lpm : RteLpm6) (tbl : Option ℕ) (i : ℕ) (e : RteLpm6TblEntry) : RteLpm6 :=
  match tbl with
  | none => { lpm with tbl24 := Function.update lpm.tbl24 i e }
  | some t => { lpm with tbl8 := Function.update lpm.tbl8 (t * 256 + i) e }

/-- A store to the reference counter of a group. -/
def setRefCnt (lpm : RteLpm6) (t : ℕ) (refCnt : UInt32) : RteLpm6 :=
  { lpm with
    tbl8Hdrs := Function.update lpm.tbl8Hdrs t { lpm.tbl8Hdrs t with refCnt := refCnt } }

/-- `tbl_ind != TBL24_IND`, and then one more reference to the group. -/
def incRefCnt (lpm : RteLpm6) : Option ℕ → RteLpm6
  | none => lpm
  | some t => lpm.setRefCnt t ((lpm.tbl8Hdrs t).refCnt + 1)

end RteLpm6

/-! ## The pool -/

/-- `tbl8_pool_init`. -/
def tbl8PoolInit (lpm : RteLpm6) : RteLpm6 :=
  { lpm with
    tbl8Pool := Loop.times lpm.numberTbl8s (fun i pool => Function.update pool i i) lpm.tbl8Pool
    tbl8PoolPos := 0 }

/-- `tbl8_get`: `none` for `-ENOSPC`. -/
def tbl8Get (lpm : RteLpm6) : Option (ℕ × RteLpm6) :=
  if lpm.tbl8PoolPos = lpm.numberTbl8s then none
  else some (lpm.tbl8Pool lpm.tbl8PoolPos, { lpm with tbl8PoolPos := lpm.tbl8PoolPos + 1 })

/-- `tbl8_put`, whose answer nobody asks for. -/
def tbl8Put (lpm : RteLpm6) (t : ℕ) : RteLpm6 :=
  if lpm.tbl8PoolPos = 0 then lpm
  else
    { lpm with
      tbl8Pool := Function.update lpm.tbl8Pool (lpm.tbl8PoolPos - 1) t
      tbl8PoolPos := lpm.tbl8PoolPos - 1 }

/-- `tbl8_available`. -/
def tbl8Available (lpm : RteLpm6) : ℕ := lpm.numberTbl8s - lpm.tbl8PoolPos

/-- **`rte_lpm6_create`**, where there is memory for what it allocates – there
never is for no groups at all: the pool and the headers are whatever was in
their memory before. -/
def rteLpm6Create (maxRules numberTbl8s : UInt32) (pool : ℕ → ℕ) (hdrs : ℕ → RteLpmTbl8Hdr) :
    Option RteLpm6 :=
  if maxRules = 0 ∨ numberTbl8s > 2097152 ∨ numberTbl8s = 0 then none
  else
    some (tbl8PoolInit
      { maxRules := maxRules
        usedRules := 0
        numberTbl8s := numberTbl8s.toNat
        rulesTbl := []
        tbl24 := fun _ => zeroEntry
        tbl8Pool := pool
        tbl8PoolPos := 0
        tbl8Hdrs := hdrs
        tbl8 := fun _ => zeroEntry })

/-! ## The rules -/

/-- The rule of a key. -/
def RteLpm6Rule.HasKey (ip : RteIpv6Addr) (depth : UInt8) (r : RteLpm6Rule) : Prop :=
  r.ip = ip ∧ r.depth = depth

instance (ip : RteIpv6Addr) (depth : UInt8) (r : RteLpm6Rule) : Decidable (r.HasKey ip depth) :=
  inferInstanceAs (Decidable (_ ∧ _))

/-- `rule_find`: the next hop of a rule. -/
def ruleFind (lpm : RteLpm6) (ip : RteIpv6Addr) (depth : UInt8) : Option UInt32 :=
  (lpm.rulesTbl.find? (fun r => r.HasKey ip depth)).map RteLpm6Rule.nextHop

/-- `rte_hash_add_key_data`: the next hop of a rule, or one more rule. -/
def hashAdd (rules : List RteLpm6Rule) (ip : RteIpv6Addr) (depth : UInt8) (nextHop : UInt32) :
    List RteLpm6Rule :=
  if rules.any (fun r => r.HasKey ip depth) then
    rules.map (fun r => if r.HasKey ip depth then { r with nextHop := nextHop } else r)
  else rules ++ [⟨ip, depth, nextHop⟩]

/-- **`rule_add`**: 1 for a new rule, 0 for one there was. -/
def ruleAdd (lpm : RteLpm6) (ip : RteIpv6Addr) (depth : UInt8) (nextHop : UInt32) :
    Int × RteLpm6 :=
  let ruleExist := (ruleFind lpm ip depth).isSome
  if ¬ ruleExist ∧ lpm.usedRules = lpm.maxRules then (-enospc, lpm)
  else
    let lpm := { lpm with rulesTbl := hashAdd lpm.rulesTbl ip depth nextHop }
    if ¬ ruleExist then (1, { lpm with usedRules := lpm.usedRules + 1 }) else (0, lpm)

/-- **`rule_delete`.** -/
def ruleDelete (lpm : RteLpm6) (ip : RteIpv6Addr) (depth : UInt8) : Int × RteLpm6 :=
  if (ruleFind lpm ip depth).isSome then
    (0, { lpm with
      rulesTbl := lpm.rulesTbl.filter (fun r => ¬ r.HasKey ip depth)
      usedRules := lpm.usedRules - 1 })
  else (-enoent, lpm)

/-- **An order in which the hash table gives its rules back**
(`rte_hash_iterate`): each of them once. -/
structure Iteration where
  order : List RteLpm6Rule → List RteLpm6Rule
  perm : ∀ rules, (order rules).Perm rules

/-! ## Additions -/

/-- `get_bitshift`: the index of the entry for some bytes of an address. -/
def getBitshift (ip : RteIpv6Addr) (firstByte bytes : ℕ) : ℕ :=
  Loop.times bytes
    (fun n entryInd =>
      let i := firstByte + n
      let bitshift := Int.bmod (((bytes : Int) - i) * 8) 256
      entryInd ||| (ip.byte (i - 1)).toNat <<< (if bitshift < 0 then 0 else bitshift).toNat)
    0

/-- `simulate_add_step`: 1 with the next table, or 0; with the number of groups
that are needed. -/
def simulateAddStep (lpm : RteLpm6) (tbl : Option ℕ) (ip : RteIpv6Addr)
    (bytes firstByte depth : ℕ) : Int × Option ℕ × ℕ :=
  let e := lpm.entry tbl (getBitshift ip firstByte bytes)
  let bitsCovered := (bytes + firstByte - 1) * 8
  if depth ≤ bitsCovered then (0, none, 0)
  else if ¬ e.valid ∨ ¬ e.extEntry then
    let depth := depth - bitsCovered
    (0, none, depth >>> 3 + if depth &&& 7 ≠ 0 then 1 else 0)
  else (1, some e.nextHop, 0)

/-- The loop of `simulate_add`, `n` bytes before the end of the address. -/
def simulateLoop (lpm : RteLpm6) (ip : RteIpv6Addr) (depth : ℕ) :
    ℕ → Int × Option ℕ × ℕ → ℕ
  | 0, r => r.2.2
  | n + 1, r =>
    if r.1 = 1 then
      let s := simulateAddStep lpm r.2.1 ip 1 (16 - n) depth
      simulateLoop lpm ip depth n (s.1, s.2.1, r.2.2 + s.2.2)
    else r.2.2

/-- The number of groups that an addition needs (`total_need_tbl_nb`). -/
def totalNeed (lpm : RteLpm6) (maskedIp : RteIpv6Addr) (depth : ℕ) : ℕ :=
  simulateLoop lpm maskedIp depth 13 (simulateAddStep lpm none maskedIp 3 1 depth)

/-- **`simulate_add`.** -/
def simulateAdd (lpm : RteLpm6) (maskedIp : RteIpv6Addr) (depth : ℕ) : Int :=
  if tbl8Available lpm < totalNeed lpm maskedIp depth then -enospc else 0

/-- **`expand_rule`**: an entry of the group and of those below it that is not
valid, or of a rule of depth up to `oldDepth`, is given the new value. There
are groups for thirteen bytes of an address, and no more groups one below the
other. -/
def expandRule : ℕ → RteLpm6 → ℕ → ℕ → RteLpm6TblEntry → Option RteLpm6
  | 0, _, _, _, _ => none
  | fuel + 1, lpm, t, oldDepth, newTbl8Entry =>
    Loop.times 256
      (fun j s => do
        let lpm ← s
        let e := lpm.entry (some t) j
        if ¬ e.valid ∨ (¬ e.extEntry ∧ e.depth ≤ oldDepth) then
          some (lpm.setEntry (some t) j newTbl8Entry)
        else if e.extEntry then expandRule fuel lpm e.nextHop oldDepth newTbl8Entry
        else some lpm)
      (some lpm)

/-- The loop of `add_step` over the entries of a rule in a table, and over the
groups below them. -/
def expandRange (lpm : RteLpm6) (tbl : Option ℕ) (entryInd tblRange oldDepth : ℕ)
    (newTblEntry : RteLpm6TblEntry) : Option RteLpm6 :=
  Loop.times tblRange
    (fun n s => do
      let lpm ← s
      let e := lpm.entry tbl (entryInd + n)
      if ¬ e.valid ∨ (¬ e.extEntry ∧ e.depth ≤ oldDepth) then
        some (lpm.setEntry tbl (entryInd + n) newTblEntry)
      else if e.extEntry then expandRule 13 lpm e.nextHop oldDepth newTblEntry
      else some lpm)
    (some lpm)

/-- A new group for an entry of a table, filled with what the entry held: the
answer is 0, or `-ENOSPC`. -/
def newTbl8 (lpm : RteLpm6) (tbl : Option ℕ) (entryInd : ℕ) (fill : RteLpm6TblEntry) :
    Int × RteLpm6 :=
  match tbl8Get lpm with
  | none => (-enospc, lpm)
  | some (t, lpm) =>
    let lpm := { lpm with
      tbl8 := Loop.mapRange (t * 256) 256 (fun _ => fill) lpm.tbl8
      -- `init_tbl8_header`
      tbl8Hdrs := Function.update lpm.tbl8Hdrs t ⟨tbl, entryInd, 0⟩ }
    let lpm := lpm.setEntry tbl entryInd (tblEntry t 0 true true)
    (0, lpm.incRefCnt tbl)

/-- **`add_step`**: 0, an error, or 1 with the next table. -/
def addStep (lpm : RteLpm6) (tbl : Option ℕ) (ip : RteIpv6Addr) (bytes firstByte depth : ℕ)
    (nextHop : ℕ) (isNewRule : Bool) : Option (Int × Option ℕ × RteLpm6) :=
  let entryInd := getBitshift ip firstByte bytes
  let bitsCovered := (bytes + firstByte - 1) * 8
  if depth ≤ bitsCovered then do
    let lpm ← expandRange lpm tbl entryInd (1 <<< (bitsCovered - depth)) depth
      (tblEntry nextHop depth true false)
    some (0, none, if isNewRule then lpm.incRefCnt tbl else lpm)
  else
    let e := lpm.entry tbl entryInd
    let r :=
      if ¬ e.valid then newTbl8 lpm tbl entryInd zeroEntry
      else if ¬ e.extEntry then
        newTbl8 lpm tbl entryInd (tblEntry e.nextHop e.depth true false)
      else (0, lpm)
    if r.1 ≠ 0 then some (r.1, none, r.2)
    else some (1, some (r.2.entry tbl entryInd).nextHop, r.2)

/-- The loop of `rte_lpm6_add`, `n` bytes before the end of the address. -/
def addLoop (ip : RteIpv6Addr) (depth nextHop : ℕ) (isNewRule : Bool) :
    ℕ → Int × Option ℕ × RteLpm6 → Option (Int × RteLpm6)
  | 0, (status, _, lpm) => some (status, lpm)
  | n + 1, (status, tbl, lpm) =>
    if status = 1 then do
      let r ← addStep lpm tbl ip 1 (16 - n) depth nextHop isNewRule
      -- `assert(status >= 0)`
      if r.1 < 0 then none else addLoop ip depth nextHop isNewRule n r
    else some (status, lpm)

/-- **`rte_lpm6_add`.** -/
def rteLpm6Add (lpm : RteLpm6) (ip : RteIpv6Addr) (depth : UInt8) (nextHop : UInt32) :
    Option (Int × RteLpm6) :=
  if depth < 1 ∨ depth > 128 then some (-einval, lpm)
  else
    let maskedIp := rteIpv6AddrMask ip depth.toNat
    let ret := simulateAdd lpm maskedIp depth.toNat
    if ret < 0 then some (ret, lpm)
    else
      let r := ruleAdd lpm maskedIp depth nextHop
      if r.1 < 0 then some r
      else do
        let isNewRule := decide (r.1 ≠ 0)
        let s ← addStep r.2 none maskedIp 3 1 depth.toNat nextHop.toNat isNewRule
        -- `assert(status >= 0)`
        if s.1 < 0 then none
        else addLoop maskedIp depth.toNat nextHop.toNat isNewRule 13 s

/-! ## Lookups -/

/-- The loop of `rte_lpm6_lookup`, from an entry on; the next byte is the
`firstByte`-th. An address has no byte for the entry that a `firstByte` of 17
would be for. -/
def lookupLoop (lpm : RteLpm6) (ip : RteIpv6Addr) :
    ℕ → RteLpm6TblEntry → ℕ → Option (Int × ℕ)
  | 0, _, _ => none
  | fuel + 1, e, firstByte =>
    if e.valid ∧ e.extEntry then
      lookupLoop lpm ip fuel (lpm.entry (some e.nextHop) (ip.byte (firstByte - 1)).toNat)
        (firstByte + 1)
    else some (if e.valid then 0 else -enoent, e.nextHop)

/-- **`rte_lpm6_lookup`**: the status, and what is stored as the next hop. -/
def rteLpm6Lookup (lpm : RteLpm6) (ip : RteIpv6Addr) : Option (Int × ℕ) :=
  let tbl24Index :=
    (ip.byte 0).toNat <<< 16 ||| (ip.byte 1).toNat <<< 8 ||| (ip.byte 2).toNat
  lookupLoop lpm ip 14 (lpm.entry none tbl24Index) 4

/-! ## Deletions -/

/-- `depth_to_mask_1b`. -/
def depthToMask1b (depth : ℕ) : UInt8 := ((-128 : Int8) >>> Int8.ofNat (depth - 1)).toUInt8

/-- The loop of `rule_find_less_specific`, for the depths below `depth`: the
depth and the next hop of the rule. -/
def ruleFindLessSpecific (lpm : RteLpm6) : ℕ → RteIpv6Addr → Option (ℕ × UInt32)
  | 0, _ => none
  | depth + 1, ip =>
    if depth = 0 then none
    else
      let mask := depth &&& 7
      let mask := if mask > 0 then depthToMask1b mask else 0
      let ip := ip.setByte (depth >>> 3) (ip.byte (depth >>> 3) &&& mask)
      match ruleFind lpm ip (UInt8.ofNat depth) with
      | some nextHop => some (depth, nextHop)
      | none => ruleFindLessSpecific lpm depth ip

/-- The loop of `rule_find_range` over the groups: the group in which a rule
ends, with the byte of the address and the depth that are left for it. -/
def ruleFindGroup (lpm : RteLpm6) (ip : RteIpv6Addr) : ℕ → ℕ → ℕ → ℕ → Option (ℕ × ℕ × ℕ)
  | 0, _, _, _ => none
  | fuel + 1, t, byte, depth =>
    if depth > 8 then
      let e := lpm.entry (some t) (ip.byte byte).toNat
      -- `assert(tbl->ext_entry == 1)`
      if ¬ e.extEntry then none else ruleFindGroup lpm ip fuel e.nextHop (byte + 1) (depth - 8)
    else some (t, byte, depth)

/-- **`rule_find_range`**: the table in which a rule ends, the index of the
first of its entries there, and their number. -/
def ruleFindRange (lpm : RteLpm6) (ip : RteIpv6Addr) (depth : ℕ) : Option (Option ℕ × ℕ × ℕ) :=
  let first3bytes :=
    (ip.byte 0).toNat <<< 16 ||| (ip.byte 1).toNat <<< 8 ||| (ip.byte 2).toNat
  if depth ≤ 24 then some (none, first3bytes, 1 <<< (24 - depth))
  else
    let e := lpm.tbl24 first3bytes
    -- `assert(tbl->ext_entry == 1)`
    if ¬ e.extEntry then none
    else do
      let (t, byte, depth) ← ruleFindGroup lpm ip 13 e.nextHop 3 (depth - 24)
      some (some t, (ip.byte byte &&& depthToMask1b depth).toNat, 1 <<< (8 - depth))

/-- **`remove_tbl`**: the group goes back to the pool, and the entry it belonged
to is given the new value; but first the group of that entry goes, if this was
its last reference. -/
def removeTbl : ℕ → RteLpm6 → ℕ → RteLpm6TblEntry → Option RteLpm6
  | 0, _, _, _ => none
  | fuel + 1, lpm, t, newTblEntry => do
    let hdr := lpm.tbl8Hdrs t
    let lpm ←
      match hdr.ownerTblInd with
      | none => some lpm
      | some o =>
        let refCnt := (lpm.tbl8Hdrs o).refCnt - 1
        let lpm := lpm.setRefCnt o refCnt
        if refCnt = 0 then removeTbl fuel lpm o newTblEntry else some lpm
    -- `assert(owner_entry->ext_entry == 1)`
    if ¬ (lpm.entry hdr.ownerTblInd hdr.ownerEntryInd).extEntry then none
    else some (tbl8Put (lpm.setEntry hdr.ownerTblInd hdr.ownerEntryInd newTblEntry) t)

/-- The loop of `rte_lpm6_delete` over the entries of a rule, and over the
groups below them. -/
def deleteRange (lpm : RteLpm6) (tbl : Option ℕ) (from' count depth : ℕ)
    (newTblEntry : RteLpm6TblEntry) : Option RteLpm6 :=
  Loop.times count
    (fun n s => do
      let lpm ← s
      let e := lpm.entry tbl (from' + n)
      if e.extEntry then expandRule 13 lpm e.nextHop depth newTblEntry
      else if e.depth = depth then some (lpm.setEntry tbl (from' + n) newTblEntry)
      else some lpm)
    (some lpm)

/-- **`rte_lpm6_delete`.** -/
def rteLpm6Delete (lpm : RteLpm6) (ip : RteIpv6Addr) (depth : UInt8) : Option (Int × RteLpm6) :=
  if depth < 1 ∨ depth > 128 then some (-einval, lpm)
  else
    let maskedIp := rteIpv6AddrMask ip depth.toNat
    let r := ruleDelete lpm maskedIp depth
    if r.1 < 0 then some (-enoent, r.2)
    else do
      let lpm := r.2
      let (tbl, start, count) ← ruleFindRange lpm maskedIp depth.toNat
      let newTblEntry :=
        match ruleFindLessSpecific lpm depth.toNat maskedIp with
        | some (depth, nextHop) => tblEntry nextHop.toNat depth true false
        | none => tblEntry 0 0 false false
      match tbl with
      | none => (deleteRange lpm none start count depth.toNat newTblEntry).map (fun lpm => (0, lpm))
      | some t =>
        let refCnt := (lpm.tbl8Hdrs t).refCnt - 1
        let lpm := lpm.setRefCnt t refCnt
        if refCnt = 0 then (removeTbl 14 lpm t newTblEntry).map (fun lpm => (0, lpm))
        else
          (deleteRange lpm (some t) start count depth.toNat newTblEntry).map (fun lpm => (0, lpm))

/-- The tables without entries, and all groups in the pool. -/
def clearTables (lpm : RteLpm6) : RteLpm6 :=
  tbl8PoolInit
    { lpm with
      tbl24 := Loop.mapRange 0 (2 ^ 24) (fun _ => zeroEntry) lpm.tbl24
      tbl8 := Loop.mapRange 0 (256 * lpm.numberTbl8s) (fun _ => zeroEntry) lpm.tbl8 }

/-- `rebuild_lpm`: the rules are added again, in the order in which the hash
table gives them back. -/
def rebuildLpm (lpm : RteLpm6) : List RteLpm6Rule → Option RteLpm6
  | [] => some lpm
  | r :: rules => do
    let s ← rteLpm6Add lpm r.ip r.depth r.nextHop
    rebuildLpm s.2 rules

/-- The first loop of `rte_lpm6_delete_bulk_func`. -/
def ruleDeletes (lpm : RteLpm6) : List (RteIpv6Addr × UInt8) → RteLpm6
  | [] => lpm
  | (ip, depth) :: keys =>
    ruleDeletes (ruleDelete lpm (rteIpv6AddrMask ip depth.toNat) depth).2 keys

/-- **`rte_lpm6_delete_bulk_func`.** -/
def rteLpm6DeleteBulkFunc (lpm : RteLpm6) (keys : List (RteIpv6Addr × UInt8))
    (iteration : Iteration) : Option (Int × RteLpm6) :=
  let lpm := ruleDeletes lpm keys
  (rebuildLpm (clearTables lpm) (iteration.order lpm.rulesTbl)).map (fun lpm => (0, lpm))

/-- **`rte_lpm6_delete_all`.** -/
def rteLpm6DeleteAll (lpm : RteLpm6) : RteLpm6 :=
  { clearTables { lpm with usedRules := 0 } with rulesTbl := [] }

end Lpm6
