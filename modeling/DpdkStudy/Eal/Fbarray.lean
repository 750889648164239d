import DpdkStudy.Lib.WordRuns

/-!
# Searching an indexed array

The searches of `lib/eal/common/eal_common_fbarray.c` for entries that are used or free. An
array keeps a bit for each entry in masks of 64 bits (`struct used_mask`); the last mask can
have bits that belong to no entry, and they may be anything.

An array has at most `INT_MAX` entries, so that no index and no length is too large for the
32 bits of an `unsigned int`; they are numbers here.
-/

namespace Eal

open WordRuns

/-- **An array** (`struct rte_fbarray`), as far as the searches read it: its length, and the
masks behind its data. -/
structure RteFbarray where
  len : ℕ
  data : ℕ → BitVec 64

/-! ## Masks -/

/-- `MASK_LEN_TO_IDX`, where `MASK_ALIGN` is 64. -/
def maskLenToIdx (x : ℕ) : ℕ := x / 64

/-- `MASK_LEN_TO_MOD`. -/
def maskLenToMod (x : ℕ) : ℕ := x % 64

/-- `MASK_GET_IDX`. -/
def maskGetIdx (idx mod : ℕ) : ℕ := 64 * idx + mod

/-- What `rte_errno` is set to when nothing is found. -/
inductive Errno
  | enoent
  | enospc
deriving DecidableEq, Repr

/-- `used ? ENOENT : ENOSPC`. -/
def notFound (used : Bool) : Errno := if used then .enoent else .enospc

/-- What a search returns: an index, or -1 and an error. -/
abbrev Found := Except Errno ℕ

/-- The index, or the error. -/
def found (used : Bool) : Option ℕ → Found
  | some i => .ok i
  | none => .error (notFound used)

namespace RteFbarray

variable (arr : RteFbarray)

/-- `n_masks`, as the array has been initialised. -/
def nMasks : ℕ := maskLenToIdx ((arr.len + 63) / 64 * 64)

/-- A mask, inverted if free entries are looked for. -/
def curMsk (used : Bool) (idx : ℕ) : BitVec 64 := if used then arr.data idx else ~~~arr.data idx

/-- What is left of the last mask: the bits that belong to entries. -/
def lastMsk : BitVec 64 := ~~~(BitVec.allOnes 64 <<< maskLenToMod arr.len)

/-- The mask that a forward search looks at, without the bits behind the last entry. -/
def nextMsk (used : Bool) (idx : ℕ) : BitVec 64 :=
  if idx = maskLenToIdx arr.len then arr.curMsk used idx &&& arr.lastMsk else arr.curMsk used idx

end RteFbarray

/-- What a forward search leaves of its first mask. -/
def firstMskNext (start : ℕ) : BitVec 64 := ~~~(1#64 <<< maskLenToMod start - 1)

/-- What a backward search leaves of its first mask. -/
def firstMskPrev (start : ℕ) : BitVec 64 :=
  if maskLenToMod start = 63 then BitVec.allOnes 64
  else ~~~(BitVec.allOnes 64 <<< (maskLenToMod start + 1))

/-! ## Searching forwards -/

/-- The loop of `find_next_n` over `m` masks from one on. -/
def findNextNFrom (cur : ℕ → BitVec 64) (n : ℕ) : ℕ → ℕ → Bool → ℕ → ℕ → Option ℕ
  | 0, _, _, _, _ => none
  | m + 1, msk_idx, run_started, run_start, left =>
    let cur_msk := cur msk_idx
    -- an active previous run, and the first bit of what is left of the mask
    if run_started ∧ (runsRight (min left 64 - 1) cur_msk).getLsbD 0 then
      let left := left - min left 64
      if left = 0 then some run_start
      else findNextNFrom cur n m (msk_idx + 1) true run_start left
    else
      -- the run is lost
      let left := if run_started then n else left
      let need := min left 64
      let tmp_msk := runsRight (need - 1) cur_msk
      if tmp_msk ≠ 0 then
        let run_start := maskGetIdx msk_idx tmp_msk.ctz.toNat
        let left := left - need
        if left = 0 then some run_start
        else findNextNFrom cur n m (msk_idx + 1) true run_start left
      else
        let clz := (~~~cur_msk).clz.toNat
        if clz = 0 then findNextNFrom cur n m (msk_idx + 1) false run_start left
        -- a partial run at the end
        else findNextNFrom cur n m (msk_idx + 1) true (maskGetIdx msk_idx (64 - clz))
          (left - clz)

/-- **`find_next_n`**. -/
def findNextN (arr : RteFbarray) (start n : ℕ) (used : Bool) : Found :=
  let first := maskLenToIdx start
  let cur := fun idx =>
    if idx = first then arr.nextMsk used idx &&& firstMskNext start else arr.nextMsk used idx
  found used (findNextNFrom cur n (arr.nMasks - first) first false 0 n)

/-- The loop of `find_next`. -/
def findNextFrom (cur : ℕ → BitVec 64) : ℕ → ℕ → Option ℕ
  | 0, _ => none
  | m + 1, idx =>
    if cur idx = 0 then findNextFrom cur m (idx + 1)
    else some (maskGetIdx idx (cur idx).ctz.toNat)

/-- **`find_next`**. -/
def findNext (arr : RteFbarray) (start : ℕ) (used : Bool) : Found :=
  let first := maskLenToIdx start
  let cur := fun idx =>
    if idx = first then arr.nextMsk used idx &&& firstMskNext start else arr.nextMsk used idx
  found used (findNextFrom cur (arr.nMasks - first) first)

/-- The loop of `find_contig`, with the length of the run so far. -/
def findContigFrom (arr : RteFbarray) (used : Bool) (start : ℕ) : ℕ → ℕ → ℕ → ℕ
  | 0, _, result => result
  | m + 1, idx, result =>
    let first := idx = maskLenToIdx start
    let need_len := if first then 64 - maskLenToMod start else 64
    let cur := ~~~(if first then arr.nextMsk used idx >>> maskLenToMod start
      else arr.nextMsk used idx)
    if cur = 0 then findContigFrom arr used start m (idx + 1) (result + need_len)
    else if cur.ctz.toNat < need_len then result + cur.ctz.toNat
    else findContigFrom arr used start m (idx + 1) (result + need_len)

/-- **`find_contig`**. -/
def findContig (arr : RteFbarray) (start : ℕ) (used : Bool) : ℕ :=
  findContigFrom arr used start (arr.nMasks - maskLenToIdx start) (maskLenToIdx start) 0

/-! ## Searching backwards -/

/-- The loop of `find_prev_n` over the masks below one. -/
def findPrevNFrom (cur : ℕ → BitVec 64) (n : ℕ) : ℕ → Bool → ℕ → ℕ → Option ℕ
  | 0, _, _, _ => none
  | msk_idx + 1, run_started, run_end, left =>
    let cur_msk := cur msk_idx
    -- an active previous run, and the last bit of what is left of the mask
    if run_started ∧ (runsLeft (min left 64 - 1) cur_msk).getLsbD 63 then
      let left := left - min left 64
      if left = 0 then some (run_end - n) else findPrevNFrom cur n msk_idx true run_end left
    else
      -- the run is lost
      let left := if run_started then n else left
      let need := min left 64
      let tmp_msk := runsLeft (need - 1) cur_msk
      if tmp_msk ≠ 0 then
        let run_end := maskGetIdx msk_idx (64 - tmp_msk.clz.toNat)
        let left := left - need
        if left = 0 then some (run_end - n) else findPrevNFrom cur n msk_idx true run_end left
      else
        let ctz := (~~~cur_msk).ctz.toNat
        if ctz = 0 then findPrevNFrom cur n msk_idx false run_end left
        -- a partial run at the beginning
        else findPrevNFrom cur n msk_idx true (maskGetIdx msk_idx ctz) (left - ctz)

/-- **`find_prev_n`**. -/
def findPrevN (arr : RteFbarray) (start n : ℕ) (used : Bool) : Found :=
  let first := maskLenToIdx start
  let cur := fun idx =>
    if idx = first then arr.curMsk used idx &&& firstMskPrev start else arr.curMsk used idx
  found used (findPrevNFrom cur n (first + 1) false 0 n)

/-- The loop of `find_prev`. -/
def findPrevFrom (cur : ℕ → BitVec 64) : ℕ → Option ℕ
  | 0 => none
  | idx + 1 =>
    if cur idx = 0 then findPrevFrom cur idx
    else some (maskGetIdx idx (64 - (cur idx).clz.toNat - 1))

/-- **`find_prev`**. -/
def findPrev (arr : RteFbarray) (start : ℕ) (used : Bool) : Found :=
  let first := maskLenToIdx start
  let cur := fun idx =>
    if idx = first then arr.curMsk used idx &&& firstMskPrev start else arr.curMsk used idx
  found used (findPrevFrom cur (first + 1))

/-- The loop of `find_rev_contig`. -/
def findRevContigFrom (arr : RteFbarray) (used : Bool) (start : ℕ) : ℕ → ℕ → ℕ
  | 0, result => result
  | idx + 1, result =>
    let first := idx = maskLenToIdx start
    let end_len := if first then 64 - maskLenToMod start - 1 else 0
    let need_len := 64 - end_len
    let cur := ~~~(if first then arr.curMsk used idx <<< end_len else arr.curMsk used idx)
    if cur = 0 then findRevContigFrom arr used start idx (result + need_len)
    else if cur.clz.toNat < need_len then result + cur.clz.toNat
    else findRevContigFrom arr used start idx (result + need_len)

/-- **`find_rev_contig`**. -/
def findRevContig (arr : RteFbarray) (start : ℕ) (used : Bool) : ℕ :=
  findRevContigFrom arr used start (maskLenToIdx start + 1) 0

end Eal
