import DpdkStudy.Fib.LongestMatch
import Mathlib.Data.Nat.Digits.Defs

/-!
# The lookups of the FIB

Some lookups of `lib/fib/dir24_8.h` read the tables as arrays of the type of
their entries, and some cut the entries out of 64-bit words. Those that
`dir24_8_get_lookup_fn` has on a processor without vectors, for addresses in
the order of the host, all write the next hops of the longest matches.
-/

namespace Fib

open Function
open Runs (run Along)
open Prefix

/-! ## Words -/

/-- A 64-bit word of a table, on a little-endian host. -/
def word (table : ℕ → ℕ) (nhSz : NhSz) (i : ℕ) : ℕ :=
  Nat.ofDigits (2 ^ bitsInNh nhSz)
    ((List.range (2 ^ (3 - nhSz.val))).map fun k => table (i * 2 ^ (3 - nhSz.val) + k))

/-- `get_tbl24_idx`. -/
def getTbl24Idx (ip : UInt32) : UInt32 := ip >>> 8

/-- `get_tbl8_idx`. -/
def getTbl8Idx (res ip : UInt32) : UInt32 := (res >>> 1) * 256 + ip.toUInt8.toUInt32

/-- `lookup_msk`. -/
def lookupMsk (nhSz : NhSz) : UInt64 := (1 <<< UInt64.ofNat (2 ^ (nhSz.val + 3) - 1)) <<< 1 - 1

/-- `get_psd_idx`. -/
def getPsdIdx (val : UInt32) (nhSz : NhSz) : ℕ := val.toNat &&& 2 ^ (3 - nhSz.val) - 1

/-- `get_tbl_idx`. -/
def getTblIdx (val : UInt32) (nhSz : NhSz) : ℕ := val.toNat >>> (3 - nhSz.val)

/-- An entry, cut out of its word. -/
def getEntry (table : ℕ → ℕ) (idx : UInt32) (nhSz : NhSz) : ℕ :=
  word table nhSz (getTblIdx idx nhSz) >>> (getPsdIdx idx nhSz * bitsInNh nhSz)
    &&& (lookupMsk nhSz).toNat

variable (dp : Dir24_8Tbl)

/-- `get_tbl24`. -/
def getTbl24 (ip : UInt32) (nhSz : NhSz) : ℕ := getEntry dp.tbl24 (getTbl24Idx ip) nhSz

/-- `get_tbl8`. -/
def getTbl8 (res ip : UInt32) (nhSz : NhSz) : ℕ := getEntry dp.tbl8 (getTbl8Idx res ip) nhSz

/-- The lookup of an address in the words of the tables. -/
def lookupWord (nhSz : NhSz) (ip : UInt32) : ℕ :=
  let tmp := getTbl24 dp ip nhSz
  if tmp % 2 = 1 then getTbl8 dp (UInt32.ofNat tmp) ip nhSz / 2 else tmp / 2

/-! ## The lookups -/

/-- `rte_fib_lookup_fn_t`: the next hops after a lookup of the addresses. -/
abbrev LookupFn := (ℕ → UInt32) → ℕ → (ℕ → ℕ) → ℕ → ℕ

/-- The two loops of a lookup: the second is over as many addresses as were
prefetched at first. -/
def lookupBulk (look : UInt32 → ℕ) (bulkPrefetch : ℕ) : LookupFn := fun ips n nextHops =>
  let prefetchOffset := min bulkPrefetch n
  let store := fun i nextHops => update nextHops i (look (ips i))
  Loop.times prefetchOffset (fun k => store (n - prefetchOffset + k))
    (Loop.times (n - prefetchOffset) store nextHops)

/-- `dir24_8_lookup_bulk_1b`. -/
def dir24_8LookupBulk1b := lookupBulk (dir24_8Lookup dp) 5

/-- `dir24_8_lookup_bulk_2b`. -/
def dir24_8LookupBulk2b := lookupBulk (dir24_8Lookup dp) 6

/-- `dir24_8_lookup_bulk_4b`. -/
def dir24_8LookupBulk4b := lookupBulk (dir24_8Lookup dp) 15

/-- `dir24_8_lookup_bulk_8b`. -/
def dir24_8LookupBulk8b := lookupBulk (dir24_8Lookup dp) 12

/-- `dir24_8_lookup_bulk`; `_0` to `_3` give it the size of an entry. -/
def dir24_8LookupBulk (nhSz : NhSz) := lookupBulk (lookupWord dp nhSz) 15

/-- `dir24_8_lookup_bulk_uni`. -/
def dir24_8LookupBulkUni := lookupBulk (lookupWord dp dp.nhSz) 15

/-- `get_scalar_fn`. -/
def getScalarFn : NhSz → LookupFn
  | .b1 => dir24_8LookupBulk1b dp
  | .b2 => dir24_8LookupBulk2b dp
  | .b4 => dir24_8LookupBulk4b dp
  | .b8 => dir24_8LookupBulk8b dp

/-- `enum rte_fib_lookup_type`. -/
inductive LookupType
  | default
  | dir24_8ScalarMacro
  | dir24_8ScalarInline
  | dir24_8ScalarUni
  | dir24_8VectorAvx512

/-- **`dir24_8_get_lookup_fn`**, where there are no vectors. -/
def dir24_8GetLookupFn : LookupType → Option LookupFn
  | .default => some (getScalarFn dp dp.nhSz)
  | .dir24_8ScalarMacro => some (getScalarFn dp dp.nhSz)
  | .dir24_8ScalarInline => some (dir24_8LookupBulk dp dp.nhSz)
  | .dir24_8ScalarUni => some (dir24_8LookupBulkUni dp)
  | .dir24_8VectorAvx512 => none

variable {dp} {table : ℕ → ℕ} {nhSz : NhSz}

/-! ## One address -/

/-- **What is cut out of a word is the entry**, if the entries of the word are
of their type. -/
theorem getEntry_eq (idx : UInt32)
    (h : ∀ k < 2 ^ (3 - nhSz.val),
      table (idx.toNat / 2 ^ (3 - nhSz.val) * 2 ^ (3 - nhSz.val) + k) < 2 ^ bitsInNh nhSz) :
    getEntry table idx nhSz = table idx.toNat := by
  have hmsk : (lookupMsk nhSz).toNat = 2 ^ bitsInNh nhSz - 1 := by cases nhSz <;> rfl
  have hlt := Nat.mod_lt idx.toNat (Nat.two_pow_pos (3 - nhSz.val))
  have hentry := h _ hlt
  rw [Nat.div_add_mod'] at hentry
  rw [getEntry, hmsk, getPsdIdx, getTblIdx, Nat.and_two_pow_sub_one_eq_mod,
    Nat.and_two_pow_sub_one_eq_mod, Nat.shiftRight_eq_div_pow, Nat.shiftRight_eq_div_pow,
    Nat.mul_comm, Nat.pow_mul, word, Nat.ofDigits_div_pow_eq_ofDigits_drop _ (Nat.two_pow_pos _)]
  · rw [List.drop_eq_getElem_cons (by simpa using hlt), Nat.ofDigits_cons,
      Nat.add_mul_mod_self_left, List.getElem_map, List.getElem_range, Nat.div_add_mod',
      Nat.mod_eq_of_lt hentry]
  · simpa using h

theorem toNat_getTbl24Idx (ip : UInt32) : (getTbl24Idx ip).toNat = ip.toNat / 256 := by
  rw [getTbl24Idx, UInt32.toNat_shiftRight]
  exact Nat.shiftRight_eq_div_pow _ _

theorem toNat_getTbl8Idx {e : ℕ} (he : e / 2 < 2 ^ 24) (ip : UInt32) :
    (getTbl8Idx (UInt32.ofNat e) ip).toNat = e / 2 * 256 + ip.toNat % 256 := by
  have hlt : e < UInt32.size := by
    rw [UInt32.size]
    omega
  rw [getTbl8Idx, UInt32.toNat_add, UInt32.toNat_mul, UInt32.toNat_shiftRight,
    UInt32.toNat_ofNat_of_lt' hlt]
  show (e >>> 1 * 256 % 2 ^ 32 + ip.toNat % 256) % 2 ^ 32 = _
  rw [Nat.shiftRight_eq_div_pow, Nat.mod_add_mod]
  exact Nat.mod_eq_of_lt (by omega)

/-- A word holds entries of one group. -/
theorem exists_in_group (nhSz : NhSz) (i : ℕ) {k : ℕ} (hk : k < 2 ^ (3 - nhSz.val)) :
    ∃ j < 256, i / 2 ^ (3 - nhSz.val) * 2 ^ (3 - nhSz.val) + k = i / 256 * 256 + j := by
  refine ⟨i / 2 ^ (3 - nhSz.val) * 2 ^ (3 - nhSz.val) + k - i / 256 * 256, ?_⟩
  cases nhSz <;> simp only [NhSz.val] at hk ⊢ <;> omega

/-- **The words hold the same answer** as the arrays. -/
theorem lookupWord_eq (hs : Sound dp) (hf : Fits dp) (ip : UInt32) :
    lookupWord dp dp.nhSz ip = dir24_8Lookup dp ip := by
  have hip : ip.toNat / 256 < 2 ^ 24 := Nat.div_lt_of_lt_mul ip.toNat_lt
  have htbl24 : getTbl24 dp ip dp.nhSz = dp.tbl24 (ip.toNat / 256) := by
    rw [getTbl24, getEntry_eq, toNat_getTbl24Idx]
    intro k hk
    obtain ⟨j, hj, heq⟩ := exists_in_group dp.nhSz (getTbl24Idx ip).toNat hk
    rw [heq, toNat_getTbl24Idx]
    exact hs.lt _ (by omega)
  rw [lookupWord, dir24_8Lookup, htbl24]
  split
  · next hext =>
    have hgroup : dp.tbl24 (ip.toNat / 256) / 2 < 2 ^ 24 :=
      calc
        _ < dp.numberTbl8s.toNat := hs.index _ hip hext
        _ ≤ 2 ^ (24 - dp.nhSz.val) := hf.place
        _ ≤ 2 ^ 24 := Nat.pow_le_pow_right two_pos (Nat.sub_le _ _)
    rw [getTbl8, getEntry_eq, toNat_getTbl8Idx hgroup, Nat.add_comm]
    intro k hk
    obtain ⟨j, hj, heq⟩ := exists_in_group dp.nhSz
      (getTbl8Idx (UInt32.ofNat (dp.tbl24 (ip.toNat / 256))) ip).toNat hk
    rw [heq, toNat_getTbl8Idx hgroup, show (dp.tbl24 (ip.toNat / 256) / 2 * 256 + ip.toNat % 256)
      / 256 = dp.tbl24 (ip.toNat / 256) / 2 by omega]
    exact (hs.odd _ hip hext j hj).2
  · rfl

/-! ## All addresses -/

/-- **What a lookup writes.** -/
theorem lookupBulk_apply (look : UInt32 → ℕ) (off : ℕ) (ips : ℕ → UInt32) (n : ℕ)
    (nextHops : ℕ → ℕ) (k : ℕ) :
    lookupBulk look off ips n nextHops k = if k < n then look (ips k) else nextHops k := by
  have hfirst := Loop.times_update (fun i => look (ips i)) 0 (n - min off n) nextHops k
  simp only [Nat.zero_add] at hfirst
  rw [lookupBulk]
  dsimp only
  rw [Loop.times_update (fun i => look (ips i)), hfirst]
  split_ifs <;> first | rfl | omega

/-- **Every lookup writes what the tables say.** -/
theorem dir24_8GetLookupFn_apply (hs : Sound dp) (hf : Fits dp) {type : LookupType}
    {look : LookupFn} (hlook : dir24_8GetLookupFn dp type = some look) (ips : ℕ → UInt32)
    (n : ℕ) (nextHops : ℕ → ℕ) (k : ℕ) :
    look ips n nextHops k = if k < n then dir24_8Lookup dp (ips k) else nextHops k := by
  have hscalar : getScalarFn dp dp.nhSz ips n nextHops k
      = if k < n then dir24_8Lookup dp (ips k) else nextHops k := by
    cases dp.nhSz <;> exact lookupBulk_apply _ _ _ _ _ _
  have hword : ∀ off, lookupBulk (lookupWord dp dp.nhSz) off ips n nextHops k
      = if k < n then dir24_8Lookup dp (ips k) else nextHops k := fun off => by
    rw [lookupBulk_apply, lookupWord_eq hs hf]
  cases type with
  | default | dir24_8ScalarMacro => exact Option.some.inj hlook ▸ hscalar
  | dir24_8ScalarInline | dir24_8ScalarUni => exact Option.some.inj hlook ▸ hword 15
  | dir24_8VectorAvx512 => cases hlook

/-- **Every lookup writes the longest matches**: after calls as in
`lookup_eq_longest`, whichever lookup is chosen writes the next hop of the
longest route that covers it for each of the addresses, or the default next
hop, and nothing else. -/
theorem lookups_write_longest {nhSz : NhSz} {numTbl8 : UInt32} {defNh maxRoutes : ℕ}
    {dp : Dir24_8Tbl} (hcreate : dir24_8Create nhSz numTbl8 defNh = .ok dp)
    (hplace : dp.numberTbl8s.toNat ≤ 2 ^ (24 - nhSz.val)) {calls : List FibCall}
    (hsane : Along FibTrace.called Sane (FibTrace.fresh maxRoutes dp) calls) {t : FibTrace}
    (ht : run FibTrace.called (FibTrace.fresh maxRoutes dp) calls = t) {type : LookupType}
    {look : LookupFn} (hlook : dir24_8GetLookupFn t.fib.dp type = some look) (ips : ℕ → UInt32)
    (n : ℕ) (nextHops : ℕ → ℕ) (k : ℕ) :
    look ips n nextHops k
      = if k < n then hopOf defNh (longest 32 t.routes (ips k).toNat 33) else nextHops k := by
  have hagrees : Agrees defNh t :=
    ht ▸ hsane.invariant (fun t call ht hok => ht.called call hok) (fresh_agrees hcreate hplace)
  rw [dir24_8GetLookupFn_apply hagrees.shows.sound hagrees.shows.fits hlook, dir24_8Lookup_eq,
    hagrees.shows.answers _ (ips k).toNat_lt, hagrees.default]

/-- A route of 24 bits, and one of 25 bits in it, in the words of the tables. -/
theorem lookups_write_longest_two_routes :
    ∃ dp t look, dir24_8Create .b4 64 0 = .ok dp
      ∧ run FibTrace.called (FibTrace.fresh 8 dp)
        [.add 0x0a010200 24 1, .add 0x0a010280 25 2] = t
      ∧ dir24_8GetLookupFn t.fib.dp .dir24_8ScalarUni = some look
      ∧ look (fun _ => 0x0a010281) 20 (fun _ => 7) 19
        = hopOf 0 (longest 32 t.routes 0x0a010281 33) := by
  refine ⟨_, _, _, rfl, rfl, rfl, ?_⟩
  refine @lookups_write_longest .b4 64 0 8 _ rfl (by decide) _ ?_ _ rfl .dir24_8ScalarUni _ rfl _
    20 _ 19
  refine ⟨⟨by decide, fun _ => ?_, fun h => h.1 rfl⟩,
    ⟨by decide, fun _ => ?_, fun h => h.1 (by decide)⟩, trivial⟩
  · exact Tellable.of_none (fun _ _ _ => rfl)
  · refine Tellable.of_none (fun e p he => ?_)
    exact if_neg (fun hc => absurd hc.1 (Nat.ne_of_gt (lt_trans (by decide) he)))

end Fib
