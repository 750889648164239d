import Mathlib.Data.Set.Card
import DpdkStudy.Bitmap.Scan
import DpdkStudy.Lib.Runs

/-!
# What a bitmap holds over a run

A bitmap is made in some memory and used: bits and slabs are set, bits cleared,
all of them reset, and slabs scanned, in any order. After every such run it holds
the set of bits that the operations say (`bitmap_holds`), no index has left an
array, and scans go through the slabs that are not zero, around and around.

Three things have to be kept clear of. The footprint of the greatest numbers of
bits wraps, `rte_bitmap_init_with_all_set` compares the size of its memory the
wrong way, and a slab of zeros marks an empty line.
-/

namespace Bitmap

open Function Cyclic

/-- **How a bitmap is made.** -/
inductive Create
  | init
  | initWithAllSet
deriving DecidableEq, Repr

/-- The bitmap that is made in some memory, and no result where an index leaves an
array. -/
def Create.make (create : Create) (n_bits mem mem_size : ℕ) : Option (Option RteBitmap) :=
  match create with
  | init => some (rteBitmapInit n_bits mem mem_size)
  | initWithAllSet => rteBitmapInitWithAllSet n_bits mem mem_size

/-- The bits of a bitmap that has been made. -/
def Create.content (create : Create) (n_bits : ℕ) : Set ℕ :=
  match create with
  | init => ∅
  | initWithAllSet => {p | p < n_bits}

/-- **What is done with a bitmap.** -/
inductive Op
  | set (pos : ℕ)
  | setSlab (pos : ℕ) (slab : BitVec 64)
  | clear (pos : ℕ)
  | reset
  | scan

/-- **One operation**, no result where an index leaves an array. -/
def apply (bmp : RteBitmap) : Op → Option RteBitmap
  | .set pos => bmp.set pos
  | .setSlab pos slab => bmp.setSlab pos slab
  | .clear pos => bmp.clear pos
  | .reset => some bmp.reset
  | .scan => bmp.scan.map Prod.snd

/-- **What an operation makes of the set of bits.** -/
def content (bits : Set ℕ) : Op → Set ℕ
  | .set pos => insert pos bits
  | .setSlab pos slab =>
    bits ∪ {p | p / slabBitSize = pos / slabBitSize ∧ slab.getLsbD (p % slabBitSize) = true}
  | .clear pos => bits \ {pos}
  | .reset => ∅
  | .scan => bits

/-- The position of an operation is one of the bits. -/
def Within (n_bits : ℕ) : Op → Prop
  | .set pos => pos < n_bits
  | .setSlab pos _ => pos < n_bits
  | .clear pos => pos < n_bits
  | .reset => True
  | .scan => True

/-- **A slab of zeros** is set in a line only that is not empty. -/
def Marks (bmp : RteBitmap) : Op → Prop
  | .setSlab pos slab => slab ≠ 0 ∨ ∃ p, bmp.Has p ∧ p / clBitSize = pos / clBitSize
  | _ => True

/-- Some scans in a row, and what they return. -/
def scans : ℕ → RteBitmap → Option (List Scanned × RteBitmap)
  | 0, bmp => some ([], bmp)
  | n + 1, bmp =>
    bmp.scan.bind fun (out, bmp) => (scans n bmp).map fun (outs, bmp) => (out :: outs, bmp)

/-- **A bitmap holds a set of bits.** A bit is read as it is in the set. A line is
marked where it is not empty. A scan returns zero if the set is empty, and stores
a slab that is not zero otherwise, as it is in the set. Scans in a row go through
the slabs that are not zero in their order, around and around. -/
structure Holds (n_bits : ℕ) (bmp : RteBitmap) (bits : Set ℕ) : Prop where
  get : ∀ pos < n_bits, ∃ v, bmp.get pos = some v ∧ (v ≠ 0 ↔ pos ∈ bits)
  marked : ∀ j, bmp.Marked j ↔ ∃ p ∈ bits, p / clBitSize = j
  scan : ∃ out bmp', bmp.scan = some (out, bmp') ∧ (out.ret = 0 ↔ bits = ∅) ∧
    (out.ret ≠ 0 → ∃ r slab, out = ⟨1, some (slabBitSize * r, slab)⟩ ∧ slab ≠ 0 ∧
      ∀ o < slabBitSize, slab.getLsbD o = true ↔ slabBitSize * r + o ∈ bits)
  around : bits ≠ ∅ → ∃ k, ∀ n, ∃ bmp', scans n bmp = some ((List.range n).map (fun i =>
    let r := Nat.nth (fun i => ∃ p ∈ bits, p / slabBitSize = i)
      ((k + i) % {i | ∃ p ∈ bits, p / slabBitSize = i}.ncard)
    ⟨1, some (slabBitSize * r, bmp.array2 r)⟩), bmp')

variable {bmp bmp' : RteBitmap} {n_bits pos : ℕ} {bits : Set ℕ}

/-- **What every operation keeps.** -/
structure Inv (n_bits : ℕ) (bmp : RteBitmap) (bits : Set ℕ) : Prop where
  sized : Sized n_bits bmp
  summary : Summary bmp
  cursor : Cursor bmp
  has : ∀ p, bmp.Has p ↔ p ∈ bits

/-- Where a scan goes on does not matter to the bits. -/
theorem Inv.same (hi : Inv n_bits bmp bits) (hsame : SameBits bmp bmp') (hc : Cursor bmp') :
    Inv n_bits bmp' bits :=
  ⟨hsame.sized hi.sized, hsame.summary hi.summary, hc, fun p => by rw [hsame.has, hi.has]⟩

theorem Inv.full_iff (hi : Inv n_bits bmp bits) (i : ℕ) :
    bmp.Full i ↔ ∃ p ∈ bits, p / slabBitSize = i := by
  rw [Bitmap.full_iff]
  simp only [hi.has]

theorem scanInit_cursor (bmp : RteBitmap) {k : ℕ} (hk : k ≤ 17)
    (hsize : bmp.array1_size = 2 ^ k) : Cursor bmp.scanInit := by
  have hpow : bmp.array1_size ≤ 2 ^ 17 := by
    rw [hsize]
    exact Nat.pow_le_pow_right Nat.two_pos hk
  have hpos : 0 < bmp.array1_size := by
    rw [hsize]
    exact Nat.two_pow_pos k
  obtain ⟨array1, array2, array1_size, array2_size, index1, offset1, index2, go2⟩ := bmp
  change 0 < array1_size at hpos
  change array1_size ≤ 2 ^ 17 at hpow
  refine ⟨?_, ?_, fun h => absurd rfl h⟩
  · change (array1_size + (word32 - 1)) % word32 < array1_size
    simp only [word32]
    omega
  · change slabBitSize - 1 < slabBitSize
    decide

theorem setup_cursor (hpos : 0 < n_bits) (hmax : n_bits ≤ maxBits) (array1 array2 : ℕ → BitVec 64) :
    Cursor (setup (footprint n_bits) array1 array2) := by
  obtain ⟨⟨k, hk, hsize⟩, -⟩ := footprint_spec hpos hmax
  exact scanInit_cursor _ hk hsize

section

variable (hi : Inv n_bits bmp bits)

include hi

theorem Inv.orSlab (hpos : pos < n_bits) {slab : BitVec 64}
    (hslab : slab ≠ 0 ∨ ∃ p, bmp.Has p ∧ p / clBitSize = pos / clBitSize) :
    ∃ bmp', RteBitmap.markLine { bmp with
        array2 := update bmp.array2 (pos / slabBitSize)
          (bmp.array2 (pos / slabBitSize) ||| slab) } pos = some bmp' ∧
      Inv n_bits bmp' (bits ∪
        {p | p / slabBitSize = pos / slabBitSize ∧ slab.getLsbD (p % slabBitSize) = true}) := by
  have hlt := hi.sized.lt_array2 hpos
  obtain ⟨array1, hmark, hmarked⟩ := orSlab_spec hi.sized rfl hlt slab
  refine ⟨_, hmark, ⟨hi.sized.bits, hi.sized.lines, hi.sized.covered, hi.sized.pow, hi.sized.small⟩,
    hi.summary.orSlab hlt ?_ hmarked, ⟨hi.cursor.index1_lt, hi.cursor.offset1_lt, hi.cursor.inLine⟩,
    fun p => ?_⟩
  · refine hslab.imp_right ?_
    rintro ⟨p, hp, hline⟩
    rw [line_of_pos, line_of_pos] at hline
    exact ⟨_, Bitmap.full_iff.mpr ⟨p, hp, rfl⟩, hline⟩
  · rw [has_orSlab hlt, hi.has]
    rfl

/-- **Every operation keeps the bits as it says**, and its indexes in the
arrays. -/
theorem Inv.apply {op : Op} (hwithin : Within n_bits op) (hmarks : Marks bmp op) :
    ∃ bmp', Bitmap.apply bmp op = some bmp' ∧ Inv n_bits bmp' (content bits op) := by
  cases op with
  | set pos =>
    have hlt := hi.sized.lt_array2 hwithin
    have hmod : pos % slabBitSize < 64 := Nat.mod_lt _ (by decide)
    have hbit : ∀ o < 64, (1#64 <<< (pos % slabBitSize)).getLsbD o =
        decide (o = pos % slabBitSize) := by
      intro o ho
      have hor := getLsbD_or_bit 0#64 (o := pos % slabBitSize) ho
      rwa [BitVec.zero_or, BitVec.getLsbD_zero, Bool.false_or] at hor
    have hne : 1#64 <<< (pos % slabBitSize) ≠ 0 :=
      (ne_zero_iff _).mpr ⟨_, hmod, by rw [hbit _ hmod]; exact decide_eq_true rfl⟩
    obtain ⟨bmp', hset, hinv⟩ := hi.orSlab hwithin (Or.inl hne)
    refine ⟨bmp', by rw [Bitmap.apply, RteBitmap.set, if_pos hlt, hset], ?_⟩
    have hcontent : bits ∪ {p | p / slabBitSize = pos / slabBitSize ∧
        (1#64 <<< (pos % slabBitSize)).getLsbD (p % slabBitSize) = true} = insert pos bits := by
      ext p
      have hpmod : p % slabBitSize < 64 := Nat.mod_lt _ (by decide)
      rw [Set.mem_union, Set.mem_insert_iff, Set.mem_ofPred_eq, hbit _ hpmod, decide_eq_true_eq,
        or_comm]
      refine or_congr_left ?_
      simp only [slabBitSize]
      omega
    rw [content, ← hcontent]
    exact hinv
  | setSlab pos slab =>
    have hlt := hi.sized.lt_array2 hwithin
    obtain ⟨bmp', hset, hinv⟩ := hi.orSlab hwithin hmarks
    exact ⟨bmp', by rw [Bitmap.apply, RteBitmap.setSlab, if_pos hlt, hset], hinv⟩
  | clear pos =>
    obtain ⟨array1, array2, hclear, hsum, hhas⟩ :=
      clear_spec hi.sized hi.summary (hi.sized.lt_array2 hwithin)
    refine ⟨_, hclear,
      ⟨hi.sized.bits, hi.sized.lines, hi.sized.covered, hi.sized.pow, hi.sized.small⟩, hsum,
      ⟨hi.cursor.index1_lt, hi.cursor.offset1_lt, hi.cursor.inLine⟩, fun p => ?_⟩
    rw [hhas, hi.has, content, Set.mem_sdiff, Set.mem_singleton_iff, and_comm]
  | reset =>
    obtain ⟨k, hk, hsize⟩ := hi.sized.pow
    refine ⟨_, rfl,
      ⟨hi.sized.bits, hi.sized.lines, hi.sized.covered, hi.sized.pow, hi.sized.small⟩,
      summary_zero rfl rfl, scanInit_cursor _ hk hsize, fun p => ?_⟩
    simp only [content, Set.mem_empty_iff_false, iff_false]
    exact not_has_zero rfl p
  | scan =>
    rw [Bitmap.apply]
    rcases scan_spec hi.sized hi.summary hi.cursor with ⟨-, bmp', hscan, hsame, hc⟩ |
      ⟨r, bmp', hscan, hsame, hc, -⟩
    · exact ⟨bmp', by rw [hscan]; rfl, hi.same hsame hc⟩
    · exact ⟨bmp', by rw [hscan]; rfl, hi.same hsame hc⟩

/-! ## Runs -/

/-- The bits after a run are what the operations make of those before. -/
theorem Inv.run {ops : List Op}
    (halong : Runs.AlongOption Bitmap.apply (fun bmp op => Within n_bits op ∧ Marks bmp op) bmp ops)
    :
    ∃ bmp', Runs.runOption Bitmap.apply bmp ops = some bmp' ∧
      Inv n_bits bmp' (ops.foldl content bits) := by
  induction ops generalizing bmp bits with
  | nil => exact ⟨bmp, rfl, hi⟩
  | cons op ops ih =>
    obtain ⟨⟨hwithin, hmarks⟩, hrest⟩ := halong
    obtain ⟨bmp₁, happly, hi₁⟩ := hi.apply hwithin hmarks
    obtain ⟨bmp', hrun, hi'⟩ := ih hi₁ (hrest bmp₁ happly)
    exact ⟨bmp', by rw [Runs.runOption, happly, Option.bind_some, hrun], hi'⟩

/-! ## Reading what a bitmap holds -/

theorem Inv.get (hpos : pos < n_bits) :
    ∃ v, bmp.get pos = some v ∧ (v ≠ 0 ↔ pos ∈ bits) := by
  have hlt := hi.sized.lt_array2 hpos
  have hmod : pos % slabBitSize < 64 := Nat.mod_lt _ (by decide)
  refine ⟨_, by rw [RteBitmap.get, if_pos hlt], ?_⟩
  rw [← hi.has pos, RteBitmap.Has, ne_zero_iff]
  have hbit : ∀ o < 64, (bmp.array2 (pos / slabBitSize) &&& 1#64 <<< (pos % slabBitSize)).getLsbD
      o = ((bmp.array2 (pos / slabBitSize)).getLsbD o && decide (o = pos % slabBitSize)) := by
    intro o ho
    have hor := getLsbD_or_bit 0#64 (o := pos % slabBitSize) ho
    rw [BitVec.zero_or, BitVec.getLsbD_zero, Bool.false_or] at hor
    rw [BitVec.getLsbD_and, hor]
  constructor
  · rintro ⟨o, ho, h⟩
    rw [hbit o ho, Bool.and_eq_true, decide_eq_true_eq] at h
    exact ⟨hlt, h.2 ▸ h.1⟩
  · rintro ⟨-, h⟩
    exact ⟨_, hmod, by rw [hbit _ hmod, h]; simp⟩

theorem Inv.marked (j : ℕ) :
    bmp.Marked j ↔ ∃ p ∈ bits, p / clBitSize = j := by
  rw [hi.summary j]
  simp only [hi.full_iff, line_of_pos]
  constructor
  · rintro ⟨i, ⟨p, hp, rfl⟩, rfl⟩
    exact ⟨p, hp, rfl⟩
  · rintro ⟨p, hp, rfl⟩
    exact ⟨_, ⟨p, hp, rfl⟩, rfl⟩

theorem Inv.scan :
    ∃ out bmp', bmp.scan = some (out, bmp') ∧ (out.ret = 0 ↔ bits = ∅) ∧
      (out.ret ≠ 0 → ∃ r slab, out = ⟨1, some (slabBitSize * r, slab)⟩ ∧ slab ≠ 0 ∧
        ∀ o < slabBitSize, slab.getLsbD o = true ↔ slabBitSize * r + o ∈ bits) := by
  rcases scan_spec hi.sized hi.summary hi.cursor with ⟨hnone, bmp', hscan, -⟩ |
    ⟨r, bmp', hscan, -, -, hnext, -⟩
  · refine ⟨_, bmp', hscan, ⟨fun _ => ?_, fun _ => rfl⟩, fun h => absurd rfl h⟩
    rw [Set.eq_empty_iff_forall_notMem]
    exact fun p hp => hnone _ ((hi.full_iff _).mpr ⟨p, hp, rfl⟩)
  · obtain ⟨p, hp, -⟩ := (hi.full_iff r).mp hnext.holds
    refine ⟨_, bmp', hscan, ⟨fun h => absurd h Nat.one_ne_zero, fun h => ?_⟩, fun _ =>
      ⟨r, _, rfl, hnext.holds.2, fun o ho => ?_⟩⟩
    · rw [h] at hp
      exact absurd hp (Set.notMem_empty p)
    · have hdiv : (slabBitSize * r + o) / slabBitSize = r := by
        simp only [slabBitSize] at *
        omega
      have hmod : (slabBitSize * r + o) % slabBitSize = o := by
        simp only [slabBitSize] at *
        omega
      rw [← hi.has, RteBitmap.Has, hdiv, hmod]
      exact (and_iff_right hnext.holds.1).symm

/-- The bitmap after a scan. -/
def afterScan (bmp : RteBitmap) : RteBitmap :=
  match bmp.scan with
  | some (_, bmp') => bmp'
  | none => bmp

/-- A scan of a bitmap that is not empty. -/
theorem Inv.afterScan_spec (hbits : bits ≠ ∅) :
    ∃ r, bmp.scan = some (⟨1, some (slabBitSize * r, bmp.array2 r)⟩, afterScan bmp) ∧
      SameBits bmp (afterScan bmp) ∧ Inv n_bits (afterScan bmp) bits ∧
      IsNext bmp.Full bmp.place r ∧ (afterScan bmp).place = r + 1 := by
  rcases scan_spec hi.sized hi.summary hi.cursor with ⟨hnone, -⟩ |
    ⟨r, bmp', hscan, hsame, hc, hnext, hplace⟩
  · refine absurd (Set.eq_empty_iff_forall_notMem.mpr (fun p hp => ?_)) hbits
    exact hnone _ ((hi.full_iff _).mpr ⟨p, hp, rfl⟩)
  · have hafter : afterScan bmp = bmp' := by rw [Bitmap.afterScan, hscan]
    rw [hafter]
    exact ⟨r, hscan, hsame, hi.same hsame hc, hnext, hplace⟩

/-- **Scans in a row** go through the slabs that are not zero in their order, around
and around. -/
theorem Inv.around (hbits : bits ≠ ∅) :
    ∃ k, ∀ n, ∃ bmp', scans n bmp = some ((List.range n).map (fun i =>
      let r := Nat.nth (fun i => ∃ p ∈ bits, p / slabBitSize = i)
        ((k + i) % {i | ∃ p ∈ bits, p / slabBitSize = i}.ncard)
      ⟨1, some (slabBitSize * r, bmp.array2 r)⟩), bmp') := by
  have hstate : ∀ i, Inv n_bits (afterScan^[i] bmp) bits ∧ SameBits bmp (afterScan^[i] bmp) := by
    intro i
    induction i with
    | zero => exact ⟨hi, SameBits.refl bmp⟩
    | succ i ih =>
      obtain ⟨-, -, hsame, hinv, -⟩ := ih.1.afterScan_spec hbits
      rw [Function.iterate_succ_apply']
      exact ⟨hinv, ih.2.trans hsame⟩
  have hscan : ∀ i, ∃ r, (afterScan^[i] bmp).scan =
      some (⟨1, some (slabBitSize * r, bmp.array2 r)⟩, afterScan^[i + 1] bmp) ∧
      IsNext bmp.Full (afterScan^[i] bmp).place r ∧ (afterScan^[i + 1] bmp).place = r + 1 := by
    intro i
    obtain ⟨hinv, hsame⟩ := hstate i
    obtain ⟨r, hscan, -, -, hnext, hplace⟩ := hinv.afterScan_spec hbits
    rw [hsame.full] at hnext
    rw [hsame.2.1] at hscan
    rw [Function.iterate_succ_apply']
    exact ⟨r, hscan, hnext, hplace⟩
  choose r hr hnext hplace using hscan
  have hrow : ∀ n i, scans n (afterScan^[i] bmp) = some ((List.range n).map (fun j =>
      ⟨1, some (slabBitSize * r (i + j), bmp.array2 (r (i + j)))⟩), afterScan^[i + n] bmp) := by
    intro n
    induction n with
    | zero => exact fun i => rfl
    | succ n ih =>
      intro i
      rw [scans, hr i, Option.bind_some]
      simp only [ih (i + 1), Option.map_some, List.range_succ_eq_map, List.map_cons, List.map_map,
        Function.comp_def, Nat.succ_eq_add_one, Nat.add_zero, Nat.add_right_comm i, Nat.add_assoc]
  have hfinite : (Set.ofPred bmp.Full).Finite :=
    (Set.finite_lt_nat bmp.array2_size).subset (fun i hi => hi.1)
  have hnth := nth_of_isNext hfinite hnext hplace
  have hfull : bmp.Full = fun i => ∃ p ∈ bits, p / slabBitSize = i := by
    funext i
    exact propext (hi.full_iff i)
  have hcard : {i | ∃ p ∈ bits, p / slabBitSize = i}.ncard = hfinite.toFinset.card := by
    rw [← Set.ncard_eq_toFinset_card _ hfinite, hfull]
  refine ⟨Nat.count bmp.Full bmp.place, fun n => ⟨afterScan^[n] bmp, ?_⟩⟩
  have hrun := hrow n 0
  simp only [Nat.zero_add] at hrun
  rw [Function.iterate_zero, id_eq] at hrun
  rw [hrun]
  refine congrArg some (Prod.ext (List.map_congr_left (fun i _ => ?_)) rfl)
  rw [hcard, ← hfull]
  exact congrArg (fun r => (⟨1, some (slabBitSize * r, bmp.array2 r)⟩ : Scanned)) (hnth i)

theorem Inv.holds : Holds n_bits bmp bits :=
  ⟨fun _ hpos => hi.get hpos, hi.marked, hi.scan, hi.around⟩

end

/-! ## A bitmap from its memory on -/

/-- **The arrays are in the memory**, behind the bitmap itself and apart from each
other. -/
structure Placed (n_bits mem_size : ℕ) (bmp : RteBitmap) : Prop where
  behind : bitmapHdrSize ≤ (footprint n_bits).array1_byte_offset
  apart : (footprint n_bits).array1_byte_offset + 8 * bmp.array1_size ≤
    (footprint n_bits).array2_byte_offset
  inside : (footprint n_bits).array2_byte_offset + 8 * bmp.array2_size ≤ mem_size

theorem setup_placed {mem_size : ℕ} (hpos : 0 < n_bits) (hmax : n_bits ≤ maxBits)
    (hsize : rteBitmapGetMemoryFootprint n_bits ≤ mem_size) (array1 array2 : ℕ → BitVec 64) :
    Placed n_bits mem_size (setup (footprint n_bits) array1 array2) := by
  obtain ⟨-, -, -, -, -, -, hbehind, hapart, hinside⟩ := footprint_spec hpos hmax
  rw [rteBitmapGetMemoryFootprint, if_neg (Nat.pos_iff_ne_zero.mp hpos), ← hinside] at hsize
  exact ⟨hbehind, hapart, hsize⟩

/-- **A bitmap is made** in memory of its footprint, and holds the bits that it is
made with. -/
theorem Create.make_spec (create : Create) {mem mem_size : ℕ} (hpos : 0 < n_bits)
    (hmax : n_bits ≤ maxBits) (hmem : mem ≠ 0 ∧ mem % cacheLineSize = 0)
    (hsize : create = initWithAllSet → mem_size = rteBitmapGetMemoryFootprint n_bits) :
    ∃ made, create.make n_bits mem mem_size = some made ∧
      (made.isSome ↔ rteBitmapGetMemoryFootprint n_bits ≤ mem_size) ∧
      ∀ bmp, made = some bmp → Placed n_bits mem_size bmp ∧
        Inv n_bits bmp (create.content n_bits) := by
  have hne : n_bits ≠ 0 := Nat.pos_iff_ne_zero.mp hpos
  have htotal : rteBitmapGetMemoryFootprint n_bits = (footprint n_bits).n_bytes_total :=
    if_neg hne
  cases create with
  | init =>
    have hmem' : ¬ (mem = 0 ∨ mem % cacheLineSize ≠ 0) := by
      simp [hmem.1, hmem.2]
    refine ⟨_, rfl, ?_⟩
    rw [rteBitmapInit, if_neg hne, if_neg hmem', htotal]
    by_cases hfit : mem_size < (footprint n_bits).n_bytes_total
    · simp [hfit]
    · simp only [if_neg hfit, Option.isSome_some, not_lt.mp hfit, true_and, Option.some.injEq]
      rintro bmp rfl
      refine ⟨setup_placed hpos hmax (htotal ▸ not_lt.mp hfit) _ _,
        setup_sized hpos hmax _ _, summary_zero rfl rfl, setup_cursor hpos hmax _ _, fun p => ?_⟩
      exact iff_of_false (not_has_zero rfl p) (Set.notMem_empty p)
  | initWithAllSet =>
    have hfit := hsize rfl
    obtain ⟨array1, array2, hinit, hsummary, hhas⟩ :=
      rteBitmapInitWithAllSet_spec hpos hmax hmem (htotal ▸ hfit.le)
    refine ⟨_, hinit, by simp [hfit], ?_⟩
    rintro bmp hbmp
    obtain rfl := Option.some.inj hbmp
    exact ⟨setup_placed hpos hmax hfit.ge _ _, setup_sized hpos hmax _ _, hsummary,
      setup_cursor hpos hmax _ _, hhas⟩

/-- **A bitmap holds its bits.** It is made in memory of its footprint and in no
smaller one. After every run of operations on its positions, no index has left an
array, and the bitmap holds the bits that the operations say. -/
theorem bitmap_holds (create : Create) {n_bits mem mem_size : ℕ} (hpos : 0 < n_bits)
    (hmax : n_bits ≤ maxBits) (hmem : mem ≠ 0 ∧ mem % cacheLineSize = 0)
    (hsize : create = .initWithAllSet → mem_size = rteBitmapGetMemoryFootprint n_bits) :
    ∃ made, create.make n_bits mem mem_size = some made ∧
      (made.isSome ↔ rteBitmapGetMemoryFootprint n_bits ≤ mem_size) ∧
      ∀ bmp, made = some bmp → Placed n_bits mem_size bmp ∧
        ∀ ops, Runs.AlongOption apply (fun bmp op => Within n_bits op ∧ Marks bmp op) bmp ops →
          ∃ bmp', Runs.runOption apply bmp ops = some bmp' ∧
            Holds n_bits bmp' (ops.foldl content (create.content n_bits)) := by
  obtain ⟨made, hmake, hsome, hmade⟩ := create.make_spec hpos hmax hmem hsize
  refine ⟨made, hmake, hsome, fun bmp hbmp => ?_⟩
  obtain ⟨hplaced, hi⟩ := hmade bmp hbmp
  refine ⟨hplaced, fun ops halong => ?_⟩
  obtain ⟨bmp', hrun, hi'⟩ := hi.run halong
  exact ⟨bmp', hrun, hi'.holds⟩

/-- A bitmap of a hundred bits, all of them set. One is cleared, and two are set
again as a slab. -/
theorem bitmap_holds_hundred :
    ∃ made, Create.initWithAllSet.make 100 64 128 = some made ∧ made.isSome ∧
      ∀ bmp, made = some bmp → ∃ bmp',
        Runs.runOption apply bmp [.clear 3, .scan, .setSlab 64 5] = some bmp' ∧
          Holds 100 bmp' ([.clear 3, .scan, .setSlab 64 5].foldl content {p | p < 100}) := by
  obtain ⟨made, hmake, hsome, hholds⟩ := @bitmap_holds .initWithAllSet 100 64 128 (by decide)
    (by decide) (by decide) (fun _ => by decide +kernel)
  refine ⟨made, hmake, hsome.mpr (by decide +kernel), fun bmp hbmp => ?_⟩
  exact (hholds bmp hbmp).2 _ ⟨⟨(by decide : 3 < 100), trivial⟩, fun _ _ =>
    ⟨⟨trivial, trivial⟩, fun _ _ =>
      ⟨⟨(by decide : 64 < 100), Or.inl (by decide)⟩, fun _ _ => trivial⟩⟩⟩

/-- **More memory than the footprint** is refused where all bits are to be set. A slab
of zeros in an empty bitmap lets a scan return one with nothing stored. The arrays
for the greatest number of bits have no slabs. -/
theorem bitmap_holds_breaks :
    (rteBitmapGetMemoryFootprint 100 ≤ 192 ∧
      (Create.initWithAllSet.make 100 64 192).map Option.isSome = some false) ∧
    ((((rteBitmapInit 100 64 128).bind fun bmp => Runs.runOption apply bmp [.setSlab 0 0]).bind
      RteBitmap.scan).map Prod.fst = some ⟨1, none⟩) ∧
    ((rteBitmapInit (word32 - 1) 64 128).map fun bmp => (bmp.get 0).isSome) = some false := by
  refine ⟨⟨by decide +kernel, by decide +kernel⟩, by decide +kernel, by decide +kernel⟩

end Bitmap
