import DpdkStudy.Ring.Safety

/-!
# Copying elements

The elements of a ring are copied in units of 4, 8 or 16 bytes
(`__rte_ring_enqueue_elems`, `__rte_ring_dequeue_elems`). An element of another size is so
many units of 4 bytes, and then the size of the ring, the position and the number are scaled,
in 32 bits (`copyElems`). A copy that does not reach the end of the ring is unrolled.

The units are copied one after the other to the places that `unitAt` says
(`copyElems_eq`), so that an element comes to its slot, or from it, exactly when each of its
units has its place (`storesAt_iff`, `loadsFrom_iff`). The scaled numbers must fit 32 bits
for this, and the creation of a ring does not see to it (`CopyFits`).

Memory is words of 4 bytes.
-/

open Nat

namespace Ring

/-! ## The copies -/

/-- **The units of a copy.** -/
inductive Width
  | b4
  | b8
  | b16

/-- The words of a unit. -/
def Width.words : Width → ℕ
  | b4 => 1
  | b8 => 2
  | b16 => 4

/-- How many units a step of the unrolled loop copies. -/
def Width.unroll : Width → ℕ
  | b4 => 8
  | b8 => 4
  | b16 => 2

/-- What the unrolled loop leaves. -/
def Width.mask : Width → UInt32
  | b4 => 0x7
  | b8 => 0x3
  | b16 => 0x1

/-- The place of a unit of a step. Two units of 16 bytes are one `memcpy`. -/
def Width.place (w : Width) (idx : UInt32) (k : ℕ) : ℕ :=
  match w with
  | b16 => idx.toNat + k
  | _ => (idx + UInt32.ofNat k).toNat

/-- **A unit is copied** from a place of a table to one of another. -/
def moveUnit (words : ℕ) (src : ℕ → UInt32) (i : ℕ) (dst : ℕ → UInt32) (j : ℕ) : ℕ → UInt32 :=
  fun p => if p / words = j then src (i * words + p % words) else dst p

section Copy

variable {σ : Type*} (copy : ℕ → ℕ → σ → σ)

/-- **The unrolled loop.** -/
def copyBlocks (w : Width) (stop : UInt32) (i : ℕ) (idx : UInt32) (s : σ) : ℕ × UInt32 × σ :=
  if i < stop.toNat then
    copyBlocks w stop (i + w.unroll) (idx + UInt32.ofNat w.unroll)
      ((List.range w.unroll).foldl (fun s k => copy (i + k) (w.place idx k) s) s)
  else (i, idx, s)
termination_by stop.toNat - i
decreasing_by
  have hpos : 0 < w.unroll := by cases w <;> decide
  omega

/-- **The `switch` behind it**, whose cases fall through. -/
def copyResidual : ℕ → ℕ → UInt32 → σ → σ
  | 0, _, _, s => s
  | n + 1, i, idx, s => copyResidual n (i + 1) (idx + 1) (copy i idx.toNat s)

/-- The loop up to the end of the ring. -/
def copyToEnd (size : UInt32) (i : ℕ) (idx : UInt32) (s : σ) : ℕ × σ :=
  if idx < size then copyToEnd size (i + 1) (idx + 1) (copy i idx.toNat s) else (i, s)
termination_by size.toNat - idx.toNat
decreasing_by
  rename_i hlt
  have hlt' := UInt32.lt_iff_toNat_lt.mp hlt
  have hsize := size.toNat_lt
  rw [UInt32.toNat_add, UInt32.toNat_one]
  omega

/-- The loop from the start of the ring on. -/
def copyFromStart (n : UInt32) (i : ℕ) (idx : UInt32) (s : σ) : σ :=
  if i < n.toNat then copyFromStart n (i + 1) (idx + 1) (copy i idx.toNat s) else s
termination_by n.toNat - i

/-- **The elements are copied**, the `i`-th unit of the caller's table to or from a unit of
the ring. -/
def copyElems (w : Width) (size idx n : UInt32) (s : σ) : σ :=
  if idx + n ≤ size then
    let r := copyBlocks copy w (n &&& ~~~w.mask) 0 idx s
    copyResidual copy (n &&& w.mask).toNat r.1 r.2.1 r.2.2
  else
    let r := copyToEnd copy size 0 idx s
    copyFromStart copy n r.1 0 r.2

end Copy

/-- `__rte_ring_enqueue_elems_32`. -/
def rteRingEnqueueElems32 (ring obj : ℕ → UInt32) (size idx n : UInt32) : ℕ → UInt32 :=
  copyElems (fun i pos ring => moveUnit Width.b4.words obj i ring pos) .b4 size idx n ring

/-- `__rte_ring_enqueue_elems_64`. -/
def rteRingEnqueueElems64 (ring obj : ℕ → UInt32) (size idx n : UInt32) : ℕ → UInt32 :=
  copyElems (fun i pos ring => moveUnit Width.b8.words obj i ring pos) .b8 size idx n ring

/-- `__rte_ring_enqueue_elems_128`. -/
def rteRingEnqueueElems128 (ring obj : ℕ → UInt32) (size idx n : UInt32) : ℕ → UInt32 :=
  copyElems (fun i pos ring => moveUnit Width.b16.words obj i ring pos) .b16 size idx n ring

/-- `__rte_ring_do_enqueue_elems`. -/
def rteRingDoEnqueueElems (ring obj : ℕ → UInt32) (size idx esize num : UInt32) : ℕ → UInt32 :=
  if esize = 8 then rteRingEnqueueElems64 ring obj size idx num
  else if esize = 16 then rteRingEnqueueElems128 ring obj size idx num
  else
    let scale := esize / 4
    rteRingEnqueueElems32 ring obj (size * scale) (idx * scale) (num * scale)

/-- `__rte_ring_dequeue_elems_32`. -/
def rteRingDequeueElems32 (obj ring : ℕ → UInt32) (size idx n : UInt32) : ℕ → UInt32 :=
  copyElems (fun i pos obj => moveUnit Width.b4.words ring pos obj i) .b4 size idx n obj

/-- `__rte_ring_dequeue_elems_64`. -/
def rteRingDequeueElems64 (obj ring : ℕ → UInt32) (size idx n : UInt32) : ℕ → UInt32 :=
  copyElems (fun i pos obj => moveUnit Width.b8.words ring pos obj i) .b8 size idx n obj

/-- `__rte_ring_dequeue_elems_128`. -/
def rteRingDequeueElems128 (obj ring : ℕ → UInt32) (size idx n : UInt32) : ℕ → UInt32 :=
  copyElems (fun i pos obj => moveUnit Width.b16.words ring pos obj i) .b16 size idx n obj

/-- `__rte_ring_do_dequeue_elems`. -/
def rteRingDoDequeueElems (obj ring : ℕ → UInt32) (size idx esize num : UInt32) : ℕ → UInt32 :=
  if esize = 8 then rteRingDequeueElems64 obj ring size idx num
  else if esize = 16 then rteRingDequeueElems128 obj ring size idx num
  else
    let scale := esize / 4
    rteRingDequeueElems32 obj ring (size * scale) (idx * scale) (num * scale)

variable {α : Type*}

/-- **`__rte_ring_enqueue_elems`**: the memory behind the ring. -/
def rteRingEnqueueElems (r : RteRing α) (ring : ℕ → UInt32) (prod_head : UInt32)
    (obj_table : ℕ → UInt32) (esize num : UInt32) : ℕ → UInt32 :=
  rteRingDoEnqueueElems ring obj_table (UInt32.ofNat r.size)
    (prod_head &&& UInt32.ofNat r.mask) esize num

/-- **`__rte_ring_dequeue_elems`**: the table of the caller. -/
def rteRingDequeueElems (r : RteRing α) (ring : ℕ → UInt32) (cons_head : UInt32)
    (obj_table : ℕ → UInt32) (esize num : UInt32) : ℕ → UInt32 :=
  rteRingDoDequeueElems obj_table ring (UInt32.ofNat r.size)
    (cons_head &&& UInt32.ofNat r.mask) esize num

/-! ## One unit after the other -/

section Copy

variable {σ : Type*} {copy : ℕ → ℕ → σ → σ} {w : Width} {size idx n : UInt32} {s : σ}

/-- **The place of a unit** in the ring. -/
def unitAt (size idx n : UInt32) (j : ℕ) : ℕ :=
  if idx + n ≤ size then (idx + UInt32.ofNat j).toNat
  else if j < size.toNat - idx.toNat then idx.toNat + j
  else j - (size.toNat - idx.toNat)

/-- Some units, from one on. -/
def copyUnits (copy : ℕ → ℕ → σ → σ) (place : ℕ → ℕ) (start n : ℕ) (s : σ) : σ :=
  (List.range' start n).foldl (fun s j => copy j (place j) s) s

theorem copyUnits_succ (place : ℕ → ℕ) (start n : ℕ) (s : σ) :
    copyUnits copy place start (n + 1) s =
      copyUnits copy place (start + 1) n (copy start (place start) s) := rfl

theorem copyUnits_add (place : ℕ → ℕ) (start n m : ℕ) (s : σ) :
    copyUnits copy place start (n + m) s =
      copyUnits copy place (start + n) m (copyUnits copy place start n s) := by
  rw [copyUnits, ← List.range'_append_1, List.foldl_append]
  rfl

theorem copyUnits_congr {place place' : ℕ → ℕ} {start n : ℕ}
    (h : ∀ j, start ≤ j → j < start + n → place j = place' j) (s : σ) :
    copyUnits copy place start n s = copyUnits copy place' start n s := by
  induction n generalizing start s with
  | zero => rfl
  | succ n ih =>
    rw [copyUnits_succ, copyUnits_succ, h start le_rfl (by omega)]
    exact ih (fun j hle hlt => h j (by omega) (by omega)) _

theorem toNat_add_ofNat (idx : UInt32) (j : ℕ) :
    (idx + UInt32.ofNat j).toNat = (idx.toNat + j) % 2 ^ 32 := by
  rw [UInt32.toNat_add, UInt32.toNat_ofNat', add_mod_mod]

theorem add_ofNat_add (idx : UInt32) (i j : ℕ) :
    idx + UInt32.ofNat i + UInt32.ofNat j = idx + UInt32.ofNat (i + j) := by
  refine UInt32.toNat_inj.mp ?_
  rw [toNat_add_ofNat, toNat_add_ofNat, toNat_add_ofNat, mod_add_mod, add_assoc]

theorem copyBlocks_eq (copy : ℕ → ℕ → σ → σ) (idx : UInt32) {stop : UInt32} {i b : ℕ}
    (hstop : stop.toNat = i + w.unroll * b)
    (h16 : w = .b16 → idx.toNat + stop.toNat ≤ 2 ^ 32) (s : σ) :
    copyBlocks copy w stop i (idx + UInt32.ofNat i) s =
      (stop.toNat, idx + UInt32.ofNat stop.toNat,
        copyUnits copy (fun j => (idx + UInt32.ofNat j).toNat) i (w.unroll * b) s) := by
  have hpos : 0 < w.unroll := by cases w <;> decide
  induction b generalizing i s with
  | zero =>
    rw [mul_zero, add_zero] at hstop
    rw [copyBlocks, if_neg (by omega), mul_zero, hstop]
    rfl
  | succ b ih =>
    rw [mul_succ] at hstop
    have hblock : (List.range w.unroll).foldl
        (fun s k => copy (i + k) (w.place (idx + UInt32.ofNat i) k) s) s =
        copyUnits copy (fun j => (idx + UInt32.ofNat j).toNat) i w.unroll s := by
      rw [copyUnits, List.range'_eq_map_range, List.foldl_map]
      refine List.foldl_ext _ _ _ (fun s k hk => ?_)
      have hlt := List.mem_range.mp hk
      have hplace : w.place (idx + UInt32.ofNat i) k = (idx + UInt32.ofNat (i + k)).toNat := by
        cases w with
        | b4 => rw [← add_ofNat_add]; rfl
        | b8 => rw [← add_ofNat_add]; rfl
        | b16 =>
          have hfit := h16 rfl
          rw [Width.place, toNat_add_ofNat, toNat_add_ofNat, mod_eq_of_lt (by omega),
            mod_eq_of_lt (by omega), add_assoc]
      rw [hplace]
    rw [copyBlocks, if_pos (by omega), hblock, add_ofNat_add,
      ih (i := i + w.unroll) (by omega), mul_succ, add_comm (w.unroll * b),
      copyUnits_add]

theorem copyResidual_eq (r i : ℕ) (s : σ) :
    copyResidual copy r i (idx + UInt32.ofNat i) s =
      copyUnits copy (fun j => (idx + UInt32.ofNat j).toNat) i r s := by
  induction r generalizing i s with
  | zero => rfl
  | succ r ih =>
    rw [copyResidual, copyUnits_succ, ← ih]
    exact congrArg (fun x => copyResidual copy r (i + 1) x _) (add_ofNat_add idx i 1)

/-- The loop up to the end copies unit after unit. -/
theorem copyToEnd_eq (copy : ℕ → ℕ → σ → σ) (size idx : UInt32) {i : ℕ}
    (hi : idx.toNat + i < 2 ^ 32) (s : σ) :
    copyToEnd copy size i (idx + UInt32.ofNat i) s =
      (i + (size.toNat - (idx.toNat + i)), copyUnits copy (fun j => idx.toNat + j) i
        (size.toNat - (idx.toNat + i)) s) := by
  obtain ⟨r, hr⟩ : ∃ r, r = size.toNat - (idx.toNat + i) := ⟨_, rfl⟩
  have hplace : (idx + UInt32.ofNat i).toNat = idx.toNat + i := by
    rw [toNat_add_ofNat, mod_eq_of_lt hi]
  rw [← hr]
  induction r generalizing i s with
  | zero =>
    rw [copyToEnd, if_neg (by rw [UInt32.lt_iff_toNat_lt, hplace]; omega)]
    rfl
  | succ r ih =>
    have hsize := size.toNat_lt
    have hlt : idx + UInt32.ofNat i < size := by
      rw [UInt32.lt_iff_toNat_lt, hplace]
      omega
    have hnext : idx + UInt32.ofNat i + 1 = idx + UInt32.ofNat (i + 1) := add_ofNat_add idx i 1
    rw [copyToEnd, if_pos hlt, hnext, ih (by omega) _ (by omega)
      (by rw [toNat_add_ofNat, mod_eq_of_lt (by omega)]), copyUnits_succ, hplace,
      add_right_comm, add_assoc i]

/-- The loop from the start on copies unit after unit. -/
theorem copyFromStart_eq (copy : ℕ → ℕ → σ → σ) {i : ℕ} (hi : i ≤ n.toNat) (d : ℕ) (hd : d ≤ i)
    (s : σ) :
    copyFromStart copy n i (UInt32.ofNat (i - d)) s =
      copyUnits copy (fun j => j - d) i (n.toNat - i) s := by
  obtain ⟨r, hr⟩ : ∃ r, r = n.toNat - i := ⟨_, rfl⟩
  rw [← hr]
  induction r generalizing i s with
  | zero =>
    rw [copyFromStart, if_neg (by omega)]
    rfl
  | succ r ih =>
    have hn := n.toNat_lt
    have hnext : UInt32.ofNat (i - d) + 1 = UInt32.ofNat (i + 1 - d) := by
      rw [show i + 1 - d = i - d + 1 by omega, UInt32.ofNat_add]
      rfl
    have hplace : (UInt32.ofNat (i - d)).toNat = i - d := by
      rw [UInt32.toNat_ofNat']
      exact mod_eq_of_lt (by omega)
    rw [copyFromStart, if_pos (by omega), hnext, hplace, copyUnits_succ]
    exact ih (by omega) (by omega) _ (by omega)

/-- The units that the unrolled loop copies, and those behind it. -/
theorem and_mask (w : Width) (n : UInt32) :
    (n &&& w.mask).toNat = n.toNat % w.unroll ∧
      (n &&& ~~~w.mask).toNat = w.unroll * (n.toNat / w.unroll) := by
  have hlow : (n &&& w.mask).toNat = n.toNat % w.unroll := by
    rw [UInt32.toNat_and]
    cases w with
    | b4 => exact and_two_pow_sub_one_eq_mod n.toNat 3
    | b8 => exact and_two_pow_sub_one_eq_mod n.toNat 2
    | b16 => exact and_two_pow_sub_one_eq_mod n.toNat 1
  have hsum : (n.toBitVec &&& ~~~w.mask.toBitVec) + (n.toBitVec &&& w.mask.toBitVec) =
      n.toBitVec := by
    rw [BitVec.add_eq_or_of_and_eq_zero]
    · ext i hi
      simp only [BitVec.getElem_or, BitVec.getElem_and, BitVec.getElem_not]
      cases n.toBitVec[i] <;> cases w.mask.toBitVec[i] <;> rfl
    · ext i hi
      simp only [BitVec.getElem_and, BitVec.getElem_not, BitVec.getElem_zero]
      cases n.toBitVec[i] <;> cases w.mask.toBitVec[i] <;> rfl
  have hsum' := congrArg BitVec.toNat hsum
  have hle : (n &&& ~~~w.mask).toNat ≤ n.toNat := by
    rw [UInt32.toNat_and]
    exact and_le_left
  rw [BitVec.toNat_add] at hsum'
  change ((n &&& ~~~w.mask).toNat + (n &&& w.mask).toNat) % 2 ^ 32 = n.toNat at hsum'
  have hlt := (n &&& w.mask).toNat_lt
  have hdiv := div_add_mod n.toNat w.unroll
  refine ⟨hlow, ?_⟩
  omega

theorem copyElems_eq (h16 : w = .b16 → idx.toNat + n.toNat ≤ 2 ^ 32) (s : σ) :
    copyElems copy w size idx n s = copyUnits copy (unitAt size idx n) 0 n.toNat s := by
  obtain ⟨hres, hstop⟩ := and_mask w n
  have hdiv := div_add_mod n.toNat w.unroll
  have hzero : idx + UInt32.ofNat 0 = idx := by
    refine UInt32.toNat_inj.mp ?_
    rw [toNat_add_ofNat, add_zero, mod_eq_of_lt idx.toNat_lt]
  have hidx := idx.toNat_lt
  rw [copyElems]
  by_cases hle : idx + n ≤ size
  · have hplace : unitAt size idx n = fun j => (idx + UInt32.ofNat j).toNat := by
      funext j
      rw [unitAt, if_pos hle]
    have hblocks := copyBlocks_eq copy idx (i := 0) (by rw [hstop, zero_add])
      (fun hw => by have := h16 hw; omega) s
    rw [hzero] at hblocks
    rw [if_pos hle, hblocks, hplace]
    simp only
    rw [copyResidual_eq, hres, hstop]
    conv_rhs => rw [← hdiv, copyUnits_add, zero_add]
  · have hsum : (idx + n).toNat = (idx.toNat + n.toNat) % 2 ^ 32 := UInt32.toNat_add idx n
    have hgt : size.toNat < (idx.toNat + n.toNat) % 2 ^ 32 := by
      rw [UInt32.le_iff_toNat_le, hsum] at hle
      omega
    have hpart : size.toNat - idx.toNat ≤ n.toNat := by
      have hmod := mod_le (idx.toNat + n.toNat) (2 ^ 32)
      omega
    have hend := copyToEnd_eq copy size idx (i := 0) (by omega) s
    rw [hzero, add_zero, zero_add] at hend
    have hstart := copyFromStart_eq copy hpart _ le_rfl
      (copyUnits copy (fun j => idx.toNat + j) 0 (size.toNat - idx.toNat) s)
    rw [Nat.sub_self] at hstart
    rw [if_neg hle, hend]
    simp only
    rw [show (0 : UInt32) = UInt32.ofNat 0 from rfl, hstart]
    conv_rhs => rw [← add_sub_of_le hpart, copyUnits_add, zero_add]
    have hfirst : ∀ j, 0 ≤ j → j < 0 + (size.toNat - idx.toNat) →
        unitAt size idx n j = idx.toNat + j := fun j _ hlt => by
      rw [unitAt, if_neg hle, if_pos (by omega)]
    have hsecond : ∀ j, size.toNat - idx.toNat ≤ j →
        j < size.toNat - idx.toNat + (n.toNat - (size.toNat - idx.toNat)) →
        unitAt size idx n j = j - (size.toNat - idx.toNat) := fun j hge _ => by
      rw [unitAt, if_neg hle, if_neg (by omega)]
    rw [copyUnits_congr hfirst, copyUnits_congr hsecond]

end Copy

/-! ## Elements and their slots -/

/-- **Elements are stored in their slots**, and nothing else is touched. -/
def StoresAt (store : (ℕ → UInt32) → (ℕ → UInt32) → ℕ → UInt32) (size words head n : ℕ) : Prop :=
  ∀ obj ring,
    (∀ i < n, ∀ x < words,
      store obj ring ((head + i) % size * words + x) = obj (i * words + x)) ∧
    ∀ p, (∀ i < n, ∀ x < words, p ≠ (head + i) % size * words + x) → store obj ring p = ring p

/-- **Elements are read from their slots**, and nothing else is touched. -/
def LoadsFrom (load : (ℕ → UInt32) → (ℕ → UInt32) → ℕ → UInt32) (size words head n : ℕ) : Prop :=
  ∀ ring obj,
    (∀ i < n, ∀ x < words,
      load ring obj (i * words + x) = ring ((head + i) % size * words + x)) ∧
    ∀ p, n * words ≤ p → load ring obj p = obj p

/-- **The place of a unit** of an element in its slot. -/
def slotUnit (size scale head q : ℕ) : ℕ := (head + q / scale) % size * scale + q % scale

section Slots

variable {u size scale head n N q q' : ℕ} {place : ℕ → ℕ}

/-- **The words behind a store**: each is of the last unit that was copied to it. -/
theorem copyUnits_store (obj ring : ℕ → UInt32) (place : ℕ → ℕ) (start n p : ℕ) :
    (∃ j, start ≤ j ∧ j < start + n ∧ place j = p / u ∧
      copyUnits (fun i pos ring => moveUnit u obj i ring pos) place start n ring p =
        obj (j * u + p % u)) ∨
    (∀ j, start ≤ j → j < start + n → place j ≠ p / u) ∧
      copyUnits (fun i pos ring => moveUnit u obj i ring pos) place start n ring p = ring p := by
  induction n generalizing start ring with
  | zero => exact .inr ⟨fun j hle hlt => absurd hle (by omega), rfl⟩
  | succ n ih =>
    rw [copyUnits_succ]
    rcases ih (moveUnit u obj start ring (place start)) (start + 1) with
      ⟨j, hle, hlt, hplace, hword⟩ | ⟨hne, hword⟩
    · exact .inl ⟨j, by omega, by omega, hplace, hword⟩
    · rw [hword, moveUnit]
      by_cases heq : p / u = place start
      · rw [if_pos heq]
        exact .inl ⟨start, le_rfl, by omega, heq.symm, rfl⟩
      · rw [if_neg heq]
        refine .inr ⟨fun j hle hlt => ?_, rfl⟩
        rcases hle.eq_or_lt with rfl | hgt
        · exact Ne.symm heq
        · exact hne j hgt (by omega)

theorem copyUnits_load (ring obj : ℕ → UInt32) (place : ℕ → ℕ) (start n p : ℕ) :
    copyUnits (fun i pos obj => moveUnit u ring pos obj i) place start n obj p =
      if start ≤ p / u ∧ p / u < start + n then ring (place (p / u) * u + p % u) else obj p := by
  induction n generalizing start obj with
  | zero => exact (if_neg (by omega)).symm
  | succ n ih =>
    rw [copyUnits_succ, ih, moveUnit]
    by_cases hfirst : p / u = start
    · rw [if_neg (by omega), if_pos hfirst, if_pos (by omega), hfirst]
    · rw [if_neg hfirst]
      refine if_congr ?_ rfl rfl
      omega

theorem slotUnit_inj (hn : n ≤ size) (hq : q < n * scale)
    (hq' : q' < n * scale) (h : slotUnit size scale head q = slotUnit size scale head q') :
    q = q' := by
  have hscale : 0 < scale := Nat.pos_of_mul_pos_left (Nat.zero_lt_of_lt hq)
  have hmod : ∀ q, slotUnit size scale head q % scale = q % scale := fun q => by
    rw [slotUnit, Nat.mul_comm, Nat.mul_add_mod, Nat.mod_mod]
  have hdiv : ∀ q, slotUnit size scale head q / scale = (head + q / scale) % size := fun q => by
    rw [slotUnit, Nat.mul_comm, Nat.mul_add_div hscale, Nat.div_eq_of_lt (Nat.mod_lt _ hscale),
      Nat.add_zero]
  have hlt : q / scale < n := Nat.div_lt_of_lt_mul (by rwa [Nat.mul_comm])
  have hlt' : q' / scale < n := Nat.div_lt_of_lt_mul (by rwa [Nat.mul_comm])
  have hslot : (head + q / scale) % size = (head + q' / scale) % size := by
    rw [← hdiv q, ← hdiv q', h]
  have hrest : q % scale = q' % scale := by
    rw [← hmod q, ← hmod q', h]
  have hsame : q / scale = q' / scale :=
    Nat.add_left_cancel (mod_inj hslot
      ((Nat.add_lt_add_left (hlt.trans_le hn) head).trans_le
        (Nat.add_le_add_right (Nat.le_add_right _ _) _))
      ((Nat.add_lt_add_left (hlt'.trans_le hn) head).trans_le
        (Nat.add_le_add_right (Nat.le_add_right _ _) _)))
  rw [← Nat.div_add_mod q scale, ← Nat.div_add_mod q' scale, hsame, hrest]

theorem forall_word_iff (hu : 0 < u) (size scale head n : ℕ) (P : ℕ → ℕ → Prop) :
    (∀ i < n, ∀ x < scale * u, P ((head + i) % size * (scale * u) + x) (i * (scale * u) + x)) ↔
      ∀ q < n * scale, ∀ y < u, P (slotUnit size scale head q * u + y) (q * u + y) := by
  constructor
  · intro h q hq y hy
    have hscale : 0 < scale := Nat.pos_of_mul_pos_left (Nat.zero_lt_of_lt hq)
    have hx : q % scale * u + y < scale * u :=
      calc q % scale * u + y < (q % scale + 1) * u := by rw [succ_mul]; omega
        _ ≤ scale * u := mul_le_mul_right u (mod_lt q hscale)
    have hword := h (q / scale) (Nat.div_lt_of_lt_mul (by rwa [Nat.mul_comm])) _ hx
    simp only [← add_assoc, ← mul_assoc, ← add_mul, div_add_mod'] at hword
    exact hword
  · intro h i hi x hx
    have hlt : x / u < scale := Nat.div_lt_of_lt_mul (by rwa [Nat.mul_comm])
    have hq : i * scale + x / u < n * scale :=
      calc i * scale + x / u < (i + 1) * scale := by rw [succ_mul]; omega
        _ ≤ n * scale := mul_le_mul_right scale hi
    have hdiv : (i * scale + x / u) / scale = i := by
      rw [mul_comm, mul_add_div (zero_lt_of_lt hlt), div_eq_of_lt hlt, add_zero]
    have hmod : (i * scale + x / u) % scale = x / u := by
      rw [mul_comm, mul_add_mod, mod_eq_of_lt hlt]
    have hword := h _ hq (x % u) (mod_lt x hu)
    rwa [slotUnit, hdiv, hmod, add_mul, add_mul, add_assoc, add_assoc, mul_assoc, mul_assoc,
      div_add_mod'] at hword

/-- Two arrays that agree on the words of elements agree on those of units. -/
theorem forall_word_eq_iff (hu : 0 < u) (size scale head n : ℕ) (f g : ℕ → UInt32) :
    (∀ i < n, ∀ x < scale * u, f ((head + i) % size * (scale * u) + x) = g (i * (scale * u) + x)) ↔
      ∀ q < n * scale, ∀ y < u, f (slotUnit size scale head q * u + y) = g (q * u + y) :=
  forall_word_iff hu size scale head n fun p p' => f p = g p'

theorem unit_word (q : ℕ) {y : ℕ} (hy : y < u) : (q * u + y) / u = q ∧ (q * u + y) % u = y :=
  ⟨by rw [mul_comm, mul_add_div (zero_lt_of_lt hy), div_eq_of_lt hy, add_zero],
    by rw [mul_comm, mul_add_mod, mod_eq_of_lt hy]⟩

/-- All units are copied, if each is copied and to its place. -/
theorem eq_of_units (hN : N ≤ n * scale)
    (h : ∀ q < n * scale, q < N ∧ place q = slotUnit size scale head q) :
    N = n * scale ∧ ∀ q < n * scale, place q = slotUnit size scale head q :=
  ⟨le_antisymm hN (not_lt.mp fun hlt => lt_irrefl N (h N hlt).1), fun q hq => (h q hq).2⟩

/-- **A copy into the ring stores the elements** exactly when it copies all units, each to
its place. -/
theorem storesAt_iff (hu : 0 < u) (hn : n ≤ size) (hN : N ≤ n * scale) :
    StoresAt (fun obj ring =>
        copyUnits (fun i pos ring => moveUnit u obj i ring pos) place 0 N ring)
      size (scale * u) head n ↔
    N = n * scale ∧ ∀ q < n * scale, place q = slotUnit size scale head q := by
  constructor
  · refine fun hstores => eq_of_units hN fun q hq => ?_
    -- a store of the one word at the beginning of the unit
    obtain ⟨obj, hobj⟩ : ∃ obj : ℕ → UInt32, ∀ p, obj p = if p = q * u then 1 else 0 :=
      ⟨_, fun _ => rfl⟩
    have hstore := (forall_word_eq_iff hu size scale head n _ obj).mp
      (hstores obj fun _ => 0).1 q hq 0 hu
    rw [add_zero, add_zero, hobj, if_pos rfl] at hstore
    rcases copyUnits_store (u := u) obj (fun _ => 0) place 0 N (slotUnit size scale head q * u)
      with ⟨j, -, hj, hplace, hval⟩ | ⟨-, hval⟩
    · rw [Nat.mul_div_cancel _ hu] at hplace
      rw [mul_mod_left, add_zero, hstore, hobj] at hval
      have hsame : j * u = q * u := by
        by_contra hne
        rw [if_neg hne] at hval
        exact absurd hval (by decide)
      obtain rfl := eq_of_mul_eq_mul_right hu hsame
      exact ⟨by omega, hplace⟩
    · rw [hstore] at hval
      exact absurd hval (by decide)
  · rintro ⟨rfl, hplace⟩ obj ring
    refine ⟨(forall_word_eq_iff hu size scale head n _ obj).mpr fun q hq y hy => ?_,
      fun p hp => ?_⟩
    · obtain ⟨hdiv, hmod⟩ := unit_word (slotUnit size scale head q) hy
      rcases copyUnits_store (u := u) obj ring place 0 (n * scale)
        (slotUnit size scale head q * u + y) with ⟨j, -, hj, hat, hval⟩ | ⟨hne, -⟩
      · rw [hdiv, hplace j (by omega)] at hat
        rwa [hmod, slotUnit_inj hn (by omega) hq hat] at hval
      · exact absurd ((hplace q hq).trans hdiv.symm) (hne q (zero_le _) (by omega))
    · rcases copyUnits_store (u := u) obj ring place 0 (n * scale) p with
        ⟨j, -, hj, hat, -⟩ | ⟨-, hval⟩
      · refine absurd ?_ ((forall_word_iff hu size scale head n fun p' _ => p ≠ p').mp hp j
          (by omega) _ (mod_lt p hu))
        rw [← hplace j (by omega), hat, div_add_mod']
      · exact hval

/-- **A copy out of the ring loads the elements** exactly when it copies all units, each
from its place. -/
theorem loadsFrom_iff (hu : 0 < u) (hN : N ≤ n * scale) :
    LoadsFrom (fun ring obj =>
        copyUnits (fun i pos obj => moveUnit u ring pos obj i) place 0 N obj)
      size (scale * u) head n ↔
    N = n * scale ∧ ∀ q < n * scale, place q = slotUnit size scale head q := by
  constructor
  · refine fun hloads => eq_of_units hN fun q hq => ?_
    obtain ⟨ring, hring⟩ : ∃ ring : ℕ → UInt32,
        ∀ p, ring p = if p = slotUnit size scale head q * u then 1 else 0 := ⟨_, fun _ => rfl⟩
    have hload := (forall_word_eq_iff hu size scale head n ring _).mp
      (fun i hi x hx => ((hloads ring fun _ => 0).1 i hi x hx).symm) q hq 0 hu
    rw [add_zero, add_zero, hring, if_pos rfl, copyUnits_load, Nat.mul_div_cancel _ hu,
      Nat.mul_mod_left, add_zero] at hload
    by_cases hlt : 0 ≤ q ∧ q < 0 + N
    · rw [if_pos hlt, hring] at hload
      have hsame : place q * u = slotUnit size scale head q * u := by
        by_contra hne
        rw [if_neg hne] at hload
        exact absurd hload (by decide)
      exact ⟨by omega, eq_of_mul_eq_mul_right hu hsame⟩
    · rw [if_neg hlt] at hload
      exact absurd hload (by decide)
  · rintro ⟨rfl, hplace⟩ ring obj
    refine ⟨fun i hi x hx => ((forall_word_eq_iff hu size scale head n ring _).mpr
      (fun q hq y hy => ?_) i hi x hx).symm, fun p hp => ?_⟩
    · obtain ⟨hdiv, hmod⟩ := unit_word q hy
      rw [copyUnits_load, hdiv, hmod, if_pos ⟨zero_le _, by omega⟩, hplace q hq]
    · beta_reduce
      rw [copyUnits_load, if_neg]
      rintro ⟨-, hlt⟩
      have hlt' := (div_lt_iff_lt_mul hu).mp hlt
      rw [zero_add, mul_assoc] at hlt'
      omega

end Slots

/-! ## Numbers that fit -/

/-- **The scaled numbers do not matter**, or they fit 32 bits; or those do that are used, and
the end of the ring is not reached. -/
def ScaleFits (size scale idx n : ℕ) : Prop :=
  n * scale = 0 ∨ size * scale < 2 ^ 32 ∧ (idx + n) * scale < 2 ^ 32 ∨
    2 ^ 32 ≤ size * scale ∧ idx + n ≤ size ∧
      ((idx + n) * scale ≤ size * scale % 2 ^ 32 ∨ (idx + n) * scale = 2 ^ 32 ∧ 0 < idx ∨
        idx = 0 ∧ size * scale % 2 ^ 32 = 0 ∧ n * scale < 2 ^ 32)

section Fits

variable {size scale idx n q : ℕ}

/-- **The place of a unit** is linear up to the end of the ring and behind it. -/
theorem slotUnit_eq (hidx : idx < size) (hn : n ≤ size) (hq : q < n * scale) :
    slotUnit size scale idx q =
      if q < size * scale - idx * scale then idx * scale + q
      else idx * scale + q - size * scale := by
  have hscale : 0 < scale := Nat.pos_of_mul_pos_left (Nat.zero_lt_of_lt hq)
  have hlt : q / scale < n := Nat.div_lt_of_lt_mul (by rwa [Nat.mul_comm])
  have hdiv := div_add_mod' q scale
  have hend : q < size * scale - idx * scale ↔ idx + q / scale < size := by
    rw [← Nat.sub_mul, ← Nat.div_lt_iff_lt_mul hscale]
    omega
  rw [slotUnit]
  by_cases hin : idx + q / scale < size
  · rw [if_pos (hend.mpr hin), mod_eq_of_lt hin, add_mul]
    omega
  · have hwrap : (idx + q / scale) % size = idx + q / scale - size := by
      rw [mod_eq_sub_mod (not_lt.mp hin), mod_eq_of_lt (by omega)]
    rw [if_neg (fun h => hin (hend.mp h)), hwrap, Nat.sub_mul, Nat.add_mul]
    have hle : size * scale ≤ idx * scale + q / scale * scale := by
      rw [← add_mul]
      exact mul_le_mul_right scale (not_lt.mp hin)
    omega

/-- The scaled numbers, when units are copied to their places. -/
theorem fits_of_places {a b c : ℕ} (ha : a < c) (hb : b < c) (hpos : 0 < b) (hlt : b < 2 ^ 32)
    (hall : ∀ q < b,
      (if (a % 2 ^ 32 + b % 2 ^ 32) % 2 ^ 32 ≤ c % 2 ^ 32 then (a % 2 ^ 32 + q) % 2 ^ 32
        else if q < c % 2 ^ 32 - a % 2 ^ 32 then a % 2 ^ 32 + q
        else q - (c % 2 ^ 32 - a % 2 ^ 32)) =
      if q < c - a then a + q else a + q - c) :
    c < 2 ^ 32 ∧ a + b < 2 ^ 32 ∨ 2 ^ 32 ≤ c ∧ a + b ≤ c ∧
      (a + b ≤ c % 2 ^ 32 ∨ a + b = 2 ^ 32 ∧ 0 < a ∨ a = 0 ∧ c % 2 ^ 32 = 0 ∧ b < 2 ^ 32) := by
  have hfirst := hall 0 hpos
  rw [if_pos (show 0 < c - a by omega)] at hfirst
  by_cases hbranch : (a % 2 ^ 32 + b % 2 ^ 32) % 2 ^ 32 ≤ c % 2 ^ 32
  · simp only [if_pos hbranch] at hall hfirst
    by_cases hend : a + b ≤ c
    · have hlast := hall (b - 1) (by omega)
      rw [if_pos (by omega)] at hlast
      omega
    · -- the unit in front of the end of the ring, and the one behind it
      have hbehind := hall (c - a) (by omega)
      have hfront := hall (c - a - 1) (by omega)
      rw [if_neg (by omega)] at hbehind
      rw [if_pos (by omega)] at hfront
      omega
  · simp only [if_neg hbranch] at hall hfirst
    by_cases hwhole : c % 2 ^ 32 ≤ a % 2 ^ 32
    · rw [if_neg (by omega)] at hfirst
      omega
    · rw [if_pos (by omega)] at hfirst
      -- the first unit that is copied to the start of the ring
      have hstart := hall (c % 2 ^ 32 - a % 2 ^ 32) (by omega)
      rw [if_neg (lt_irrefl _)] at hstart
      have hle : ¬ c % 2 ^ 32 - a % 2 ^ 32 < c - a := fun hin => by
        rw [if_pos hin] at hstart
        omega
      omega

/-- **The units are copied to their places** exactly when the scaled numbers fit. -/
theorem unitAt_iff (hidx : idx < size) (hn : n < size) {nr_size nr_idx nr_num : UInt32}
    (hsz : nr_size.toNat = size * scale % 2 ^ 32) (hix : nr_idx.toNat = idx * scale % 2 ^ 32)
    (hnm : nr_num.toNat = n * scale % 2 ^ 32) :
    (nr_num.toNat = n * scale ∧ ∀ q < n * scale,
      unitAt nr_size nr_idx nr_num q = slotUnit size scale idx q) ↔
    ScaleFits size scale idx n := by
  rcases Nat.eq_zero_or_pos (n * scale) with hzero | hpos
  · rw [hzero] at hnm ⊢
    exact iff_of_true ⟨hnm, fun q hq => absurd hq (Nat.not_lt_zero q)⟩ (.inl hzero)
  · have hscale : 0 < scale := Nat.pos_of_mul_pos_left hpos
    have hend : idx + n ≤ size ↔ idx * scale + n * scale ≤ size * scale := by
      rw [← Nat.add_mul]
      exact (Nat.mul_le_mul_right_iff hscale).symm
    have hfirst : 0 < idx ↔ 0 < idx * scale := (Nat.mul_pos_iff_of_pos_right hscale).symm
    have hidx' : idx * scale + scale ≤ size * scale := by
      rw [← Nat.succ_mul]
      exact Nat.mul_le_mul_right scale hidx
    have hn' : n * scale + scale ≤ size * scale := by
      rw [← Nat.succ_mul]
      exact Nat.mul_le_mul_right scale hn
    have hunit : ∀ q, unitAt nr_size nr_idx nr_num q =
        if (idx * scale % 2 ^ 32 + n * scale % 2 ^ 32) % 2 ^ 32 ≤ size * scale % 2 ^ 32 then
          (idx * scale % 2 ^ 32 + q) % 2 ^ 32
        else if q < size * scale % 2 ^ 32 - idx * scale % 2 ^ 32 then idx * scale % 2 ^ 32 + q
        else q - (size * scale % 2 ^ 32 - idx * scale % 2 ^ 32) := fun q => by
      have hsum : nr_idx + nr_num ≤ nr_size ↔
          (idx * scale % 2 ^ 32 + n * scale % 2 ^ 32) % 2 ^ 32 ≤ size * scale % 2 ^ 32 := by
        rw [UInt32.le_iff_toNat_le, UInt32.toNat_add, hsz, hix, hnm]
      rw [unitAt, if_congr hsum rfl rfl, toNat_add_ofNat, hsz, hix]
    have hplaces : (∀ q < n * scale, unitAt nr_size nr_idx nr_num q = slotUnit size scale idx q) ↔
        ∀ q < n * scale,
          (if (idx * scale % 2 ^ 32 + n * scale % 2 ^ 32) % 2 ^ 32 ≤ size * scale % 2 ^ 32 then
            (idx * scale % 2 ^ 32 + q) % 2 ^ 32
          else if q < size * scale % 2 ^ 32 - idx * scale % 2 ^ 32 then idx * scale % 2 ^ 32 + q
          else q - (size * scale % 2 ^ 32 - idx * scale % 2 ^ 32)) =
          if q < size * scale - idx * scale then idx * scale + q
          else idx * scale + q - size * scale :=
      forall₂_congr fun q hq => by rw [hunit, slotUnit_eq hidx hn.le hq]
    rw [hplaces, hnm, ScaleFits, hend, hfirst, Nat.add_mul,
      show idx = 0 ↔ idx * scale = 0 by rw [Nat.mul_eq_zero]; omega]
    generalize idx * scale = a at *
    generalize n * scale = b at *
    generalize size * scale = c at *
    constructor
    · rintro ⟨hb, hall⟩
      exact .inr (fits_of_places (by omega) (by omega) hpos (by omega) hall)
    · intro hfits
      refine ⟨by omega, fun q hq => ?_⟩
      by_cases hbranch : (a % 2 ^ 32 + b % 2 ^ 32) % 2 ^ 32 ≤ c % 2 ^ 32
      · rw [if_pos hbranch]
        split_ifs <;> omega
      · rw [if_neg hbranch]
        split_ifs <;> omega

end Fits

/-! ## The elements of a ring -/

section Rings

variable {r : RteRing α} {esize head num : UInt32}

/-- **An enqueue** stores the elements in the slots from a position on. -/
def Enqueues (r : RteRing α) (esize head num : UInt32) : Prop :=
  StoresAt (fun obj ring => rteRingEnqueueElems r ring head obj esize num)
    r.size (esize.toNat / 4) head.toNat num.toNat

/-- **A dequeue** reads the elements from the slots from a position on. -/
def Dequeues (r : RteRing α) (esize head num : UInt32) : Prop :=
  LoadsFrom (fun ring obj => rteRingDequeueElems r ring head obj esize num)
    r.size (esize.toNat / 4) head.toNat num.toNat

/-- The factor of the size, the position and the number. -/
def scaleOf (esize : UInt32) : ℕ :=
  if esize = 8 then 1 else if esize = 16 then 1 else esize.toNat / 4

/-- **No product and no sum overflows.** -/
def NoOverflow (r : RteRing α) (esize head num : UInt32) : Prop :=
  r.size * scaleOf esize < 2 ^ 32 ∧ head.toNat % r.size * scaleOf esize < 2 ^ 32 ∧
    num.toNat * scaleOf esize < 2 ^ 32 ∧
    head.toNat % r.size * scaleOf esize + num.toNat * scaleOf esize < 2 ^ 32

theorem copy_iff (w : Width) (scale : ℕ) (head : UInt32) {size n : ℕ} (hn : n < size)
    {nr_size nr_idx nr_num : UInt32} (hsz : nr_size.toNat = size * scale % 2 ^ 32)
    (hix : nr_idx.toNat = head.toNat % size * scale % 2 ^ 32)
    (hnm : nr_num.toNat = n * scale % 2 ^ 32)
    (h16 : w = .b16 → nr_idx.toNat + nr_num.toNat ≤ 2 ^ 32) :
    (StoresAt (fun obj ring =>
        copyElems (fun i pos ring => moveUnit w.words obj i ring pos) w nr_size nr_idx nr_num ring)
      size (scale * w.words) head.toNat n ↔ ScaleFits size scale (head.toNat % size) n) ∧
    (LoadsFrom (fun ring obj =>
        copyElems (fun i pos obj => moveUnit w.words ring pos obj i) w nr_size nr_idx nr_num obj)
      size (scale * w.words) head.toNat n ↔ ScaleFits size scale (head.toNat % size) n) := by
  have hu : 0 < w.words := by cases w <;> decide
  have hN : nr_num.toNat ≤ n * scale := hnm ▸ mod_le _ _
  have hfits := unitAt_iff (mod_lt head.toNat (zero_lt_of_lt hn)) hn hsz hix hnm
  have hslot : ∀ q, slotUnit size scale (head.toNat % size) q = slotUnit size scale head.toNat q :=
    fun q => by rw [slotUnit, mod_add_mod, slotUnit]
  simp only [hslot] at hfits
  simp only [copyElems_eq h16]
  exact ⟨(storesAt_iff hu hn.le hN).trans hfits, (loadsFrom_iff hu hN).trans hfits⟩

/-- **The copies of a ring** are right exactly when the scaled numbers fit. -/
theorem RteRing.Wf.copies_iff (h : r.Wf) (hn : num.toNat ≤ r.capacity) :
    (Enqueues r esize head num ↔
      ScaleFits r.size (scaleOf esize) (head.toNat % r.size) num.toNat) ∧
    (Dequeues r esize head num ↔
      ScaleFits r.size (scaleOf esize) (head.toNat % r.size) num.toNat) := by
  have hlt := hn.trans_lt h.capacity_lt
  have hle := h.size_le
  have hidx : (head &&& UInt32.ofNat r.mask).toNat = head.toNat % r.size := by
    obtain ⟨k, -, hsize⟩ := h.size_eq
    rw [UInt32.toNat_and, UInt32.toNat_ofNat', h.mask_eq, mod_eq_of_lt (by omega), hsize,
      land_mask_eq_mod]
  have hsz : (UInt32.ofNat r.size).toNat = r.size := by
    rw [UInt32.toNat_ofNat']
    exact mod_eq_of_lt (by omega)
  have hmod := mod_lt head.toNat (zero_lt_of_lt hlt)
  rw [Enqueues, Dequeues, scaleOf]
  simp only [rteRingEnqueueElems, rteRingDequeueElems, rteRingDoEnqueueElems,
    rteRingDoDequeueElems]
  split_ifs with h8 h16
  · subst h8
    exact copy_iff .b8 1 head hlt (by rw [hsz]; omega) (by rw [hidx]; omega) (by omega) nofun
  · subst h16
    exact copy_iff .b16 1 head hlt (by rw [hsz]; omega) (by rw [hidx]; omega) (by omega)
      (fun _ => by rw [hidx]; omega)
  · have hscale : (esize / 4).toNat = esize.toNat / 4 := UInt32.toNat_div esize 4
    have hcopy := copy_iff .b4 (esize.toNat / 4) head hlt
      (by rw [UInt32.toNat_mul, hsz, hscale] : (UInt32.ofNat r.size * (esize / 4)).toNat = _)
      (by rw [UInt32.toNat_mul, hidx, hscale] :
        ((head &&& UInt32.ofNat r.mask) * (esize / 4)).toNat = _)
      (by rw [UInt32.toNat_mul, hscale] : (num * (esize / 4)).toNat = _) nofun
    rw [show esize.toNat / 4 * Width.b4.words = esize.toNat / 4 from mul_one _] at hcopy
    exact hcopy

/-- **The elements of a ring are copied** to and from their slots exactly when the scaled
numbers fit; and no number overflows exactly when the size of the ring and the end of the
copy are less than `2 ^ 32` units. -/
theorem elements_are_copied {slots : ℕ → α} {count flags : UInt32}
    (hr : rteRingCreateElem slots esize count flags = some r) (hn : num.toNat ≤ r.capacity) :
    (Enqueues r esize head num ↔
      ScaleFits r.size (scaleOf esize) (head.toNat % r.size) num.toNat) ∧
    (Dequeues r esize head num ↔
      ScaleFits r.size (scaleOf esize) (head.toNat % r.size) num.toNat) ∧
    (Enqueues r esize head num ∧ Dequeues r esize head num ∧ NoOverflow r esize head num ↔
      r.size * scaleOf esize < 2 ^ 32 ∧
        (head.toNat % r.size + num.toNat) * scaleOf esize < 2 ^ 32) := by
  have hwf := (rteRingCreateElem_wf hr).1
  obtain ⟨henq, hdeq⟩ := @RteRing.Wf.copies_iff _ _ esize head _ hwf hn
  refine ⟨henq, hdeq, ?_⟩
  rw [henq, hdeq, NoOverflow, add_mul]
  constructor
  · rintro ⟨-, -, hsize, -, -, hsum⟩
    exact ⟨hsize, hsum⟩
  · rintro ⟨hsize, hsum⟩
    have hfits : ScaleFits r.size (scaleOf esize) (head.toNat % r.size) num.toNat :=
      .inr (.inl ⟨hsize, by rwa [add_mul]⟩)
    exact ⟨hfits, hfits, hsize, by omega, by omega, hsum⟩

/-- Seven elements of three words, from the last slot of eight on. -/
theorem elements_are_copied_seven :
    ∃ r : RteRing Unit, rteRingCreateElem (fun _ => ()) 12 8 0 = some r ∧ 7 ≤ r.capacity ∧
      Enqueues r 12 0xffffffff 7 ∧ Dequeues r 12 0xffffffff 7 := by
  have hr := (Option.some_get (rfl : (rteRingCreateElem (fun _ => ()) 12 8 0 :
    Option (RteRing Unit)).isSome = true)).symm
  obtain ⟨-, -, hcopied⟩ := @elements_are_copied _ _ _ 0xffffffff 7 _ _ _ hr (by decide)
  obtain ⟨henq, hdeq, -⟩ := hcopied.mpr (by decide)
  exact ⟨_, hr, by decide, henq, hdeq⟩

/-- **A ring of `2 ^ 28` elements of 64 bytes** is created, and its size is 0 in units of 4
bytes: the element for slot 1 goes to slot 0. -/
theorem elements_are_copied_fails :
    ¬ ∀ {r : RteRing Unit} {esize count flags head num : UInt32},
      rteRingCreateElem (fun _ => ()) esize count flags = some r → num.toNat ≤ r.capacity →
        Enqueues r esize head num ∧ Dequeues r esize head num ∧ NoOverflow r esize head num := by
  intro h
  have hr := (Option.some_get (rfl : (rteRingCreateElem (fun _ => ()) 64 0x10000000 0 :
    Option (RteRing Unit)).isSome = true)).symm
  have hcapacity : (1 : UInt32).toNat ≤ ((rteRingCreateElem (fun _ => ()) 64 0x10000000 0 :
    Option (RteRing Unit)).get rfl).capacity := by decide
  have hfits := (@RteRing.Wf.copies_iff _ _ _ 1 _ (rteRingCreateElem_wf hr).1 hcapacity).1.mp
    (@h _ _ _ _ 1 _ hr hcapacity).1
  exact absurd hfits (by unfold ScaleFits; decide)

end Rings

end Ring
