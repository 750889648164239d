import DpdkStudy.Pdcp.Downlink

/-!
# The window of a downlink entity

The packets that are waited for have the COUNTs from `RX_DELIV` on, as many as the
window. What has come of them is a list of slots, and the bit of a slot in the bitmap
says whether it is taken (`Slots`). A packet that comes takes its slot
(`Slots.set`); when `RX_DELIV` moves on, the slots in front are given up, and their
bits are cleared for the COUNTs that come a window later (`Slots.slide`).
-/

open List Option

namespace Pdcp

open List (replicate)

variable {W D next n : ℕ} {bits : Set ℕ} {w p : List (Option Reorder.Mbuf)}

/-- **The slots of a window** that starts at a COUNT. -/
structure Slots (W D : ℕ) (bits : Set ℕ) (next : ℕ) (w : List (Option Reorder.Mbuf)) :
    Prop where
  length : w.length = W
  bit : ∀ i < W, (D + i) % W ∈ bits ↔ ∃ mb, w[i]? = some (some mb)
  number : ∀ i mb, w[i]? = some (some mb) → mb.seqn.toNat = D + i ∧ D + i < next

theorem Slots.mono (h : Slots W D bits next w) {next' : ℕ} (hle : next ≤ next') :
    Slots W D bits next' w :=
  ⟨h.length, h.bit, fun i mb hi => ⟨(h.number i mb hi).1, (h.number i mb hi).2.trans_le hle⟩⟩

theorem Slots.set (h : Slots W D bits next w) (mb : Reorder.Mbuf) {i : ℕ} (hi : i < W)
    (hseqn : mb.seqn.toNat = D + i) (hnext : D + i < next) :
    Slots W D (insert ((D + i) % W) bits) next (w.set i (some mb)) := by
  refine ⟨by rw [length_set, h.length], fun j hj => ?_, fun j mb' hj => ?_⟩
  · rw [Set.mem_insert_iff, h.bit j hj]
    by_cases hij : j = i
    · subst hij
      simp [h.length, hj]
    · have hne : (D + j) % W ≠ (D + i) % W :=
        fun heq => hij (Nat.add_left_cancel (Ring.mod_inj heq (by omega) (by omega)))
      simp [hne, Ne.symm hij]
  · by_cases hij : i = j
    · subst hij
      rw [getElem?_set_self (by rwa [h.length])] at hj
      obtain rfl := some.inj (some.inj hj)
      exact ⟨hseqn, hnext⟩
    · rw [getElem?_set_ne hij] at hj
      exact h.number j mb' hj

theorem Slots.note (h : Slots W D bits next w) {mb : Reorder.Mbuf} (hle : D ≤ mb.seqn.toNat)
    (hlt : mb.seqn.toNat < D + W) :
    Slots W D (insert (mb.seqn.toNat % W) bits) (max next (mb.seqn.toNat + 1))
      (w.set (mb.seqn.toNat - D) (some mb)) := by
  have hsum : D + (mb.seqn.toNat - D) = mb.seqn.toNat := by omega
  have hset := (h.mono (le_max_left next (mb.seqn.toNat + 1))).set mb
    (i := mb.seqn.toNat - D) (by omega) hsum.symm
    (by rw [hsum]; exact (Nat.lt_succ_self _).trans_le (le_max_right _ _))
  rwa [hsum] at hset

theorem Slots.slide (h : Slots W D bits next (p ++ w)) :
    Slots W (D + p.length) (bits \ {x | ∃ i < p.length, x = (D + i) % W}) next
      (w ++ replicate p.length none) := by
  have hlen := h.length
  rw [length_append] at hlen
  refine ⟨by rw [length_append, length_replicate]; omega, fun i hi => ?_,
    fun i mb hi => ?_⟩
  · by_cases hin : i < w.length
    · rw [getElem?_append_left hin, Set.mem_sdiff, Nat.add_assoc,
        h.bit (p.length + i) (by omega), getElem?_append_right (Nat.le_add_right _ _),
        Nat.add_sub_cancel_left]
      refine and_iff_left ?_
      rintro ⟨j, hj, heq⟩
      exact absurd (Ring.mod_inj heq (by omega) (by omega)) (by omega)
    · rw [getElem?_append_right (not_lt.mp hin),
        getElem?_replicate_of_lt (by omega)]
      refine iff_of_false (fun hbit => hbit.2 ⟨i - w.length, by omega, ?_⟩) (by simp)
      rw [show D + p.length + i = D + (i - w.length) + W by omega, Nat.add_mod_right]
  · by_cases hin : i < w.length
    · rw [getElem?_append_left hin] at hi
      have hnum := h.number (p.length + i) mb (by
        rwa [getElem?_append_right (Nat.le_add_right _ _), Nat.add_sub_cancel_left])
      rwa [← Nat.add_assoc] at hnum
    · rw [getElem?_append_right (not_lt.mp hin), getElem?_replicate] at hi
      split_ifs at hi
      exact absurd (some.inj hi) nofun

/-- Packets in slots have their COUNTs in the window. -/
theorem Slots.of_mem (h : Slots W D bits next w) {mb : Reorder.Mbuf}
    (hmb : mb ∈ w.reduceOption) :
    D ≤ mb.seqn.toNat ∧ mb.seqn.toNat < D + W ∧ mb.seqn.toNat < next := by
  obtain ⟨i, hi, hget⟩ := mem_iff_getElem.mp (reduceOption_mem_iff.mp hmb)
  obtain ⟨hseqn, hnext⟩ := h.number i mb (by rw [getElem?_eq_getElem hi, hget])
  rw [h.length] at hi
  omega

theorem Slots.mem_iff (h : Slots W D bits next w) (i : ℕ) :
    (∃ mb, w[i]? = some (some mb)) ↔ ∃ mb ∈ w.reduceOption, mb.seqn.toNat = D + i := by
  constructor
  · rintro ⟨mb, hget⟩
    exact ⟨mb, reduceOption_mem_iff.mpr (mem_of_getElem? hget), (h.number i mb hget).1⟩
  · rintro ⟨mb, hmb, hseqn⟩
    obtain ⟨j, hj, hget⟩ := mem_iff_getElem.mp (reduceOption_mem_iff.mp hmb)
    have hget' : w[j]? = some (some mb) := by rw [getElem?_eq_getElem hj, hget]
    obtain rfl : i = j := Nat.add_left_cancel (hseqn.symm.trans (h.number j mb hget').1)
    exact ⟨mb, hget'⟩

/-- Packets in slots are in the order of their COUNTs. -/
theorem Slots.pairwise (h : Slots W D bits next w) :
    w.reduceOption.Pairwise (fun a b => a.seqn.toNat < b.seqn.toNat) := by
  have hall : ∀ (v : List (Option Reorder.Mbuf)) (d : ℕ),
      (∀ i mb, v[i]? = some (some mb) → mb.seqn.toNat = d + i) →
      v.reduceOption.Pairwise (fun a b => a.seqn.toNat < b.seqn.toNat) ∧
        ∀ mb ∈ v.reduceOption, d ≤ mb.seqn.toNat := by
    intro v
    induction v with
    | nil => exact fun _ _ => ⟨List.Pairwise.nil, nofun⟩
    | cons x v ih =>
      intro d hv
      obtain ⟨hpair, hle⟩ := ih (d + 1) (fun i mb hi => by
        rw [hv (i + 1) mb hi]
        omega)
      cases x with
      | none => exact ⟨hpair, fun mb hmb => Nat.le_of_succ_le (hle mb hmb)⟩
      | some m =>
        have hm : m.seqn.toNat = d := hv 0 m rfl
        rw [reduceOption_cons_of_some]
        refine ⟨pairwise_cons.mpr ⟨fun mb hmb => ?_, hpair⟩, fun mb hmb => ?_⟩
        · exact hm ▸ hle mb hmb
        · rcases mem_cons.mp hmb with rfl | hmb
          · exact hm.ge
          · exact Nat.le_of_succ_le (hle mb hmb)
  exact (hall w D (fun i mb hi => (h.number i mb hi).1)).1

/-! ## Up to the first gap -/

theorem takeWhile_eq_map (v : List (Option Reorder.Mbuf)) :
    v.takeWhile isSome = (v.takeWhile isSome).reduceOption.map some := by
  induction v with
  | nil => rfl
  | cons x v ih =>
    cases x with
    | none => rfl
    | some m =>
      rw [takeWhile_cons_of_pos rfl, reduceOption_cons_of_some, map_cons, ← ih]

/-- The packets up to the first gap and those behind it are all packets. -/
theorem reduceOption_split (v : List (Option Reorder.Mbuf)) (n : ℕ) :
    v.reduceOption = (v.takeWhile isSome).reduceOption ++
      (v.dropWhile isSome ++ replicate n none).reduceOption := by
  rw [reduceOption_append, reduceOption_replicate_none, append_nil,
    ← reduceOption_append, takeWhile_append_dropWhile]

theorem head_dropWhile {v : List (Option Reorder.Mbuf)} (hne : v ≠ []) :
    (v.dropWhile isSome ++
      replicate (v.takeWhile isSome).length none).head? = some none := by
  induction v with
  | nil => exact absurd rfl hne
  | cons x v ih =>
    cases x with
    | none => rfl
    | some m =>
      rw [dropWhile_cons_of_pos rfl, takeWhile_cons_of_pos rfl, length_cons]
      by_cases hv : v = []
      · subst hv
        rfl
      · rw [replicate_succ', ← append_assoc, head?_append, ih hv]
        rfl

/-- The first gap is in front of all COUNTs that have not come. -/
theorem Slots.front_le (h : Slots W D bits next w) {g : ℕ} (hD : D ≤ g)
    (hg : ∀ mb ∈ w.reduceOption, mb.seqn.toNat ≠ g) :
    D + (w.takeWhile isSome).length ≤ g := by
  by_contra hlt
  have hi : g - D < (w.takeWhile isSome).length := by omega
  have hpre := takeWhile_prefix isSome (l := w)
  obtain ⟨m, hm⟩ : ∃ m, w[g - D]? = some (some m) := by
    obtain ⟨ms, hms⟩ : ∃ ms, w.takeWhile isSome = map some ms :=
      ⟨_, takeWhile_eq_map w⟩
    rw [prefix_iff_getElem?.mp hpre (g - D) hi]
    simp only [hms, getElem_map]
    exact ⟨_, rfl⟩
  have hnum := (h.number _ m hm).1
  exact hg m (reduceOption_mem_iff.mpr (mem_of_getElem? hm)) (by omega)

theorem Slots.of_mem_front (h : Slots W D bits next w) {mb : Reorder.Mbuf}
    (hmb : mb ∈ (w.takeWhile isSome).reduceOption) :
    D ≤ mb.seqn.toNat ∧ mb.seqn.toNat < D + (w.takeWhile isSome).length := by
  obtain ⟨i, hi, hget⟩ := mem_iff_getElem.mp (reduceOption_mem_iff.mp hmb)
  have hpre := takeWhile_prefix isSome (l := w)
  have hslot := prefix_iff_getElem?.mp hpre i hi
  rw [hget] at hslot
  have hnum := (h.number i mb hslot).1
  omega

theorem reduceOption_set {i : ℕ} (hslot : w[i]? = some none) (mb : Reorder.Mbuf) :
    (w.set i (some mb)).reduceOption.Perm (mb :: w.reduceOption) := by
  induction w generalizing i with
  | nil => exact absurd hslot nofun
  | cons x w ih =>
    cases i with
    | zero =>
      obtain rfl : x = none := some.inj hslot
      exact List.Perm.refl _
    | succ i =>
      rw [getElem?_cons_succ] at hslot
      rw [set_cons_succ]
      cases x with
      | none => exact ih hslot
      | some m =>
        rw [reduceOption_cons_of_some, reduceOption_cons_of_some]
        exact ((ih hslot).cons m).trans (List.Perm.swap mb m _)

/-! ## The bitmap -/

theorem sdiff_range_add (bits : Set ℕ) (W D n m : ℕ) :
    (bits \ {x | ∃ i < n, x = (D + i) % W}) \ {x | ∃ i < m, x = (D + n + i) % W} =
      bits \ {x | ∃ i < n + m, x = (D + i) % W} := by
  ext x
  simp only [Set.mem_sdiff, Set.mem_ofPred_eq, not_exists, not_and, and_assoc,
    and_congr_right_iff]
  intro _
  constructor
  · rintro ⟨hn, hm⟩ i hi
    by_cases hin : i < n
    · exact hn i hin
    · have hx := hm (i - n) (by omega)
      rwa [show D + n + (i - n) = D + i by omega] at hx
  · intro hx
    exact ⟨fun i hi => hx i (by omega), fun i hi => by
      rw [Nat.add_assoc]
      exact hx (n + i) (by omega)⟩

/-- The bits of some COUNTs are cleared. -/
theorem pdcpCntBitmapRangeClear_spec {bmp : Bitmap.RteBitmap} (hpos : 0 < W)
    (hi : Bitmap.Inv W bmp bits) (start n : ℕ) :
    ∃ bmp', pdcpCntBitmapRangeClear bmp W start (start + n) = some bmp' ∧
      Bitmap.Inv W bmp' (bits \ {x | ∃ i < n, x = (start + i) % W}) := by
  rw [pdcpCntBitmapRangeClear, Nat.add_sub_cancel_left]
  induction n generalizing start bmp bits with
  | zero => exact ⟨bmp, rfl, by simpa using hi⟩
  | succ n ih =>
    have hwithin : Bitmap.Within W (.clear (start % W)) := Nat.mod_lt _ hpos
    obtain ⟨bmp₁, hclear, hi₁⟩ := hi.apply hwithin trivial
    obtain ⟨bmp', hrest, hi'⟩ := ih hi₁ (start + 1)
    refine ⟨bmp', ?_, ?_⟩
    · have hone : bmp.clear (start % W) = some bmp₁ := hclear
      rw [range'_succ, foldlM_cons, hone]
      exact hrest
    · rw [Nat.add_comm n 1, ← sdiff_range_add]
      convert hi' using 1
      ext x
      simp [Bitmap.content]

end Pdcp
