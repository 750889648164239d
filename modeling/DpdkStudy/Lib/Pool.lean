import Mathlib.Data.Finset.Card
import Mathlib.Order.Interval.Finset.Nat
import Mathlib.Data.Finset.Image

/-!
# A pool of indexes

A pool of the indexes below `n` is an array and a position in it: what stands
from the position on is free. It lists a set of indexes (`Lists`) if it holds
each of them once. Taking an index is moving the position up (`Lists.get`), and
putting one back is moving it down and storing the index there (`Lists.put`).
The position is the number of indexes in use (`Lists.card_add`).
-/

open Function Finset

namespace Pool

variable {pool : ℕ → ℕ} {pos n : ℕ} {free : Finset ℕ}

/-- **The pool lists the free indexes**, each of them once. -/
structure Lists (pool : ℕ → ℕ) (pos n : ℕ) (free : Finset ℕ) : Prop where
  le : pos ≤ n
  once : Set.InjOn pool (Finset.Ico pos n)
  image : (Finset.Ico pos n).image pool = free

theorem lists_range (h : ∀ i < n, pool i = i) : Lists pool 0 n (range n) := by
  refine ⟨Nat.zero_le n, fun i hi j hj hij => ?_, ?_⟩
  · rw [coe_Ico] at hi hj
    rw [h i hi.2, h j hj.2] at hij
    exact hij
  · rw [← Nat.Ico_zero_eq_range]
    refine (image_congr (fun i hi => ?_)).trans image_id
    rw [coe_Ico] at hi
    exact h i hi.2

section

variable (h : Lists pool pos n free)

include h

theorem Lists.card_add : free.card + pos = n := by
  rw [← h.image, card_image_of_injOn h.once, Nat.card_Ico]
  exact Nat.sub_add_cancel h.le

theorem Lists.mem_iff {t : ℕ} :
    t ∈ free ↔ ∃ i, pos ≤ i ∧ i < n ∧ pool i = t := by
  rw [← h.image]
  simp [and_assoc]

theorem Lists.get (hpos : pos < n) :
    pool pos ∈ free ∧ Lists pool (pos + 1) n (free.erase (pool pos)) := by
  have hsub : ∀ {i}, i ∈ Finset.Ico (pos + 1) n → i ∈ Finset.Ico pos n := by
    intro i hi
    rw [mem_Ico] at hi ⊢
    omega
  have hself : pos ∈ Finset.Ico pos n := mem_Ico.mpr ⟨le_refl pos, hpos⟩
  refine ⟨h.mem_iff.mpr ⟨pos, le_refl pos, hpos, rfl⟩, hpos,
    fun i hi j hj hij => h.once (hsub hi) (hsub hj) hij, ?_⟩
  ext t
  rw [mem_erase, ← h.image, mem_image, mem_image]
  constructor
  · rintro ⟨i, hi, rfl⟩
    refine ⟨fun heq => ?_, i, hsub hi, rfl⟩
    have hi' := h.once (hsub hi) hself heq
    rw [mem_Ico] at hi
    omega
  · rintro ⟨hne, i, hi, rfl⟩
    refine ⟨i, ?_, rfl⟩
    rw [mem_Ico] at hi ⊢
    have hip : i ≠ pos := fun heq => hne (heq ▸ rfl)
    omega

/-- While an index is in use, the pool is not full. -/
theorem Lists.pos_pos (hfree : free ⊆ range n) {t : ℕ} (ht : t < n) (hnot : t ∉ free) :
    0 < pos := by
  have hcard : free.card < (range n).card := by
    refine Finset.card_lt_card (Finset.ssubset_iff_subset_ne.mpr ⟨hfree, fun heq => hnot ?_⟩)
    rw [heq]
    exact mem_range.mpr ht
  rw [card_range] at hcard
  have hsum := h.card_add
  omega

theorem Lists.put (hpos : 0 < pos) {t : ℕ} (ht : t ∉ free) :
    Lists (update pool (pos - 1) t) (pos - 1) n (insert t free) := by
  have hsame : ∀ {i}, i ∈ Finset.Ico pos n → update pool (pos - 1) t i = pool i := by
    intro i hi
    rw [mem_Ico] at hi
    exact update_of_ne (show i ≠ pos - 1 by omega) t pool
  have hfresh : ∀ {i}, i ∈ Finset.Ico pos n → pool i ≠ t := by
    rintro i hi rfl
    exact ht (by rw [← h.image]; exact mem_image_of_mem pool hi)
  have hle := h.le
  have hsplit : Finset.Ico (pos - 1) n = insert (pos - 1) (Finset.Ico pos n) := by
    ext i
    simp only [mem_Ico, mem_insert]
    omega
  refine ⟨by omega, ?_, ?_⟩
  · rw [hsplit]
    intro i hi j hj hij
    rw [coe_insert, Set.mem_insert_iff, mem_coe] at hi hj
    rcases hi with rfl | hi
    · rcases hj with rfl | hj
      · rfl
      · rw [update_self, hsame hj] at hij
        exact absurd hij.symm (hfresh hj)
    · rcases hj with rfl | hj
      · rw [update_self, hsame hi] at hij
        exact absurd hij (hfresh hi)
      · rw [hsame hi, hsame hj] at hij
        exact h.once hi hj hij
  · rw [hsplit, image_insert, update_self, ← h.image]
    congr 1
    exact image_congr (fun i hi => hsame hi)

end

/-! ## Indexes that are not in use -/

/-- The indexes that a partial map has no value for. -/
def vacant {α : Type*} (loc : ℕ → Option α) (n : ℕ) : Finset ℕ :=
  (Finset.range n).filter (fun t => (loc t).isNone)

variable {α : Type*} {loc : ℕ → Option α}

@[simp] theorem mem_vacant {t : ℕ} : t ∈ vacant loc n ↔ t < n ∧ loc t = none := by
  simp [vacant]

theorem vacant_subset (loc : ℕ → Option α) (n : ℕ) : vacant loc n ⊆ range n :=
  filter_subset _ _

theorem vacant_update_some (t : ℕ) (x : α) :
    vacant (update loc t (some x)) n = (vacant loc n).erase t := by
  ext u
  by_cases hu : u = t
  · subst hu
    simp
  · simp [hu]

theorem vacant_update_none {t : ℕ} (ht : t < n) :
    vacant (update loc t none) n = insert t (vacant loc n) := by
  ext u
  by_cases hu : u = t
  · subst hu
    simp [ht]
  · simp [hu]

end Pool
