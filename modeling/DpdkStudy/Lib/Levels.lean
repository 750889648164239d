import Mathlib.Logic.Function.Basic
import Mathlib.Tactic.Common
import Mathlib.Algebra.Group.Nat.Defs

/-!
# Tables over several levels

A table has an entry for each block of a space, and an entry may have a group
of 256 entries of its own, one for each of the blocks it is divided into, and so
on. The groups are numbered, and lie next to each other: where a group belongs
is written in the entries alone.

This module keeps track of where the groups are. A *placement* `loc` says of a
group to which block of which level it belongs: the group at `(k, c)` has the
entries of the blocks `c * 256`, …, `c * 256 + 255` of level `k + 1`
(`Cell`). A placement is right if the entries say the same (`Placed`), and then
each group belongs to one entry, and each entry lies below an unbroken line of
groups (`Placed.ancestor`). What the entries without groups say of their blocks
is up to the user (`Leaves`).

A group may be attached to an entry (`Placed.attach`), and one without groups
below it may be detached (`Placed.detach`). A walk over a range of blocks and
everything below them, which rewrites the entries without groups, is put
together entry by entry (`Mapped.leaf`, `Mapped.below`).

A table is `none` for the first one, and otherwise the number of a group. The
entries are a function of the table and the index in it.
-/

open Function

namespace Levels

variable {E : Type*} {child : E → Option ℕ} {N L : ℕ} {T T' T'' : Option ℕ → ℕ → E}
  {loc : ℕ → Option (ℕ × ℕ)}

variable {c c' i k k' t y : ℕ} {tbl : Option ℕ} {P : ℕ → ℕ → E → Prop}

/-- **The entry `i` of a table** is the one of the block `c` of level `k`. -/
def Cell (loc : ℕ → Option (ℕ × ℕ)) : Option ℕ → ℕ → ℕ → ℕ → Prop
  | none, i, k, c => k = 0 ∧ c = i
  | some t, i, k, c => i < 256 ∧ ∃ j b, loc t = some (j, b) ∧ k = j + 1 ∧ c = b * 256 + i

/-- The entries of the first table are those of level zero. -/
theorem cell_root (loc : ℕ → Option (ℕ × ℕ)) (i : ℕ) : Cell loc none i 0 i := ⟨rfl, rfl⟩

theorem cell_group (h : loc t = some (k, c)) (hi : i < 256) :
    Cell loc (some t) i (k + 1) (c * 256 + i) :=
  ⟨hi, k, c, h, rfl, rfl⟩

/-- **A placement is right.** -/
structure Placed (child : E → Option ℕ) (N L : ℕ) (T : Option ℕ → ℕ → E)
    (loc : ℕ → Option (ℕ × ℕ)) : Prop where
  /-- Groups belong to different blocks. -/
  apart : ∀ t t' x, loc t = some x → loc t' = some x → t = t'
  /-- The group of an entry belongs to its block. -/
  below : ∀ tbl i k c t, Cell loc tbl i k c → child (T tbl i) = some t → loc t = some (k, c)
  /-- A group is that of an entry. -/
  owner : ∀ t k c, loc t = some (k, c) → ∃ tbl i, Cell loc tbl i k c ∧ child (T tbl i) = some t
  /-- There are `L` levels of groups, below `N` blocks. -/
  bound : ∀ t k c, loc t = some (k, c) → k < L ∧ c < N * 256 ^ k

/-- **What the entries without groups say** of their blocks. -/
def Leaves (child : E → Option ℕ) (P : ℕ → ℕ → E → Prop) (T : Option ℕ → ℕ → E)
    (loc : ℕ → Option (ℕ × ℕ)) : Prop :=
  ∀ tbl i k c, Cell loc tbl i k c → child (T tbl i) = none → P k c (T tbl i)

/-! ## The place of an entry -/

theorem Placed.cell_inj (h : Placed child N L T loc) {tbl' : Option ℕ} {i' : ℕ}
    (hcell : Cell loc tbl i k c) (hcell' : Cell loc tbl' i' k c) : tbl = tbl' ∧ i = i' := by
  cases tbl with
  | none =>
    cases tbl' with
    | none => exact ⟨rfl, hcell.2.symm.trans hcell'.2⟩
    | some t' =>
      obtain ⟨-, j, b, -, hk, -⟩ := hcell'
      exact absurd (hcell.1.symm.trans hk) (Nat.succ_ne_zero j).symm
  | some t =>
    obtain ⟨hi, j, b, hloc, rfl, rfl⟩ := hcell
    cases tbl' with
    | none => exact absurd hcell'.1 (Nat.succ_ne_zero j)
    | some t' =>
      obtain ⟨hi', j', b', hloc', hk, hc⟩ := hcell'
      obtain rfl : j = j' := by omega
      obtain rfl : b = b' := by omega
      exact ⟨congrArg some (h.apart t t' _ hloc hloc'), by omega⟩

theorem Cell.block_inj (h : Cell loc tbl i k c) (h' : Cell loc tbl i k' c') : k = k' ∧ c = c' := by
  cases tbl with
  | none => exact ⟨h.1.trans h'.1.symm, h.2.trans h'.2.symm⟩
  | some t =>
    obtain ⟨-, j, b, hloc, rfl, rfl⟩ := h
    obtain ⟨-, j', b', hloc', rfl, rfl⟩ := h'
    obtain ⟨rfl, rfl⟩ := Prod.mk.inj (Option.some.inj (hloc.symm.trans hloc'))
    exact ⟨rfl, rfl⟩

section

variable (h : Placed child N L T loc)

include h

theorem Placed.level_le (hcell : Cell loc tbl i k c) : k ≤ L := by
  cases tbl with
  | none => exact hcell.1 ▸ Nat.zero_le L
  | some t =>
    obtain ⟨-, j, b, hloc, rfl, -⟩ := hcell
    exact (h.bound t j b hloc).1

theorem Placed.ancestor (hloc : loc t = some (k, c)) {j : ℕ} (hj : j ≤ k) :
    ∃ t', loc t' = some (j, c / 256 ^ (k - j)) := by
  induction k generalizing t c with
  | zero =>
    obtain rfl : j = 0 := Nat.le_zero.mp hj
    exact ⟨t, by rw [hloc, Nat.sub_self, Nat.pow_zero, Nat.div_one]⟩
  | succ k ih =>
    rcases Nat.lt_or_eq_of_le hj with hlt | rfl
    · obtain ⟨tbl, i, hcell, -⟩ := h.owner t (k + 1) c hloc
      cases tbl with
      | none => exact absurd hcell.1 (Nat.succ_ne_zero k)
      | some u =>
        obtain ⟨hi, k', b, hu, hk, rfl⟩ := hcell
        obtain rfl : k = k' := Nat.succ_inj.mp hk
        obtain ⟨t', ht'⟩ := ih hu (Nat.le_of_lt_succ hlt)
        refine ⟨t', ?_⟩
        have hdiv : (b * 256 + i) / 256 = b := by omega
        rw [ht', Nat.succ_sub (Nat.le_of_lt_succ hlt), Nat.pow_succ', ← Nat.div_div_eq_div_mul,
          hdiv]
    · exact ⟨t, by rw [hloc, Nat.sub_self, Nat.pow_zero, Nat.div_one]⟩

theorem Placed.above (hcell : Cell loc tbl i k c) {j : ℕ} (hj : j < k) :
    ∃ t', loc t' = some (j, c / 256 ^ (k - j)) := by
  cases tbl with
  | none => exact absurd (hcell.1 ▸ hj) (Nat.not_lt_zero j)
  | some t =>
    obtain ⟨hi, k', b, hloc, rfl, rfl⟩ := hcell
    have hj' := Nat.le_of_lt_succ hj
    obtain ⟨t', ht'⟩ := h.ancestor hloc hj'
    have hdiv : (b * 256 + i) / 256 = b := by omega
    refine ⟨t', ?_⟩
    rw [ht', Nat.succ_sub hj', Nat.pow_succ', ← Nat.div_div_eq_div_mul, hdiv]

theorem Placed.eq_of_below {tbl' : Option ℕ} {i' : ℕ} (hcell : Cell loc tbl i k c)
    (hleaf : child (T tbl i) = none) (hcell' : Cell loc tbl' i' k' c') (hk : k ≤ k')
    (hc : c' / 256 ^ (k' - k) = c) :
    tbl' = tbl ∧ i' = i := by
  rcases Nat.lt_or_eq_of_le hk with hlt | rfl
  · obtain ⟨t, ht⟩ := h.above hcell' hlt
    rw [hc] at ht
    obtain ⟨u, j, hu, hchild⟩ := h.owner t k c ht
    obtain ⟨rfl, rfl⟩ := h.cell_inj hcell hu
    rw [hleaf] at hchild
    cases hchild
  · rw [Nat.sub_self, Nat.pow_zero, Nat.div_one] at hc
    subst hc
    exact h.cell_inj hcell' hcell

/-! ## Entries that do not count -/

/-- A placement does not depend on the entries of groups that it does not
place. -/
theorem Placed.congr (hsame : ∀ tbl i k c, Cell loc tbl i k c → T' tbl i = T tbl i) :
    Placed child N L T' loc where
  apart := h.apart
  below tbl i k c t hcell hc := by
    rw [hsame tbl i k c hcell] at hc
    exact h.below tbl i k c t hcell hc
  owner t k c hloc := by
    obtain ⟨tbl, i, hcell, hc⟩ := h.owner t k c hloc
    exact ⟨tbl, i, hcell, by rw [hsame tbl i k c hcell, hc]⟩
  bound := h.bound

end

theorem Leaves.congr (h : Leaves child P T loc)
    (hsame : ∀ tbl i k c, Cell loc tbl i k c → T' tbl i = T tbl i) : Leaves child P T' loc := by
  intro tbl i k c hcell hleaf
  rw [hsame tbl i k c hcell] at hleaf ⊢
  exact h tbl i k c hcell hleaf

/-! ## Attaching and detaching a group -/

theorem cell_update (ht : loc t = none) :
    Cell (update loc t (some (k, c))) tbl i k' c'
      ↔ (tbl ≠ some t ∧ Cell loc tbl i k' c')
        ∨ (tbl = some t ∧ i < 256 ∧ k' = k + 1 ∧ c' = c * 256 + i) := by
  cases tbl with
  | none => simp [Cell]
  | some u =>
    by_cases hu : u = t
    · subst hu
      simp only [Cell, update_self, ne_eq, not_true_eq_false, false_and, true_and,
        false_or, Option.some.injEq, Prod.mk.injEq]
      constructor
      · rintro ⟨hi, j, b, ⟨rfl, rfl⟩, hk, hc⟩
        exact ⟨hi, hk, hc⟩
      · rintro ⟨hi, hk, hc⟩
        exact ⟨hi, k, c, ⟨rfl, rfl⟩, hk, hc⟩
    · simp [Cell, hu]

/-- The entries, once a group is no longer placed. -/
theorem cell_update_none :
    Cell (update loc t none) tbl i k' c' ↔ tbl ≠ some t ∧ Cell loc tbl i k' c' := by
  cases tbl with
  | none => simp [Cell]
  | some u =>
    by_cases hu : u = t
    · subst hu
      simp [Cell]
    · simp [Cell, hu]

/-- A group is attached to an entry that has none. -/
theorem Placed.attach (h : Placed child N L T loc) (hcell : Cell loc tbl i k c)
    (hleaf : child (T tbl i) = none) (hk : k < L) (hc : c < N * 256 ^ k) (ht : loc t = none)
    (howner : child (T' tbl i) = some t) (hgroup : ∀ j < 256, child (T' (some t) j) = none)
    (hsame : ∀ tbl' i' k' c', Cell loc tbl' i' k' c' → ¬ (tbl' = tbl ∧ i' = i) →
      T' tbl' i' = T tbl' i') :
    Placed child N L T' (update loc t (some (k, c))) := by
  have htbl : tbl ≠ some t := by
    rintro rfl
    obtain ⟨-, j, b, hloc, -⟩ := hcell
    rw [ht] at hloc
    cases hloc
  have hcell' := (cell_update (k := k) (c := c) ht).mpr (Or.inl ⟨htbl, hcell⟩)
  refine ⟨fun u u' x hu hu' => ?_, fun tbl' i' k' c' u hu hchild => ?_, fun u k' c' hu => ?_,
    fun u k' c' hu => ?_⟩
  · -- no other group belongs to the block: its entry had none
    have hfresh : ∀ v, loc v ≠ some (k, c) := by
      intro v hv
      obtain ⟨tbl', i', hcv, hchild⟩ := h.owner v k c hv
      obtain ⟨rfl, rfl⟩ := h.cell_inj hcell hcv
      rw [hleaf] at hchild
      cases hchild
    by_cases huv : u = t
    · subst huv
      rw [update_self] at hu
      by_cases huv' : u' = u
      · exact huv'.symm
      · rw [update_of_ne huv', ← hu] at hu'
        exact absurd hu' (hfresh u')
    · rw [update_of_ne huv] at hu
      by_cases huv' : u' = t
      · subst huv'
        rw [update_self] at hu'
        rw [← hu'] at hu
        exact absurd hu (hfresh u)
      · rw [update_of_ne huv'] at hu'
        exact h.apart u u' x hu hu'
  · rcases (cell_update ht).mp hu with ⟨-, hu⟩ | ⟨rfl, hi', -, -⟩
    · by_cases heq : tbl' = tbl ∧ i' = i
      · obtain ⟨rfl, rfl⟩ := heq
        rw [howner] at hchild
        obtain rfl := Option.some.inj hchild
        obtain ⟨rfl, rfl⟩ := hcell.block_inj hu
        exact update_self t _ loc
      · rw [hsame tbl' i' k' c' hu heq] at hchild
        have hloc := h.below tbl' i' k' c' u hu hchild
        have hne : u ≠ t := by
          rintro rfl
          rw [ht] at hloc
          cases hloc
        rw [update_of_ne hne, hloc]
    · rw [hgroup i' hi'] at hchild
      cases hchild
  · by_cases huv : u = t
    · subst huv
      rw [update_self] at hu
      obtain ⟨rfl, rfl⟩ := Prod.mk.inj (Option.some.inj hu)
      exact ⟨tbl, i, hcell', howner⟩
    · rw [update_of_ne huv] at hu
      obtain ⟨tbl', i', hcu, hchild⟩ := h.owner u k' c' hu
      have hne : ¬ (tbl' = tbl ∧ i' = i) := by
        rintro ⟨rfl, rfl⟩
        rw [hleaf] at hchild
        cases hchild
      refine ⟨tbl', i', (cell_update ht).mpr (Or.inl ⟨?_, hcu⟩), ?_⟩
      · rintro rfl
        obtain ⟨-, j, b, hloc, -⟩ := hcu
        rw [ht] at hloc
        cases hloc
      · rw [hsame tbl' i' k' c' hcu hne, hchild]
  · by_cases huv : u = t
    · subst huv
      rw [update_self] at hu
      obtain ⟨rfl, rfl⟩ := Prod.mk.inj (Option.some.inj hu)
      exact ⟨hk, hc⟩
    · rw [update_of_ne huv] at hu
      exact h.bound u k' c' hu

/-- What the entries say, once a group is attached: those of the group come in
place of its entry. -/
theorem Leaves.attach (h : Leaves child P T loc) (ht : loc t = none)
    (howner : child (T' tbl i) = some t)
    (hgroup : ∀ j < 256, P (k + 1) (c * 256 + j) (T' (some t) j))
    (hsame : ∀ tbl' i' k' c', Cell loc tbl' i' k' c' → ¬ (tbl' = tbl ∧ i' = i) →
      T' tbl' i' = T tbl' i') :
    Leaves child P T' (update loc t (some (k, c))) := by
  intro tbl' i' k' c' hcell hleaf
  rcases (cell_update ht).mp hcell with ⟨-, hcell⟩ | ⟨rfl, hi', rfl, rfl⟩
  · have hne : ¬ (tbl' = tbl ∧ i' = i) := by
      rintro ⟨rfl, rfl⟩
      rw [howner] at hleaf
      cases hleaf
    rw [hsame tbl' i' k' c' hcell hne] at hleaf ⊢
    exact h tbl' i' k' c' hcell hleaf
  · exact hgroup i' hi'

/-- A group is detached from its entry: it has no groups below it. -/
theorem Placed.detach (h : Placed child N L T loc) (hcell : Cell loc tbl i k c)
    (ht : loc t = some (k, c)) (hleaf : child (T' tbl i) = none)
    (hgroup : ∀ j < 256, child (T (some t) j) = none)
    (hsame : ∀ tbl' i' k' c', Cell loc tbl' i' k' c' → tbl' ≠ some t →
      ¬ (tbl' = tbl ∧ i' = i) → T' tbl' i' = T tbl' i') :
    Placed child N L T' (update loc t none) := by
  have hne : ∀ {u x}, update loc t none u = some x → u ≠ t ∧ loc u = some x := by
    intro u x hu
    by_cases huv : u = t
    · subst huv
      rw [update_self] at hu
      cases hu
    · rw [update_of_ne huv] at hu
      exact ⟨huv, hu⟩
  refine ⟨fun u u' x hu hu' => h.apart u u' x (hne hu).2 (hne hu').2,
    fun tbl' i' k' c' u hu hchild => ?_, fun u k' c' hu => ?_,
    fun u k' c' hu => h.bound u k' c' (hne hu).2⟩
  · obtain ⟨htbl, hcu⟩ := cell_update_none.mp hu
    by_cases heq : tbl' = tbl ∧ i' = i
    · obtain ⟨rfl, rfl⟩ := heq
      rw [hleaf] at hchild
      cases hchild
    · rw [hsame tbl' i' k' c' hcu htbl heq] at hchild
      have hloc := h.below tbl' i' k' c' u hcu hchild
      have hut : u ≠ t := by
        rintro rfl
        obtain ⟨rfl, rfl⟩ := Prod.mk.inj (Option.some.inj (hloc.symm.trans ht))
        exact heq (h.cell_inj hcu hcell)
      rw [update_of_ne hut, hloc]
  · obtain ⟨hut, hloc⟩ := hne hu
    obtain ⟨tbl', i', hcu, hchild⟩ := h.owner u k' c' hloc
    have htbl : tbl' ≠ some t := by
      rintro rfl
      rw [hgroup i' hcu.1] at hchild
      cases hchild
    have heq : ¬ (tbl' = tbl ∧ i' = i) := by
      rintro ⟨rfl, rfl⟩
      obtain ⟨rfl, rfl⟩ := hcell.block_inj hcu
      exact hut (h.apart u t _ hloc ht)
    refine ⟨tbl', i', cell_update_none.mpr ⟨htbl, hcu⟩, ?_⟩
    rw [hsame tbl' i' k' c' hcu htbl heq, hchild]

/-- What the entries say, once a group is detached. -/
theorem Leaves.detach {P' : ℕ → ℕ → E → Prop} (h : Leaves child P T loc)
    (hentry : ∀ k c, Cell loc tbl i k c → P' k c (T' tbl i))
    (hsame : ∀ tbl' i' k' c', Cell loc tbl' i' k' c' → tbl' ≠ some t →
      ¬ (tbl' = tbl ∧ i' = i) → T' tbl' i' = T tbl' i')
    (hother : ∀ tbl' i' k' c', Cell loc tbl' i' k' c' → tbl' ≠ some t →
      child (T tbl' i') = none → P k' c' (T tbl' i') → P' k' c' (T tbl' i')) :
    Leaves child P' T' (update loc t none) := by
  intro tbl' i' k' c' hcell hleaf
  obtain ⟨htbl, hcell⟩ := cell_update_none.mp hcell
  by_cases heq : tbl' = tbl ∧ i' = i
  · obtain ⟨rfl, rfl⟩ := heq
    exact hentry k' c' hcell
  · rw [hsame tbl' i' k' c' hcell htbl heq] at hleaf ⊢
    exact hother tbl' i' k' c' hcell htbl hleaf (h tbl' i' k' c' hcell hleaf)

/-! ## Walks -/

/-- The blocks `x`, …, `y - 1` of level `k`, and the blocks below them. -/
def Within (k x y k' c' : ℕ) : Prop :=
  k ≤ k' ∧ x ≤ c' / 256 ^ (k' - k) ∧ c' / 256 ^ (k' - k) < y

/-- **A walk over some blocks** rewrites their entries without groups, and
nothing else. -/
structure Mapped (child : E → Option ℕ) (loc : ℕ → Option (ℕ × ℕ)) (R : ℕ → ℕ → Prop) (f : E → E)
    (T T' : Option ℕ → ℕ → E) : Prop where
  /-- The entries that are rewritten. -/
  leaf : ∀ tbl i k c, Cell loc tbl i k c → R k c → child (T tbl i) = none →
    T' tbl i = f (T tbl i)
  /-- The other ones. -/
  other : ∀ tbl i k c, Cell loc tbl i k c → ¬ (R k c ∧ child (T tbl i) = none) →
    T' tbl i = T tbl i
  /-- The groups that are not placed. -/
  off : ∀ t i, i < 256 → loc t = none → T' (some t) i = T (some t) i

variable {f : E → E} {R : ℕ → ℕ → Prop}

theorem Mapped.start (k x : ℕ) : Mapped child loc (Within k x x) f T T :=
  ⟨fun _ _ _ _ _ hR _ => absurd hR.2.2 (Nat.not_lt_of_le hR.2.1), fun _ _ _ _ _ _ => rfl,
    fun _ _ _ _ => rfl⟩

theorem Mapped.step_leaf {x : ℕ} (hm : Mapped child loc (Within k x y) f T T')
    (h : Placed child N L T loc) (hxy : x ≤ y) (hcell : Cell loc tbl i k y)
    (hleaf : child (T tbl i) = none) (hentry : T'' tbl i = f (T tbl i))
    (hsame : ∀ tbl' i' k' c', Cell loc tbl' i' k' c' → ¬ (tbl' = tbl ∧ i' = i) →
      T'' tbl' i' = T' tbl' i')
    (hoff : ∀ t i, i < 256 → loc t = none → T'' (some t) i = T' (some t) i) :
    Mapped child loc (Within k x (y + 1)) f T T'' := by
  refine ⟨fun tbl' i' k' c' hcell' hR hleaf' => ?_, fun tbl' i' k' c' hcell' hR => ?_,
    fun t j hj ht => (hoff t j hj ht).trans (hm.off t j hj ht)⟩
  · obtain ⟨hk, hx, hy⟩ := hR
    by_cases heq : tbl' = tbl ∧ i' = i
    · obtain ⟨rfl, rfl⟩ := heq
      exact hentry
    · rw [hsame tbl' i' k' c' hcell' heq]
      refine hm.leaf tbl' i' k' c' hcell' ⟨hk, hx, ?_⟩ hleaf'
      refine Nat.lt_of_le_of_ne (Nat.le_of_lt_succ hy) (fun hc => heq ?_)
      exact h.eq_of_below hcell hleaf hcell' hk hc
  · have heq : ¬ (tbl' = tbl ∧ i' = i) := by
      rintro ⟨rfl, rfl⟩
      obtain ⟨rfl, rfl⟩ := hcell.block_inj hcell'
      refine hR ⟨⟨Nat.le_refl k, ?_, ?_⟩, hleaf⟩
      · rw [Nat.sub_self, Nat.pow_zero, Nat.div_one]
        exact hxy
      · rw [Nat.sub_self, Nat.pow_zero, Nat.div_one]
        exact Nat.lt_succ_self y
    rw [hsame tbl' i' k' c' hcell' heq]
    refine hm.other tbl' i' k' c' hcell' (fun hc => hR ⟨⟨hc.1.1, hc.1.2.1, ?_⟩, hc.2⟩)
    exact Nat.lt_succ_of_lt hc.1.2.2

/-- The blocks below a block, and those below its parts. -/
theorem within_parts :
    Within (k + 1) (y * 256) (y * 256 + 256) k' c'
      ↔ k + 1 ≤ k' ∧ c' / 256 ^ (k' - k) = y := by
  unfold Within
  refine and_congr_right (fun hk => ?_)
  have hdiv : c' / 256 ^ (k' - k) = c' / 256 ^ (k' - (k + 1)) / 256 := by
    rw [Nat.div_div_eq_div_mul, ← Nat.pow_succ]
    congr 2
    omega
  rw [hdiv]
  omega

/-- **One more entry with a group**: the walk goes over the entries of the
group. -/
theorem Mapped.step_below {x : ℕ} (hm : Mapped child loc (Within k x y) f T T') (hxy : x ≤ y)
    (h : Placed child N L T loc) (hcell : Cell loc tbl i k y) (hchild : child (T tbl i) = some t)
    (hbelow : Mapped child loc (Within (k + 1) (y * 256) (y * 256 + 256)) f T' T'') :
    Mapped child loc (Within k x (y + 1)) f T T'' := by
  have hstep : ∀ {tbl' i' k' c'}, Cell loc tbl' i' k' c' → child (T tbl' i') = none → k ≤ k' →
      c' / 256 ^ (k' - k) = y → Within (k + 1) (y * 256) (y * 256 + 256) k' c' := by
    intro tbl' i' k' c' hcell' hleaf hk hc
    rw [within_parts]
    refine ⟨Nat.lt_of_le_of_ne hk ?_, hc⟩
    rintro rfl
    rw [Nat.sub_self, Nat.pow_zero, Nat.div_one] at hc
    subst hc
    obtain ⟨rfl, rfl⟩ := h.cell_inj hcell hcell'
    rw [hleaf] at hchild
    cases hchild
  -- the entries of the group have not been reached before
  have hfresh : ∀ {tbl' i' k' c'}, Cell loc tbl' i' k' c' → k ≤ k' →
      c' / 256 ^ (k' - k) = y → T' tbl' i' = T tbl' i' := by
    intro tbl' i' k' c' hcell' _ hc
    exact hm.other tbl' i' k' c' hcell' (fun hR => absurd hR.1.2.2 (by rw [hc]; exact Nat.lt_irrefl y))
  refine ⟨fun tbl' i' k' c' hcell' hR hleaf => ?_, fun tbl' i' k' c' hcell' hR => ?_,
    fun u j hj hu => (hbelow.off u j hj hu).trans (hm.off u j hj hu)⟩
  · obtain ⟨hk, hx, hy⟩ := hR
    rcases Nat.lt_succ_iff_lt_or_eq.mp hy with hlt | heq
    · have hnot : ¬ Within (k + 1) (y * 256) (y * 256 + 256) k' c' := fun hc =>
        absurd (within_parts.mp hc).2 (Nat.ne_of_lt hlt)
      rw [hbelow.other tbl' i' k' c' hcell' (fun hc => hnot hc.1)]
      exact hm.leaf tbl' i' k' c' hcell' ⟨hk, hx, hlt⟩ hleaf
    · have hsame := hfresh hcell' hk heq
      rw [hbelow.leaf tbl' i' k' c' hcell' (hstep hcell' hleaf hk heq) (by rw [hsame]; exact hleaf),
        hsame]
  · have hnot : ¬ (Within k x y k' c' ∧ child (T tbl' i') = none) := fun hc =>
      hR ⟨⟨hc.1.1, hc.1.2.1, Nat.lt_succ_of_lt hc.1.2.2⟩, hc.2⟩
    have hsame := hm.other tbl' i' k' c' hcell' hnot
    rw [← hsame]
    refine hbelow.other tbl' i' k' c' hcell' (fun hc => ?_)
    obtain ⟨hk, heq⟩ := within_parts.mp hc.1
    rw [hsame] at hc
    refine hR ⟨⟨Nat.le_of_succ_le hk, ?_, ?_⟩, hc.2⟩
    · rw [heq]
      exact hxy
    · rw [heq]
      exact Nat.lt_succ_self y

theorem Mapped.placed (hm : Mapped child loc R f T T') (h : Placed child N L T loc)
    (hf : ∀ e, child e = none → child (f e) = none) : Placed child N L T' loc := by
  have hchild : ∀ tbl i k c, Cell loc tbl i k c → child (T' tbl i) = child (T tbl i) := by
    intro tbl i k c hcell
    by_cases hR : R k c ∧ child (T tbl i) = none
    · rw [hm.leaf tbl i k c hcell hR.1 hR.2, hf _ hR.2, hR.2]
    · rw [hm.other tbl i k c hcell hR]
  refine ⟨h.apart, fun tbl i k c t hcell hc => ?_, fun t k c ht => ?_, h.bound⟩
  · rw [hchild tbl i k c hcell] at hc
    exact h.below tbl i k c t hcell hc
  · obtain ⟨tbl, i, hcell, hc⟩ := h.owner t k c ht
    exact ⟨tbl, i, hcell, by rw [hchild tbl i k c hcell, hc]⟩

theorem Mapped.leaves {P' : ℕ → ℕ → E → Prop} (hm : Mapped child loc R f T T')
    (h : Leaves child P T loc)
    (hin : ∀ tbl i k c, Cell loc tbl i k c → child (T tbl i) = none → R k c →
      P k c (T tbl i) → P' k c (f (T tbl i)))
    (hout : ∀ tbl i k c, Cell loc tbl i k c → child (T tbl i) = none → ¬ R k c →
      P k c (T tbl i) → P' k c (T tbl i)) :
    Leaves child P' T' loc := by
  intro tbl i k c hcell hleaf
  by_cases hchild : child (T tbl i) = none
  · by_cases hR : R k c
    · rw [hm.leaf tbl i k c hcell hR hchild]
      exact hin tbl i k c hcell hchild hR (h tbl i k c hcell hchild)
    · rw [hm.other tbl i k c hcell (fun hc => hR hc.1)]
      exact hout tbl i k c hcell hchild hR (h tbl i k c hcell hchild)
  · rw [hm.other tbl i k c hcell (fun hc => hchild hc.2)] at hleaf
    exact absurd hleaf hchild

end Levels
