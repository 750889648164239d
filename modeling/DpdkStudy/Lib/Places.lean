import Mathlib.Algebra.BigOperators.Group.Finset.Basic
import Mathlib.Algebra.Order.Group.Multiset
import Mathlib.Data.Fintype.Basic

/-!
# Things in places

Each of finitely many places holds some things, and their sum is all there are. What moves
between a few places leaves the sum as it is (`sum_eq_of_agree`). Where no thing is there
twice, each is in exactly one place (`existsUnique_mem`).

A place that may be overwritten is a hole. What there is but for the hole (`without`) stays the
same when the hole is filled from another place, which is the hole then (`without_move`).
-/

open Finset

namespace Places

variable {ι α : Type*} [Fintype ι] {f g : ι → Multiset α}

/-- What moves between some places leaves the sum as it is. -/
theorem sum_eq_of_agree [DecidableEq ι] (s : Finset ι) (hout : ∀ i ∉ s, g i = f i)
    (hin : ∑ i ∈ s, g i = ∑ i ∈ s, f i) : ∑ i, g i = ∑ i, f i := by
  rw [← sum_sdiff (subset_univ s), ← sum_sdiff (subset_univ s), hin]
  congr 1
  exact sum_congr rfl fun i hi => hout i (mem_sdiff.mp hi).2

theorem le_sum (f : ι → Multiset α) (i : ι) : f i ≤ ∑ i, f i := by
  classical
  rw [← add_sum_erase _ _ (mem_univ i)]
  exact Multiset.le_add_right _ _

/-- What is in two places is some of all there is. -/
theorem add_le_sum (f : ι → Multiset α) {i j : ι} (hne : i ≠ j) : f i + f j ≤ ∑ i, f i := by
  classical
  rw [← add_sum_erase _ _ (mem_univ i),
    ← add_sum_erase _ _ (mem_erase.mpr ⟨hne.symm, mem_univ j⟩), ← add_assoc]
  exact Multiset.le_add_right _ _

/-- Each thing is in exactly one place where none is there twice. -/
theorem existsUnique_mem (hnodup : (∑ i, f i).Nodup) {x : α} (hx : x ∈ ∑ i, f i) :
    ∃! i, x ∈ f i := by
  obtain ⟨i, -, hi⟩ := Multiset.mem_sum.mp hx
  refine ⟨i, hi, fun j hj => ?_⟩
  by_contra hne
  have hle := Multiset.nodup_of_le (add_le_sum f (Ne.symm hne)) hnodup
  exact Multiset.disjoint_left.mp (Multiset.nodup_add.mp hle).2.2 hi hj

/-! ## All but one place -/

section Without

variable {M : Type*} [AddCommMonoid M] [DecidableEq ι] {s : Finset ι} {f g : ι → M} {p q : ι}

/-- What there is in some places but for one of them. -/
def without (s : Finset ι) (f : ι → M) (p : ι) : M := ∑ i ∈ s.erase p, f i

omit [Fintype ι] in
theorem add_without (hp : p ∈ s) (f : ι → M) : f p + without s f p = ∑ i ∈ s, f i :=
  add_sum_erase s f hp

omit [Fintype ι] in
theorem without_congr (h : ∀ i ∈ s, i ≠ p → g i = f i) : without s g p = without s f p :=
  sum_congr rfl fun i hi => h i (mem_of_mem_erase hi) (ne_of_mem_erase hi)

omit [Fintype ι] in
/-- A place that is empty holds none of what there is. -/
theorem without_of_empty (h : f p = 0) : without s f p = ∑ i ∈ s, f i :=
  sum_erase s h

omit [Fintype ι] in
theorem sum_eq_add_without (hp : p ∈ s) (h : ∀ i ∈ s, i ≠ p → g i = f i) :
    ∑ i ∈ s, g i = g p + without s f p := by
  rw [← add_without hp g, without_congr h]

omit [Fintype ι] in
/-- A hole that is filled from another place, which is the hole then. -/
theorem without_move (hp : p ∈ s) (hq : q ∈ s) (hne : p ≠ q) (hgq : g q = f p)
    (hrest : ∀ i ∈ s, i ≠ p → i ≠ q → g i = f i) : without s g p = without s f q := by
  have hqp : q ∈ s.erase p := mem_erase.mpr ⟨hne.symm, hq⟩
  have hpq : p ∈ s.erase q := mem_erase.mpr ⟨hne, hp⟩
  rw [without, without, ← add_sum_erase _ _ hqp, ← add_sum_erase _ _ hpq, hgq,
    erase_right_comm]
  congr 1
  refine sum_congr rfl fun i hi => hrest i ?_ ?_ ?_
  · exact mem_of_mem_erase (mem_of_mem_erase hi)
  · exact ne_of_mem_erase hi
  · exact ne_of_mem_erase (mem_of_mem_erase hi)

omit [Fintype ι] in
/-- What there is but for one place, and of that what is in another one. -/
theorem without_eq_add (hq : q ∈ s) (hne : p ≠ q) (f : ι → M) :
    without s f p = f q + without (s.erase p) f q :=
  (add_without (mem_erase.mpr ⟨hne.symm, hq⟩) f).symm

omit [Fintype ι] in
theorem without_erase_comm (f : ι → M) (p q : ι) :
    without (s.erase p) f q = without (s.erase q) f p := by
  rw [without, without, erase_right_comm]

omit [Fintype ι] in
/-- What there is in two of the places, and in the others. -/
theorem sum_eq_add_add (hp : p ∈ s) (hq : q ∈ s) (hne : p ≠ q) (f : ι → M) :
    ∑ i ∈ s, f i = f p + (f q + without (s.erase p) f q) := by
  rw [add_without (mem_erase.mpr ⟨hne.symm, hq⟩), add_sum_erase s f hp]

end Without

end Places
