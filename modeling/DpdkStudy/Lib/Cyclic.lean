import Mathlib.Data.Nat.ModEq
import Mathlib.Data.Nat.Nth

/-!
# Going around

A set of naturals is gone through in order, from a place on and with a
wrap-around (`IsNext`). Where the next place is right behind the last element
that was found, all elements are found one after the other, each once, before
they are repeated (`IsNext.eq_nth`, `nth_of_isNext`). The next element can be
looked for by blocks (`IsNext.of_blocks`), and a search from place to place
that comes back to where it began finds it (`isNext_of_search`).
-/

namespace Cyclic

open Nat

variable {P Q : ℕ → Prop}

/-- **The next element from a place on**: the first one there, or the first one
of all if there is none. -/
structure IsNext (P : ℕ → Prop) (c r : ℕ) : Prop where
  holds : P r
  ahead : c ≤ r → ∀ x, P x → c ≤ x → r ≤ x
  around : r < c → ∀ x, P x → x < c ∧ r ≤ x

section Order

variable [DecidablePred P]

/-- **The next element is the one with the next number**, in increasing order
and modulo how many there are. -/
theorem IsNext.eq_nth (hf : (Set.ofPred P).Finite) {c r : ℕ} (h : IsNext P c r) :
    r = nth P (count P c % hf.toFinset.card) ∧
      count P (r + 1) ≡ count P c + 1 [MOD hf.toFinset.card] := by
  have hr := nth_count h.holds
  have hcard := count_lt_card hf h.holds
  have hsucc : count P (r + 1) = count P r + 1 := by rw [count_succ, if_pos h.holds]
  rcases le_or_gt c r with hle | hlt
  · -- nothing is between the place and the element
    have hsame : count P r = count P c := by
      refine le_antisymm ?_ (count_monotone P hle)
      by_contra hgt
      have hlow := nth_lt_of_lt_count (not_le.mp hgt)
      have hmem := nth_mem_of_lt_card hf ((not_le.mp hgt).trans hcard)
      have hge : c ≤ nth P (count P c) := le_nth_count' ⟨r, h.holds, hle⟩
      exact absurd (h.ahead hle _ hmem hge) (not_le.mpr hlow)
    rw [hsame] at hr hcard hsucc
    refine ⟨?_, by rw [hsucc]⟩
    rw [mod_eq_of_lt hcard, hr]
  · -- all elements are in front of the place, and this is the first
    have hfirst : count P r = 0 := by
      by_contra hpos
      have hlow := nth_lt_of_lt_count (pos_of_ne_zero hpos)
      have hmem := nth_mem_of_lt_card hf ((pos_of_ne_zero hpos).trans hcard)
      exact absurd (h.around hlt _ hmem).2 (not_le.mpr hlow)
    have hall : count P c = hf.toFinset.card := by
      rw [count_eq_card_filter_range]
      congr 1
      ext x
      simp only [Finset.mem_filter, Finset.mem_range, Set.Finite.mem_toFinset]
      exact ⟨fun hx => hx.2, fun hx => ⟨(h.around hlt x hx).1, hx⟩⟩
    rw [hfirst] at hr hsucc
    refine ⟨?_, ?_⟩
    · rw [hall, mod_self, hr]
    · rw [hsucc, hall]
      exact (add_mod_left _ _).symm

/-- **One after the other**: where the next place is always right behind the
element that was found, the elements are found in their order, around and
around. -/
theorem nth_of_isNext (hf : (Set.ofPred P).Finite) {c r : ℕ → ℕ}
    (hnext : ∀ i, IsNext P (c i) (r i)) (hplace : ∀ i, c (i + 1) = r i + 1) (i : ℕ) :
    r i = nth P ((count P (c 0) + i) % hf.toFinset.card) := by
  have hcount : ∀ i, count P (c i) ≡ count P (c 0) + i [MOD hf.toFinset.card] := by
    intro i
    induction i with
    | zero => rfl
    | succ i ih =>
      rw [hplace i]
      exact ((hnext i).eq_nth hf).2.trans (ih.add_right 1)
  rw [((hnext i).eq_nth hf).1]
  exact congrArg _ (hcount i)

end Order

/-- **By blocks.** If nothing is left in front of a block, the next block that is
not empty is found, and its first element is taken. -/
theorem IsNext.of_blocks {k c b j r : ℕ} (hk : 0 < k) (hQ : ∀ x, P x → Q (x / k))
    (hcb : c ≤ k * b) (hleft : ∀ x, P x → c ≤ x → k * b ≤ x) (hj : IsNext Q b j) (hr : P r)
    (hblock : r / k = j) (hfirst : ∀ x, P x → x / k = j → r ≤ x) : IsNext P c r := by
  have hlow : ∀ x, k * (x / k) ≤ x := fun x => mul_div_le x k
  have hhigh : ∀ x, x < k * (x / k) + k := fun x => lt_mul_div_succ x hk
  have hle : ∀ x, P x → j ≤ x / k → r ≤ x := by
    intro x hx hjx
    rcases hjx.eq_or_lt with heq | hlt
    · exact hfirst x hx heq.symm
    · have hmul : k * (j + 1) ≤ k * (x / k) := mul_le_mul_left k hlt
      have hrj := hhigh r
      rw [hblock] at hrj
      rw [mul_succ] at hmul
      have hxlow := hlow x
      omega
  refine ⟨hr, fun hcr x hx hcx => ?_, fun hrc x hx => ?_⟩
  · refine hle x hx (hj.ahead ?_ _ (hQ x hx) ?_)
    · rw [← hblock]
      exact (le_div_iff_mul_le hk).mpr (by rw [mul_comm]; exact hleft r hr hcr)
    · exact (le_div_iff_mul_le hk).mpr (by rw [mul_comm]; exact hleft x hx hcx)
  · have hjb : j < b := by
      rw [← hblock]
      exact (div_lt_iff_lt_mul hk).mpr (by rw [mul_comm]; omega)
    obtain ⟨hxb, hjx⟩ := hj.around hjb _ (hQ x hx)
    refine ⟨?_, hle x hx hjx⟩
    by_contra hcx
    have hge := hleft x hx (not_lt.mp hcx)
    have hmul : k * (x / k + 1) ≤ k * b := mul_le_mul_left k hxb
    have hx' := hhigh x
    rw [mul_succ] at hmul
    omega

/-- **A search from place to place**, around `n` places, ends at the next
element. -/
theorem isNext_of_search {n b i : ℕ} (hP : ∀ x, P x → x < n) (hb : b ≤ n) (hi : i < n)
    (hfound : P ((b + i) % n)) (hpassed : ∀ i' < i, ¬ P ((b + i') % n)) :
    IsNext P b ((b + i) % n) := by
  have hmod : ∀ i' < n, (b + i') % n = if b + i' < n then b + i' else b + i' - n := by
    intro i' hi'
    split_ifs with hlt
    · exact mod_eq_of_lt hlt
    · rw [mod_eq_sub_mod (not_lt.mp hlt), mod_eq_of_lt (by omega)]
  -- an element is passed where the search comes to it first
  have hbefore : ∀ x, P x → ∃ i', i ≤ i' ∧ i' < n ∧ (b + i') % n = x := by
    intro x hx
    have hxn := hP x hx
    have hplace : ∃ i' < n, (b + i') % n = x := by
      rcases le_or_gt b x with hbx | hxb
      · exact ⟨x - b, by omega, by rw [hmod _ (by omega)]; split_ifs <;> omega⟩
      · exact ⟨x + n - b, by omega, by rw [hmod _ (by omega)]; split_ifs <;> omega⟩
    obtain ⟨i', hi', heq⟩ := hplace
    refine ⟨i', ?_, hi', heq⟩
    by_contra hlt
    exact hpassed i' (not_le.mp hlt) (heq.symm ▸ hx)
  refine ⟨hfound, fun _ x hx hbx => ?_, fun hrb x hx => ?_⟩
  · obtain ⟨i', hle, hi', heq⟩ := hbefore x hx
    rw [hmod _ hi'] at heq
    rw [hmod _ hi]
    split_ifs at heq ⊢ <;> omega
  · obtain ⟨i', hle, hi', heq⟩ := hbefore x hx
    rw [hmod _ hi'] at heq
    rw [hmod _ hi] at hrb ⊢
    split_ifs at heq hrb ⊢ <;> omega

end Cyclic
