import Mathlib.Algebra.Order.Group.Nat
import Mathlib.Data.Nat.ModEq
import Mathlib.Logic.Function.Basic
import DpdkStudy.Lib.Loop

/-!
# Rings

A ring of `n` slots holds a run of positions, each in the slot of its
remainder. No two positions of a run of `n` share a slot (`mod_inj`), so a run
that moves on leaves the slots of the positions it keeps alone. The length of
a ring is a power of two where its code masks positions (`land_mask_eq_mod`).

What the slots hold from a position on is a list (`view`), and what is done to
the slots is done to that list: a slot that is written sets its entry
(`view_update`), and the first entry goes as the position moves on
(`view_succ`, `view_concat`).
-/

open Function

namespace Ring

theorem mod_inj {n a b : ℕ} (h : a % n = b % n) (hab : a < b + n) (hba : b < a + n) : a = b := by
  rcases le_total a b with hle | hle
  · have hdvd : n ∣ b - a := (Nat.modEq_iff_dvd' hle).mp h
    have hzero := Nat.eq_zero_of_dvd_of_lt hdvd (by omega)
    omega
  · have hdvd : n ∣ a - b := (Nat.modEq_iff_dvd' hle).mp h.symm
    have hzero := Nat.eq_zero_of_dvd_of_lt hdvd (by omega)
    omega

/-- Masking a position with the length less one gives its slot. -/
theorem land_mask_eq_mod (k a : ℕ) : a &&& (2 ^ k - 1) = a % 2 ^ k :=
  Nat.and_two_pow_sub_one_eq_mod a k

/-- A loop that writes one value to the slots `f 0 … f (n - 1)`. -/
theorem times_update_const {α : Type*} (n : ℕ) (f : ℕ → ℕ) (v : α) (t : ℕ → α) (k : ℕ) :
    (Loop.times n (fun i t => update t (f i) v) t k = v
        ∧ ∃ i < n, f i = k)
      ∨ (Loop.times n (fun i t => update t (f i) v) t k = t k
        ∧ ∀ i < n, f i ≠ k) := by
  induction n with
  | zero => exact Or.inr ⟨rfl, fun i hi => absurd hi (Nat.not_lt_zero i)⟩
  | succ n ih =>
    rw [Loop.times_succ]
    by_cases hk : f n = k
    · subst hk
      exact Or.inl ⟨update_self _ _ _, n, Nat.lt_succ_self n, rfl⟩
    · rw [update_of_ne (Ne.symm hk)]
      rcases ih with ⟨hv, i, hi, hf⟩ | ⟨ht, hne⟩
      · exact Or.inl ⟨hv, i, Nat.lt_succ_of_lt hi, hf⟩
      · refine Or.inr ⟨ht, fun i hi => ?_⟩
        rcases Nat.lt_succ_iff_lt_or_eq.mp hi with hlt | rfl
        · exact hne i hlt
        · exact hk

/-! ## What the slots hold -/

section View

variable {α : Type*} {n : ℕ}

/-- **The entries of a ring of `n` slots**, `len` of them from a position on. -/
def view (n : ℕ) (t : ℕ → α) : ℕ → ℕ → List α
  | _, 0 => []
  | start, len + 1 => t (start % n) :: view n t (start + 1) len

theorem view_succ (t : ℕ → α) (start len : ℕ) :
    view n t start (len + 1) = t (start % n) :: view n t (start + 1) len := rfl

@[simp] theorem length_view (t : ℕ → α) (start len : ℕ) : (view n t start len).length = len := by
  induction len generalizing start with
  | zero => rfl
  | succ len ih => rw [view_succ, List.length_cons, ih]

theorem view_concat (t : ℕ → α) (start len : ℕ) :
    view n t start (len + 1) = view n t start len ++ [t ((start + len) % n)] := by
  induction len generalizing start with
  | zero => rfl
  | succ len ih =>
    rw [view_succ, ih, view_succ, List.cons_append, show start + 1 + len = start + (len + 1) by omega]

theorem view_congr_start {start start' : ℕ} (h : start % n = start' % n) (t : ℕ → α) (len : ℕ) :
    view n t start len = view n t start' len := by
  induction len generalizing start start' with
  | zero => rfl
  | succ len ih => rw [view_succ, view_succ, h, ih (Nat.ModEq.add_right 1 h)]

@[simp] theorem view_mod (t : ℕ → α) (start len : ℕ) :
    view n t (start % n) len = view n t start len :=
  view_congr_start (Nat.mod_mod start n) t len

theorem getElem_view (t : ℕ → α) {start len i : ℕ} (h : i < (view n t start len).length) :
    (view n t start len)[i] = t ((start + i) % n) := by
  induction len generalizing start i with
  | zero => exact absurd h (Nat.not_lt_zero i)
  | succ len ih =>
    cases i with
    | zero => rfl
    | succ i =>
      have h' : i < (view n t (start + 1) len).length := by
        rw [length_view] at h ⊢
        omega
      rw [show start + (i + 1) = start + 1 + i by omega, ← ih h']
      rfl

/-- **All the entries**, from the next position on: the first one comes last. -/
theorem view_rotate {t : ℕ → α} {start : ℕ} {x : α} {w : List α}
    (h : view n t start n = x :: w) : view n t (start + 1) n = w ++ [x] := by
  have htail := (view_concat (n := n) t start n).symm.trans (view_succ t start n)
  rw [h, List.cons_append, List.cons.injEq, Nat.add_mod_right] at htail
  have hx : t (start % n) = x := by
    cases n with
    | zero => exact nomatch h
    | succ m => exact (List.cons.inj h).1
  rw [← htail.2, hx]

theorem view_update (t : ℕ → α) {start len d : ℕ} (v : α) (hd : d < len)
    (hlen : len ≤ n) :
    view n (update t ((start + d) % n) v) start len = (view n t start len).set d v := by
  refine List.ext_getElem (by simp) (fun i hi hi' => ?_)
  have hi'' : i < len := by rwa [length_view] at hi
  rw [getElem_view, List.getElem_set]
  by_cases hid : d = i
  · subst hid
    rw [if_pos rfl, update_self]
  · rw [if_neg hid, getElem_view, update_of_ne]
    intro heq
    have := mod_inj heq (by omega) (by omega)
    omega

end View

end Ring
