import Mathlib.Data.Nat.Notation
import Mathlib.Data.LawfulXor.Basic
import Mathlib.Data.Nat.Bitwise
import Mathlib.Data.Nat.Log
import Mathlib.Logic.Function.Basic

/-!
# Prefixes and longest matches

An address is a number below `2 ^ w`, and a prefix of depth `d` stands for
the addresses that share its first `d` bits. A table of prefixes is a partial
map: the value of the prefix `p` of depth `d`, where `p` has no bit set past
the first `d` (`Table`).

The longest match of an address is found by asking depth after depth, the
deepest first (`longest`). This module says what it is (`longest_eq_some`),
how it moves when a prefix is added (`longest_insert`) or removed
(`longest_erase`), and that it is the same for all addresses that share the
bits it looks at (`longest_congr`).
-/

open Function Nat

namespace Prefix

variable {α : Type*} {w a b d e m n p : ℕ} {v : α}

/-! ## Truncation -/

/-- The first `d` bits of an address, the others zero. -/
def trunc (w d a : ℕ) : ℕ := a / 2 ^ (w - d) * 2 ^ (w - d)

/-- Addresses with the same first bits have the same truncation, and
conversely. -/
theorem trunc_eq_trunc_iff :
    trunc w d a = trunc w d b ↔ a / 2 ^ (w - d) = b / 2 ^ (w - d) :=
  Nat.mul_left_inj (Nat.ne_of_gt (Nat.two_pow_pos _))

theorem trunc_le (w d a : ℕ) : trunc w d a ≤ a := div_mul_le_self _ _

theorem lt_trunc_add (w d a : ℕ) : a < trunc w d a + 2 ^ (w - d) := by
  unfold trunc
  have h := Nat.lt_div_mul_add (a := a) (Nat.two_pow_pos (w - d))
  exact h

/-- A shallower block size is a multiple of a deeper one. -/
theorem div_div_pow (h : d ≤ e) (he : e ≤ w) (a : ℕ) :
    a / 2 ^ (w - e) / 2 ^ (e - d) = a / 2 ^ (w - d) := by
  rw [Nat.div_div_eq_div_mul, ← Nat.pow_add]
  congr 2
  omega

/-- Sharing the first `e` bits is sharing the first `d ≤ e`. -/
theorem div_eq_of_le (h : d ≤ e) (he : e ≤ w) (hab : a / 2 ^ (w - e) = b / 2 ^ (w - e)) :
    a / 2 ^ (w - d) = b / 2 ^ (w - d) := by
  rw [← div_div_pow h he a, ← div_div_pow h he b, hab]

theorem trunc_eq_of_le (h : d ≤ e) (he : e ≤ w) (hab : trunc w e a = trunc w e b) :
    trunc w d a = trunc w d b :=
  trunc_eq_trunc_iff.mpr (div_eq_of_le h he (trunc_eq_trunc_iff.mp hab))

theorem trunc_idem (w d a : ℕ) : trunc w d (trunc w d a) = trunc w d a := by
  unfold trunc
  rw [Nat.mul_div_cancel _ (Nat.two_pow_pos _)]

/-- Truncating twice is truncating at the shallower depth. -/
theorem trunc_trunc (h : d ≤ e) (he : e ≤ w) (a : ℕ) :
    trunc w d (trunc w e a) = trunc w d a :=
  trunc_eq_of_le h he (trunc_idem w e a)

/-- A prefix covers the addresses from its own on, `2 ^ (w - d)` of them. -/
theorem trunc_eq_iff_mem (hp : trunc w d p = p) :
    trunc w d a = p ↔ p ≤ a ∧ a < p + 2 ^ (w - d) := by
  constructor
  · rintro rfl
    exact ⟨trunc_le w d a, lt_trunc_add w d a⟩
  · rintro ⟨hle, hlt⟩
    rw [← hp, trunc_eq_trunc_iff]
    have hpos := Nat.two_pow_pos (w - d)
    have hmul : p = p / 2 ^ (w - d) * 2 ^ (w - d) := hp.symm
    refine le_antisymm ?_ (Nat.div_le_div_right hle)
    rw [← Nat.lt_succ_iff, Nat.div_lt_iff_lt_mul hpos, Nat.succ_mul, ← hmul]
    exact hlt

theorem trunc_lt (h : a < 2 ^ w) : trunc w d a < 2 ^ w :=
  lt_of_le_of_lt (trunc_le w d a) h

/-- The addresses of a prefix do not pass the last address. -/
theorem trunc_add_le (hd : d ≤ w) (h : a < 2 ^ w) :
    trunc w d a + 2 ^ (w - d) ≤ 2 ^ w := by
  have hsplit : 2 ^ w = 2 ^ d * 2 ^ (w - d) := by
    rw [← pow_add, add_sub_of_le hd]
  have hlt : a / 2 ^ (w - d) < 2 ^ d := by
    rw [Nat.div_lt_iff_lt_mul (Nat.two_pow_pos _), ← hsplit]
    exact h
  calc trunc w d a + 2 ^ (w - d) = (a / 2 ^ (w - d) + 1) * 2 ^ (w - d) := by
        rw [add_mul, one_mul]
        rfl
    _ ≤ 2 ^ d * 2 ^ (w - d) := mul_le_mul_right _ hlt
    _ = 2 ^ w := hsplit.symm

/-- **The prefixes of depth up to `m` cover whole blocks** of `2 ^ (w - m)`
addresses. -/
theorem trunc_eq_iff_of_le {i j : ℕ} (hp : trunc w d p = p) (hd : d ≤ m) (hm : m ≤ w)
    (hj : j < 2 ^ (w - m)) :
    trunc w d (i * 2 ^ (w - m) + j) = p
      ↔ p / 2 ^ (w - m) ≤ i ∧ i < p / 2 ^ (w - m) + 2 ^ (m - d) := by
  have hpos := Nat.two_pow_pos (w - m)
  have hsize : 2 ^ (w - d) = 2 ^ (m - d) * 2 ^ (w - m) := by
    rw [← Nat.pow_add]
    congr 1
    omega
  have hmul : p = p / 2 ^ (w - m) * 2 ^ (w - m) := by
    refine (Nat.div_mul_cancel ?_).symm
    rw [← hp]
    exact Nat.dvd_trans ⟨2 ^ (m - d), by rw [hsize, Nat.mul_comm]⟩ (Nat.dvd_mul_left _ _)
  have hblock : (i * 2 ^ (w - m) + j) / 2 ^ (w - m) = i := by
    rw [Nat.mul_comm, Nat.mul_add_div hpos, Nat.div_eq_of_lt hj, Nat.add_zero]
  rw [trunc_eq_iff_mem hp]
  refine and_congr ?_ ?_
  · rw [hmul, ← Nat.le_div_iff_mul_le hpos, hblock, Nat.mul_div_cancel _ hpos]
  · rw [hsize, hmul, ← Nat.add_mul, ← Nat.div_lt_iff_lt_mul hpos, hblock,
      Nat.mul_div_cancel _ hpos]

theorem trunc_eq_iff_of_gt {i j : ℕ} (hp : trunc w d p = p) (hd : m ≤ d) (hm : d ≤ w)
    (hj : j < 2 ^ (w - m)) :
    trunc w d (i * 2 ^ (w - m) + j) = p
      ↔ i = p / 2 ^ (w - m) ∧ p % 2 ^ (w - m) ≤ j
        ∧ j < p % 2 ^ (w - m) + 2 ^ (w - d) := by
  have hpos := Nat.two_pow_pos (w - m)
  have hblock : (i * 2 ^ (w - m) + j) / 2 ^ (w - m) = i := by
    rw [mul_comm, mul_add_div hpos, div_eq_of_lt hj, add_zero]
  have hsplit := div_add_mod' p (2 ^ (w - m))
  constructor
  · intro h
    have hi : i = p / 2 ^ (w - m) := by
      rw [← hblock, ← h]
      refine (div_eq_of_le hd hm (trunc_eq_trunc_iff.mp ?_)).symm
      exact trunc_idem w d _
    obtain ⟨hle, hlt⟩ := (trunc_eq_iff_mem hp).mp h
    subst hi
    exact ⟨rfl, by omega, by omega⟩
  · rintro ⟨rfl, hle, hlt⟩
    rw [trunc_eq_iff_mem hp]
    omega

/-- The addresses of a deep prefix do not pass the end of its block. -/
theorem trunc_mod_add_le (hd : m ≤ d) (hm : d ≤ w) :
    trunc w d a % 2 ^ (w - m) + 2 ^ (w - d) ≤ 2 ^ (w - m) := by
  have hsize : 2 ^ (w - m) = 2 ^ (d - m) * 2 ^ (w - d) := by
    rw [← pow_add]
    congr 1
    omega
  unfold trunc
  rw [hsize, mul_mod_mul_right]
  have hlt : a / 2 ^ (w - d) % 2 ^ (d - m) < 2 ^ (d - m) := Nat.mod_lt _ (Nat.two_pow_pos _)
  calc a / 2 ^ (w - d) % 2 ^ (d - m) * 2 ^ (w - d) + 2 ^ (w - d)
      = (a / 2 ^ (w - d) % 2 ^ (d - m) + 1) * 2 ^ (w - d) := by rw [add_mul, one_mul]
    _ ≤ 2 ^ (d - m) * 2 ^ (w - d) := mul_le_mul_right _ hlt

/-- The addresses of a prefix lie in those of any prefix that covers it. -/
theorem range_le {q : ℕ} (hde : d ≤ e) (he : e ≤ w) (hq : trunc w e q = q) (hp : trunc w d q = p) :
    p ≤ q ∧ q + 2 ^ (w - e) ≤ p + 2 ^ (w - d) := by
  have hsize : 2 ^ (w - d) = 2 ^ (e - d) * 2 ^ (w - e) := by
    rw [← pow_add]
    congr 1
    omega
  have hlt := lt_trunc_add w d q
  refine ⟨by rw [← hp]; exact trunc_le w d q, ?_⟩
  rw [hp] at hlt
  rw [← hp] at hlt ⊢
  unfold trunc at hq hlt ⊢
  rw [hsize] at hlt ⊢
  -- both ends are multiples of the size of the smaller range
  generalize q / (2 ^ (e - d) * 2 ^ (w - e)) = m at hlt ⊢
  generalize q / 2 ^ (w - e) = n at hq
  subst hq
  have hlt' : n * 2 ^ (w - e) < (m + 1) * 2 ^ (e - d) * 2 ^ (w - e) := by
    calc n * 2 ^ (w - e) < m * (2 ^ (e - d) * 2 ^ (w - e)) + 2 ^ (e - d) * 2 ^ (w - e) := hlt
      _ = (m + 1) * 2 ^ (e - d) * 2 ^ (w - e) := by
        rw [add_mul, add_mul, one_mul, mul_assoc]
  have hn := Nat.lt_of_mul_lt_mul_right hlt'
  calc n * 2 ^ (w - e) + 2 ^ (w - e) = (n + 1) * 2 ^ (w - e) := by rw [add_mul, one_mul]
    _ ≤ (m + 1) * 2 ^ (e - d) * 2 ^ (w - e) := mul_le_mul_right _ hn
    _ = m * (2 ^ (e - d) * 2 ^ (w - e)) + 2 ^ (e - d) * 2 ^ (w - e) := by
      rw [add_mul, add_mul, one_mul, mul_assoc]

/-! ## Bits -/

theorem land_mask (hd : d ≤ w) (h : a < 2 ^ w) :
    a &&& ((2 ^ d - 1) * 2 ^ (w - d)) = trunc w d a := by
  unfold trunc
  refine eq_of_testBit_eq (fun i => ?_)
  rw [testBit_and, testBit_mul_two_pow, testBit_mul_two_pow,
    testBit_two_pow_sub_one, testBit_div_two_pow]
  by_cases hi : w - d ≤ i
  · rw [show i - (w - d) + (w - d) = i by omega]
    by_cases hlt : i - (w - d) < d
    · simp [hi, hlt]
    · -- an address has no bit past the last
      have hbit : a.testBit i = false := by
        refine testBit_lt_two_pow (lt_of_lt_of_le h ?_)
        exact Nat.pow_le_pow_right (by decide) (by omega)
      simp [hbit]
  · simp [hi]

/-- Two addresses share their first `d` bits exactly if they differ in no bit
before the last `w - d`. -/
theorem trunc_eq_trunc_iff_xor :
    trunc w d a = trunc w d b ↔ a ^^^ b < 2 ^ (w - d) := by
  rw [trunc_eq_trunc_iff, ← shiftRight_eq_div_pow, ← shiftRight_eq_div_pow,
    ← xor_eq_zero_iff, ← shiftRight_xor_distrib, shiftRight_eq_div_pow,
    Nat.div_eq_zero_iff_lt (Nat.two_pow_pos _)]

/-- The prefix of the next depth, by its next bit. -/
def child (w d p : ℕ) (b : Bool) : ℕ := p + if b then 2 ^ (w - d - 1) else 0

/-- The next bit of an address makes its next prefix. -/
theorem trunc_succ (hd : d < w) (a : ℕ) :
    trunc w (d + 1) a = child w d (trunc w d a) (a.testBit (w - d - 1)) := by
  have hpow : 2 ^ (w - d) = 2 * 2 ^ (w - d - 1) := by
    rw [← pow_succ']
    congr 1
    omega
  have hdiv : a / 2 ^ (w - d) = a / 2 ^ (w - d - 1) / 2 := by
    rw [hpow, Nat.mul_comm, Nat.div_div_eq_div_mul]
  unfold child trunc
  rw [show w - (d + 1) = w - d - 1 by omega, hdiv, hpow, testBit_eq_decide_div_mod_eq,
    ← mul_assoc]
  generalize 2 ^ (w - d - 1) = s
  have hmod := div_add_mod (a / s) 2
  by_cases hbit : a / s % 2 = 1
  · rw [if_pos (decide_eq_true hbit)]
    calc a / s * s = (2 * (a / s / 2) + 1) * s := by rw [← hbit, hmod]
      _ = a / s / 2 * 2 * s + s := by rw [add_mul, one_mul, mul_comm 2]
  · rw [if_neg (by simpa using hbit)]
    have hzero : a / s % 2 = 0 := by omega
    calc a / s * s = (2 * (a / s / 2) + 0) * s := by rw [← hzero, hmod]
      _ = a / s / 2 * 2 * s + 0 := by rw [add_zero, mul_comm 2, add_zero]

theorem trunc_child (hd : d < w) (hp : trunc w d p = p) (b : Bool) :
    trunc w d (child w d p b) = p := by
  have hpow : 2 ^ (w - d) = 2 * 2 ^ (w - d - 1) := by
    rw [← pow_succ']
    congr 1
    omega
  have hpos := Nat.two_pow_pos (w - d - 1)
  rw [trunc_eq_iff_mem hp, hpow]
  unfold child
  split <;> omega

theorem child_inj {b c : Bool} (h : child w d p b = child w d p c) : b = c := by
  unfold child at h
  have hpos := Nat.two_pow_pos (w - d - 1)
  cases b <;> cases c <;> simp_all

/-! ## Tables of prefixes -/

/-- **A table of prefixes**: the value of a prefix, by its depth and its
address. -/
abbrev Table (α : Type*) := ℕ → ℕ → Option α

variable {M : Table α}

namespace Table

/-- The empty table. -/
def empty : Table α := fun _ _ => none

/-- The table with one more prefix, or with a new value for one. -/
def insert (M : Table α) (d p : ℕ) (v : α) : Table α := fun d' p' =>
  if d' = d ∧ p' = p then some v else M d' p'

/-- The table with one prefix less. -/
def erase (M : Table α) (d p : ℕ) : Table α := fun d' p' =>
  if d' = d ∧ p' = p then none else M d' p'

@[simp] theorem insert_self (M : Table α) (d p : ℕ) (v : α) : M.insert d p v d p = some v :=
  if_pos ⟨rfl, rfl⟩

theorem insert_of_depth_ne (M : Table α) {d' : ℕ} (p : ℕ) (v : α) (h : d' ≠ d) :
    M.insert d p v d' = M d' := by
  funext p'
  exact if_neg (fun hh => h hh.1)

theorem insert_depth (M : Table α) (d p : ℕ) (v : α) :
    M.insert d p v d = update (M d) p (some v) := by
  funext p'
  by_cases h : p' = p
  · subst h
    rw [insert_self, update_self]
  · rw [update_of_ne h]
    exact if_neg (fun hh => h hh.2)

@[simp] theorem erase_self (M : Table α) (d p : ℕ) : M.erase d p d p = none :=
  if_pos ⟨rfl, rfl⟩

theorem erase_of_depth_ne (M : Table α) {d' : ℕ} (p : ℕ) (h : d' ≠ d) :
    M.erase d p d' = M d' := by
  funext p'
  exact if_neg (fun hh => h hh.1)

theorem erase_depth (M : Table α) (d p : ℕ) :
    M.erase d p d = update (M d) p none := by
  funext p'
  by_cases h : p' = p
  · subst h
    rw [erase_self, update_self]
  · rw [update_of_ne h]
    exact if_neg (fun hh => h hh.2)

/-- Removing a prefix that was not there before it was added takes the
addition back. -/
theorem erase_insert (v : α) (h : M d p = none) :
    (M.insert d p v).erase d p = M := by
  funext d' p'
  unfold erase insert
  split
  · next hh => rw [hh.1, hh.2, h]
  · rfl

theorem erase_eq_self (h : M d p = none) : M.erase d p = M := by
  funext e q
  unfold erase
  split
  · next heq => rw [heq.1, heq.2, h]
  · rfl

/-- The table agrees with itself past a prefix that was added again with
its own value. -/
theorem insert_eq_self (h : M d p = some v) :
    M.insert d p v = M := by
  funext d' p'
  unfold insert
  split
  · next hh => rw [hh.1, hh.2, h]
  · rfl

theorem insert_insert (M : Table α) (d p : ℕ) (u v : α) :
    (M.insert d p u).insert d p v = M.insert d p v := by
  funext d' p'
  unfold insert
  split
  · rfl
  · rfl

end Table

/-! ## The longest match -/

/-- **The longest match of an address among the prefixes of depth below
`n`**, with its depth. -/
def longest (w : ℕ) (M : Table α) (a : ℕ) : ℕ → Option (ℕ × α)
  | 0 => none
  | n + 1 =>
    match M n (trunc w n a) with
    | some v => some (n, v)
    | none => longest w M a n

theorem longest_succ_of_some (h : M n (trunc w n a) = some v) :
    longest w M a (n + 1) = some (n, v) := by
  rw [longest, h]

theorem longest_succ_of_none (h : M n (trunc w n a) = none) :
    longest w M a (n + 1) = longest w M a n := by
  rw [longest, h]

/-- **What the longest match is**: a prefix of the table that covers the
address, with none deeper. -/
theorem longest_eq_some :
    longest w M a n = some (d, v)
      ↔ d < n ∧ M d (trunc w d a) = some v
        ∧ ∀ e, d < e → e < n → M e (trunc w e a) = none := by
  induction n with
  | zero =>
    constructor
    · intro h
      cases h
    · rintro ⟨h, -⟩
      exact absurd h (not_lt_zero d)
  | succ n ih =>
    cases hn : M n (trunc w n a) with
    | some u =>
      rw [longest_succ_of_some hn]
      constructor
      · intro h
        obtain ⟨rfl, rfl⟩ := Prod.mk.inj (Option.some.inj h)
        exact ⟨lt_succ_self n, hn, fun e he he' => absurd he (by omega)⟩
      · rintro ⟨hd, hv, hdeep⟩
        rcases Nat.lt_succ_iff_lt_or_eq.mp hd with hlt | rfl
        · rw [hdeep n hlt (lt_succ_self n)] at hn
          cases hn
        · rw [hn] at hv
          rw [Option.some.inj hv]
    | none =>
      rw [longest_succ_of_none hn, ih]
      constructor
      · rintro ⟨hd, hv, hdeep⟩
        refine ⟨lt_succ_of_lt hd, hv, fun e he he' => ?_⟩
        rcases Nat.lt_succ_iff_lt_or_eq.mp he' with hlt | rfl
        · exact hdeep e he hlt
        · exact hn
      · rintro ⟨hd, hv, hdeep⟩
        have hne : d ≠ n := by
          rintro rfl
          rw [hn] at hv
          cases hv
        exact ⟨by omega, hv, fun e he he' => hdeep e he (lt_succ_of_lt he')⟩

/-- There is no match where no prefix covers the address. -/
theorem longest_eq_none :
    longest w M a n = none ↔ ∀ d < n, M d (trunc w d a) = none := by
  induction n with
  | zero => exact iff_of_true rfl (fun d hd => absurd hd (not_lt_zero d))
  | succ n ih =>
    cases hn : M n (trunc w n a) with
    | some v =>
      rw [longest_succ_of_some hn]
      refine iff_of_false (by simp) (fun h => ?_)
      rw [h n (lt_succ_self n)] at hn
      cases hn
    | none =>
      rw [longest_succ_of_none hn, ih]
      constructor
      · intro h d hd
        rcases Nat.lt_succ_iff_lt_or_eq.mp hd with hlt | rfl
        · exact h d hlt
        · exact hn
      · exact fun h d hd => h d (lt_succ_of_lt hd)

/-- The longest match depends only on what the table says of the prefixes of
the address. -/
theorem longest_congr_table {N : Table α} (h : ∀ d < n, M d (trunc w d a) = N d (trunc w d a)) :
    longest w M a n = longest w N a n := by
  induction n with
  | zero => rfl
  | succ n ih =>
    rw [longest, longest, h n (lt_succ_self n), ih (fun d hd => h d (lt_succ_of_lt hd))]

/-- **Addresses that share their first `e` bits** have the same longest
match among the prefixes of depth up to `e`. -/
theorem longest_congr (he : e ≤ w) (hn : n ≤ e + 1) (hab : trunc w e a = trunc w e b) :
    longest w M a n = longest w M b n := by
  induction n with
  | zero => rfl
  | succ n ih =>
    have htrunc : trunc w n a = trunc w n b := trunc_eq_of_le (by omega) he hab
    rw [longest, longest, htrunc, ih (by omega)]

/-- A covering prefix bounds the depth of the longest match from below. -/
theorem le_depth_of_covers {u : α} (h : longest w M a n = some (d, v)) (he : e < n)
    (hcov : M e (trunc w e a) = some u) :
    e ≤ d := by
  by_contra hlt
  rw [(longest_eq_some.mp h).2.2 e (by omega) he] at hcov
  cases hcov

/-- Where a prefix covers the address, there is a match. -/
theorem exists_longest_of_covers {u : α} (he : e < n) (hcov : M e (trunc w e a) = some u) :
    ∃ d v, longest w M a n = some (d, v) ∧ e ≤ d := by
  cases h : longest w M a n with
  | none =>
    rw [longest_eq_none.mp h e he] at hcov
    cases hcov
  | some r =>
    obtain ⟨d, v⟩ := r
    exact ⟨d, v, rfl, le_depth_of_covers h he hcov⟩

/-- A match of depth below `m` is the match among the prefixes of these
depths. -/
theorem longest_eq_of_forall_lt (hm : m ≤ n) (h : ∀ r ∈ longest w M a n, r.1 < m) :
    longest w M a n = longest w M a m := by
  cases hl : longest w M a n with
  | none =>
    rw [longest_eq_none] at hl
    exact (longest_eq_none.mpr (fun d hd => hl d (lt_of_lt_of_le hd hm))).symm
  | some r =>
    obtain ⟨d, v⟩ := r
    obtain ⟨-, hv, hdeep⟩ := longest_eq_some.mp hl
    refine (longest_eq_some.mpr ⟨h _ hl, hv, fun e he he' => ?_⟩).symm
    exact hdeep e he (lt_of_lt_of_le he' hm)

/-! ## Adding and removing a prefix -/

/-- A match, once a prefix of depth `d` with value `v` covers the address as
well: the deeper of the two, and the new one of two equals. -/
def raise (d : ℕ) (v : α) : Option (ℕ × α) → Option (ℕ × α)
  | none => some (d, v)
  | some (e, u) => if d < e then some (e, u) else some (d, v)

/-- A match, once the prefix of depth `d` no longer covers the address: it
stays if it is deeper, and falls back to `sub` otherwise. -/
def lower (d : ℕ) (sub : Option (ℕ × α)) : Option (ℕ × α) → Option (ℕ × α)
  | none => sub
  | some (e, u) => if d < e then some (e, u) else sub

theorem raise_some (d e : ℕ) (v u : α) :
    raise d v (some (e, u)) = if d < e then some (e, u) else some (d, v) := rfl

theorem lower_some (d e : ℕ) (sub : Option (ℕ × α)) (u : α) :
    lower d sub (some (e, u)) = if d < e then some (e, u) else sub := rfl

/-- Adding a prefix raises the match of the addresses it covers. -/
theorem longest_insert (M : Table α) (v : α) (a : ℕ) (hd : d < n) :
    longest w (M.insert d p v) a n
      = if trunc w d a = p then raise d v (longest w M a n) else longest w M a n := by
  by_cases hcov : trunc w d a = p
  · rw [if_pos hcov]
    have hself : M.insert d p v d (trunc w d a) = some v := by
      rw [hcov, Table.insert_self]
    have hother : ∀ e, e ≠ d → M.insert d p v e (trunc w e a) = M e (trunc w e a) := fun e he =>
      by rw [Table.insert_of_depth_ne M p v he]
    cases h : longest w M a n with
    | none =>
      rw [longest_eq_none] at h
      refine longest_eq_some.mpr ⟨hd, hself, fun e he he' => ?_⟩
      rw [hother e (by omega)]
      exact h e he'
    | some r =>
      obtain ⟨e, u⟩ := r
      obtain ⟨he, hu, hdeep⟩ := longest_eq_some.mp h
      rw [raise_some]
      by_cases hlt : d < e
      · rw [if_pos hlt]
        refine longest_eq_some.mpr ⟨he, ?_, fun f hf hf' => ?_⟩
        · rw [hother e (by omega)]
          exact hu
        · rw [hother f (by omega)]
          exact hdeep f hf hf'
      · rw [if_neg hlt]
        refine longest_eq_some.mpr ⟨hd, hself, fun f hf hf' => ?_⟩
        rw [hother f (by omega)]
        exact hdeep f (by omega) hf'
  · rw [if_neg hcov]
    refine longest_congr_table (fun e _ => ?_)
    unfold Table.insert
    rw [if_neg]
    rintro ⟨rfl, h⟩
    exact hcov h

/-- **Removing a prefix** lowers the match of the addresses it covered to
the longest match of smaller depth. -/
theorem longest_erase (a : ℕ) (hd : d < n) (hp : M d p = some v) :
    longest w (M.erase d p) a n
      = if trunc w d a = p then lower d (longest w M a d) (longest w M a n)
        else longest w M a n := by
  by_cases hcov : trunc w d a = p
  · rw [if_pos hcov]
    have hself : M.erase d p d (trunc w d a) = none := by
      rw [hcov, Table.erase_self]
    have hother : ∀ e, e ≠ d → M.erase d p e (trunc w e a) = M e (trunc w e a) := fun e he =>
      by rw [Table.erase_of_depth_ne M p he]
    obtain ⟨e, u, h, hde⟩ : ∃ e u, longest w M a n = some (e, u) ∧ d ≤ e :=
      exists_longest_of_covers hd (by rw [hcov]; exact hp)
    obtain ⟨he, hu, hdeep⟩ := longest_eq_some.mp h
    rw [h, lower_some]
    by_cases hlt : d < e
    · rw [if_pos hlt]
      refine longest_eq_some.mpr ⟨he, ?_, fun f hf hf' => ?_⟩
      · rw [hother e (by omega)]
        exact hu
      · rw [hother f (by omega)]
        exact hdeep f hf hf'
    · rw [if_neg hlt]
      obtain rfl : d = e := by omega
      cases hsub : longest w M a d with
      | none =>
        rw [longest_eq_none] at hsub
        refine longest_eq_none.mpr (fun f hf => ?_)
        rcases lt_trichotomy f d with hlt' | rfl | hgt
        · rw [hother f (by omega)]
          exact hsub f hlt'
        · exact hself
        · rw [hother f (by omega)]
          exact hdeep f hgt hf
      | some r =>
        obtain ⟨g, x⟩ := r
        obtain ⟨hg, hx, hgdeep⟩ := longest_eq_some.mp hsub
        refine longest_eq_some.mpr ⟨by omega, ?_, fun f hf hf' => ?_⟩
        · rw [hother g (by omega)]
          exact hx
        · rcases lt_trichotomy f d with hlt' | rfl | hgt
          · rw [hother f (by omega)]
            exact hgdeep f hf hlt'
          · exact hself
          · rw [hother f (by omega)]
            exact hdeep f hgt hf'
  · rw [if_neg hcov]
    refine longest_congr_table (fun e _ => ?_)
    unfold Table.erase
    rw [if_neg]
    rintro ⟨rfl, h⟩
    exact hcov h

/-! ## The addresses of a prefix -/

/-- **A prefix decides on an address**: it covers the address, and no deeper
prefix of the table does. -/
def Decides (w : ℕ) (M : Table α) (d p n a : ℕ) : Prop :=
  trunc w d a = p ∧ ∀ e, d < e → e < n → M e (trunc w e a) = none

/-- A prefix of the table is the longest match where it decides. -/
theorem Decides.longest_of_some (h : Decides w M d p n a) (hd : d < n) (hv : M d p = some v) :
    longest w M a n = some (d, v) :=
  longest_eq_some.mpr ⟨hd, by rw [h.1, hv], h.2⟩

/-- Where a prefix decides that is not in the table, it does as its own longest
match does. -/
theorem Decides.longest_of_none (h : Decides w M d p n a) (hdw : d ≤ w) (hd : d < n)
    (hp : M d p = none) : longest w M a n = longest w M p d := by
  have hcov := h.1
  have hshort : longest w M a n = longest w M a d := by
    refine longest_eq_of_forall_lt (le_of_lt hd) (fun r hr => ?_)
    obtain ⟨e, u⟩ := r
    obtain ⟨he, hu, -⟩ := longest_eq_some.mp hr
    by_contra hge
    rcases Nat.lt_or_eq_of_le (Nat.le_of_not_lt hge) with hlt | rfl
    · rw [h.2 e hlt he] at hu
      cases hu
    · rw [hcov, hp] at hu
      cases hu
  rw [hshort]
  refine longest_congr hdw (le_succ d) ?_
  rw [← hcov, trunc_idem]

/-- Whether a prefix decides does not depend on its own value. -/
theorem decides_congr {N : Table α} (h : ∀ e, d < e → M e = N e) :
    Decides w M d p n a ↔ Decides w N d p n a := by
  unfold Decides
  refine and_congr_right (fun _ => forall_congr' (fun e => ?_))
  refine imp_congr_right (fun he => ?_)
  rw [h e he]

/-- A new prefix is the longest match where it decides. -/
theorem longest_insert_of_decides (v : α) (h : Decides w M d p n a) (hd : d < n) :
    longest w (M.insert d p v) a n = some (d, v) := by
  have h' : Decides w (M.insert d p v) d p n a :=
    (decides_congr (fun e he => Table.insert_of_depth_ne M p v (ne_of_gt he))).mpr h
  exact h'.longest_of_some hd (Table.insert_self M d p v)

/-- Where a prefix covers an address and does not decide, the match is
deeper. -/
theorem exists_deeper (hcov : trunc w d a = p) (h : ¬ Decides w M d p n a) :
    ∃ e u, longest w M a n = some (e, u) ∧ d < e := by
  unfold Decides at h
  simp only [hcov, true_and, not_forall] at h
  obtain ⟨f, hf, hfn, hne⟩ := h
  obtain ⟨v, hv⟩ := Option.ne_none_iff_exists'.mp hne
  obtain ⟨e, u, heq, hle⟩ := exists_longest_of_covers hfn hv
  exact ⟨e, u, heq, by omega⟩

theorem longest_insert_of_not_decides (v : α) (h : ¬ Decides w M d p n a) (hd : d < n) :
    longest w (M.insert d p v) a n = longest w M a n := by
  rw [longest_insert M v a hd]
  by_cases hcov : trunc w d a = p
  · obtain ⟨e, u, heq, hlt⟩ := exists_deeper hcov h
    rw [if_pos hcov, heq, raise_some, if_pos hlt]
  · rw [if_neg hcov]

/-- **A prefix that is removed** leaves the address it decided on to its own
longest match. -/
theorem longest_erase_of_decides (h : Decides w M d p n a) (hdw : d ≤ w) (hd : d < n) :
    longest w (M.erase d p) a n = longest w M p d := by
  have h' : Decides w (M.erase d p) d p n a :=
    (decides_congr (fun e he => Table.erase_of_depth_ne M p (ne_of_gt he))).mpr h
  rw [h'.longest_of_none hdw hd (Table.erase_self M d p)]
  refine longest_congr_table (fun e he => ?_)
  rw [Table.erase_of_depth_ne M p (Nat.ne_of_lt he)]

theorem longest_erase_of_not_decides (h : ¬ Decides w M d p n a) (hd : d < n) :
    longest w (M.erase d p) a n = longest w M a n := by
  cases hp : M d p with
  | none => rw [Table.erase_eq_self hp]
  | some v =>
    rw [longest_erase a hd hp]
    by_cases hcov : trunc w d a = p
    · obtain ⟨e, u, heq, hlt⟩ := exists_deeper hcov h
      rw [if_pos hcov, heq, lower_some, if_pos hlt]
    · rw [if_neg hcov]

end Prefix
