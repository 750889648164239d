import DpdkStudy.Eal.Fbarray
import Mathlib.Order.Bounds.Basic
import Mathlib.Tactic.ByContra

/-!
# The searches of an indexed array are those of its bits

Each search of `Eal.Fbarray` looks at whole masks, and finds what a scan of the entries one by
one would find.
-/

open Nat

namespace Eal

open WordRuns

/-- **A run of entries**: each of them has the property. -/
def Run (P : ℕ → Prop) (i n : ℕ) : Prop := ∀ j < n, P (i + j)

/-- **What a search is to answer**: the best place of a set, or that there is none. -/
def Answer (IsBest : Set ℕ → ℕ → Prop) (S : Set ℕ) : Option ℕ → Prop
  | some i => IsBest S i
  | none => ∀ i, i ∉ S

/-! ## Forward runs -/

section Forward

variable {cur : ℕ → BitVec 64} {P : ℕ → Prop} {n lo hi m k rs left : ℕ} {started : Bool}

/-- **Some words say at which places the property holds**, which it does not behind them. -/
structure Words (cur : ℕ → BitVec 64) (P : ℕ → Prop) (lo hi : ℕ) : Prop where
  lt : ∀ i, P i → i < 64 * hi
  iff : ∀ {k q : ℕ}, lo ≤ k ∧ k < hi → q < 64 → (P (64 * k + q) ↔ (cur k).getLsbD q = true)

/-- **What a forward search knows before the word `k`**: no run begins before the one that has
been started, which is of `n - left` places up to the word. -/
def Started (P : ℕ → Prop) (n k rs left : ℕ) : Prop :=
  rs < 64 * k ∧ left + (64 * k - rs) = n ∧ 0 < left ∧ (∀ i, rs ≤ i → i < 64 * k → P i) ∧
    ∀ i < rs, ¬ Run P i n

/-- No run begins before a place. -/
def NoneBefore (P : ℕ → Prop) (n k : ℕ) : Prop := ∀ i < k, ¬ Run P i n

/-- What is known before the word `k`, with a run started or without. -/
def Knows (P : ℕ → Prop) (n k : ℕ) (started : Bool) (rs left : ℕ) : Prop :=
  if started then Started P n k rs left else left = n ∧ NoneBefore P n (64 * k)

theorem Started.least (h : Started P n k rs left) (hrun : Run P (64 * k) left) :
    Answer IsLeast {i | Run P i n} (some rs) := by
  obtain ⟨hlt, hleft, -, hrs, hnone⟩ := h
  refine ⟨fun j hj => ?_, fun i hi => not_lt.mp fun hlt => hnone i hlt hi⟩
  by_cases hj' : rs + j < 64 * k
  · exact hrs _ (le_add_right _ _) hj'
  · have := hrun (rs + j - 64 * k) (by omega)
    rwa [show 64 * k + (rs + j - 64 * k) = rs + j by omega] at this

/-- A run that has been started goes on through the word. -/
theorem Started.next (h : Started P n k rs left) (hrun : Run P (64 * k) 64) (hleft : 64 < left) :
    Started P n (k + 1) rs (left - 64) := by
  obtain ⟨hlt, hsum, -, hrs, hnone⟩ := h
  refine ⟨by omega, by omega, by omega, fun i hi hik => ?_, hnone⟩
  by_cases hik' : i < 64 * k
  · exact hrs i hi hik'
  · have := hrun (i - 64 * k) (by omega)
    rwa [show 64 * k + (i - 64 * k) = i by omega] at this

/-- A run is lost: none begins where it might have gone on. -/
theorem Started.lost (h : Started P n k rs left) {j : ℕ} (hj : j < left)
    (hnot : ¬ P (64 * k + j)) : NoneBefore P n (64 * k) := by
  obtain ⟨hlt, hsum, -, -, hnone⟩ := h
  intro i hi hrun
  by_cases hrs : i < rs
  · exact hnone i hrs hrun
  · refine hnot ?_
    have := hrun (64 * k + j - i) (by omega)
    rwa [show i + (64 * k + j - i) = 64 * k + j by omega] at this

/-- No run begins in the first places of the word either. -/
theorem NoneBefore.add (h : NoneBefore P n (64 * k)) {p : ℕ}
    (hbefore : ∀ q < p, ¬ Run P (64 * k + q) n) : NoneBefore P n (64 * k + p) := by
  intro i hi hrun
  by_cases hik : i < 64 * k
  · exact h i hik hrun
  · refine hbefore (i - 64 * k) (by omega) ?_
    rwa [show 64 * k + (i - 64 * k) = i by omega]

theorem Run.mono {i m : ℕ} (h : Run P i n) (hle : m ≤ n) : Run P i m :=
  fun j hj => h j (lt_of_lt_of_le hj hle)

section

variable (h : Words cur P lo hi) (hk : lo ≤ k ∧ k < hi)

include h hk

/-- **The bits that are left** are those at which a run begins that ends in the word. -/
theorem Words.begins {need q : ℕ} (hneed : 0 < need) :
    (runsRight (need - 1) (cur k)).getLsbD q = true ↔
      q + need ≤ 64 ∧ Run P (64 * k + q) need := by
  rw [getLsbD_runsRight]
  constructor
  · intro hbits
    have hlast : q + (need - 1) < 64 := BitVec.lt_of_getLsbD (hbits (need - 1) le_rfl)
    refine ⟨by omega, fun j hj => ?_⟩
    rw [add_assoc, h.iff hk (by omega)]
    exact hbits j (by omega)
  · rintro ⟨hle, hrun⟩ j hj
    have := hrun j (by omega)
    rwa [add_assoc, h.iff hk (by omega)] at this

/-- The first place of a word at which a run begins that ends in it. -/
theorem Words.found (hn : 0 < n) (htmp : runsRight (min n 64 - 1) (cur k) ≠ 0) :
    ((runsRight (min n 64 - 1) (cur k)).ctz.toNat + min n 64 ≤ 64 ∧
      Run P (64 * k + (runsRight (min n 64 - 1) (cur k)).ctz.toNat) (min n 64)) ∧
    ∀ q < (runsRight (min n 64 - 1) (cur k)).ctz.toNat, ¬ Run P (64 * k + q) n := by
  have hneed : 0 < min n 64 := lt_min hn (by decide)
  obtain ⟨-, hbit, hbefore⟩ := ctz_spec htmp
  have hfound := (h.begins hk hneed).mp hbit
  refine ⟨hfound, fun q hq hrun => ?_⟩
  have hfits : q + min n 64 ≤ 64 := by omega
  have hset := (h.begins hk hneed).mpr ⟨hfits, hrun.mono (min_le_left _ _)⟩
  rw [hbefore q hq] at hset
  cases hset

/-- **A word in which no run ends that begins in it**: what is known of its end. `z` is the
number of bits that are set there. -/
theorem Words.none (hn : 0 < n) (hzero : runsRight (min n 64 - 1) (cur k) = 0) :
    (~~~cur k).clz.toNat < min n 64 ∧
      (∀ q < 64 - (~~~cur k).clz.toNat, ¬ Run P (64 * k + q) n) ∧
      ∀ q < 64, 64 - (~~~cur k).clz.toNat ≤ q → P (64 * k + q) := by
  have hneed : 0 < min n 64 := lt_min hn (by decide)
  have hnot : ∀ q, q + min n 64 ≤ 64 → ¬ Run P (64 * k + q) (min n 64) := by
    intro q hq hrun
    have hbit := (h.begins hk hneed).mpr ⟨hq, hrun⟩
    rw [hzero] at hbit
    simp at hbit
  have hbits : ∀ q < 64, ((~~~cur k).getLsbD q = false ↔ P (64 * k + q)) := by
    intro q hq
    rw [h.iff hk hq]
    simp [hq]
  have hne : ~~~cur k ≠ 0 := by
    intro hall
    refine hnot 0 (by omega) fun j hj => ?_
    rw [add_assoc, ← hbits _ (by omega), hall]
    simp
  obtain ⟨hclz, htop, habove⟩ := clz_spec hne
  have hset : ∀ q < 64, 64 - (~~~cur k).clz.toNat ≤ q → P (64 * k + q) := fun q hq hle =>
    (hbits q hq).mp (habove q hq (by omega))
  have hclear : ¬ P (64 * k + (63 - (~~~cur k).clz.toNat)) := by
    rw [← hbits _ (by omega), htop]
    simp
  refine ⟨?_, fun q hq hrun => ?_, hset⟩
  · by_contra hge
    refine hnot (64 - min n 64) (by omega) fun j hj => ?_
    rw [add_assoc]
    exact hset _ (by omega) (by omega)
  · by_cases hfits : q + min n 64 ≤ 64
    · exact hnot q hfits (hrun.mono (min_le_left _ _))
    · have := hrun (63 - (~~~cur k).clz.toNat - q) (by omega)
      rw [show 64 * k + q + (63 - (~~~cur k).clz.toNat - q)
        = 64 * k + (63 - (~~~cur k).clz.toNat) by omega] at this
      exact hclear this

/-- **The run is kept** or it is not, and then no run begins before the word. -/
theorem Knows.lost (hknows : Knows P n k started rs left)
    (hlost : ¬ (started = true ∧ (runsRight (min left 64 - 1) (cur k)).getLsbD 0 = true)) :
    (if started then n else left) = n ∧ NoneBefore P n (64 * k) := by
  cases started with
  | false => exact hknows
  | true =>
    have hstarted : Started P n k rs left := hknows
    have hneed : 0 < min left 64 := lt_min hstarted.2.2.1 (by decide)
    refine ⟨rfl, ?_⟩
    by_contra hsome
    refine hlost ⟨rfl, (h.begins hk hneed).mpr ⟨by omega, fun j hj => ?_⟩⟩
    by_contra hnot
    exact hsome (hstarted.lost (lt_of_lt_of_le hj (min_le_left _ _)) hnot)

end

/-- **The loop of `find_next_n`** finds the least place at which a run begins. -/
theorem findNextNFrom_spec (h : Words cur P lo hi) (hn : 0 < n) (hlo : lo ≤ k) (hm : k + m = hi)
    (hknows : Knows P n k started rs left) :
    Answer IsLeast {i | Run P i n} (findNextNFrom cur n m k started rs left) := by
  induction m generalizing k started rs left with
  | zero =>
    intro i (hrun : Run P i n)
    have hbound : ∀ j < n, i + j < 64 * k := fun j hj => by
      have := h.lt _ (hrun j hj)
      omega
    cases started with
    | false => exact hknows.2 i (hbound 0 hn) hrun
    | true =>
      obtain ⟨hlt, hsum, hpos, -, hnone⟩ := hknows
      by_cases hi : i < rs
      · exact hnone i hi hrun
      · have := hbound (n - 1) (by omega)
        omega
  | succ m ih =>
    have hk : lo ≤ k ∧ k < hi := ⟨hlo, by omega⟩
    have hm' : k + 1 + m = hi := by omega
    have hlo' : lo ≤ k + 1 := le_succ_of_le hlo
    rw [findNextNFrom]
    by_cases hkeep : started = true ∧
        (runsRight (min left 64 - 1) (cur k)).getLsbD 0 = true
    · rw [if_pos hkeep]
      obtain ⟨rfl, hbit⟩ := hkeep
      have hstarted : Started P n k rs left := hknows
      have hneed : 0 < min left 64 := lt_min hstarted.2.2.1 (by decide)
      obtain ⟨-, hrun⟩ := (h.begins hk hneed).mp hbit
      rw [add_zero] at hrun
      by_cases hleft : left ≤ 64
      · rw [min_eq_left hleft] at hrun
        simpa [min_eq_left hleft] using hstarted.least hrun
      · have hlt : 64 < left := by omega
        rw [min_eq_right hlt.le] at hrun
        have hne : left - 64 ≠ 0 := by omega
        have hnext : Knows P n (k + 1) true rs (left - 64) := hstarted.next hrun hlt
        simpa [min_eq_right hlt.le, hne] using ih hlo' hm' hnext
    · rw [if_neg hkeep]
      obtain ⟨hleft, hnone⟩ := hknows.lost h hk hkeep
      simp only [hleft]
      by_cases htmp : runsRight (min n 64 - 1) (cur k) ≠ 0
      · rw [if_pos htmp]
        obtain ⟨hrun, hbefore⟩ := h.found hk hn htmp
        have hnone' := hnone.add hbefore
        by_cases hle : n ≤ 64
        · rw [min_eq_left hle] at hrun hnone' ⊢
          rw [if_pos (Nat.sub_self n)]
          exact ⟨hrun.2, fun i hi => not_lt.mp fun hlt => hnone' i hlt hi⟩
        · have hlt : 64 < n := not_le.mp hle
          rw [min_eq_right hlt.le] at hrun hnone' ⊢
          rw [if_neg (by omega)]
          refine ih hlo' hm' ?_
          show Started P n (k + 1) _ (n - 64)
          have hzero : (runsRight (64 - 1) (cur k)).ctz.toNat = 0 := by omega
          simp only [hzero, add_zero, maskGetIdx] at hrun hnone' ⊢
          refine ⟨by omega, by omega, by omega, fun i hi hik => ?_, hnone'⟩
          have := hrun.2 (i - 64 * k) (by omega)
          rwa [show 64 * k + (i - 64 * k) = i by omega] at this
      · rw [if_neg htmp]
        rw [not_not] at htmp
        obtain ⟨hlt, hbegin, hend⟩ := h.none hk hn htmp
        have hnone' := hnone.add hbegin
        by_cases hclz : (~~~cur k).clz.toNat = 0
        · rw [if_pos hclz]
          rw [hclz] at hnone'
          exact ih hlo' hm' (show Knows P n (k + 1) false rs n from ⟨rfl, hnone'⟩)
        · rw [if_neg hclz]
          refine ih hlo' hm' ?_
          show Started P n (k + 1) _ (n - _)
          rw [maskGetIdx]
          refine ⟨by omega, by omega, by omega, fun i hi hik => ?_, hnone'⟩
          have := hend (i - 64 * k) (by omega) (by omega)
          rwa [show 64 * k + (i - 64 * k) = i by omega] at this

/-- The loop of `find_next` finds the least place. -/
theorem findNextFrom_spec (h : Words cur P lo hi) (hlo : lo ≤ k) (hm : k + m = hi)
    (hnone : ∀ i < 64 * k, ¬ P i) :
    Answer IsLeast {i | P i} (findNextFrom cur m k) := by
  induction m generalizing k with
  | zero =>
    intro i (hi : P i)
    exact hnone i (by have := h.lt i hi; omega) hi
  | succ m ih =>
    have hk : lo ≤ k ∧ k < hi := ⟨hlo, by omega⟩
    have hword : ∀ q < 64, (cur k).getLsbD q = false → ¬ P (64 * k + q) := by
      intro q hq hbit hP
      rw [h.iff hk hq, hbit] at hP
      cases hP
    have hbefore : ∀ p ≤ 64, (∀ q < p, (cur k).getLsbD q = false) → ∀ i < 64 * k + p, ¬ P i := by
      intro p hp hclear i hi
      by_cases hik : i < 64 * k
      · exact hnone i hik
      · have := hword (i - 64 * k) (by omega) (hclear _ (by omega))
        rwa [show 64 * k + (i - 64 * k) = i by omega] at this
    rw [findNextFrom]
    split_ifs with hzero
    · exact ih (by omega) (by omega) (hbefore 64 le_rfl fun q _ => by rw [hzero]; simp)
    · obtain ⟨hlt, hbit, hclear⟩ := ctz_spec hzero
      refine ⟨(h.iff hk hlt).mpr hbit, fun i hi => not_lt.mp fun hlt' => ?_⟩
      exact hbefore _ hlt.le hclear i hlt' hi

end Forward

/-! ## Backward runs -/

section Backward

variable {cur : ℕ → BitVec 64} {P : ℕ → Prop} {n hi m : ℕ}

/-- **The words in a mirror**: the last of them first, and the last of its bits. -/
def mirror (cur : ℕ → BitVec 64) (hi k : ℕ) : BitVec 64 := (cur (hi - 1 - k)).reverse

theorem mirror_sub {cur : ℕ → BitVec 64} {hi k : ℕ} (hk : k < hi) :
    mirror cur hi (hi - (k + 1)) = (cur k).reverse := by
  rw [mirror, show hi - 1 - (hi - (k + 1)) = k by omega]

/-- A backward search is a forward search in a mirror. -/
theorem findPrevNFrom_eq (hm : m ≤ hi) (started : Bool) {rs : ℕ} (left : ℕ) :
    findPrevNFrom cur n m started (64 * hi - rs) left =
      (findNextNFrom (mirror cur hi) n m (hi - m) started rs left).map
        fun i => 64 * hi - i - n := by
  induction m generalizing started rs left with
  | zero => rfl
  | succ k ih =>
    have hrec : ∀ started rs left re, re = 64 * hi - rs →
        findPrevNFrom cur n k started re left =
          (findNextNFrom (mirror cur hi) n k (hi - (k + 1) + 1) started rs left).map
            fun i => 64 * hi - i - n := fun started rs left re hre => by
      rw [hre, ih (by omega), show hi - (k + 1) + 1 = hi - k by omega]
    have h63 : ∀ v : BitVec 64, v.reverse.getLsbD 63 = v.getLsbD 0 := fun v => by
      rw [BitVec.getLsbD_reverse]
      rfl
    have hzero : ∀ v : BitVec 64, v.reverse = 0 ↔ v = 0 := fun _ => BitVec.reverse_eq_zero_iff
    have hctz : ∀ v : BitVec 64, v.ctz.toNat ≤ 64 := fun v => by
      by_cases hv : v = 0
      · rw [hv]
        decide +kernel
      · exact (ctz_spec hv).1.le
    rw [findPrevNFrom, findNextNFrom, mirror_sub hm]
    simp only [runsLeft_eq, h63, BitVec.clz_eq_reverse_ctz, reverse_not, BitVec.reverse_reverse_eq, ne_eq,
      hzero, maskGetIdx]
    generalize (if started = true then n else left) = lost
    split_ifs with hkeep hleft htmp hlast hleft
    · rfl
    · exact hrec _ _ _ _ rfl
    · exact hrec _ _ _ _ rfl
    · have := hctz (~~~cur k)
      exact hrec _ _ _ _ (by omega)
    · have := (ctz_spec htmp).1
      exact congrArg some (by simp only; omega)
    · have := (ctz_spec htmp).1
      exact hrec _ _ _ _ (by omega)

theorem findPrevFrom_eq (hm : m ≤ hi) :
    findPrevFrom cur m =
      (findNextFrom (mirror cur hi) m (hi - m)).map fun i => 64 * hi - i - 1 := by
  induction m with
  | zero => rfl
  | succ k ih =>
    have hrev : (cur k).reverse = 0 ↔ cur k = 0 := BitVec.reverse_eq_zero_iff
    rw [findPrevFrom, findNextFrom, mirror_sub hm, BitVec.clz_eq_reverse_ctz]
    simp only [hrev, maskGetIdx]
    split_ifs with hzero
    · rw [ih (by omega), show hi - (k + 1) + 1 = hi - k by omega]
    · have := (ctz_spec (hrev.not.mpr hzero)).1
      exact congrArg some (by simp only; omega)

/-- A place in the mirror. -/
def Mirrored (P : ℕ → Prop) (hi i : ℕ) : Prop := i < 64 * hi ∧ P (64 * hi - 1 - i)

theorem Words.mirror (h : Words cur P 0 hi) : Words (mirror cur hi) (Mirrored P hi) 0 hi where
  lt i hi := hi.1
  iff := by
    intro k q hk hq
    rw [Mirrored, Eal.mirror, BitVec.getLsbD_reverse, BitVec.getMsbD_eq_getLsbD,
      show 64 * hi - 1 - (64 * k + q) = 64 * (hi - 1 - k) + (63 - q) by omega,
      h.iff ⟨Nat.zero_le _, by omega⟩ (by omega)]
    simp only [hq, decide_true, Bool.true_and]
    exact and_iff_right (by omega)

theorem run_mirrored {i : ℕ} (hn : 0 < n) :
    Run (Mirrored P hi) i n ↔ i + n ≤ 64 * hi ∧ Run P (64 * hi - i - n) n := by
  constructor
  · intro h
    have hlast := (h (n - 1) (by omega)).1
    refine ⟨by omega, fun j hj => ?_⟩
    have := (h (n - 1 - j) (by omega)).2
    rwa [show 64 * hi - 1 - (i + (n - 1 - j)) = 64 * hi - i - n + j by omega] at this
  · rintro ⟨hle, hrun⟩ j hj
    have := hrun (n - 1 - j) (by omega)
    rw [show 64 * hi - i - n + (n - 1 - j) = 64 * hi - 1 - (i + j) by omega] at this
    exact ⟨by omega, this⟩

theorem Answer.mirror (h : Words cur P 0 hi) (hn : 0 < n) {o : Option ℕ}
    (ho : Answer IsLeast {i | Run (Mirrored P hi) i n} o) :
    Answer IsGreatest {i | Run P i n} (o.map fun i => 64 * hi - i - n) := by
  have hback : ∀ i, Run P i n → i + n ≤ 64 * hi ∧ Run (Mirrored P hi) (64 * hi - i - n) n := by
    intro i hrun
    have hlast := h.lt _ (hrun (n - 1) (by omega))
    refine ⟨by omega, (run_mirrored hn).mpr ⟨by omega, ?_⟩⟩
    rwa [show 64 * hi - (64 * hi - i - n) - n = i by omega]
  cases o with
  | none => exact fun i hi => ho _ (hback i hi).2
  | some j =>
    refine ⟨((run_mirrored hn).mp ho.1).2, fun i hi => ?_⟩
    have hle := ho.2 (hback i hi).2
    have hle' := (hback i hi).1
    simp only
    omega

/-- **The loop of `find_prev_n`** finds the greatest place at which a run begins. -/
theorem findPrevNFrom_spec (h : Words cur P 0 hi) (hn : 0 < n) :
    Answer IsGreatest {i | Run P i n} (findPrevNFrom cur n hi false 0 n) := by
  have hknows : Knows (Mirrored P hi) n 0 false (64 * hi) n :=
    ⟨rfl, fun i hi => absurd hi (Nat.not_lt_zero i)⟩
  have hnext := findNextNFrom_spec h.mirror hn le_rfl (Nat.zero_add hi) hknows
  have heq := @findPrevNFrom_eq cur n hi hi le_rfl false (64 * hi) n
  rw [Nat.sub_self, Nat.sub_self] at heq
  rw [heq]
  exact hnext.mirror h hn

/-- The loop of `find_prev` finds the greatest place. -/
theorem findPrevFrom_spec (h : Words cur P 0 hi) :
    Answer IsGreatest {i | P i} (findPrevFrom cur hi) := by
  have hone : ∀ P : ℕ → Prop, {i | Run P i 1} = {i | P i} := fun P => by
    ext i
    exact ⟨fun hrun => hrun 0 one_pos, fun hi j hj => by rwa [Nat.lt_one_iff.mp hj]⟩
  rw [← hone, findPrevFrom_eq le_rfl, Nat.sub_self]
  refine Answer.mirror h one_pos ?_
  rw [hone]
  exact findNextFrom_spec h.mirror le_rfl (Nat.zero_add hi) fun i hi => absurd hi (by omega)

end Backward

/-! ## The masks -/

namespace RteFbarray

variable (arr : RteFbarray) (used : Bool) {start n i k q : ℕ}

/-- **An entry is used**, or free. -/
def Spot (i : ℕ) : Prop := bitAt arr.data i = used

/-- An entry of the array that is used, or free. -/
def Entry (i : ℕ) : Prop := i < arr.len ∧ arr.Spot used i

variable {arr used}

theorem getLsbD_curMsk (hq : q < 64) :
    (arr.curMsk used k).getLsbD q = true ↔ arr.Spot used (64 * k + q) := by
  rw [Spot, bitAt_add hq, curMsk]
  cases used <;> simp [hq]

theorem getLsbD_below {m : ℕ} (hq : q < 64) :
    (~~~(BitVec.allOnes 64 <<< m)).getLsbD q = true ↔ q < m := by
  rw [BitVec.getLsbD_not, BitVec.getLsbD_shiftLeft, BitVec.getLsbD_allOnes]
  simp [hq, lt_of_le_of_lt (sub_le q m) hq]

theorem getLsbD_lastMsk (hq : q < 64) :
    arr.lastMsk.getLsbD q = true ↔ q < maskLenToMod arr.len := getLsbD_below hq

/-- The masks of a forward search have the entries of the array. -/
theorem getLsbD_nextMsk (hk : k < arr.nMasks) (hq : q < 64) :
    (arr.nextMsk used k).getLsbD q = true ↔ arr.Entry used (64 * k + q) := by
  have hlen : 64 * k < arr.len := by
    simp only [nMasks, maskLenToIdx] at hk
    omega
  rw [nextMsk, Entry]
  split_ifs with hlast
  · rw [BitVec.getLsbD_and, Bool.and_eq_true, getLsbD_curMsk hq, getLsbD_lastMsk hq, and_comm]
    refine and_congr_left fun _ => ?_
    rw [hlast, maskLenToIdx, maskLenToMod]
    omega
  · rw [getLsbD_curMsk hq]
    refine (and_iff_right ?_).symm
    rw [maskLenToIdx] at hlast
    omega

theorem getLsbD_firstMskNext (hq : q < 64) :
    (firstMskNext start).getLsbD q = true ↔ maskLenToMod start ≤ q := by
  have hmod : maskLenToMod start < 64 := mod_lt _ (by decide)
  have hnat : (1#64 <<< maskLenToMod start - 1).toNat = 2 ^ maskLenToMod start - 1 := by
    have hlt : 2 ^ maskLenToMod start < 2 ^ 64 := Nat.pow_lt_pow_right (by decide) hmod
    have hpos := Nat.two_pow_pos (maskLenToMod start)
    rw [BitVec.toNat_sub, BitVec.toNat_shiftLeft, show (1#64).toNat = 1 by decide,
      show BitVec.toNat (1 : BitVec 64) = 1 by decide, shiftLeft_eq, one_mul,
      mod_eq_of_lt hlt]
    omega
  rw [firstMskNext, BitVec.getLsbD_not, BitVec.getLsbD, hnat, testBit_two_pow_sub_one]
  simp [hq]

theorem getLsbD_firstMskPrev (hq : q < 64) :
    (firstMskPrev start).getLsbD q = true ↔ q ≤ maskLenToMod start := by
  rw [firstMskPrev]
  split_ifs with hmod
  · rw [BitVec.getLsbD_allOnes, decide_eq_true_iff, hmod]
    omega
  · rw [getLsbD_below hq]
    omega

/-- The masks of a forward search, from its first one on. -/
theorem words_next : Words
    (fun idx => if idx = maskLenToIdx start then arr.nextMsk used idx &&& firstMskNext start
      else arr.nextMsk used idx)
    (fun i => start ≤ i ∧ arr.Entry used i) (maskLenToIdx start) arr.nMasks where
  lt := by
    intro i hi
    have := hi.2.1
    simp only [nMasks, maskLenToIdx]
    omega
  iff := by
    intro k q hk hq
    show start ≤ 64 * k + q ∧ arr.Entry used (64 * k + q) ↔
      (if _ then _ else _ : BitVec 64).getLsbD q = true
    split_ifs with hfirst
    · rw [BitVec.getLsbD_and, Bool.and_eq_true, getLsbD_nextMsk hk.2 hq, getLsbD_firstMskNext hq,
        and_comm]
      refine and_congr_right fun _ => ?_
      rw [hfirst, maskLenToIdx, maskLenToMod]
      omega
    · rw [getLsbD_nextMsk hk.2 hq]
      refine and_iff_right ?_
      have := hk.1
      rw [maskLenToIdx] at this hfirst
      omega

theorem words_prev : Words
    (fun idx => if idx = maskLenToIdx start then arr.curMsk used idx &&& firstMskPrev start
      else arr.curMsk used idx)
    (fun i => i ≤ start ∧ arr.Spot used i) 0 (maskLenToIdx start + 1) where
  lt := by
    intro i hi
    have := hi.1
    rw [maskLenToIdx]
    omega
  iff := by
    intro k q hk hq
    show 64 * k + q ≤ start ∧ arr.Spot used (64 * k + q) ↔
      (if _ then _ else _ : BitVec 64).getLsbD q = true
    split_ifs with hfirst
    · rw [BitVec.getLsbD_and, Bool.and_eq_true, getLsbD_curMsk hq, getLsbD_firstMskPrev hq,
        and_comm]
      refine and_congr_right fun _ => ?_
      rw [hfirst, maskLenToIdx, maskLenToMod]
      omega
    · rw [getLsbD_curMsk hq]
      refine and_iff_right ?_
      have := hk.2
      rw [maskLenToIdx] at this hfirst
      omega

/-! ## The length of a run -/

/-- **The length of the run of entries** from a place on. -/
def LengthFrom (P : ℕ → Prop) (start r : ℕ) : Prop :=
  (∀ j < r, P (start + j)) ∧ ¬ P (start + r)

/-- The length of the run of entries that ends at a place. -/
def LengthBack (P : ℕ → Prop) (start r : ℕ) : Prop :=
  r ≤ start + 1 ∧ (∀ j < r, P (start - j)) ∧ (r ≤ start → ¬ P (start - r))

/-- **The bits that are set in front of a word**: entries up to the end of what is needed of it, or
up to one that is not. -/
theorem contig_word {Q : ℕ → Prop} {w : BitVec 64} {need result : ℕ} (hneed : need ≤ 64)
    (hall : ∀ j < result, Q j)
    (hbits : ∀ q < need, (w.getLsbD q = true ↔ Q (result + q))) :
    (~~~w = 0 ∨ need ≤ (~~~w).ctz.toNat → ∀ j < result + need, Q j) ∧
      (~~~w ≠ 0 → (~~~w).ctz.toNat < need →
        (∀ j < result + (~~~w).ctz.toNat, Q j) ∧ ¬ Q (result + (~~~w).ctz.toNat)) := by
  have hupto : ∀ r ≤ need, (∀ q < r, (~~~w).getLsbD q = false) → ∀ j < result + r, Q j := by
    intro r hr hclear j hj
    by_cases hj' : j < result
    · exact hall j hj'
    · have hbit := hclear (j - result) (by omega)
      have := (hbits (j - result) (by omega)).mp (by simpa [show j - result < 64 by omega] using hbit)
      rwa [show result + (j - result) = j by omega] at this
  constructor
  · intro h
    refine hupto need le_rfl fun q hq => ?_
    by_cases hzero : ~~~w = 0
    · rw [hzero]
      simp
    · exact (ctz_spec hzero).2.2 q (lt_of_lt_of_le hq (h.resolve_left hzero))
  · intro hzero hlt
    obtain ⟨-, hclear, hset⟩ := ctz_spec hzero
    refine ⟨hupto _ hlt.le hset, fun hQ => ?_⟩
    rw [BitVec.getLsbD_not, (hbits _ hlt).mpr hQ] at hclear
    simp at hclear

/-- **The loop of `find_contig`**, which has counted the entries up to a mask. -/
theorem findContigFrom_spec {m idx result : ℕ} (hfirst : maskLenToIdx start ≤ idx)
    (hm : idx + m = arr.nMasks) (hresult : start + result = max start (64 * idx))
    (hall : ∀ j < result, arr.Entry used (start + j)) :
    LengthFrom (arr.Entry used) start (findContigFrom arr used start m idx result) := by
  induction m generalizing idx result with
  | zero =>
    refine ⟨hall, fun hentry => ?_⟩
    have hlt := hentry.1
    rw [findContigFrom, hresult] at hlt
    have hmax := le_max_right start (64 * idx)
    simp only [nMasks, maskLenToIdx] at hm
    omega
  | succ m ih =>
    have hk : idx < arr.nMasks := by omega
    rw [findContigFrom]
    -- the mask from the place that has been reached, and how much of it there is
    obtain ⟨v, hv⟩ : ∃ v, (if idx = maskLenToIdx start then
      arr.nextMsk used idx >>> maskLenToMod start else arr.nextMsk used idx) = v := ⟨_, rfl⟩
    obtain ⟨need, hneed⟩ : ∃ need, (if idx = maskLenToIdx start then 64 - maskLenToMod start
      else 64) = need := ⟨_, rfl⟩
    rw [hv, hneed]
    have hplace : start + result + need = 64 * (idx + 1) ∧ need ≤ 64 := by
      rw [hresult, ← hneed]
      by_cases hidx : idx = maskLenToIdx start
      · rw [if_pos hidx]
        simp only [maskLenToIdx, maskLenToMod] at hidx ⊢
        omega
      · rw [if_neg hidx]
        simp only [maskLenToIdx] at hfirst hidx
        omega
    have hbits : ∀ q < need, (v.getLsbD q = true ↔ arr.Entry used (start + (result + q))) := by
      intro q hq
      rw [← add_assoc, hresult, ← hv]
      by_cases hidx : idx = maskLenToIdx start
      · have hmod : maskLenToMod start + q < 64 := by
          rw [← hneed, if_pos hidx] at hq
          omega
        rw [if_pos hidx, BitVec.getLsbD_ushiftRight, getLsbD_nextMsk hk hmod]
        simp only [maskLenToIdx, maskLenToMod] at hidx ⊢
        rw [show 64 * idx + (start % 64 + q) = max start (64 * idx) + q by omega]
      · rw [if_neg hidx, getLsbD_nextMsk hk (by omega)]
        simp only [maskLenToIdx] at hfirst hidx
        rw [show max start (64 * idx) = 64 * idx by omega]
    obtain ⟨hon, hoff⟩ := contig_word hplace.2 hall hbits
    have hstep : ~~~v = 0 ∨ need ≤ (~~~v).ctz.toNat → LengthFrom (arr.Entry used) start
        (findContigFrom arr used start m (idx + 1) (result + need)) := fun h =>
      ih (by omega) (by omega) (by omega) (hon h)
    split_ifs with hzero hlt
    · exact hstep (Or.inl hzero)
    · exact hoff hzero hlt
    · exact hstep (Or.inr (not_lt.mp hlt))

/-- **The loop of `find_rev_contig`**, which has counted the entries down to a mask. -/
theorem findRevContigFrom_spec {m result : ℕ} (hm : m ≤ maskLenToIdx start + 1)
    (hresult : min (start + 1) (64 * m) + result = start + 1)
    (hall : ∀ j < result, arr.Spot used (start - j)) :
    LengthBack (arr.Spot used) start (findRevContigFrom arr used start m result) := by
  induction m generalizing result with
  | zero =>
    rw [findRevContigFrom]
    exact ⟨by omega, hall, fun hle => absurd hle (by omega)⟩
  | succ idx ih =>
    rw [findRevContigFrom]
    obtain ⟨endLen, hend⟩ : ∃ endLen, (if idx = maskLenToIdx start then
      64 - maskLenToMod start - 1 else 0) = endLen := ⟨_, rfl⟩
    obtain ⟨v, hv⟩ : ∃ v, (if idx = maskLenToIdx start then arr.curMsk used idx <<< endLen
      else arr.curMsk used idx) = v := ⟨_, rfl⟩
    simp only [hend, hv]
    obtain ⟨need, hneed⟩ : ∃ need, 64 - endLen = need := ⟨_, rfl⟩
    rw [hneed]
    have hplace : min (start + 1) (64 * (idx + 1)) = 64 * idx + need ∧ endLen < 64 := by
      rw [← hneed, ← hend]
      by_cases hidx : idx = maskLenToIdx start
      · rw [if_pos hidx]
        simp only [maskLenToIdx, maskLenToMod] at hidx ⊢
        omega
      · rw [if_neg hidx]
        simp only [maskLenToIdx] at hm hidx
        omega
    have hbits : ∀ q < need,
        (v.reverse.getLsbD q = true ↔ arr.Spot used (start - (result + q))) := by
      intro q hq
      rw [BitVec.getLsbD_reverse, BitVec.getMsbD_eq_getLsbD, show 64 - 1 - q = 63 - q from rfl,
        decide_eq_true (show q < 64 by omega), Bool.true_and, show start - (result + q) = 64 * idx + (need - 1 - q) by omega, ← hv]
      by_cases hidx : idx = maskLenToIdx start
      · rw [if_pos hidx, BitVec.getLsbD_shiftLeft,
          show 63 - q - endLen = need - 1 - q by omega, Bool.and_eq_true, Bool.and_eq_true,
          getLsbD_curMsk (by omega)]
        simp [show 63 - q < 64 by omega, show endLen ≤ 63 - q by omega]
      · rw [if_neg hidx] at hend
        rw [if_neg hidx, show 63 - q = need - 1 - q by omega, getLsbD_curMsk (by omega)]
    have hnot : (~~~v).clz = (~~~v.reverse).ctz := by
      rw [BitVec.clz_eq_reverse_ctz, reverse_not]
    have hrev : ~~~v.reverse = 0 ↔ ~~~v = 0 := by
      rw [← reverse_not]
      exact BitVec.reverse_eq_zero_iff
    obtain ⟨hon, hoff⟩ := contig_word (show need ≤ 64 by omega) hall hbits
    rw [hrev] at hon
    rw [ne_eq, hrev] at hoff
    rw [hnot]
    have hstep : ~~~v = 0 ∨ need ≤ (~~~v.reverse).ctz.toNat → LengthBack (arr.Spot used) start
        (findRevContigFrom arr used start idx (result + need)) := fun h =>
      ih (by omega) (by omega) (hon h)
    split_ifs with hzero hlt
    · exact hstep (Or.inl hzero)
    · obtain ⟨hfront, hback⟩ := hoff hzero hlt
      exact ⟨by omega, hfront, fun _ => hback⟩
    · exact hstep (Or.inr (not_lt.mp hlt))

/-! ## The searches -/

/-- **What a search returns**: the best place of a set, or an error if there is none. -/
def Finds (IsBest : Set ℕ → ℕ → Prop) (S : Set ℕ) (used : Bool) : Found → Prop
  | .ok i => IsBest S i
  | .error e => e = notFound used ∧ ∀ i, i ∉ S

theorem finds_found {IsBest : Set ℕ → ℕ → Prop} {S T : Set ℕ} {o : Option ℕ}
    (h : Answer IsBest S o) (heq : S = T) : Finds IsBest T used (found used o) := by
  subst heq
  cases o with
  | some i => exact h
  | none => exact ⟨rfl, h⟩

variable (arr used)

/-- A run from a place on is a run that begins there or behind it. -/
theorem run_from (hn : 0 < n) :
    {i | Run (fun i => start ≤ i ∧ arr.Entry used i) i n} =
      {i | start ≤ i ∧ Run (arr.Entry used) i n} := by
  ext i
  exact ⟨fun h => ⟨(h 0 hn).1, fun j hj => (h j hj).2⟩,
    fun h j hj => ⟨le_add_right_of_le h.1, h.2 j hj⟩⟩

/-- A place up to one within the array is an entry. -/
theorem spot_upTo (hstart : start < arr.len) :
    (i ≤ start ∧ arr.Spot used i) ↔ (i ≤ start ∧ arr.Entry used i) :=
  and_congr_right fun hle => (and_iff_right (lt_of_le_of_lt hle hstart)).symm

/-- A run up to a place is a run that ends there or before it. -/
theorem run_upTo (hn : 0 < n) (hstart : start < arr.len) :
    {i | Run (fun i => i ≤ start ∧ arr.Spot used i) i n} =
      {i | i + (n - 1) ≤ start ∧ Run (arr.Entry used) i n} := by
  simp only [spot_upTo arr used hstart]
  ext i
  exact ⟨fun h => ⟨(h (n - 1) (by omega)).1, fun j hj => (h j hj).2⟩,
    fun h j hj => ⟨le_trans (by omega) h.1, h.2 j hj⟩⟩

theorem maskLenToIdx_lt (hstart : start < arr.len) : maskLenToIdx start < arr.nMasks := by
  simp only [nMasks, maskLenToIdx]
  omega

/-- **Every search finds what a scan of the entries finds.** Forwards the run of `n` entries
that begins first, backwards the one that ends last, and the same for single entries; the
lengths are those of the runs up to the end and down to the beginning of the array. -/
theorem searches_spec (arr : RteFbarray) (start n : ℕ) (used : Bool) (hstart : start < arr.len)
    (hn : 1 ≤ n) :
    Finds IsLeast {i | start ≤ i ∧ Run (arr.Entry used) i n} used (findNextN arr start n used) ∧
    Finds IsGreatest {i | i + (n - 1) ≤ start ∧ Run (arr.Entry used) i n} used
      (findPrevN arr start n used) ∧
    Finds IsLeast {i | start ≤ i ∧ arr.Entry used i} used (findNext arr start used) ∧
    Finds IsGreatest {i | i ≤ start ∧ arr.Entry used i} used (findPrev arr start used) ∧
    LengthFrom (arr.Entry used) start (findContig arr start used) ∧
    LengthBack (arr.Entry used) start (findRevContig arr start used) := by
  have hmasks := maskLenToIdx_lt arr hstart
  have hsum : maskLenToIdx start + (arr.nMasks - maskLenToIdx start) = arr.nMasks := by omega
  -- nothing is looked for before the first mask of a search
  have hbefore : ∀ i < 64 * maskLenToIdx start, ¬ (start ≤ i ∧ arr.Entry used i) := by
    intro i hi h
    rw [maskLenToIdx] at hi
    omega
  refine ⟨?_, ?_, ?_, ?_, ?_, ?_⟩
  · refine finds_found (findNextNFrom_spec words_next hn le_rfl hsum ?_) (run_from arr used hn)
    exact ⟨rfl, fun i hi hrun => hbefore i hi (hrun 0 hn)⟩
  · exact finds_found (findPrevNFrom_spec words_prev hn) (run_upTo arr used hn hstart)
  · exact finds_found (findNextFrom_spec words_next le_rfl hsum hbefore) rfl
  · refine finds_found (findPrevFrom_spec words_prev) ?_
    simp only [spot_upTo arr used hstart]
  · refine findContigFrom_spec le_rfl hsum ?_ fun j hj => absurd hj (not_lt_zero j)
    rw [maskLenToIdx]
    omega
  · have hlen : LengthBack (arr.Spot used) start (findRevContig arr start used) := by
      refine findRevContigFrom_spec le_rfl ?_ fun j hj => absurd hj (not_lt_zero j)
      rw [maskLenToIdx]
      omega
    obtain ⟨hle, hall, hnot⟩ := hlen
    exact ⟨hle, fun j hj => ⟨lt_of_le_of_lt (sub_le _ _) hstart, hall j hj⟩,
      fun hr hentry => hnot hr hentry.2⟩

/-- **A run over two masks**, of an array whose last mask has bits behind its entries. -/
theorem searches_spec_across :
    let arr : RteFbarray := ⟨70, fun k => if k = 0 then 0xC000000000000000 else 0x1FF⟩
    Finds IsLeast {i | 3 ≤ i ∧ Run (arr.Entry true) i 8} true (findNextN arr 3 8 true) ∧
      findNextN arr 3 8 true = .ok 62 ∧ findNextN arr 3 9 true = .error .enoent :=
  ⟨(searches_spec _ 3 8 true (by decide) (by decide)).1, by decide +kernel, by decide +kernel⟩

end RteFbarray

end Eal
