import DpdkStudy.Lib.CText
import Mathlib.Data.Nat.Cast.Order.Basic
import Mathlib.Tactic.IntervalCases

/-!
# Numbers as they are written

The number that a text spells is an integer without bounds (`scanWritten`). What the C
library makes of it is cut to the width of an `unsigned long` (`uLongOf`), and it is the number
itself exactly if that is in range (`toNat_uLongOf_eq_iff`). The number that a decimal
representation spells is the one that was represented (`scanWritten_decimal`).
-/

open List Nat

namespace CText

/-- **The number at the front of a text**, as it is written. -/
def scanWritten : Scan ℤ := fun s =>
  let (negative, s) := scanSign (s.dropWhile isSpace)
  (scanNumber 10 s).map fun (n, rest) => (if negative then -(n : ℤ) else n, rest)

/-- The `unsigned long` that is read where a number is written. -/
def uLongOf (z : ℤ) : UInt64 :=
  if z.natAbs < 2 ^ 64 then UInt64.ofInt z else UInt64.ofNat (2 ^ 64 - 1)

/-- What is read depends on the number that is written. -/
theorem toULong_eq_uLongOf (negative : Bool) (n : ℕ) :
    toULong negative n = uLongOf (if negative then -(n : ℤ) else n) := by
  have hcast : UInt64.ofInt n = UInt64.ofNat n := by
    rw [UInt64.ofInt, ← UInt64.toNat_inj, UInt64.toNat_ofNat', UInt64.toNat_ofNat']
    omega
  cases negative with
  | false =>
    simp only [toULong, uLongOf, Bool.false_eq_true, if_false, Int.natAbs_natCast, hcast]
  | true =>
    simp only [toULong, uLongOf, if_true, Int.natAbs_neg, Int.natAbs_natCast, UInt64.ofInt_neg,
      hcast]

theorem scanULong_eq : scanULong = uLongOf <$> scanWritten := by
  funext s
  change scanUnsigned 10 s = (scanWritten s).bind fun r => some (uLongOf r.1, r.2)
  rw [scanUnsigned, scanWritten]
  simp only [reduceEqDiff, if_false, toULong_eq_uLongOf]
  cases scanNumber 10 (scanSign (s.dropWhile isSpace)).2 <;> rfl

theorem run_map {α β : Type} (f : α → β) (x : Scan α) (s : List Char) :
    (f <$> x).run' s = (x.run' s).map f := by
  change Option.map Prod.fst ((x s).bind fun r => some (f r.1, r.2)) =
    (Option.map Prod.fst (x s)).map f
  cases x s <;> rfl

theorem toNat_uLongOf {z : ℤ} (h₀ : 0 ≤ z) (h : z < 2 ^ 64) : ((uLongOf z).toNat : ℤ) = z := by
  rw [uLongOf, if_pos (by omega), UInt64.ofInt, UInt64.toNat_ofNat']
  omega

/-- **What is cut to some bits** is the number that is written exactly if it fits. -/
theorem uLongOf_mod_eq_iff {z : ℤ} {m : ℕ} (hm : 0 < m) (hle : m ≤ 2 ^ 64) :
    (((uLongOf z).toNat % m : ℕ) : ℤ) = z ↔ 0 ≤ z ∧ z < m := by
  constructor
  · intro h
    rw [← h]
    exact ⟨Int.natCast_nonneg _, by exact_mod_cast mod_lt _ hm⟩
  · rintro ⟨h₀, hlt⟩
    have hz := toNat_uLongOf h₀ (by omega)
    rw [mod_eq_of_lt (by omega), hz]

/-! ## Decimal representations -/

/-- A text that does not go on with a digit. -/
def NoDigit (s : List Char) : Prop := ∀ c ∈ s.head?, digitVal 10 c = none

theorem digitVal_digitChar {d : ℕ} (h : d < 10) : digitVal 10 d.digitChar = some d := by
  have hall : ∀ d < 10, digitVal 10 (digitChar d) = some d := by decide
  exact hall d h

theorem scanDigits_noDigit {s : List Char} (h : NoDigit s) (n : ℕ) :
    scanDigits 10 n s = (n, s) := by
  cases s with
  | nil => rfl
  | cons c s => rw [scanDigits, h c rfl]

/-- The digits of a number are read as that number. -/
theorem scanDigits_toDigits {s : List Char} (h : NoDigit s) (n : ℕ) :
    scanDigits 10 0 (toDigits 10 n ++ s) = (n, s) := by
  have hgen : ∀ (n : ℕ) (s : List Char), scanDigits 10 0 (toDigits 10 n ++ s) =
      scanDigits 10 n s := by
    intro n
    induction n using Nat.strongRecOn with
    | ind n ih =>
      intro s
      rw [toDigits_eq_if (by decide)]
      split
      · next hlt =>
        rw [singleton_append, scanDigits, digitVal_digitChar hlt]
        simp
      · next hge =>
        rw [append_assoc, ih (n / 10) (by omega), singleton_append, scanDigits,
          digitVal_digitChar (mod_lt _ (by decide))]
        simp only
        rw [mul_comm, div_add_mod]
  rw [hgen, scanDigits_noDigit h]

theorem exists_toDigits_cons (n : ℕ) :
    ∃ d cs, d < 10 ∧ toDigits 10 n = d.digitChar :: cs := by
  induction n using Nat.strongRecOn with
  | ind n ih =>
    rw [toDigits_eq_if (by decide)]
    split
    · next hlt => exact ⟨n, [], hlt, rfl⟩
    · next hge =>
      obtain ⟨d, cs, hd, hcs⟩ := ih (n / 10) (by omega)
      exact ⟨d, cs ++ [(n % 10).digitChar], hd, by rw [hcs]; rfl⟩

/-- **The decimal representation** of an integer. -/
def decimal (z : ℤ) : List Char := (if z < 0 then ['-'] else []) ++ Nat.toDigits 10 z.natAbs

/-- A decimal representation is read as the number that it represents. -/
theorem scanWritten_decimal {s : List Char} (h : NoDigit s) (z : ℤ) :
    scanWritten (decimal z ++ s) = some (z, s) := by
  obtain ⟨d, cs, hd, hcs⟩ := exists_toDigits_cons z.natAbs
  have hread := scanDigits_toDigits h z.natAbs
  have hnum : scanNumber 10 (toDigits 10 z.natAbs ++ s) = some (z.natAbs, s) := by
    rw [hcs] at hread ⊢
    rw [cons_append, scanDigits, digitVal_digitChar hd] at hread
    rw [cons_append, scanNumber, digitVal_digitChar hd, Option.map_some]
    simpa using hread
  have hsign : scanSign ((digitChar d :: (cs ++ s)).dropWhile isSpace) =
      (false, digitChar d :: (cs ++ s)) := by
    interval_cases d <;> rfl
  rw [scanWritten, decimal]
  by_cases hneg : z < 0
  · have hminus : scanSign ((['-'] ++ toDigits 10 z.natAbs ++ s).dropWhile isSpace) =
        (true, toDigits 10 z.natAbs ++ s) := rfl
    rw [if_pos hneg, hminus]
    simp only [hnum, Option.map_some, if_true]
    rw [Int.ofNat_natAbs_of_nonpos hneg.le, neg_neg]
  · have hplain : scanSign (([] ++ toDigits 10 z.natAbs ++ s).dropWhile isSpace) =
        (false, toDigits 10 z.natAbs ++ s) := by
      rw [nil_append, hcs]
      exact hsign
    rw [if_neg hneg, hplain]
    simp only [hnum, Option.map_some, Bool.false_eq_true, if_false]
    rw [Int.natAbs_of_nonneg (not_lt.mp hneg)]

theorem mem_decimal {z : ℤ} {c : Char} (h : c ∈ decimal z) : c = '-' ∨ c.isDigit := by
  rcases mem_append.mp h with h | h
  · split at h
    · exact Or.inl (mem_singleton.mp h)
    · exact absurd h not_mem_nil
  · exact Or.inr (isDigit_of_mem_toDigits (by decide) (by decide) h)

theorem length_decimal_le {z : ℤ} {k : ℕ} (hk : 0 < k) (h₀ : 0 ≤ z) (h : z < 10 ^ k) :
    (decimal z).length ≤ k := by
  rw [decimal, if_neg (not_lt.mpr h₀), nil_append,
    length_toDigits_le_iff (by decide) hk]
  have := Int.natAbs_of_nonneg h₀
  have hcast : ((z.natAbs : ℕ) : ℤ) < ((10 ^ k : ℕ) : ℤ) := by
    rw [this]
    exact_mod_cast h
  exact_mod_cast hcast

/-! ## Scanning what has been printed -/

section Printed

variable {β : Type}

theorem scanWritten_bind (f : ℤ → Scan β) (z : ℤ) {s : List Char} (h : NoDigit s) :
    (scanWritten >>= f) (decimal z ++ s) = f z s := by
  change (scanWritten (decimal z ++ s)).bind _ = _
  rw [scanWritten_decimal h]
  rfl

theorem scanChar_bind (f : Unit → Scan β) (c : Char) (s : List Char) :
    (scanChar c >>= f) (c :: s) = f () s := by
  change (scanChar c (c :: s)).bind _ = _
  rw [scanChar, if_pos rfl]
  rfl

theorem scanNot_bind (f : List Char → Scan β) {n : ℕ} {c : Char} {field : List Char}
    (hne : field ≠ []) (hlen : field.length ≤ n) (hc : c ∉ field) (s : List Char) :
    (scanNot n c >>= f) (field ++ c :: s) = f field (c :: s) := by
  have hnot : ∀ x ∈ field, decide (x ≠ c) = true := by
    rintro x hx
    exact decide_eq_true (ne_of_mem_of_not_mem hx hc)
  have hfield : ((field ++ c :: s).take n).takeWhile (· ≠ c) = field := by
    rw [take_append, take_of_length_le hlen, takeWhile_append_of_pos hnot]
    cases n - field.length <;> simp
  have hscan : scanNot n c (field ++ c :: s) = some (field, c :: s) := by
    rw [scanNot]
    simp only [hfield, if_neg hne, drop_left]
  change (scanNot n c (field ++ c :: s)).bind _ = _
  rw [hscan]
  rfl

end Printed

/-! ## Lines that have been printed -/

theorem linesFrom_append {l : List Char} (h : '\n' ∉ l) (line s : List Char) :
    linesFrom line (l ++ '\n' :: s) = (line ++ l ++ ['\n']) :: linesFrom [] s := by
  induction l generalizing line with
  | nil => rw [nil_append, linesFrom, if_pos rfl, append_nil]
  | cons c l ih =>
    have hc : c ≠ '\n' := fun hc => h (hc ▸ mem_cons_self)
    rw [cons_append, linesFrom, if_neg hc, ih fun hl => h (mem_cons_of_mem _ hl)]
    simp

theorem fileLines_flatMap {α : Type} {line : α → List Char} {items : List α}
    (h : ∀ a ∈ items, ∃ l, '\n' ∉ l ∧ line a = l ++ ['\n']) :
    fileLines (items.flatMap line) = items.map line := by
  induction items with
  | nil => rfl
  | cons a items ih =>
    obtain ⟨l, hl, heq⟩ := h a mem_cons_self
    have hrest := ih fun b hb => h b (mem_cons_of_mem _ hb)
    rw [flatMap_cons, map_cons, heq, append_assoc, singleton_append, fileLines,
      linesFrom_append hl]
    rw [fileLines] at hrest
    rw [hrest, nil_append]

end CText
