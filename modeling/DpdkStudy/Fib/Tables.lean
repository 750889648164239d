import DpdkStudy.Lib.Prefix
import DpdkStudy.Fib.Dir248

/-!
# Installing a next hop

What `install_to_fib` does to the answers of the data plane. The tables are
sound (`Sound`) if each group belongs to one entry, and then a group that is
attached (`groupOf_spec`), written (`Sound.write`) or replaced by one entry
(`tbl8Recycle_spec`) changes no answer but those it is meant to change.
An installation that succeeds changes the answers of its range, and no others
(`installToFib_spec`).
-/

open Function

namespace Fib

open Rib Prefix

variable {dp dp' : Dir24_8Tbl} {ip ledge n redge : UInt32} {b idx lo nextHop nh : ℕ} {two : Bool}

/-! ## Numbers of 32 bits -/

theorem toNat_and_tbl24Mask (x : UInt32) : (x &&& tbl24Mask).toNat = x.toNat / 256 * 256 := by
  rw [UInt32.toNat_and]
  exact land_mask (show 24 ≤ 32 by decide) x.toNat_lt

theorem toNat_and_255 (x : UInt32) : (x &&& 255).toNat = x.toNat % 256 := by
  rw [UInt32.toNat_and]
  exact Nat.and_two_pow_sub_one_eq_mod x.toNat 8

theorem toNat_shiftRight_8 (x : UInt32) : (x >>> 8).toNat = x.toNat / 256 := by
  rw [UInt32.toNat_shiftRight]
  exact Nat.shiftRight_eq_div_pow x.toNat 8

/-- Rounding up, which wraps in the last 255 numbers. -/
theorem toNat_roundup24 (x : UInt32) :
    (roundup24 x).toNat = (x.toNat + 255) % 2 ^ 32 / 256 * 256 := by
  rw [roundup24]
  refine (toNat_and_tbl24Mask (x + 255)).trans ?_
  rw [UInt32.toNat_add]
  rfl

theorem lor_one_of_even {x : ℕ} (h : x % 2 = 0) : x ||| 1 = x + 1 := by
  have hx : 2 ^ 1 * (x / 2) + 1 = 2 ^ 1 * (x / 2) ||| 1 :=
    Nat.two_pow_add_eq_or_of_lt (by decide) (x / 2)
  have heven : 2 ^ 1 * (x / 2) = x := by omega
  rw [heven] at hx
  exact hx.symm

/-! ## Sound tables -/

/-- **The entry has a group.** -/
def Extended (dp : Dir24_8Tbl) (b : ℕ) : Prop := dp.tbl24 b % 2 = 1

instance (dp : Dir24_8Tbl) (b : ℕ) : Decidable (Extended dp b) :=
  inferInstanceAs (Decidable (_ = _))

/-- The place of an answer, in the group of an entry. -/
def slot (dp : Dir24_8Tbl) (b j : ℕ) : ℕ := dp.tbl24 b / 2 * 256 + j

/-- The answer for the address `j` of the 256 that have the first 24 bits
`b`. -/
def cell (dp : Dir24_8Tbl) (b j : ℕ) : ℕ :=
  if Extended dp b then dp.tbl8 (slot dp b j) / 2 else dp.tbl24 b / 2

/-- **The answer for an address.** -/
def entry (dp : Dir24_8Tbl) (a : ℕ) : ℕ := cell dp (a / 256) (a % 256)

theorem dir24_8Lookup_eq (dp : Dir24_8Tbl) (ip : UInt32) :
    dir24_8Lookup dp ip = entry dp ip.toNat := by
  unfold dir24_8Lookup entry cell
  dsimp only
  split
  · next h => rw [if_pos (show Extended dp (ip.toNat / 256) from h), slot, Nat.add_comm]
  · next h => rw [if_neg (show ¬ Extended dp (ip.toNat / 256) from h)]

/-- **The sizes fit**: an index of a group fits into an entry, and the place of
a group into 32 bits, as a number of bytes. -/
structure Fits (dp : Dir24_8Tbl) : Prop where
  entry : dp.numberTbl8s.toNat ≤ 2 ^ (bitsInNh dp.nhSz - 1)
  place : dp.numberTbl8s.toNat ≤ 2 ^ (24 - dp.nhSz.val)

/-- **The tables are sound**: every group belongs to one entry at most, is in
use if it belongs to one, and holds entries of groups. -/
structure Sound (dp : Dir24_8Tbl) : Prop where
  lt : ∀ b < 2 ^ 24, dp.tbl24 b < 2 ^ bitsInNh dp.nhSz
  index : ∀ b < 2 ^ 24, Extended dp b → dp.tbl24 b / 2 < dp.numberTbl8s.toNat
  inUse : ∀ b < 2 ^ 24, Extended dp b → dp.tbl8Idxes (dp.tbl24 b / 2) = true
  apart : ∀ b < 2 ^ 24, ∀ b' < 2 ^ 24, Extended dp b → Extended dp b' →
    dp.tbl24 b / 2 = dp.tbl24 b' / 2 → b = b'
  odd : ∀ b < 2 ^ 24, Extended dp b → ∀ j < 256,
    dp.tbl8 (slot dp b j) % 2 = 1 ∧ dp.tbl8 (slot dp b j) < 2 ^ bitsInNh dp.nhSz

/-- **What does not change**: the configuration, and the reserved groups. -/
structure Frame (dp dp' : Dir24_8Tbl) : Prop where
  numberTbl8s : dp'.numberTbl8s = dp.numberTbl8s
  rsvdTbl8s : dp'.rsvdTbl8s = dp.rsvdTbl8s
  nhSz : dp'.nhSz = dp.nhSz
  defNh : dp'.defNh = dp.defNh

theorem Frame.refl (dp : Dir24_8Tbl) : Frame dp dp := ⟨rfl, rfl, rfl, rfl⟩

theorem Frame.trans {dp'' : Dir24_8Tbl} (h : Frame dp dp') (h' : Frame dp' dp'') :
    Frame dp dp'' :=
  ⟨h'.numberTbl8s.trans h.numberTbl8s, h'.rsvdTbl8s.trans h.rsvdTbl8s, h'.nhSz.trans h.nhSz,
    h'.defNh.trans h.defNh⟩

theorem Fits.frame (h : Fits dp) (hf : Frame dp dp') : Fits dp' := by
  refine ⟨?_, ?_⟩
  · rw [hf.numberTbl8s, hf.nhSz]
    exact h.entry
  · rw [hf.numberTbl8s, hf.nhSz]
    exact h.place

/-! ## The bitmap -/

/-- The first group that is not in use is not in use. -/
theorem firstFree_some {idxes : ℕ → Bool} {n i : ℕ} (h : firstFree idxes n = some i) :
    i < n ∧ idxes i = false := by
  have hfind := List.find?_some h
  have hmem := List.mem_of_find?_eq_some h
  exact ⟨List.mem_range.mp hmem, by simpa using hfind⟩

/-- `tbl8_get_idx` answers with a group that was not in use, and marks it. -/
theorem tbl8GetIdx_some (h : tbl8GetIdx dp = (some idx, dp')) :
    idx < dp.numberTbl8s.toNat ∧ dp.tbl8Idxes idx = false
      ∧ dp' = { dp with tbl8Idxes := update dp.tbl8Idxes idx true } := by
  unfold tbl8GetIdx at h
  cases hfree : firstFree dp.tbl8Idxes (dp.numberTbl8s.toNat / 64 * 64) with
  | none =>
    rw [hfree] at h
    cases h
  | some i =>
    rw [hfree] at h
    obtain ⟨hlt, hfalse⟩ := firstFree_some hfree
    dsimp only at h
    split at h
    · obtain ⟨hi, rfl⟩ := Prod.mk.inj h
      obtain rfl := Option.some.inj hi
      exact ⟨by omega, hfalse, rfl⟩
    · cases h

/-- Whatever it answers, it marks a group or none. -/
theorem tbl8GetIdx_frame (dp : Dir24_8Tbl) : Frame dp (tbl8GetIdx dp).2 := by
  unfold tbl8GetIdx
  split
  · exact Frame.refl dp
  · exact ⟨rfl, rfl, rfl, rfl⟩

/-! ## Changes of one entry -/

section

variable (h : Sound dp) (hframe : Frame dp dp')

include h hframe

/-- **A group is attached** to an entry that has none, filled with what the
entry says: no answer changes. -/
theorem Sound.attach (hb : b < 2 ^ 24) (hext : ¬ Extended dp b) (hidx : idx < dp.numberTbl8s.toNat)
    (hfit : idx * 2 + 1 < 2 ^ bitsInNh dp.nhSz) (hfree : dp.tbl8Idxes idx = false)
    (h24 : dp'.tbl24 = update dp.tbl24 b (idx * 2 + 1))
    (h8 : ∀ k, dp'.tbl8 k = if idx * 256 ≤ k ∧ k < idx * 256 + 256 then dp.tbl24 b + 1 else dp.tbl8 k)
    (hidxes : dp'.tbl8Idxes = update dp.tbl8Idxes idx true) :
    Sound dp' ∧ Extended dp' b ∧ dp'.tbl24 b / 2 = idx
      ∧ ∀ b' < 2 ^ 24, ∀ j < 256, cell dp' b' j = cell dp b' j := by
  have heven : dp.tbl24 b % 2 = 0 := by
    have hne : ¬ dp.tbl24 b % 2 = 1 := hext
    omega
  have hself : dp'.tbl24 b = idx * 2 + 1 := by rw [h24, update_self]
  have hother : ∀ b', b' ≠ b → dp'.tbl24 b' = dp.tbl24 b' := by
    intro b' hne
    rw [h24, update_of_ne hne]
  have hextself : Extended dp' b := by
    unfold Extended
    omega
  have hgroup : dp'.tbl24 b / 2 = idx := by omega
  have hextother : ∀ b', b' ≠ b → (Extended dp' b' ↔ Extended dp b') := by
    intro b' hne
    unfold Extended
    rw [hother b' hne]
  -- the groups of the other entries are other groups
  have hgroups : ∀ b' < 2 ^ 24, Extended dp b' → dp.tbl24 b' / 2 ≠ idx := by
    intro b' hb' he heq
    have hused := h.inUse b' hb' he
    rw [heq, hfree] at hused
    cases hused
  have hslotself : ∀ j < 256, dp'.tbl8 (slot dp' b j) = dp.tbl24 b + 1 := by
    intro j hj
    rw [h8, slot, hgroup]
    exact if_pos (by omega)
  have hslotother : ∀ b' < 2 ^ 24, b' ≠ b → Extended dp b' → ∀ j < 256,
      dp'.tbl8 (slot dp' b' j) = dp.tbl8 (slot dp b' j) := by
    intro b' hb' hne he j hj
    have hg := hgroups b' hb' he
    rw [h8, slot, slot, hother b' hne]
    exact if_neg (by omega)
  have hbits : dp.tbl24 b + 1 < 2 ^ bitsInNh dp.nhSz := by
    have hlt := h.lt b hb
    have hpow : 2 ^ bitsInNh dp.nhSz % 2 = 0 := by
      cases dp.nhSz <;> decide
    omega
  refine ⟨⟨?_, ?_, ?_, ?_, ?_⟩, hextself, hgroup, ?_⟩
  · intro b' hb'
    rw [hframe.nhSz]
    by_cases hne : b' = b
    · rw [hne, hself]
      exact hfit
    · rw [hother b' hne]
      exact h.lt b' hb'
  · intro b' hb' he
    rw [hframe.numberTbl8s]
    by_cases hne : b' = b
    · rw [hne, hgroup]
      exact hidx
    · rw [hother b' hne]
      exact h.index b' hb' ((hextother b' hne).mp he)
  · intro b' hb' he
    rw [hidxes]
    by_cases hne : b' = b
    · rw [hne, hgroup, update_self]
    · have he' := (hextother b' hne).mp he
      rw [hother b' hne, update_of_ne (hgroups b' hb' he')]
      exact h.inUse b' hb' he'
  · intro b₁ hb₁ b₂ hb₂ he₁ he₂ heq
    by_cases h₁ : b₁ = b
    · by_cases h₂ : b₂ = b
      · rw [h₁, h₂]
      · rw [h₁, hgroup, hother b₂ h₂] at heq
        exact absurd heq.symm (hgroups b₂ hb₂ ((hextother b₂ h₂).mp he₂))
    · by_cases h₂ : b₂ = b
      · rw [h₂, hgroup, hother b₁ h₁] at heq
        exact absurd heq (hgroups b₁ hb₁ ((hextother b₁ h₁).mp he₁))
      · rw [hother b₁ h₁, hother b₂ h₂] at heq
        exact h.apart b₁ hb₁ b₂ hb₂ ((hextother b₁ h₁).mp he₁) ((hextother b₂ h₂).mp he₂) heq
  · intro b' hb' he j hj
    rw [hframe.nhSz]
    by_cases hne : b' = b
    · rw [hne, hslotself j hj]
      exact ⟨by omega, hbits⟩
    · have he' := (hextother b' hne).mp he
      rw [hslotother b' hb' hne he' j hj]
      exact h.odd b' hb' he' j hj
  · intro b' hb' j hj
    unfold cell
    by_cases hne : b' = b
    · rw [hne, if_pos hextself, if_neg hext, hslotself j hj]
      omega
    · by_cases he : Extended dp b'
      · rw [if_pos ((hextother b' hne).mpr he), if_pos he, hslotother b' hb' hne he j hj]
      · rw [if_neg (fun hc => he ((hextother b' hne).mp hc)), if_neg he, hother b' hne]

/-- **A part of a group is written**: the answers that are stored there
change. -/
theorem Sound.write {n : ℕ} (hb : b < 2 ^ 24) (hext : Extended dp b) (hn : lo + n ≤ 256)
    (hnh : nh ≤ getMaxNh dp.nhSz) (h24 : dp'.tbl24 = dp.tbl24)
    (h8 : ∀ k, dp'.tbl8 k = if slot dp b lo ≤ k ∧ k < slot dp b lo + n then nh * 2 + 1 else dp.tbl8 k)
    (hidxes : dp'.tbl8Idxes = dp.tbl8Idxes) :
    Sound dp' ∧ Extended dp' b ∧ dp'.tbl24 b / 2 = dp.tbl24 b / 2
      ∧ ∀ b' < 2 ^ 24, ∀ j < 256,
        cell dp' b' j = if b' = b ∧ lo ≤ j ∧ j < lo + n then nh else cell dp b' j := by
  have hiff : ∀ b', Extended dp' b' ↔ Extended dp b' := by
    intro b'
    unfold Extended
    rw [h24]
  have hslot : ∀ b' < 2 ^ 24, Extended dp b' → ∀ j < 256,
      dp'.tbl8 (slot dp' b' j)
        = if b' = b ∧ lo ≤ j ∧ j < lo + n then nh * 2 + 1 else dp.tbl8 (slot dp b' j) := by
    intro b' hb' he j hj
    have hsame : slot dp' b' j = slot dp b' j := by rw [slot, slot, h24]
    rw [h8, hsame]
    by_cases hne : b' = b
    · subst hne
      refine if_congr ?_ rfl rfl
      unfold slot
      omega
    · have hapart : dp.tbl24 b' / 2 ≠ dp.tbl24 b / 2 :=
        fun heq => hne (h.apart b' hb' b hb he hext heq)
      refine (if_neg ?_).trans (if_neg (fun hc => hne hc.1)).symm
      unfold slot
      omega
  have hbits : nh * 2 + 1 < 2 ^ bitsInNh dp.nhSz := by
    revert hnh
    cases dp.nhSz <;> simp only [getMaxNh, bitsInNh, NhSz.val] <;> omega
  refine ⟨⟨?_, ?_, ?_, ?_, ?_⟩, (hiff b).mpr hext, by rw [h24], ?_⟩
  · rw [h24, hframe.nhSz]
    exact h.lt
  · intro b' hb' he
    rw [h24, hframe.numberTbl8s]
    exact h.index b' hb' ((hiff b').mp he)
  · intro b' hb' he
    rw [h24, hidxes]
    exact h.inUse b' hb' ((hiff b').mp he)
  · intro b₁ hb₁ b₂ hb₂ he₁ he₂ heq
    rw [h24] at heq
    exact h.apart b₁ hb₁ b₂ hb₂ ((hiff b₁).mp he₁) ((hiff b₂).mp he₂) heq
  · intro b' hb' he j hj
    rw [hslot b' hb' ((hiff b').mp he) j hj, hframe.nhSz]
    split
    · exact ⟨by omega, hbits⟩
    · exact h.odd b' hb' ((hiff b').mp he) j hj
  · intro b' hb' j hj
    unfold cell
    by_cases he : Extended dp b'
    · rw [if_pos ((hiff b').mpr he), if_pos he, hslot b' hb' he j hj]
      split
      · omega
      · rfl
    · rw [if_neg (fun hc => he ((hiff b').mp hc)), if_neg he, h24, if_neg]
      rintro ⟨rfl, -⟩
      exact he hext

/-- **A group whose entries are all the same is given back**: the entry says
what they said. -/
theorem Sound.collapse (hb : b < 2 ^ 24) (hext : Extended dp b)
    (hall : ∀ j < 256, dp.tbl8 (slot dp b j) = dp.tbl8 (slot dp b 0))
    (h24 : dp'.tbl24 = update dp.tbl24 b (dp.tbl8 (slot dp b 0) / 2 * 2))
    (h8 : ∀ k, ¬ (slot dp b 0 ≤ k ∧ k < slot dp b 0 + 256) → dp'.tbl8 k = dp.tbl8 k)
    (hidxes : dp'.tbl8Idxes = update dp.tbl8Idxes (dp.tbl24 b / 2) false) :
    Sound dp' ∧ ∀ b' < 2 ^ 24, ∀ j < 256, cell dp' b' j = cell dp b' j := by
  have hself : dp'.tbl24 b = dp.tbl8 (slot dp b 0) / 2 * 2 := by rw [h24, update_self]
  have hother : ∀ b', b' ≠ b → dp'.tbl24 b' = dp.tbl24 b' := by
    intro b' hne
    rw [h24, update_of_ne hne]
  have hextself : ¬ Extended dp' b := by
    unfold Extended
    omega
  have hextother : ∀ b', Extended dp' b' → b' ≠ b ∧ Extended dp b' := by
    intro b' he
    by_cases hne : b' = b
    · rw [hne] at he
      exact absurd he hextself
    · refine ⟨hne, ?_⟩
      unfold Extended at he ⊢
      rw [hother b' hne] at he
      exact he
  have hslot : ∀ b' < 2 ^ 24, b' ≠ b → Extended dp b' → ∀ j < 256,
      dp'.tbl8 (slot dp' b' j) = dp.tbl8 (slot dp b' j) := by
    intro b' hb' hne he j hj
    have hapart : dp.tbl24 b' / 2 ≠ dp.tbl24 b / 2 :=
      fun heq => hne (h.apart b' hb' b hb he hext heq)
    have hsame : slot dp' b' j = slot dp b' j := by rw [slot, slot, hother b' hne]
    rw [hsame]
    refine h8 _ ?_
    unfold slot
    omega
  refine ⟨⟨?_, ?_, ?_, ?_, ?_⟩, ?_⟩
  · intro b' hb'
    rw [hframe.nhSz]
    by_cases hne : b' = b
    · have hlt := (h.odd b hb hext 0 (by omega)).2
      rw [hne, hself]
      omega
    · rw [hother b' hne]
      exact h.lt b' hb'
  · intro b' hb' he
    obtain ⟨hne, he'⟩ := hextother b' he
    rw [hframe.numberTbl8s, hother b' hne]
    exact h.index b' hb' he'
  · intro b' hb' he
    obtain ⟨hne, he'⟩ := hextother b' he
    have hapart : dp.tbl24 b' / 2 ≠ dp.tbl24 b / 2 :=
      fun heq => hne (h.apart b' hb' b hb he' hext heq)
    rw [hidxes, hother b' hne, update_of_ne hapart]
    exact h.inUse b' hb' he'
  · intro b₁ hb₁ b₂ hb₂ he₁ he₂ heq
    obtain ⟨h₁, he₁'⟩ := hextother b₁ he₁
    obtain ⟨h₂, he₂'⟩ := hextother b₂ he₂
    rw [hother b₁ h₁, hother b₂ h₂] at heq
    exact h.apart b₁ hb₁ b₂ hb₂ he₁' he₂' heq
  · intro b' hb' he j hj
    obtain ⟨hne, he'⟩ := hextother b' he
    rw [hslot b' hb' hne he' j hj, hframe.nhSz]
    exact h.odd b' hb' he' j hj
  · intro b' hb' j hj
    unfold cell
    by_cases hne : b' = b
    · rw [hne, if_neg hextself, if_pos hext, hself, hall j hj]
      omega
    · by_cases he : Extended dp b'
      · have he' : Extended dp' b' := by
          unfold Extended at he ⊢
          rw [hother b' hne]
          exact he
        rw [if_pos he', if_pos he, hslot b' hb' hne he j hj]
      · rw [if_neg (fun hc => he (hextother b' hc).2), if_neg he, hother b' hne]

/-- Whole entries are written, and have no group any more. -/
theorem Sound.flat {n : ℕ} (hnh : nh ≤ getMaxNh dp.nhSz)
    (h24 : ∀ k, dp'.tbl24 k = if lo ≤ k ∧ k < lo + n then nh * 2 else dp.tbl24 k)
    (h8 : dp'.tbl8 = dp.tbl8) (hidxes : dp'.tbl8Idxes = dp.tbl8Idxes) :
    Sound dp' ∧ ∀ b < 2 ^ 24, ∀ j < 256,
      cell dp' b j = if lo ≤ b ∧ b < lo + n then nh else cell dp b j := by
  have hin : ∀ b, lo ≤ b ∧ b < lo + n → dp'.tbl24 b = nh * 2 := by
    intro b hb
    rw [h24, if_pos hb]
  have hout : ∀ b, ¬ (lo ≤ b ∧ b < lo + n) → dp'.tbl24 b = dp.tbl24 b := by
    intro b hb
    rw [h24, if_neg hb]
  have hext : ∀ b, Extended dp' b → dp'.tbl24 b = dp.tbl24 b ∧ Extended dp b := by
    intro b he
    by_cases hb : lo ≤ b ∧ b < lo + n
    · unfold Extended at he
      rw [hin b hb] at he
      omega
    · have hsame := hout b hb
      refine ⟨hsame, ?_⟩
      unfold Extended at he ⊢
      rw [hsame] at he
      exact he
  have hslot : ∀ b, Extended dp' b → ∀ j, dp'.tbl8 (slot dp' b j) = dp.tbl8 (slot dp b j) := by
    intro b he j
    rw [h8, slot, slot, (hext b he).1]
  have hbits : nh * 2 < 2 ^ bitsInNh dp.nhSz := by
    revert hnh
    cases dp.nhSz <;> simp only [getMaxNh, bitsInNh, NhSz.val] <;> omega
  refine ⟨⟨?_, ?_, ?_, ?_, ?_⟩, ?_⟩
  · intro b hb
    rw [h24, hframe.nhSz]
    split
    · exact hbits
    · exact h.lt b hb
  · intro b hb he
    obtain ⟨hsame, he'⟩ := hext b he
    rw [hframe.numberTbl8s, hsame]
    exact h.index b hb he'
  · intro b hb he
    obtain ⟨hsame, he'⟩ := hext b he
    rw [hidxes, hsame]
    exact h.inUse b hb he'
  · intro b₁ hb₁ b₂ hb₂ he₁ he₂ heq
    rw [(hext b₁ he₁).1, (hext b₂ he₂).1] at heq
    exact h.apart b₁ hb₁ b₂ hb₂ (hext b₁ he₁).2 (hext b₂ he₂).2 heq
  · intro b hb he j hj
    rw [hslot b he j, hframe.nhSz]
    exact h.odd b hb (hext b he).2 j hj
  · intro b hb j hj
    unfold cell
    by_cases hmem : lo ≤ b ∧ b < lo + n
    · have hne : ¬ Extended dp' b := by
        unfold Extended
        rw [hin b hmem]
        omega
      rw [if_neg hne, if_pos hmem, hin b hmem]
      omega
    · have hsame := hout b hmem
      rw [if_neg hmem]
      by_cases he : Extended dp' b
      · rw [if_pos he, if_pos (hext b he).2, hslot b he j]
      · have he' : ¬ Extended dp b := by
          unfold Extended at he ⊢
          rw [← hsame]
          exact he
        rw [if_neg he, if_neg he', hsame]

end

/-! ## The group of an entry -/

theorem writeToFib_apply (table : ℕ → ℕ) (lo val : ℕ) (size : NhSz) (hn : n.toNat < 2 ^ 31) (k : ℕ)
    :
    writeToFib table lo val size n k
      = if lo ≤ k ∧ k < lo + n.toNat then val % 2 ^ bitsInNh size else table k := by
  unfold writeToFib
  rw [if_pos hn]
  rfl

theorem writeToFib_one (table : ℕ → ℕ) (lo val : ℕ) (size : NhSz) :
    writeToFib table lo val size 1 = update table lo (val % 2 ^ bitsInNh size) := by
  funext k
  rw [writeToFib_apply _ _ _ _ (by decide)]
  by_cases hk : k = lo
  · rw [hk, update_self, if_pos ⟨le_refl lo, Nat.lt_succ_self lo⟩]
  · rw [update_of_ne hk, if_neg]
    rintro ⟨hle, hlt⟩
    have hone : (1 : UInt32).toNat = 1 := rfl
    omega

theorem tbl8Alloc_frame (dp : Dir24_8Tbl) (nh : ℕ) : Frame dp (tbl8Alloc dp nh).2 := by
  have hget := tbl8GetIdx_frame dp
  unfold tbl8Alloc
  dsimp only
  split
  · exact hget
  · exact hget.trans ⟨rfl, rfl, rfl, rfl⟩

theorem tbl8Alloc_some (h : tbl8Alloc dp nh = (some idx, dp')) :
    idx < dp.numberTbl8s.toNat ∧ dp.tbl8Idxes idx = false
      ∧ dp' = { dp with
        tbl8Idxes := update dp.tbl8Idxes idx true
        tbl8 := writeToFib dp.tbl8 (idx * 256) (nh ||| 1) dp.nhSz 256
        curTbl8s := dp.curTbl8s + 1 } := by
  unfold tbl8Alloc at h
  cases hget : tbl8GetIdx dp with
  | mk r dp₁ =>
    rw [hget] at h
    cases r with
    | none => cases h
    | some i =>
      obtain ⟨hlt, hfree, rfl⟩ := tbl8GetIdx_some hget
      obtain ⟨hi, rfl⟩ := Prod.mk.inj h
      obtain rfl := Option.some.inj hi
      exact ⟨hlt, hfree, rfl⟩

/-- Every way an entry gets its group leaves the frame. -/
theorem groupOf_frame (dp : Dir24_8Tbl) (ip : UInt32) (two : Bool) :
    Frame dp (groupOf dp ip two).2 := by
  unfold groupOf
  dsimp only
  split
  · exact Frame.refl dp
  · have halloc := tbl8Alloc_frame dp (dp.tbl24 (ip.toNat / 256))
    have hsecond : Frame dp (if two then tbl8GetIdx (tbl8Alloc dp (dp.tbl24 (ip.toNat / 256))).2
        else (some 0, (tbl8Alloc dp (dp.tbl24 (ip.toNat / 256))).2)).2 := by
      split
      · exact halloc.trans (tbl8GetIdx_frame _)
      · exact halloc
    split
    · exact hsecond
    · exact hsecond.trans ⟨rfl, rfl, rfl, rfl⟩
    · refine hsecond.trans ?_
      split
      · exact ⟨rfl, rfl, rfl, rfl⟩
      · exact ⟨rfl, rfl, rfl, rfl⟩

/-- **A group for an entry that has none.** The other group that there has to
be for two is given back. -/
theorem groupOf_some (hext : ¬ Extended dp (ip.toNat / 256))
    (h : groupOf dp ip two = (some idx, dp')) :
    idx < dp.numberTbl8s.toNat ∧ dp.tbl8Idxes idx = false
      ∧ dp'.tbl24 = writeToFib dp.tbl24 (ip.toNat / 256) (idx * 2 ||| 1) dp.nhSz 1
      ∧ dp'.tbl8 = writeToFib dp.tbl8 (idx * 256) (dp.tbl24 (ip.toNat / 256) ||| 1) dp.nhSz 256
      ∧ dp'.tbl8Idxes = update dp.tbl8Idxes idx true := by
  unfold groupOf at h
  dsimp only at h
  rw [if_neg (show ¬ dp.tbl24 (ip.toNat / 256) % 2 = 1 from hext)] at h
  cases halloc : tbl8Alloc dp (dp.tbl24 (ip.toNat / 256)) with
  | mk r dp₁ =>
    rw [halloc] at h
    cases r with
    | none => cases h
    | some i =>
      obtain ⟨hlt, hfree, hdp⟩ := tbl8Alloc_some halloc
      cases two with
      | false =>
        obtain ⟨hi, rfl⟩ := Prod.mk.inj h
        obtain rfl := Option.some.inj hi
        subst hdp
        exact ⟨hlt, hfree, rfl, rfl, rfl⟩
      | true =>
        dsimp only at h
        rw [if_pos rfl] at h
        cases hget : tbl8GetIdx dp₁ with
        | mk r₂ dp₂ =>
          rw [hget] at h
          cases r₂ with
          | none => cases h
          | some other =>
            obtain ⟨-, hfree₂, hdp₂⟩ := tbl8GetIdx_some hget
            obtain ⟨hi, rfl⟩ := Prod.mk.inj h
            obtain rfl := Option.some.inj hi
            subst hdp hdp₂
            refine ⟨hlt, hfree, rfl, rfl, ?_⟩
            -- the other group was free, and is free again
            dsimp only [tbl8FreeIdx] at hfree₂ ⊢
            rw [if_pos rfl]
            dsimp only
            rw [update_idem, ← hfree₂, update_eq_self]

/-- The group of an entry. No answer changes. -/
theorem groupOf_spec (h : Sound dp) (hfits : Fits dp) (hr : groupOf dp ip two = (some idx, dp')) :
    Sound dp' ∧ Frame dp dp' ∧ Extended dp' (ip.toNat / 256)
      ∧ dp'.tbl24 (ip.toNat / 256) / 2 = idx
      ∧ ∀ b < 2 ^ 24, ∀ j < 256, cell dp' b j = cell dp b j := by
  have hframe : Frame dp dp' := by
    have hf := groupOf_frame dp ip two
    rw [hr] at hf
    exact hf
  have hb : ip.toNat / 256 < 2 ^ 24 := by
    have hip := ip.toNat_lt
    omega
  by_cases hext : Extended dp (ip.toNat / 256)
  · -- there is a group
    unfold groupOf at hr
    dsimp only at hr
    rw [if_pos (show dp.tbl24 (ip.toNat / 256) % 2 = 1 from hext)] at hr
    obtain ⟨hi, rfl⟩ := Prod.mk.inj hr
    exact ⟨h, hframe, hext, Option.some.inj hi, fun _ _ _ _ => rfl⟩
  · obtain ⟨hidx, hfree, h24, h8, hidxes⟩ := groupOf_some hext hr
    have heven : dp.tbl24 (ip.toNat / 256) % 2 = 0 := by
      have hne : ¬ dp.tbl24 (ip.toNat / 256) % 2 = 1 := hext
      omega
    have hpow : 2 ^ bitsInNh dp.nhSz = 2 * 2 ^ (bitsInNh dp.nhSz - 1) := by
      cases dp.nhSz <;> decide
    have hfit : idx * 2 + 1 < 2 ^ bitsInNh dp.nhSz := by
      have := hfits.entry
      omega
    have hlt := h.lt _ hb
    have hfill : (dp.tbl24 (ip.toNat / 256) ||| 1) % 2 ^ bitsInNh dp.nhSz
        = dp.tbl24 (ip.toNat / 256) + 1 := by
      rw [lor_one_of_even heven]
      exact Nat.mod_eq_of_lt (by omega)
    have hindex : (idx * 2 ||| 1) % 2 ^ bitsInNh dp.nhSz = idx * 2 + 1 := by
      rw [lor_one_of_even (show idx * 2 % 2 = 0 by omega)]
      exact Nat.mod_eq_of_lt hfit
    obtain ⟨hs, he, hi, hcells⟩ := h.attach hframe hb hext hidx hfit hfree
      (by rw [h24, writeToFib_one, hindex])
      (fun k => by
        rw [h8, writeToFib_apply _ _ _ _ (by decide), hfill]
        rfl)
      hidxes
    exact ⟨hs, hframe, he, hi, hcells⟩

/-! ## Installing on a part of an entry -/

theorem tbl8Recycle_frame (dp : Dir24_8Tbl) (ip : UInt32) (idx : ℕ) :
    Frame dp (tbl8Recycle dp ip idx) := by
  unfold tbl8Recycle
  dsimp only
  split
  · exact ⟨rfl, rfl, rfl, rfl⟩
  · exact Frame.refl dp

/-- **A group is given back** if its entries are all the same, and no answer
changes. -/
theorem tbl8Recycle_spec (h : Sound dp) (hext : Extended dp (ip.toNat / 256))
    (hidx : dp.tbl24 (ip.toNat / 256) / 2 = idx) :
    Sound (tbl8Recycle dp ip idx)
      ∧ ∀ b < 2 ^ 24, ∀ j < 256, cell (tbl8Recycle dp ip idx) b j = cell dp b j := by
  have hb : ip.toNat / 256 < 2 ^ 24 := by
    have hip := ip.toNat_lt
    omega
  have hframe := tbl8Recycle_frame dp ip idx
  unfold tbl8Recycle at hframe ⊢
  dsimp only at hframe ⊢
  split
  · next hall =>
    rw [if_pos hall] at hframe
    have hall' : ∀ j < 256, dp.tbl8 (idx * 256 + j) = dp.tbl8 (idx * 256) := by
      intro j hj
      have hj' := List.all_eq_true.mp hall j (List.mem_range.mpr hj)
      exact of_decide_eq_true hj'
    refine h.collapse hframe hb hext ?_ ?_ ?_ ?_
    · intro j hj
      simp only [slot, hidx, hall' j hj, Nat.add_zero]
    · simp only [slot, hidx, Nat.add_zero]
      rfl
    · intro k hk
      simp only [slot, hidx, Nat.add_zero] at hk
      exact Loop.mapRange_of_notMem hk (fun _ => 0) dp.tbl8
    · rw [hidx]
      rfl
  · exact ⟨h, fun _ _ _ _ => rfl⟩

/-- Every way of installing on a part of an entry leaves the frame. -/
theorem installTbl8_frame (dp : Dir24_8Tbl) (ip n : UInt32) (nextHop : ℕ) (two : Bool) :
    Frame dp (installTbl8 dp ip n nextHop two).2 := by
  have hgroup := groupOf_frame dp ip two
  unfold installTbl8
  dsimp only
  split
  · exact hgroup
  · refine (hgroup.trans ?_).trans (tbl8Recycle_frame _ _ _)
    exact ⟨rfl, rfl, rfl, rfl⟩

/-- **Installing on a part of an entry**, up to the point where its group may
be given back. -/
theorem installTbl8_written (h : Sound dp) (hfits : Fits dp) (hnh : nextHop ≤ getMaxNh dp.nhSz)
    (hn : ip.toNat % 256 + n.toNat ≤ 256) (hr : installTbl8 dp ip n nextHop two = (0, dp')) :
    ∃ idx dp₁ dp₂, groupOf dp ip two = (some idx, dp₁) ∧ dp' = tbl8Recycle dp₂ ip idx
      ∧ Sound dp₂ ∧ Frame dp₁ dp₂ ∧ dp₂.tbl24 = dp₁.tbl24 ∧ dp₂.tbl8Idxes = dp₁.tbl8Idxes
      ∧ Extended dp₂ (ip.toNat / 256) ∧ dp₂.tbl24 (ip.toNat / 256) / 2 = idx
      ∧ ∀ b < 2 ^ 24, ∀ j < 256,
        cell dp₂ b j = if b = ip.toNat / 256 ∧ ip.toNat % 256 ≤ j
          ∧ j < ip.toNat % 256 + n.toNat then nextHop else cell dp b j := by
  have hb : ip.toNat / 256 < 2 ^ 24 := by
    have hip := ip.toNat_lt
    omega
  cases hg : groupOf dp ip two with
  | mk r dp₁ =>
    cases r with
    | none =>
      unfold installTbl8 at hr
      rw [hg] at hr
      exact absurd (Prod.mk.inj hr).1 (by decide)
    | some idx =>
      obtain ⟨hs₁, hf₁, hext₁, hidx₁, hcells₁⟩ := groupOf_spec h hfits hg
      unfold installTbl8 at hr
      rw [hg] at hr
      dsimp only at hr
      obtain ⟨-, rfl⟩ := Prod.mk.inj hr
      have hplace : (idx * 256 + ip.toNat % 256) * 2 ^ dp₁.nhSz.val % 2 ^ 32 / 2 ^ dp₁.nhSz.val
          = slot dp₁ (ip.toNat / 256) (ip.toNat % 256) := by
        have hlt := hs₁.index _ hb hext₁
        have hroom := (hfits.frame hf₁).place
        rw [hidx₁] at hlt
        have hpow : 2 ^ 32 = 2 ^ (24 - dp₁.nhSz.val) * 256 * 2 ^ dp₁.nhSz.val := by
          cases dp₁.nhSz <;> decide
        have hsmall : idx * 256 + ip.toNat % 256 < 2 ^ (24 - dp₁.nhSz.val) * 256 := by omega
        rw [Nat.mod_eq_of_lt, Nat.mul_div_cancel _ (Nat.two_pow_pos _), slot, hidx₁]
        rw [hpow]
        exact Nat.mul_lt_mul_of_pos_right hsmall (Nat.two_pow_pos _)
      rw [hplace]
      have hval : (nextHop * 2 ||| 1) % 2 ^ bitsInNh dp₁.nhSz = nextHop * 2 + 1 := by
        rw [lor_one_of_even (show nextHop * 2 % 2 = 0 by omega), hf₁.nhSz]
        refine Nat.mod_eq_of_lt ?_
        revert hnh
        cases dp.nhSz <;> simp only [getMaxNh, bitsInNh, NhSz.val] <;> omega
      have hn32 : n.toNat < 2 ^ 31 := by omega
      have hnh₁ : nextHop ≤ getMaxNh dp₁.nhSz := by
        rw [hf₁.nhSz]
        exact hnh
      have hframe₂ : Frame dp₁ { dp₁ with
          tbl8 := writeToFib dp₁.tbl8 (slot dp₁ (ip.toNat / 256) (ip.toNat % 256))
            (nextHop * 2 ||| 1) dp₁.nhSz n } := ⟨rfl, rfl, rfl, rfl⟩
      obtain ⟨hs₂, hext₂, hidx₂, hcells₂⟩ := hs₁.write hframe₂ hb hext₁ hn hnh₁ rfl
        (fun k => by
          dsimp only
          rw [writeToFib_apply _ _ _ _ hn32, hval])
        rfl
      refine ⟨idx, dp₁, _, rfl, rfl, hs₂, hframe₂, rfl, rfl, hext₂, hidx₂.trans hidx₁,
        fun b hb' j hj => ?_⟩
      rw [hcells₂ b hb' j hj, hcells₁ b hb' j hj]

/-- Installing on a part of an entry. -/
theorem installTbl8_spec (h : Sound dp) (hfits : Fits dp) (hnh : nextHop ≤ getMaxNh dp.nhSz)
    (hn : ip.toNat % 256 + n.toNat ≤ 256) (hr : installTbl8 dp ip n nextHop two = (0, dp')) :
    Sound dp' ∧ Frame dp dp' ∧ ∀ b < 2 ^ 24, ∀ j < 256,
      cell dp' b j = if b = ip.toNat / 256 ∧ ip.toNat % 256 ≤ j
        ∧ j < ip.toNat % 256 + n.toNat then nextHop else cell dp b j := by
  have hframe : Frame dp dp' := by
    have hf := installTbl8_frame dp ip n nextHop two
    rw [hr] at hf
    exact hf
  obtain ⟨idx, dp₁, dp₂, -, rfl, hs₂, -, -, -, hext₂, hidx₂, hcells₂⟩ :=
    installTbl8_written h hfits hnh hn hr
  obtain ⟨hs₃, hcells₃⟩ := tbl8Recycle_spec hs₂ hext₂ hidx₂
  refine ⟨hs₃, hframe, fun b hb' j hj => ?_⟩
  rw [hcells₃ b hb' j hj, hcells₂ b hb' j hj]

/-! ## Installing on a range -/

/-- The end of a range, which is at the end of the address space if it
wraps. -/
def edge (redge : UInt32) : ℕ := if redge = 0 then 2 ^ 32 else redge.toNat

/-- **A next hop is installed on some addresses**, and nothing else changes. -/
structure Installs (dp dp' : Dir24_8Tbl) (nextHop : ℕ) (P : ℕ → Prop) : Prop where
  sound : Sound dp'
  frame : Frame dp dp'
  hit : ∀ a < 2 ^ 32, P a → entry dp' a = nextHop
  miss : ∀ a < 2 ^ 32, ¬ P a → entry dp' a = entry dp a

theorem Installs.congr {P Q : ℕ → Prop} (h : Installs dp dp' nextHop P)
    (hPQ : ∀ a < 2 ^ 32, P a ↔ Q a) :
    Installs dp dp' nextHop Q :=
  ⟨h.sound, h.frame, fun a ha hq => h.hit a ha ((hPQ a ha).mpr hq),
    fun a ha hq => h.miss a ha (fun hp => hq ((hPQ a ha).mp hp))⟩

theorem Installs.refl (h : Sound dp) (nextHop : ℕ) {P : ℕ → Prop} (hP : ∀ a < 2 ^ 32, ¬ P a) :
    Installs dp dp nextHop P :=
  ⟨h, Frame.refl dp, fun a ha hp => absurd hp (hP a ha), fun _ _ _ => rfl⟩

theorem Installs.trans {dp'' : Dir24_8Tbl} {P Q : ℕ → Prop} (h : Installs dp dp' nextHop P)
    (h' : Installs dp' dp'' nextHop Q) :
    Installs dp dp'' nextHop (fun a => P a ∨ Q a) := by
  refine ⟨h'.sound, h.frame.trans h'.frame, fun a ha hpq => ?_, fun a ha hpq => ?_⟩
  · by_cases hq : Q a
    · exact h'.hit a ha hq
    · rw [h'.miss a ha hq]
      exact h.hit a ha (hpq.resolve_right hq)
  · rw [h'.miss a ha (fun hq => hpq (Or.inr hq)), h.miss a ha (fun hp => hpq (Or.inl hp))]

/-- What is said entry by entry is said of all addresses. -/
theorem Installs.of_cells {P : ℕ → ℕ → Prop} [∀ b j, Decidable (P b j)] (hsound : Sound dp')
    (hframe : Frame dp dp')
    (h : ∀ b < 2 ^ 24, ∀ j < 256, cell dp' b j = if P b j then nextHop else cell dp b j) :
    Installs dp dp' nextHop (fun a => P (a / 256) (a % 256)) := by
  have hb : ∀ a < 2 ^ 32, a / 256 < 2 ^ 24 := by
    intro a ha
    omega
  refine ⟨hsound, hframe, fun a ha hp => ?_, fun a ha hp => ?_⟩
  · unfold entry
    rw [h _ (hb a ha) _ (Nat.mod_lt a (by decide)), if_pos hp]
  · unfold entry
    rw [h _ (hb a ha) _ (Nat.mod_lt a (by decide)), if_neg hp]

/-- Installing on addresses that share their first 24 bits. -/
theorem installTbl8_installs (h : Sound dp) (hfits : Fits dp) (hnh : nextHop ≤ getMaxNh dp.nhSz)
    (hn : ip.toNat % 256 + n.toNat ≤ 256) (hr : installTbl8 dp ip n nextHop two = (0, dp')) :
    Installs dp dp' nextHop (fun a => ip.toNat ≤ a ∧ a < ip.toNat + n.toNat) := by
  obtain ⟨hs, hf, hcells⟩ := installTbl8_spec h hfits hnh hn hr
  refine (Installs.of_cells hs hf hcells).congr (fun a ha => ?_)
  omega

theorem writeTbl24_installs (h : Sound dp) {len : UInt32} (hnh : nextHop ≤ getMaxNh dp.nhSz)
    (hlen : len.toNat < 2 ^ 31) :
    Installs dp { dp with tbl24 := writeToFib dp.tbl24 lo (nextHop * 2) dp.nhSz len } nextHop
      (fun a => lo ≤ a / 256 ∧ a / 256 < lo + len.toNat) := by
  have hval : nextHop * 2 % 2 ^ bitsInNh dp.nhSz = nextHop * 2 := by
    refine Nat.mod_eq_of_lt ?_
    revert hnh
    cases dp.nhSz <;> simp only [getMaxNh, bitsInNh, NhSz.val] <;> omega
  have hframe : Frame dp { dp with
      tbl24 := writeToFib dp.tbl24 lo (nextHop * 2) dp.nhSz len } := ⟨rfl, rfl, rfl, rfl⟩
  obtain ⟨hs, hcells⟩ := h.flat hframe hnh
    (fun k => by
      dsimp only
      rw [writeToFib_apply _ _ _ _ hlen, hval])
    rfl rfl
  exact Installs.of_cells hs hframe hcells

/-- The whole entries of a range, as `install_to_fib` counts them. -/
def rangeLen (ledge redge : UInt32) : UInt32 :=
  if ledge = 0 ∧ redge = 0 then 0x1000000 else ((redge &&& tbl24Mask) - roundup24 ledge) >>> 8

/-- The part of a range before its first whole entry. -/
def installLeft (dp : Dir24_8Tbl) (ledge : UInt32) (nextHop : ℕ) : Int × Dir24_8Tbl :=
  if roundup24 ledge - ledge ≠ 0 then
    installTbl8 dp ledge (roundup24 ledge - ledge) nextHop true
  else (0, dp)

/-- The whole entries of a range. -/
def installMiddle (dp : Dir24_8Tbl) (ledge redge : UInt32) (nextHop : ℕ) : Dir24_8Tbl :=
  { dp with
    tbl24 := writeToFib dp.tbl24 ((roundup24 ledge).toNat / 256) (nextHop * 2) dp.nhSz
      (rangeLen ledge redge) }

/-- The part of a range after its last whole entry. -/
def installRight (dp : Dir24_8Tbl) (redge : UInt32) (nextHop : ℕ) : Int × Dir24_8Tbl :=
  if redge &&& 255 ≠ 0 then installTbl8 dp (redge &&& tbl24Mask) (redge &&& 255) nextHop false
  else (0, dp)

theorem installToFib_of_apart (dp : Dir24_8Tbl) (nextHop : ℕ)
    (h : ledge >>> 8 ≠ redge >>> 8 ∨ rangeLen ledge redge = 0x1000000) :
    installToFib dp ledge redge nextHop
      = if (installLeft dp ledge nextHop).1 ≠ 0 then installLeft dp ledge nextHop
        else installRight (installMiddle (installLeft dp ledge nextHop).2 ledge redge nextHop)
          redge nextHop :=
  if_pos h

theorem installToFib_of_together (dp : Dir24_8Tbl) (nextHop : ℕ)
    (h : ¬ (ledge >>> 8 ≠ redge >>> 8 ∨ rangeLen ledge redge = 0x1000000)) :
    installToFib dp ledge redge nextHop
      = if redge - ledge ≠ 0 then installTbl8 dp ledge (redge - ledge) nextHop false
        else (0, dp) :=
  if_neg h

/-- Every way of installing on a range leaves the frame. -/
theorem installToFib_frame (dp : Dir24_8Tbl) (ledge redge : UInt32) (nextHop : ℕ) :
    Frame dp (installToFib dp ledge redge nextHop).2 := by
  have hleft : Frame dp (installLeft dp ledge nextHop).2 := by
    unfold installLeft
    split
    · exact installTbl8_frame dp _ _ _ _
    · exact Frame.refl dp
  by_cases h : ledge >>> 8 ≠ redge >>> 8 ∨ rangeLen ledge redge = 0x1000000
  · rw [installToFib_of_apart dp nextHop h]
    split
    · exact hleft
    · have hmiddle : Frame dp (installMiddle (installLeft dp ledge nextHop).2 ledge redge nextHop) :=
        hleft.trans ⟨rfl, rfl, rfl, rfl⟩
      unfold installRight
      split
      · exact hmiddle.trans (installTbl8_frame _ _ _ _ _)
      · exact hmiddle
  · rw [installToFib_of_together dp nextHop h]
    split
    · exact installTbl8_frame dp _ _ _ _
    · exact Frame.refl dp

/-- The part before the first whole entry. -/
theorem installLeft_spec (h : Sound dp) (hfits : Fits dp) (hnh : nextHop ≤ getMaxNh dp.nhSz)
    (hr : installLeft dp ledge nextHop = (0, dp')) :
    Installs dp dp' nextHop (fun a => ledge.toNat ≤ a ∧ a < (ledge.toNat + 255) / 256 * 256) := by
  have hlt := ledge.toNat_lt
  have hround := toNat_roundup24 ledge
  have hn : (roundup24 ledge - ledge).toNat = (ledge.toNat + 255) / 256 * 256 - ledge.toNat := by
    rw [UInt32.toNat_sub]
    omega
  unfold installLeft at hr
  split at hr
  · refine (installTbl8_installs h hfits hnh (by omega) hr).congr (fun a ha => ?_)
    omega
  · next hzero =>
    obtain ⟨-, rfl⟩ := Prod.mk.inj hr
    refine Installs.refl h nextHop (fun a ha => ?_)
    have hz : (roundup24 ledge - ledge).toNat = 0 := by
      rw [not_not.mp hzero]
      rfl
    omega

/-- The part after the last whole entry. -/
theorem installRight_spec (h : Sound dp) (hfits : Fits dp) (hnh : nextHop ≤ getMaxNh dp.nhSz)
    (hr : installRight dp redge nextHop = (0, dp')) :
    Installs dp dp' nextHop (fun a => redge.toNat / 256 * 256 ≤ a ∧ a < redge.toNat) := by
  have hmask := toNat_and_tbl24Mask redge
  have hrest := toNat_and_255 redge
  unfold installRight at hr
  split at hr
  · refine (installTbl8_installs h hfits hnh (by omega) hr).congr (fun a ha => ?_)
    omega
  · next hzero =>
    obtain ⟨-, rfl⟩ := Prod.mk.inj hr
    refine Installs.refl h nextHop (fun a ha => ?_)
    have hz : (redge &&& 255).toNat = 0 := by
      rw [not_not.mp hzero]
      rfl
    omega

/-- The number of whole entries of a range. -/
theorem rangeLen_spec (hlt : ledge.toNat < edge redge)
    (htop : redge = 0 → ledge.toNat = 0 ∨ 256 ≤ ledge.toNat)
    (hcond : ledge >>> 8 ≠ redge >>> 8 ∨ rangeLen ledge redge = 0x1000000) :
    (ledge.toNat + 255) / 256 + (rangeLen ledge redge).toNat = edge redge / 256
      ∧ (rangeLen ledge redge).toNat ≤ 2 ^ 24 := by
  have hl32 := ledge.toNat_lt
  have hr32 := redge.toNat_lt
  have hround := toNat_roundup24 ledge
  have hmask := toNat_and_tbl24Mask redge
  unfold rangeLen at hcond ⊢
  by_cases hwhole : ledge = 0 ∧ redge = 0
  · obtain ⟨rfl, rfl⟩ := hwhole
    decide
  · rw [if_neg hwhole] at hcond ⊢
    have hlen : (((redge &&& tbl24Mask) - roundup24 ledge) >>> 8).toNat
        = (2 ^ 32 - (ledge.toNat + 255) % 2 ^ 32 / 256 * 256 + redge.toNat / 256 * 256)
          % 2 ^ 32 / 256 := by
      rw [toNat_shiftRight_8, UInt32.toNat_sub, hmask, hround]
    have hne : ledge.toNat / 256 ≠ redge.toNat / 256 := by
      rw [← toNat_shiftRight_8, ← toNat_shiftRight_8]
      refine fun heq => hcond.elim (fun hc => hc (UInt32.toNat_inj.mp heq)) (fun hc => ?_)
      rw [hc] at hlen
      have hval : (0x1000000 : UInt32).toNat = 2 ^ 24 := rfl
      omega
    rw [hlen]
    unfold edge at hlt ⊢
    by_cases hz : redge = 0
    · subst hz
      have hl0 : ledge.toNat ≠ 0 := fun hc => hwhole ⟨UInt32.toNat_inj.mp hc, rfl⟩
      have hl256 := (htop rfl).resolve_left hl0
      rw [if_pos rfl]
      have h0 : (0 : UInt32).toNat = 0 := rfl
      rw [h0]
      by_cases hlast : ledge.toNat + 255 < 2 ^ 32
      · omega
      · omega
    · rw [if_neg hz] at hlt ⊢
      omega

/-- **Installing on a range.** An installation that succeeds changes the
answers of its range, and no others. A range up to the end of the address
space must not begin in the first 256 addresses, but at the very first. -/
theorem installToFib_spec (h : Sound dp) (hfits : Fits dp) (hnh : nextHop ≤ getMaxNh dp.nhSz)
    (hlt : ledge.toNat < edge redge) (htop : redge = 0 → ledge.toNat = 0 ∨ 256 ≤ ledge.toNat)
    (hr : installToFib dp ledge redge nextHop = (0, dp')) :
    Installs dp dp' nextHop (fun a => ledge.toNat ≤ a ∧ a < edge redge) := by
  have hl32 := ledge.toNat_lt
  have hr32 := redge.toNat_lt
  have hround := toNat_roundup24 ledge
  have hmask := toNat_and_tbl24Mask redge
  have hlshift := toNat_shiftRight_8 ledge
  have hrshift := toNat_shiftRight_8 redge
  have hzero : redge = 0 ↔ redge.toNat = 0 := UInt32.toNat_inj.symm
  have hedge : edge redge = if redge.toNat = 0 then 2 ^ 32 else redge.toNat :=
    if_congr hzero rfl rfl
  by_cases hcond : ledge >>> 8 ≠ redge >>> 8 ∨ rangeLen ledge redge = 0x1000000
  · rw [installToFib_of_apart dp nextHop hcond] at hr
    have hlen := rangeLen_spec hlt htop hcond
    cases hleft : installLeft dp ledge nextHop with
    | mk r dp₁ =>
      rw [hleft] at hr
      dsimp only at hr
      by_cases hr₁ : r = 0
      · subst hr₁
        rw [if_neg (not_not.mpr rfl)] at hr
        have hi₁ := installLeft_spec h hfits hnh hleft
        have hnh₁ : nextHop ≤ getMaxNh dp₁.nhSz := by
          rw [hi₁.frame.nhSz]
          exact hnh
        have hi₂ : Installs dp₁ (installMiddle dp₁ ledge redge nextHop) nextHop _ :=
          writeTbl24_installs hi₁.sound hnh₁ (by omega)
        have hnh₂ : nextHop ≤ getMaxNh (installMiddle dp₁ ledge redge nextHop).nhSz := hnh₁
        have hi₃ := installRight_spec hi₂.sound (hfits.frame (hi₁.frame.trans hi₂.frame)) hnh₂ hr
        refine ((hi₁.trans hi₂).trans hi₃).congr (fun a ha => ?_)
        rw [hround]
        rw [hedge] at hlt hlen ⊢
        split at hlen
        · next hz =>
          rw [if_pos hz] at hlt ⊢
          omega
        · next hz =>
          rw [if_neg hz] at hlt ⊢
          omega
      · rw [if_pos hr₁] at hr
        exact absurd (Prod.mk.inj hr).1 hr₁
  · -- both ends are in one entry
    rw [installToFib_of_together dp nextHop hcond] at hr
    obtain ⟨hsame, hnot⟩ := not_or.mp hcond
    have heq : ledge.toNat / 256 = redge.toNat / 256 := by
      rw [← hlshift, ← hrshift, not_not.mp hsame]
    have hnz : redge ≠ 0 := by
      rintro rfl
      have h0 : (0 : UInt32).toNat = 0 := rfl
      have hl0 : ledge.toNat = 0 := (htop rfl).resolve_right (by omega)
      exact hnot (if_pos ⟨UInt32.toNat_inj.mp hl0, rfl⟩)
    have hz : redge.toNat ≠ 0 := fun hc => hnz (hzero.mpr hc)
    rw [hedge, if_neg hz] at hlt ⊢
    have hn : (redge - ledge).toNat = redge.toNat - ledge.toNat := by
      rw [UInt32.toNat_sub]
      omega
    have hne : redge - ledge ≠ 0 := by
      intro hc
      rw [hc] at hn
      have h0 : (0 : UInt32).toNat = 0 := rfl
      omega
    rw [if_pos hne] at hr
    refine (installTbl8_installs h hfits hnh (by omega) hr).congr (fun a ha => ?_)
    omega

end Fib
