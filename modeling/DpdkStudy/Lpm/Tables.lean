import DpdkStudy.Lib.Prefix
import DpdkStudy.Lpm.Lpm

/-!
# The lookup tables

What the lookup tables say of an address is the depth and the next hop of
one entry: of `tbl24`, or, where the entry of `tbl24` is extended, of the
group of `tbl8` it points to (`entryAt`). `TablesShow` says that the tables
say what they should of every address, that every extended entry has a group
of its own, and that no other group is in use.

Every operation rewrites one block of 256 addresses at a time, and
`TablesShow.rewrite` says what it has to see to: the block itself, and that
the groups of the other blocks stay as they are. An addition raises what a
block says (`addTbl24_spec`, `addDepthBig_spec`), a deletion lowers it
(`deleteTbl24_spec`, `deleteDepthBig_spec`).
-/

open Function Option Nat

namespace Lpm

open Prefix

variable {lpm lpm₀ : RteLpm} {depth g i ip j lo n nextHop : ℕ} {V : ℕ → ℕ → Option (ℕ × ℕ)}
  {W : ℕ → Option (ℕ × ℕ)} {e t : RteLpmTblEntry} {f : RteLpmTblEntry → RteLpmTblEntry}
  {sub : Option (ℕ × ℕ)}

/-! ## What the tables say -/

/-- What an entry says: a depth and a next hop, if it is valid. -/
def answerOf (t : RteLpmTblEntry) : Option (ℕ × ℕ) :=
  if t.valid then some (t.depth, t.nextHop) else none

/-- The entry of `tbl24` points to a group. -/
def Extended (lpm : RteLpm) (i : ℕ) : Prop :=
  (lpm.tbl24 i).valid = true ∧ (lpm.tbl24 i).validGroup = true

instance (lpm : RteLpm) (i : ℕ) : Decidable (Extended lpm i) :=
  inferInstanceAs (Decidable (_ ∧ _))

/-- **What the tables say** of the address with the first 24 bits `i` and the
last eight bits `j`. -/
def entryAt (lpm : RteLpm) (i j : ℕ) : Option (ℕ × ℕ) :=
  if Extended lpm i then answerOf (lpm.tbl8 ((lpm.tbl24 i).nextHop * 256 + j))
  else answerOf (lpm.tbl24 i)

theorem entryAt_of_extended (h : Extended lpm i) (j : ℕ) :
    entryAt lpm i j = answerOf (lpm.tbl8 ((lpm.tbl24 i).nextHop * 256 + j)) := if_pos h

theorem entryAt_of_not_extended (h : ¬ Extended lpm i) (j : ℕ) :
    entryAt lpm i j = answerOf (lpm.tbl24 i) := if_neg h

/-- An answer that takes a group to store. -/
def IsDeep (o : Option (ℕ × ℕ)) : Prop := ∃ d v, o = some (d, v) ∧ 24 < d

/-- **The tables say `V`** of every address, and their groups are in order:
an extended entry has a group that is in use and its own, and no other group
is in use. -/
structure TablesShow (lpm : RteLpm) (V : ℕ → ℕ → Option (ℕ × ℕ)) : Prop where
  small : lpm.numberTbl8s ≤ 2 ^ 24
  shows : ∀ i < 2 ^ 24, ∀ j < 256, entryAt lpm i j = V i j
  plain : ∀ i < 2 ^ 24, ¬ Extended lpm i → (lpm.tbl24 i).valid = true → (lpm.tbl24 i).depth ≤ 24
  group : ∀ i < 2 ^ 24, Extended lpm i → (lpm.tbl24 i).nextHop < lpm.numberTbl8s
    ∧ (lpm.tbl8 ((lpm.tbl24 i).nextHop * 256)).validGroup = true
  apart : ∀ i < 2 ^ 24, ∀ i' < 2 ^ 24, Extended lpm i → Extended lpm i' →
    (lpm.tbl24 i).nextHop = (lpm.tbl24 i').nextHop → i = i'
  owned : ∀ g < lpm.numberTbl8s, (lpm.tbl8 (g * 256)).validGroup = true →
    ∃ i < 2 ^ 24, Extended lpm i ∧ (lpm.tbl24 i).nextHop = g

/-- **A group is worth its entry**: an extended block has an answer that
takes a group to store. -/
def GroupsNeeded (lpm : RteLpm) (V : ℕ → ℕ → Option (ℕ × ℕ)) : Prop :=
  ∀ i < 2 ^ 24, Extended lpm i → ∃ j < 256, IsDeep (V i j)

section

variable (h : TablesShow lpm V)

include h

/-- The group of an extended block says what the block says. -/
theorem TablesShow.group_shows (hi : i < 2 ^ 24) (hext : Extended lpm i) (hj : j < 256) :
    answerOf (lpm.tbl8 ((lpm.tbl24 i).nextHop * 256 + j)) = V i j := by
  rw [← h.shows i hi j hj, entryAt_of_extended hext]

/-- The entry of any other block says what the block says. -/
theorem TablesShow.plain_shows (hi : i < 2 ^ 24) (hext : ¬ Extended lpm i) (hj : j < 256) :
    answerOf (lpm.tbl24 i) = V i j := by
  rw [← h.shows i hi j hj, entryAt_of_not_extended hext]

theorem TablesShow.congr {V' : ℕ → ℕ → Option (ℕ × ℕ)}
    (hV : ∀ i < 2 ^ 24, ∀ j < 256, V' i j = V i j) : TablesShow lpm V' :=
  ⟨h.small, fun i hi j hj => by rw [h.shows i hi j hj, hV i hi j hj], h.plain, h.group, h.apart,
    h.owned⟩

theorem TablesShow.extended_of_isDeep (hi : i < 2 ^ 24) (hj : j < 256) (hdeep : IsDeep (V i j)) :
    Extended lpm i := by
  by_contra hext
  obtain ⟨d, v, hV, hd⟩ := hdeep
  have hshow := h.plain_shows hi hext hj
  rw [hV] at hshow
  unfold answerOf at hshow
  by_cases hvalid : (lpm.tbl24 i).valid = true
  · rw [if_pos hvalid] at hshow
    have hdepth := h.plain i hi hext hvalid
    have heq := congrArg Prod.fst (some.inj hshow)
    dsimp only at heq
    omega
  · rw [if_neg hvalid] at hshow
    cases hshow

/-! ## Rewriting one block -/

/-- **Rewriting one block.** The tables that differ from tables in order in
one entry of `tbl24` and in `tbl8` outside the groups of all other blocks
are in order again if the block itself is. -/
theorem TablesShow.rewrite {lpm' : RteLpm} (hnum : lpm'.numberTbl8s = lpm.numberTbl8s)
    (h24 : ∀ i', i' ≠ i → lpm'.tbl24 i' = lpm.tbl24 i')
    (h8 : ∀ i' < 2 ^ 24, i' ≠ i → Extended lpm i' → ∀ j < 256, lpm'.tbl8 ((lpm.tbl24 i').nextHop * 256 + j) = lpm.tbl8 ((lpm.tbl24 i').nextHop * 256 + j))
    (hshows : ∀ j < 256, entryAt lpm' i j = W j)
    (hplain : ¬ Extended lpm' i → (lpm'.tbl24 i).valid = true → (lpm'.tbl24 i).depth ≤ 24)
    (hgroup : Extended lpm' i → (lpm'.tbl24 i).nextHop < lpm.numberTbl8s ∧ (lpm'.tbl8 ((lpm'.tbl24 i).nextHop * 256)).validGroup = true)
    (hapart : Extended lpm' i → ∀ i' < 2 ^ 24, i' ≠ i → Extended lpm i' → (lpm.tbl24 i').nextHop ≠ (lpm'.tbl24 i).nextHop)
    (howned : ∀ g < lpm.numberTbl8s, (lpm'.tbl8 (g * 256)).validGroup = true → (∃ i' < 2 ^ 24, i' ≠ i ∧ Extended lpm i' ∧ (lpm.tbl24 i').nextHop = g) ∨ (i < 2 ^ 24 ∧ Extended lpm' i ∧ (lpm'.tbl24 i).nextHop = g))
    :
    TablesShow lpm' (update V i W) := by
  have hext : ∀ i', i' ≠ i → (Extended lpm' i' ↔ Extended lpm i') := by
    intro i' hne
    unfold Extended
    rw [h24 i' hne]
  refine ⟨by rw [hnum]; exact h.small, fun i' hi' j hj => ?_, fun i' hi' => ?_, fun i' hi' => ?_,
    fun a ha b hb hea heb hab => ?_, fun g hg hin => ?_⟩
  · by_cases hne : i' = i
    · subst hne
      rw [update_self]
      exact hshows j hj
    · rw [update_of_ne hne, ← h.shows i' hi' j hj]
      by_cases he : Extended lpm i'
      · rw [entryAt_of_extended he, entryAt_of_extended ((hext i' hne).mpr he), h24 i' hne,
          h8 i' hi' hne he j hj]
      · rw [entryAt_of_not_extended he,
          entryAt_of_not_extended (fun he' => he ((hext i' hne).mp he')), h24 i' hne]
  · by_cases hne : i' = i
    · subst hne
      exact hplain
    · rw [hext i' hne, h24 i' hne]
      exact h.plain i' hi'
  · by_cases hne : i' = i
    · subst hne
      rw [hnum]
      exact hgroup
    · rw [hext i' hne, h24 i' hne, hnum]
      intro he
      have hfirst := h8 i' hi' hne he 0 (by decide)
      rw [add_zero] at hfirst
      rw [hfirst]
      exact h.group i' hi' he
  · by_cases hna : a = i
    · by_cases hnb : b = i
      · rw [hna, hnb]
      · subst hna
        rw [h24 b hnb] at hab
        exact absurd hab.symm (hapart hea b hb hnb ((hext b hnb).mp heb))
    · rw [h24 a hna] at hab
      by_cases hnb : b = i
      · subst hnb
        exact absurd hab (hapart heb a ha hna ((hext a hna).mp hea))
      · rw [h24 b hnb] at hab
        exact h.apart a ha b hb ((hext a hna).mp hea) ((hext b hnb).mp heb) hab
  · rw [hnum] at hg
    rcases howned g hg hin with ⟨i', hi', hne, he, hg'⟩ | ⟨hi, he, hg'⟩
    · exact ⟨i', hi', (hext i' hne).mpr he, by rw [h24 i' hne]; exact hg'⟩
    · exact ⟨i, hi, he, hg'⟩

/-- A block that needs no group, rewritten without one. -/
theorem TablesShow.setPlain (hext : ¬ Extended lpm i) (he : ¬ (e.valid ∧ e.validGroup))
    (hdepth : e.valid = true → e.depth ≤ 24) :
    TablesShow { lpm with tbl24 := update lpm.tbl24 i e }
      (update V i (fun _ => answerOf e)) := by
  have hself : update lpm.tbl24 i e i = e := update_self _ _ _
  have hnot : ¬ Extended { lpm with tbl24 := update lpm.tbl24 i e } i := by
    unfold Extended
    dsimp only
    rw [hself]
    exact he
  refine h.rewrite rfl (fun i' hne => update_of_ne hne _ _) (fun _ _ _ _ _ _ => rfl)
    (fun j _ => ?_) (fun _ hv => ?_) (fun hc => absurd hc hnot) (fun hc => absurd hc hnot)
    (fun g hg hin => ?_)
  · rw [entryAt_of_not_extended hnot]
    dsimp only
    rw [hself]
  · dsimp only at hv ⊢
    rw [hself] at hv ⊢
    exact hdepth hv
  · obtain ⟨i', hi', he', hg'⟩ := h.owned g hg hin
    refine Or.inl ⟨i', hi', ?_, he', hg'⟩
    rintro rfl
    exact hext he'

/-- A range of the group of an extended block, rewritten entry by entry. -/
theorem TablesShow.mapGroup (hi : i < 2 ^ 24) (hext : Extended lpm i)
    (hf : ∀ t, t.validGroup = true → (f t).validGroup = true) (hn : lo + n ≤ 256) :
    TablesShow
      { lpm with
        tbl8 := Loop.mapRange ((lpm.tbl24 i).nextHop * 256 + lo) n f lpm.tbl8 }
      (update V i (fun j =>
        if lo ≤ j ∧ j < lo + n then answerOf (f (lpm.tbl8 ((lpm.tbl24 i).nextHop * 256 + j)))
        else V i j)) := by
  have hother : ∀ g j, g ≠ (lpm.tbl24 i).nextHop → j < 256 →
      Loop.mapRange ((lpm.tbl24 i).nextHop * 256 + lo) n f lpm.tbl8 (g * 256 + j)
        = lpm.tbl8 (g * 256 + j) := by
    intro g j hg hj
    refine Loop.mapRange_of_notMem ?_ f lpm.tbl8
    omega
  have hfirst : (Loop.mapRange ((lpm.tbl24 i).nextHop * 256 + lo) n f lpm.tbl8
      ((lpm.tbl24 i).nextHop * 256)).validGroup = true := by
    have hin := (h.group i hi hext).2
    unfold Loop.mapRange
    split
    · exact hf _ hin
    · exact hin
  refine h.rewrite rfl (fun _ _ => rfl) (fun i' hi' hne he j hj => ?_) (fun j hj => ?_)
    (fun hc => absurd hext hc) (fun _ => ⟨(h.group i hi hext).1, hfirst⟩)
    (fun _ i' hi' hne he heq => hne (h.apart i' hi' i hi he hext heq)) (fun g hg hin => ?_)
  · exact hother _ j (fun heq => hne (h.apart i' hi' i hi he hext heq)) hj
  · refine (entryAt_of_extended (by exact hext) j).trans ?_
    dsimp only
    by_cases hin : lo ≤ j ∧ j < lo + n
    · rw [if_pos hin, Loop.mapRange_of_mem (by omega)]
    · rw [if_neg hin, Loop.mapRange_of_notMem (by omega), ← h.shows i hi j hj,
        entryAt_of_extended hext]
  · by_cases hgi : g = (lpm.tbl24 i).nextHop
    · exact Or.inr ⟨hi, hext, hgi.symm⟩
    · have hsame := hother g 0 hgi (by decide)
      rw [add_zero] at hsame
      dsimp only at hin
      rw [hsame] at hin
      obtain ⟨i', hi', he', hg'⟩ := h.owned g hg hin
      refine Or.inl ⟨i', hi', ?_, he', hg'⟩
      rintro rfl
      exact hgi hg'.symm

/-- A free group, filled and attached to a block that had none. -/
theorem TablesShow.attach (hi : i < 2 ^ 24) (hext : ¬ Extended lpm i) (hg : g < lpm.numberTbl8s)
    (hfree : (lpm.tbl8 (g * 256)).validGroup = false) {tbl8 : ℕ → RteLpmTblEntry}
    (hsame : ∀ k, ¬ (g * 256 ≤ k ∧ k < g * 256 + 256) → tbl8 k = lpm.tbl8 k)
    (hused : (tbl8 (g * 256)).validGroup = true) :
    TablesShow
      { lpm with
        tbl8 := tbl8
        tbl24 := update lpm.tbl24 i (tblEntry g true true 0) }
      (update V i (fun j => answerOf (tbl8 (g * 256 + j)))) := by
  have hself : update lpm.tbl24 i (tblEntry g true true 0) i = ⟨g, true, true, 0⟩ := by
    rw [update_self]
    unfold tblEntry
    rw [mod_eq_of_lt (lt_of_lt_of_le hg h.small)]
  have hne_group : ∀ i' < 2 ^ 24, Extended lpm i' → (lpm.tbl24 i').nextHop ≠ g := by
    rintro i' hi' he' rfl
    rw [(h.group i' hi' he').2] at hfree
    cases hfree
  have hnew : Extended
      { lpm with
        tbl8 := tbl8
        tbl24 := update lpm.tbl24 i (tblEntry g true true 0) } i := by
    unfold Extended
    dsimp only
    rw [hself]
    exact ⟨rfl, rfl⟩
  refine h.rewrite rfl (fun i' hne => update_of_ne hne _ _)
    (fun i' hi' hne he j hj => ?_) (fun j hj => ?_) (fun hc => absurd hnew hc) (fun _ => ?_)
    (fun _ i' hi' hne he => ?_) (fun g' hg' hin => ?_)
  · have hgi := hne_group i' hi' he
    refine hsame _ ?_
    omega
  · rw [entryAt_of_extended hnew]
    dsimp only
    rw [hself]
  · dsimp only
    rw [hself]
    exact ⟨hg, hused⟩
  · dsimp only
    rw [hself]
    exact hne_group i' hi' he
  · dsimp only at hin ⊢
    rw [hself]
    by_cases hgg : g' = g
    · exact Or.inr ⟨hi, hnew, hgg.symm⟩
    · rw [hsame _ (by omega)] at hin
      obtain ⟨i', hi', he', hg''⟩ := h.owned g' hg' hin
      refine Or.inl ⟨i', hi', ?_, he', hg''⟩
      rintro rfl
      exact hext he'

/-- The group of a block, freed, and the block rewritten without one. -/
theorem TablesShow.detach (hi : i < 2 ^ 24) (hext : Extended lpm i)
    (he : ¬ (e.valid ∧ e.validGroup)) (hdepth : e.valid = true → e.depth ≤ 24) :
    TablesShow
      (tbl8Free { lpm with tbl24 := update lpm.tbl24 i e }
        ((lpm.tbl24 i).nextHop * 256))
      (update V i (fun _ => answerOf e)) := by
  have hself : update lpm.tbl24 i e i = e := update_self _ _ _
  have hnot : ¬ Extended (tbl8Free { lpm with tbl24 := update lpm.tbl24 i e }
      ((lpm.tbl24 i).nextHop * 256)) i := by
    unfold Extended tbl8Free
    dsimp only
    rw [hself]
    exact he
  refine h.rewrite rfl (fun i' hne => update_of_ne hne _ _)
    (fun i' hi' hne he' j hj => ?_) (fun j _ => ?_) (fun _ hv => ?_) (fun hc => absurd hc hnot)
    (fun hc => absurd hc hnot) (fun g hg hin => ?_)
  · have hgi : (lpm.tbl24 i').nextHop ≠ (lpm.tbl24 i).nextHop := fun heq =>
      hne (h.apart i' hi' i hi he' hext heq)
    show update lpm.tbl8 ((lpm.tbl24 i).nextHop * 256) zeroEntry
      ((lpm.tbl24 i').nextHop * 256 + j) = _
    rw [update_of_ne (by omega)]
  · rw [entryAt_of_not_extended hnot]
    unfold tbl8Free
    dsimp only
    rw [hself]
  · unfold tbl8Free at hv ⊢
    dsimp only at hv ⊢
    rw [hself] at hv ⊢
    exact hdepth hv
  · unfold tbl8Free at hin
    dsimp only at hin
    by_cases hgi : g = (lpm.tbl24 i).nextHop
    · subst hgi
      rw [update_self] at hin
      cases hin
    · rw [update_of_ne (by omega)] at hin
      obtain ⟨i', hi', he', hg'⟩ := h.owned g hg hin
      refine Or.inl ⟨i', hi', ?_, he', hg'⟩
      rintro rfl
      exact hgi hg'.symm

end

/-! ## Entries -/

theorem tblEntry_eq (h : nextHop < 2 ^ 24) (valid validGroup : Bool) (depth : ℕ) :
    tblEntry nextHop valid validGroup depth = ⟨nextHop, valid, validGroup, depth⟩ := by
  unfold tblEntry
  rw [mod_eq_of_lt h]

theorem answerOf_tblEntry (h : nextHop < 2 ^ 24) (validGroup : Bool) (depth : ℕ) :
    answerOf (tblEntry nextHop true validGroup depth) = some (depth, nextHop) := by
  rw [tblEntry_eq h]
  rfl

theorem answerOf_of_valid (h : t.valid = true) :
    answerOf t = some (t.depth, t.nextHop) := if_pos h

theorem answerOf_of_not_valid (h : ¬ t.valid = true) :
    answerOf t = none := if_neg h

theorem answerOf_add (h : nextHop < 2 ^ 24) (validGroup : Bool) (depth : ℕ) (t : RteLpmTblEntry) :
    answerOf (if ¬ t.valid ∨ t.depth ≤ depth then tblEntry nextHop true validGroup depth else t)
      = raise depth nextHop (answerOf t) := by
  by_cases hv : t.valid = true
  · rw [answerOf_of_valid hv, raise_some]
    by_cases hd : t.depth ≤ depth
    · rw [if_pos (Or.inr hd), if_neg (by omega), answerOf_tblEntry h]
    · rw [if_neg (by simp [hv, hd]), if_pos (by omega), answerOf_of_valid hv]
  · rw [if_pos (Or.inl hv), answerOf_of_not_valid hv, answerOf_tblEntry h]
    rfl

/-- **A deletion from a valid entry** lowers what it says, to nothing where
no rule takes over. -/
theorem answerOf_delete_none (depth : ℕ) (hv : t.valid = true) :
    answerOf (if t.depth ≤ depth then { t with valid := false } else t)
      = lower depth none (answerOf t) := by
  rw [answerOf_of_valid hv, lower_some]
  by_cases hd : t.depth ≤ depth
  · rw [if_pos hd, if_neg (by omega)]
    rfl
  · rw [if_neg hd, if_pos (by omega), answerOf_of_valid hv]

theorem answerOf_delete_some (depth subDepth : ℕ) {subHop : ℕ} (h : subHop < 2 ^ 24)
    (validGroup : Bool) (hv : t.valid = true) :
    answerOf (if t.depth ≤ depth then tblEntry subHop true validGroup subDepth else t)
      = lower depth (some (subDepth, subHop)) (answerOf t) := by
  rw [answerOf_of_valid hv, lower_some]
  by_cases hd : t.depth ≤ depth
  · rw [if_pos hd, if_neg (by omega), answerOf_tblEntry h]
  · rw [if_neg hd, if_pos (by omega), answerOf_of_valid hv]

theorem isDeep_raise {o : Option (ℕ × ℕ)} {d : ℕ} (hd : d ≤ 24) (v : ℕ) (h : IsDeep o) :
    IsDeep (raise d v o) := by
  obtain ⟨e, u, rfl, he⟩ := h
  rw [raise_some, if_pos (by omega)]
  exact ⟨e, u, rfl, he⟩

theorem isDeep_lower {o : Option (ℕ × ℕ)} {d : ℕ} (hd : d ≤ 24) (sub : Option (ℕ × ℕ))
    (h : IsDeep o) : IsDeep (lower d sub o) := by
  obtain ⟨e, u, rfl, he⟩ := h
  rw [lower_some, if_pos (by omega)]
  exact ⟨e, u, rfl, he⟩

/-! ## What stays the same -/

/-- **The two differ in their lookup tables only.** -/
structure SameRules (lpm lpm' : RteLpm) : Prop where
  ruleInfo : lpm'.ruleInfo = lpm.ruleInfo
  rulesTbl : lpm'.rulesTbl = lpm.rulesTbl
  maxRules : lpm'.maxRules = lpm.maxRules
  numberTbl8s : lpm'.numberTbl8s = lpm.numberTbl8s
  rulesAlloc : lpm'.rulesAlloc = lpm.rulesAlloc
  tbl8Alloc : lpm'.tbl8Alloc = lpm.tbl8Alloc

theorem SameRules.refl (lpm : RteLpm) : SameRules lpm lpm := ⟨rfl, rfl, rfl, rfl, rfl, rfl⟩

theorem SameRules.trans {l₁ l₂ l₃ : RteLpm} (h : SameRules l₁ l₂) (h' : SameRules l₂ l₃) :
    SameRules l₁ l₃ :=
  ⟨h'.1.trans h.1, h'.2.trans h.2, h'.3.trans h.3, h'.4.trans h.4, h'.5.trans h.5,
    h'.6.trans h.6⟩

/-- **The tables are in order**: they say `V`, every group is worth its
entry, and the rules are those of `lpm₀`. -/
structure Ordered (lpm₀ lpm : RteLpm) (V : ℕ → ℕ → Option (ℕ × ℕ)) : Prop where
  same : SameRules lpm₀ lpm
  tables : TablesShow lpm V
  needed : GroupsNeeded lpm V

theorem Ordered.congr {V' : ℕ → ℕ → Option (ℕ × ℕ)} (h : Ordered lpm₀ lpm V)
    (hV : ∀ i < 2 ^ 24, ∀ j < 256, V' i j = V i j) :
    Ordered lpm₀ lpm V' where
  same := h.same
  tables := h.tables.congr hV
  needed i hi hext := by
    obtain ⟨j, hj, hdeep⟩ := h.needed i hi hext
    exact ⟨j, hj, by rw [hV i hi j hj]; exact hdeep⟩

/-- A block rewritten without touching the others. -/
theorem Ordered.rewrite {lpm' : RteLpm} (h : Ordered lpm₀ lpm V) {W' : ℕ → Option (ℕ × ℕ)}
    (hsame : SameRules lpm lpm') (htables : TablesShow lpm' (update V i W))
    (h24 : ∀ i', i' ≠ i → lpm'.tbl24 i' = lpm.tbl24 i') (hW : ∀ j < 256, W' j = W j)
    (hself : Extended lpm' i → ∃ j < 256, IsDeep (W' j)) :
    Ordered lpm₀ lpm' (update V i W') := by
  refine Ordered.congr (V := update V i W) ⟨h.same.trans hsame, htables,
    fun i' hi' hext => ?_⟩ (fun i' _ j hj => ?_)
  · by_cases hne : i' = i
    · subst hne
      obtain ⟨j, hj, hdeep⟩ := hself hext
      rw [update_self]
      exact ⟨j, hj, hW j hj ▸ hdeep⟩
    · rw [update_of_ne hne]
      refine h.needed i' hi' ?_
      unfold Extended at hext ⊢
      rwa [h24 i' hne] at hext
  · by_cases hne : i' = i
    · rw [hne, update_self, update_self, hW j hj]
    · rw [update_of_ne hne, update_of_ne hne]

/-- A block that needs no group, rewritten without one. -/
theorem Ordered.setPlain (h : Ordered lpm₀ lpm V) (hext : ¬ Extended lpm i)
    (he : ¬ (e.valid ∧ e.validGroup)) (hdepth : e.valid = true → e.depth ≤ 24)
    (hW : ∀ j < 256, W j = answerOf e) :
    Ordered lpm₀ { lpm with tbl24 := update lpm.tbl24 i e } (update V i W) := by
  refine h.rewrite ⟨rfl, rfl, rfl, rfl, rfl, rfl⟩ (h.tables.setPlain hext he hdepth)
    (fun i' hne => update_of_ne hne _ _) hW (fun hc => ?_)
  unfold Extended at hc
  dsimp only at hc
  rw [update_self] at hc
  exact absurd hc he

/-- A range of the group of an extended block, rewritten entry by entry. -/
theorem Ordered.mapGroup (h : Ordered lpm₀ lpm V) (hi : i < 2 ^ 24) (hext : Extended lpm i)
    (hf : ∀ t, t.validGroup = true → (f t).validGroup = true) (hn : lo + n ≤ 256)
    (hin : ∀ j < 256, lo ≤ j ∧ j < lo + n →
      W j = answerOf (f (lpm.tbl8 ((lpm.tbl24 i).nextHop * 256 + j))))
    (hout : ∀ j < 256, ¬ (lo ≤ j ∧ j < lo + n) → W j = V i j) (hdeep : ∃ j < 256, IsDeep (W j)) :
    Ordered lpm₀
      { lpm with tbl8 := Loop.mapRange ((lpm.tbl24 i).nextHop * 256 + lo) n f lpm.tbl8 }
      (update V i W) := by
  refine h.rewrite ⟨rfl, rfl, rfl, rfl, rfl, rfl⟩ (h.tables.mapGroup hi hext hf hn)
    (fun _ _ => rfl) (fun j hj => ?_) (fun _ => hdeep)
  by_cases hj' : lo ≤ j ∧ j < lo + n
  · rw [if_pos hj', hin j hj hj']
  · rw [if_neg hj', hout j hj hj']

/-- The whole group of an extended block, rewritten entry by entry. -/
theorem Ordered.mapWhole (h : Ordered lpm₀ lpm V) (hi : i < 2 ^ 24) (hext : Extended lpm i)
    (hf : ∀ t, t.validGroup = true → (f t).validGroup = true)
    (hW : ∀ j < 256, W j = answerOf (f (lpm.tbl8 ((lpm.tbl24 i).nextHop * 256 + j))))
    (hdeep : ∀ j < 256, IsDeep (V i j) → IsDeep (W j)) :
    Ordered lpm₀ { lpm with tbl8 := Loop.mapRange ((lpm.tbl24 i).nextHop * 256) 256 f lpm.tbl8 }
      (update V i W) := by
  obtain ⟨j₀, hj₀, hdeep₀⟩ := h.needed i hi hext
  have hmap := h.mapGroup hi hext hf (show 0 + 256 ≤ 256 from le_refl _)
    (fun j hj _ => hW j hj) (fun j hj hc => absurd hj (by omega)) ⟨j₀, hj₀, hdeep j₀ hj₀ hdeep₀⟩
  rwa [add_zero] at hmap

/-! ## Shallow rules -/

/-- One block of an addition of depth up to 24. -/
theorem addTbl24_spec (h : Ordered lpm₀ lpm V) (hd : depth ≤ 24) (hhop : nextHop < 2 ^ 24)
    (hi : i < 2 ^ 24) :
    Ordered lpm₀ (addTbl24 lpm depth nextHop i)
      (update V i (fun j => raise depth nextHop (V i j))) := by
  unfold addTbl24
  dsimp only
  by_cases hset : ¬ (lpm.tbl24 i).valid = true
      ∨ (¬ (lpm.tbl24 i).validGroup = true ∧ (lpm.tbl24 i).depth ≤ depth)
  · -- the entry holds the new rule itself
    rw [if_pos hset]
    have hext : ¬ Extended lpm i := fun he => hset.elim (fun hv => hv he.1) (fun hg => hg.1 he.2)
    refine h.setPlain hext (by rw [tblEntry_eq hhop]; simp) (fun _ => hd) (fun j hj => ?_)
    rw [← h.tables.plain_shows hi hext hj, answerOf_tblEntry hhop]
    by_cases hv : (lpm.tbl24 i).valid = true
    · have hle := (hset.resolve_left (fun hn => hn hv)).2
      rw [answerOf_of_valid hv, raise_some, if_neg (by omega)]
    · rw [answerOf_of_not_valid hv]
      rfl
  · rw [if_neg hset]
    have hv : (lpm.tbl24 i).valid = true := by
      by_contra hv
      exact hset (Or.inl hv)
    by_cases hg : (lpm.tbl24 i).validGroup = true
    · -- the entries of the group hold it
      rw [if_pos hg]
      have hext : Extended lpm i := ⟨hv, hg⟩
      refine h.mapWhole hi hext (fun t ht => ?_) (fun j hj => ?_)
        (fun j _ hdeep => isDeep_raise hd nextHop hdeep)
      · split <;> first | rfl | exact ht
      · rw [answerOf_add hhop, h.tables.group_shows hi hext hj]
    · -- the entry holds a deeper rule
      rw [if_neg hg]
      refine h.congr (fun i' _ j hj => ?_)
      by_cases hne : i' = i
      · subst hne
        have hext : ¬ Extended lpm i' := fun he => hg he.2
        have hdeeper : depth < (lpm.tbl24 i').depth := by
          by_contra hle
          exact hset (Or.inr ⟨hg, by omega⟩)
        rw [update_self, ← h.tables.plain_shows hi hext hj, answerOf_of_valid hv,
          raise_some, if_pos hdeeper]
      · rw [update_of_ne hne]

/-- A loop over blocks rewrites each block of its range by itself. -/
theorem ordered_times (h : Ordered lpm₀ lpm V) {step : RteLpm → ℕ → RteLpm}
    {g : Option (ℕ × ℕ) → Option (ℕ × ℕ)}
    (hstep : ∀ i, lo ≤ i → i < lo + n → ∀ (l : RteLpm) (U : ℕ → ℕ → Option (ℕ × ℕ)),
      Ordered lpm₀ l U → U i = V i →
        Ordered lpm₀ (step l i) (update U i (fun j => g (U i j)))) :
    Ordered lpm₀ (Loop.times n (fun i l => step l (lo + i)) lpm)
      (fun i j => if lo ≤ i ∧ i < lo + n then g (V i j) else V i j) := by
  refine Loop.times_invariant
    (fun k l => Ordered lpm₀ l (fun i j => if lo ≤ i ∧ i < lo + k then g (V i j) else V i j))
    ?_ ?_
  · refine h.congr (fun i _ j _ => ?_)
    rw [if_neg (by omega)]
  · intro k hk l hl
    have hsame : (fun j => if lo ≤ lo + k ∧ lo + k < lo + k then g (V (lo + k) j)
        else V (lo + k) j) = V (lo + k) := by
      funext j
      rw [if_neg (by omega)]
    refine (hstep (lo + k) (by omega) (by omega) l _ hl hsame).congr (fun i _ j _ => ?_)
    by_cases hi : i = lo + k
    · subst hi
      rw [update_self, if_pos (by omega), if_neg (by omega)]
    · rw [update_of_ne hi]
      by_cases hin : lo ≤ i ∧ i < lo + k
      · rw [if_pos hin, if_pos (by omega)]
      · rw [if_neg hin, if_neg (by omega)]

theorem depthToRange_of_le (hd : depth ≤ 24) :
    depthToRange depth = 2 ^ (24 - depth) := by
  unfold depthToRange
  rw [if_pos hd, shiftLeft_eq, one_mul]

theorem depthToRange_of_gt (hd : 24 < depth) :
    depthToRange depth = 2 ^ (32 - depth) := by
  unfold depthToRange
  rw [if_neg (by omega), shiftLeft_eq, one_mul]

/-- `add_depth_small` raises the blocks of its rule. -/
theorem addDepthSmall_spec (h : Ordered lpm lpm V) (hd : depth ≤ 24) (hhop : nextHop < 2 ^ 24)
    (hip : ip / 256 + 2 ^ (24 - depth) ≤ 2 ^ 24) :
    Ordered lpm (addDepthSmall lpm ip depth nextHop)
      (fun i j => if ip / 256 ≤ i ∧ i < ip / 256 + 2 ^ (24 - depth)
        then raise depth nextHop (V i j) else V i j) := by
  unfold addDepthSmall
  rw [depthToRange_of_le hd, shiftRight_eq_div_pow]
  exact ordered_times h
    (fun i _ hi l U hl _ => addTbl24_spec hl hd hhop (lt_of_lt_of_le hi hip))

/-- **One block of a deletion of depth up to 24**, where every answer comes
from the rule or a deeper one. -/
theorem deleteTbl24_spec (h : Ordered lpm₀ lpm V) (hd : depth ≤ 24)
    (hsub : ∀ s ∈ sub, s.1 ≤ 24 ∧ s.2 < 2 ^ 24) (hi : i < 2 ^ 24) (hsome : ∀ j < 256, V i j ≠ none)
    :
    Ordered lpm₀ (deleteTbl24 lpm depth sub i)
      (update V i (fun j => lower depth sub (V i j))) := by
  unfold deleteTbl24
  dsimp only
  have hv : (lpm.tbl24 i).valid = true := by
    by_contra hv
    refine hsome 0 (by decide) ?_
    rw [← h.tables.shows i hi 0 (by decide),
      entryAt_of_not_extended (fun he => hv he.1), answerOf_of_not_valid hv]
  by_cases hg : (lpm.tbl24 i).validGroup = true
  · -- the entries of the group give the rule up
    have hext : Extended lpm i := ⟨hv, hg⟩
    have hvalid : ∀ j < 256, (lpm.tbl8 ((lpm.tbl24 i).nextHop * 256 + j)).valid = true := by
      intro j hj
      by_contra hnv
      refine hsome j hj ?_
      rw [← h.tables.group_shows hi hext hj, answerOf_of_not_valid hnv]
    rw [if_neg (fun hc => hc.1 hg), if_pos hg]
    -- the two ways an entry gives it up lower its answer alike
    have hrange : ∀ f : RteLpmTblEntry → RteLpmTblEntry,
        (∀ t : RteLpmTblEntry, t.validGroup = true → (f t).validGroup = true) →
        (∀ t : RteLpmTblEntry, t.valid = true →
          answerOf (f t) = lower depth sub (answerOf t)) →
        Ordered lpm₀
          { lpm with tbl8 := Loop.mapRange ((lpm.tbl24 i).nextHop * 256) 256 f lpm.tbl8 }
          (update V i (fun j => lower depth sub (V i j))) := by
      intro f hf hlower
      refine h.mapWhole hi hext hf (fun j hj => ?_) (fun j _ hdeep => isDeep_lower hd sub hdeep)
      rw [hlower _ (hvalid j hj), h.tables.group_shows hi hext hj]
    cases sub with
    | none =>
      exact hrange _ (fun t ht => by split <;> exact ht)
        (fun t ht => answerOf_delete_none depth ht)
    | some s =>
      exact hrange _ (fun t ht => by split <;> first | rfl | exact ht)
        (fun t ht => answerOf_delete_some depth s.1 (hsub s rfl).2 true ht)
  · have hext : ¬ Extended lpm i := fun he => hg he.2
    have hentry : ∀ j < 256, V i j = some ((lpm.tbl24 i).depth, (lpm.tbl24 i).nextHop) := by
      intro j hj
      rw [← h.tables.plain_shows hi hext hj, answerOf_of_valid hv]
    by_cases hle : (lpm.tbl24 i).depth ≤ depth
    · -- the entry holds the rule itself, and gives it up
      rw [if_pos ⟨hg, hle⟩]
      have hplain : ∀ e : RteLpmTblEntry, ¬ (e.valid ∧ e.validGroup) →
          (e.valid = true → e.depth ≤ 24) → answerOf e = sub →
          Ordered lpm₀ { lpm with tbl24 := update lpm.tbl24 i e }
            (update V i (fun j => lower depth sub (V i j))) := by
        intro e he hdepth hans
        refine h.setPlain hext he hdepth (fun j hj => ?_)
        rw [hentry j hj, lower_some, if_neg (by omega), hans]
      cases sub with
      | none =>
        exact hplain zeroEntry (fun hc => absurd hc.1 (by decide))
          (fun hc => absurd hc (by decide)) rfl
      | some s =>
        obtain ⟨hs, hs'⟩ := hsub s rfl
        refine hplain _ ?_ (fun _ => hs) (answerOf_tblEntry hs' false s.1)
        rw [tblEntry_eq hs']
        simp
    · -- the entry holds a deeper rule
      rw [if_neg (fun hc => hle hc.2), if_neg hg]
      refine h.congr (fun i' _ j hj => ?_)
      by_cases hne : i' = i
      · subst hne
        rw [update_self, hentry j hj, lower_some, if_pos (by omega)]
      · rw [update_of_ne hne]

/-- `delete_depth_small` lowers the blocks of its rule. -/
theorem deleteDepthSmall_spec (h : Ordered lpm lpm V) (hd : depth ≤ 24)
    (hsub : ∀ s ∈ sub, s.1 ≤ 24 ∧ s.2 < 2 ^ 24) (hip : ip / 256 + 2 ^ (24 - depth) ≤ 2 ^ 24)
    (hsome : ∀ i, ip / 256 ≤ i → i < ip / 256 + 2 ^ (24 - depth) → ∀ j < 256, V i j ≠ none) :
    Ordered lpm (deleteDepthSmall lpm ip depth sub)
      (fun i j => if ip / 256 ≤ i ∧ i < ip / 256 + 2 ^ (24 - depth)
        then lower depth sub (V i j) else V i j) := by
  unfold deleteDepthSmall
  rw [depthToRange_of_le hd, shiftRight_eq_div_pow]
  refine ordered_times h (fun i hlo hi l U hl hU => ?_)
  refine deleteTbl24_spec hl hd hsub (lt_of_lt_of_le hi hip) (fun j hj => ?_)
  rw [hU]
  exact hsome i hlo hi j hj

/-! ## Deep rules -/

/-- What the search for a free group finds. -/
theorem tbl8Scan_spec (lpm : RteLpm) (n g₀ : ℕ) :
    (∀ g, tbl8Scan lpm n g₀ = some (some g) →
        g < g₀ + n ∧ (lpm.tbl8 (g * 256)).validGroup = false)
      ∧ ((g₀ + n) * 256 ≤ lpm.tbl8Alloc → (tbl8Scan lpm n g₀).isSome) := by
  induction n generalizing g₀ with
  | zero => exact ⟨fun g hg => (nomatch some.inj hg), fun _ => rfl⟩
  | succ n ih =>
    obtain ⟨hfree, hsome⟩ := ih (g₀ + 1)
    unfold tbl8Scan
    by_cases halloc : g₀ * 256 < lpm.tbl8Alloc
    · rw [if_pos halloc]
      by_cases hg₀ : (lpm.tbl8 (g₀ * 256)).validGroup = true
      · rw [if_neg (not_not.mpr hg₀)]
        have hnext : g₀ + 1 + n = g₀ + (n + 1) := by omega
        rw [hnext] at hfree hsome
        exact ⟨hfree, hsome⟩
      · rw [if_pos hg₀]
        refine ⟨fun g hg => ?_, fun _ => rfl⟩
        obtain rfl := some.inj (some.inj hg)
        exact ⟨by omega, (Bool.not_eq_true _).mp hg₀⟩
    · rw [if_neg halloc]
      exact ⟨fun g hg => (nomatch hg), fun hle => absurd hle (by omega)⟩

/-- A group that was free, with clean entries and its first one in use. -/
def cleanGroup (lpm : RteLpm) (g : ℕ) : ℕ → RteLpmTblEntry :=
  Function.update (Loop.mapRange (g * 256) 256 (fun _ => zeroEntry) lpm.tbl8) (g * 256)
    (tblEntry 0 false true 0)

theorem cleanGroup_of_notMem (lpm : RteLpm) {k : ℕ} (hk : ¬ (g * 256 ≤ k ∧ k < g * 256 + 256)) :
    cleanGroup lpm g k = lpm.tbl8 k := by
  unfold cleanGroup
  rw [update_of_ne (by omega), Loop.mapRange_of_notMem hk]

theorem cleanGroup_first (lpm : RteLpm) (g : ℕ) :
    (cleanGroup lpm g (g * 256)).validGroup = true := by
  unfold cleanGroup
  rw [update_self]
  rfl

theorem answerOf_cleanGroup (lpm : RteLpm) (g : ℕ) (hj : j < 256) :
    answerOf (cleanGroup lpm g (g * 256 + j)) = none := by
  unfold cleanGroup
  by_cases hj0 : j = 0
  · rw [hj0, add_zero, update_self]
    rfl
  · rw [update_of_ne (by omega), Loop.mapRange_of_mem (by omega)]
    rfl

/-- **What `tbl8_alloc` does**: it reads past the end of its memory, finds no
group and changes nothing, or answers with a free group it cleaned. -/
theorem tbl8AllocGroup_spec (lpm : RteLpm) :
    (tbl8AllocGroup lpm = none ∧ ¬ 256 * lpm.numberTbl8s ≤ lpm.tbl8Alloc)
      ∨ tbl8AllocGroup lpm = some (none, lpm)
      ∨ ∃ g < lpm.numberTbl8s, (lpm.tbl8 (g * 256)).validGroup = false
        ∧ tbl8AllocGroup lpm = some (some g, { lpm with tbl8 := cleanGroup lpm g }) := by
  obtain ⟨hfree, hsome⟩ := tbl8Scan_spec lpm lpm.numberTbl8s 0
  unfold tbl8AllocGroup
  cases hscan : tbl8Scan lpm lpm.numberTbl8s 0 with
  | none =>
    refine Or.inl ⟨rfl, fun hle => ?_⟩
    have hs := hsome (by omega)
    rw [hscan] at hs
    cases hs
  | some o =>
    cases o with
    | none => exact Or.inr (Or.inl rfl)
    | some g =>
      obtain ⟨hlt, hv⟩ := hfree g hscan
      exact Or.inr (Or.inr ⟨g, by omega, hv, rfl⟩)

/-- What the tables say once a rule of depth over 24 raised its addresses. -/
def raiseBig (V : ℕ → ℕ → Option (ℕ × ℕ)) (ip depth nextHop : ℕ) : ℕ → ℕ → Option (ℕ × ℕ) :=
  fun i j =>
    if i = ip / 256 ∧ ip % 256 ≤ j ∧ j < ip % 256 + 2 ^ (32 - depth) then
      raise depth nextHop (V i j)
    else V i j

/-- What the tables say once some addresses of one block have changed. -/
theorem onRange_eq_update (V : ℕ → ℕ → Option (ℕ × ℕ)) (g : Option (ℕ × ℕ) → Option (ℕ × ℕ))
    (i₀ lo hi : ℕ) :
    (fun i j => if i = i₀ ∧ lo ≤ j ∧ j < hi then g (V i j) else V i j)
      = update V i₀ (fun j => if lo ≤ j ∧ j < hi then g (V i₀ j) else V i₀ j) := by
  funext i j
  by_cases hne : i = i₀
  · subst hne
    rw [update_self]
    simp only [true_and]
  · rw [update_of_ne hne, if_neg (fun hc => hne hc.1)]

section

variable (h : Ordered lpm lpm V) (hd : 24 < depth) (hhop : nextHop < 2 ^ 24)
  (hi : ip / 256 < 2 ^ 24) (hrange : ip % 256 + 2 ^ (32 - depth) ≤ 256)

include h hd hhop hi hrange

/-- **A new group for a rule of depth over 24**: it holds what the block said
before, and over it the rule. -/
theorem Ordered.attachRange (hext : ¬ Extended lpm (ip / 256)) (hg : g < lpm.numberTbl8s)
    (hfree : (lpm.tbl8 (g * 256)).validGroup = false) {base : ℕ → RteLpmTblEntry}
    (hsame : ∀ k, ¬ (g * 256 ≤ k ∧ k < g * 256 + 256) → base k = lpm.tbl8 k)
    (hused : (base (g * 256)).validGroup = true)
    (hbase : ∀ j < 256, answerOf (base (g * 256 + j)) = V (ip / 256) j) :
    Ordered lpm
      { lpm with
        tbl8 := Loop.mapRange (g * 256 + ip % 256) (2 ^ (32 - depth))
          (fun t => tblEntry nextHop true t.validGroup depth) base
        tbl24 := update lpm.tbl24 (ip / 256) (tblEntry g true true 0) }
      (raiseBig V ip depth nextHop) := by
  have hpos := Nat.two_pow_pos (32 - depth)
  have hinside : ∀ j, ip % 256 ≤ j ∧ j < ip % 256 + 2 ^ (32 - depth) → j < 256 →
      answerOf (Loop.mapRange (g * 256 + ip % 256) (2 ^ (32 - depth))
        (fun t => tblEntry nextHop true t.validGroup depth) base (g * 256 + j))
          = some (depth, nextHop) := by
    intro j hin _
    rw [Loop.mapRange_of_mem (by omega)]
    exact answerOf_tblEntry hhop _ _
  have hshallow : ∀ j < 256, raise depth nextHop (V (ip / 256) j) = some (depth, nextHop) := by
    intro j hj
    cases hV : V (ip / 256) j with
    | none => rfl
    | some r =>
      rw [raise_some, if_neg]
      intro hlt
      exact hext (h.tables.extended_of_isDeep hi hj ⟨r.1, r.2, hV, by omega⟩)
  have houtside : ∀ k, ¬ (g * 256 ≤ k ∧ k < g * 256 + 256) →
      Loop.mapRange (g * 256 + ip % 256) (2 ^ (32 - depth))
        (fun t => tblEntry nextHop true t.validGroup depth) base k = lpm.tbl8 k := by
    intro k hk
    refine (Loop.mapRange_of_notMem (fun hc => hk ⟨?_, ?_⟩) _ _).trans (hsame k hk)
    · omega
    · omega
  have hfirst : (Loop.mapRange (g * 256 + ip % 256) (2 ^ (32 - depth))
      (fun t => tblEntry nextHop true t.validGroup depth) base (g * 256)).validGroup = true := by
    unfold Loop.mapRange
    split
    · exact hused
    · exact hused
  unfold raiseBig
  rw [onRange_eq_update V (raise depth nextHop)]
  refine h.rewrite ⟨rfl, rfl, rfl, rfl, rfl, rfl⟩
    (h.tables.attach hi hext hg hfree houtside hfirst)
    (fun i' hne => update_of_ne hne _ _) (fun j hj => ?_)
    (fun _ => ⟨ip % 256, by omega, depth, nextHop, ?_, hd⟩)
  · by_cases hin : ip % 256 ≤ j ∧ j < ip % 256 + 2 ^ (32 - depth)
    · rw [if_pos hin, hinside j hin hj, hshallow j hj]
    · rw [if_neg hin, Loop.mapRange_of_notMem (by omega), hbase j hj]
  · rw [if_pos ⟨le_refl _, by omega⟩, hshallow _ (by omega)]

/-- A rule of depth over 24 in a group that is there. -/
theorem Ordered.raiseRange (hext : Extended lpm (ip / 256)) :
    Ordered lpm
      { lpm with
        tbl8 := Loop.mapRange ((lpm.tbl24 (ip / 256)).nextHop * 256 + ip % 256)
          (2 ^ (32 - depth))
          (fun t =>
            if ¬ t.valid ∨ t.depth ≤ depth then tblEntry nextHop true t.validGroup depth else t)
          lpm.tbl8 }
      (raiseBig V ip depth nextHop) := by
  have hpos := Nat.two_pow_pos (32 - depth)
  unfold raiseBig
  rw [onRange_eq_update V (raise depth nextHop)]
  refine h.mapGroup hi hext (fun t ht => by split <;> exact ht) hrange (fun j hj hin => ?_)
    (fun j _ hout => if_neg hout) ⟨ip % 256, by omega, ?_⟩
  · rw [if_pos hin, answerOf_add hhop, h.tables.group_shows hi hext hj]
  · rw [if_pos ⟨le_refl _, by omega⟩]
    cases hV : V (ip / 256) (ip % 256) with
    | none => exact ⟨depth, nextHop, rfl, hd⟩
    | some o =>
      rw [raise_some]
      split
      · exact ⟨o.1, o.2, rfl, by omega⟩
      · exact ⟨depth, nextHop, rfl, hd⟩

/-- **What `add_depth_big` does**: it raises the addresses of its rule, or
finds no group and changes nothing. -/
theorem addDepthBig_spec (hhops : ∀ i < 2 ^ 24, ∀ j < 256, ∀ s ∈ V i j, s.2 < 2 ^ 24) :
    (∀ r, addDepthBig lpm ip depth nextHop = some r →
        (r.1 = 0 ∧ Ordered lpm r.2 (raiseBig V ip depth nextHop))
          ∨ (r.1 = -enospc ∧ r.2 = lpm ∧ ¬ Extended lpm (ip / 256)))
      ∧ (256 * lpm.numberTbl8s ≤ lpm.tbl8Alloc →
        (addDepthBig lpm ip depth nextHop).isSome) := by
  have hpos := Nat.two_pow_pos (32 - depth)
  have hshift : ip >>> 8 = ip / 256 := shiftRight_eq_div_pow ip 8
  have hand : ip &&& 0xff = ip % 256 := and_two_pow_sub_one_eq_mod ip 8
  unfold addDepthBig
  dsimp only
  rw [hshift, hand, depthToRange_of_gt hd]
  by_cases hv : (lpm.tbl24 (ip / 256)).valid = true
  · rw [if_neg (not_not.mpr hv)]
    by_cases hg : (lpm.tbl24 (ip / 256)).validGroup = true
    · -- the block has a group
      rw [if_neg (not_not.mpr hg)]
      refine ⟨fun r hr => Or.inl ?_, fun _ => rfl⟩
      obtain rfl := some.inj hr
      exact ⟨rfl, h.raiseRange hd hhop hi hrange ⟨hv, hg⟩⟩
    · -- a new group holds what the entry said
      rw [if_pos hg]
      have hext : ¬ Extended lpm (ip / 256) := fun he => hg he.2
      rcases tbl8AllocGroup_spec lpm with ⟨halloc, hpast⟩ | halloc | ⟨g, hlt, hfree, halloc⟩
      · rw [halloc]
        exact ⟨fun r hr => (nomatch hr), fun hle => absurd hle hpast⟩
      · rw [halloc]
        refine ⟨fun r hr => Or.inr ?_, fun _ => rfl⟩
        obtain rfl := some.inj hr
        exact ⟨rfl, rfl, hext⟩
      · rw [halloc]
        refine ⟨fun r hr => Or.inl ?_, fun _ => rfl⟩
        obtain rfl := some.inj hr
        refine ⟨rfl, h.attachRange hd hhop hi hrange hext hlt hfree (fun k hk => ?_) ?_
          (fun j hj => ?_)⟩
        · rw [Loop.mapRange_of_notMem hk]
          exact cleanGroup_of_notMem lpm hk
        · rw [Loop.mapRange_of_mem (by omega)]
          exact cleanGroup_first lpm g
        · rw [Loop.mapRange_of_mem (by omega), ← h.tables.plain_shows hi hext hj,
            answerOf_of_valid hv]
          refine answerOf_tblEntry ?_ _ _
          refine hhops _ hi j hj ((lpm.tbl24 (ip / 256)).depth, (lpm.tbl24 (ip / 256)).nextHop) ?_
          rw [← h.tables.plain_shows hi hext hj, answerOf_of_valid hv]
          rfl
  · -- the block said nothing
    rw [if_pos hv]
    have hext : ¬ Extended lpm (ip / 256) := fun he => hv he.1
    rcases tbl8AllocGroup_spec lpm with ⟨halloc, hpast⟩ | halloc | ⟨g, hlt, hfree, halloc⟩
    · rw [halloc]
      exact ⟨fun r hr => (nomatch hr), fun hle => absurd hle hpast⟩
    · rw [halloc]
      refine ⟨fun r hr => Or.inr ?_, fun _ => rfl⟩
      obtain rfl := some.inj hr
      exact ⟨rfl, rfl, hext⟩
    · rw [halloc]
      refine ⟨fun r hr => Or.inl ?_, fun _ => rfl⟩
      obtain rfl := some.inj hr
      refine ⟨rfl, h.attachRange hd hhop hi hrange hext hlt hfree
        (fun k hk => cleanGroup_of_notMem lpm hk) (cleanGroup_first lpm g) (fun j hj => ?_)⟩
      rw [← h.tables.plain_shows hi hext hj, answerOf_of_not_valid hv,
        answerOf_cleanGroup lpm g hj]

end

/-! ## Recycling -/

/-- The answers of a block **agree but for the deep ones**: they come from
one rule of depth up to 24, which covers the whole block, or from none. -/
def Agree (W : ℕ → Option (ℕ × ℕ)) : Prop :=
  ∀ j < 256, ∀ j' < 256, ¬ IsDeep (W j) → ¬ IsDeep (W j') → W j = W j'

/-- **Recycling a block** puts its group in order, whether it keeps it or
not. -/
theorem recycleGroup_spec (hsame : SameRules lpm₀ lpm) (h : TablesShow lpm V) (hi : i < 2 ^ 24)
    (hext : Extended lpm i) (hagree : Agree (V i)) (hhops : ∀ j < 256, ∀ s ∈ V i j, s.2 < 2 ^ 24)
    (hothers : ∀ i' < 2 ^ 24, i' ≠ i → Extended lpm i' → ∃ j < 256, IsDeep (V i' j)) :
    Ordered lpm₀ (recycleGroup lpm i ((lpm.tbl24 i).nextHop * 256)) V := by
  have hshow : ∀ j < 256, answerOf (lpm.tbl8 ((lpm.tbl24 i).nextHop * 256 + j)) = V i j :=
    fun j hj => h.group_shows hi hext hj
  have hfirst := hshow 0 (by decide)
  rw [add_zero] at hfirst
  -- a group with a deep answer stays
  have hkeep : (∃ j < 256, IsDeep (V i j)) → Ordered lpm₀ lpm V := by
    intro hdeep
    refine ⟨hsame, h, fun i' hi' he' => ?_⟩
    by_cases hne : i' = i
    · rw [hne]
      exact hdeep
    · exact hothers i' hi' hne he'
  -- a group whose entries all say the same goes
  have hdrop : ∀ e : RteLpmTblEntry, ¬ (e.valid ∧ e.validGroup) →
      (e.valid = true → e.depth ≤ 24) → (∀ j < 256, V i j = answerOf e) →
      Ordered lpm₀ (tbl8Free { lpm with tbl24 := update lpm.tbl24 i e }
        ((lpm.tbl24 i).nextHop * 256)) V := by
    intro e he hdepth hall
    refine Ordered.congr
      ⟨⟨hsame.ruleInfo, hsame.rulesTbl, hsame.maxRules, hsame.numberTbl8s, hsame.rulesAlloc,
        hsame.tbl8Alloc⟩, h.detach hi hext he hdepth, fun i' hi' he' => ?_⟩
      (fun i' _ j hj => ?_)
    · unfold Extended tbl8Free at he'
      dsimp only at he'
      by_cases hne : i' = i
      · rw [hne, update_self] at he'
        exact absurd he' he
      · rw [update_of_ne hne] at he' ⊢
        exact hothers i' hi' hne he'
    · by_cases hne : i' = i
      · subst hne
        rw [update_self]
        exact hall j hj
      · rw [update_of_ne hne]
  unfold recycleGroup tbl8RecycleCheck
  dsimp only
  by_cases hv : (lpm.tbl8 ((lpm.tbl24 i).nextHop * 256)).valid = true
  · rw [if_pos hv]
    rw [answerOf_of_valid hv] at hfirst
    by_cases hd : (lpm.tbl8 ((lpm.tbl24 i).nextHop * 256)).depth ≤ 24
    · rw [if_pos hd]
      have hshallow : ¬ IsDeep (V i 0) := by
        rintro ⟨d, v, hV, hlt⟩
        rw [← hfirst] at hV
        have heq := congrArg Prod.fst (some.inj hV)
        dsimp only at heq
        omega
      by_cases hall : (List.range' ((lpm.tbl24 i).nextHop * 256 + 1) 255).all (fun k =>
          (lpm.tbl8 k).depth = (lpm.tbl8 ((lpm.tbl24 i).nextHop * 256)).depth) = true
      · -- all entries are of the depth of the first
        rw [if_pos hall]
        have hhop : (lpm.tbl8 ((lpm.tbl24 i).nextHop * 256)).nextHop < 2 ^ 24 :=
          hhops 0 (by decide) (_, _) hfirst.symm
        refine hdrop _ ?_ (fun _ => hd) (fun j hj => ?_)
        · rw [tblEntry_eq hhop]
          simp
        · rw [answerOf_tblEntry hhop, hfirst]
          refine hagree j hj 0 (by decide) (fun hdeep => ?_) hshallow
          obtain ⟨d, v, hV, hlt⟩ := hdeep
          rw [← hshow j hj] at hV
          by_cases hj0 : j = 0
          · subst hj0
            rw [add_zero, answerOf_of_valid hv] at hV
            have heq := congrArg Prod.fst (some.inj hV)
            dsimp only at heq
            omega
          · have hmem : (lpm.tbl24 i).nextHop * 256 + j
                ∈ List.range' ((lpm.tbl24 i).nextHop * 256 + 1) 255 := by
              rw [List.mem_range'_1]
              omega
            have heq := of_decide_eq_true (List.all_eq_true.mp hall _ hmem)
            unfold answerOf at hV
            split at hV
            · have heq' := congrArg Prod.fst (some.inj hV)
              dsimp only at heq'
              omega
            · cases hV
      · -- one entry is not, and its answer is deep
        rw [if_neg hall]
        refine hkeep ?_
        by_contra hnone
        refine hall (List.all_eq_true.mpr (fun k hk => decide_eq_true ?_))
        rw [List.mem_range'_1] at hk
        obtain ⟨j, rfl⟩ := Nat.exists_eq_add_of_le (show (lpm.tbl24 i).nextHop * 256 ≤ k by omega)
        have hj : j < 256 := by omega
        have hj' := hshow j hj
        rw [hagree j hj 0 (by decide) (fun hdeep => hnone ⟨j, hj, hdeep⟩) hshallow,
          ← hfirst] at hj'
        unfold answerOf at hj'
        split at hj'
        · exact congrArg Prod.fst (some.inj hj')
        · cases hj'
    · rw [if_neg hd]
      refine hkeep ⟨0, by decide, _, _, hfirst.symm, ?_⟩
      omega
  · rw [if_neg hv]
    rw [answerOf_of_not_valid hv] at hfirst
    have hnone : ¬ IsDeep (V i 0) := by
      rintro ⟨d, v, hV, -⟩
      rw [← hfirst] at hV
      cases hV
    by_cases hany : (List.range' ((lpm.tbl24 i).nextHop * 256 + 1) 255).any (fun k =>
        (lpm.tbl8 k).valid) = true
    · -- a valid entry behind one that is not has a deep answer
      rw [if_pos hany]
      refine hkeep ?_
      obtain ⟨k, hk, hvk⟩ := List.any_eq_true.mp hany
      rw [List.mem_range'_1] at hk
      obtain ⟨j, rfl⟩ := Nat.exists_eq_add_of_le (show (lpm.tbl24 i).nextHop * 256 ≤ k by omega)
      have hj : j < 256 := by omega
      refine ⟨j, hj, ?_⟩
      by_contra hdeep
      have hj' := hshow j hj
      rw [hagree j hj 0 (by decide) hdeep hnone, ← hfirst, answerOf_of_valid hvk] at hj'
      cases hj'
    · -- no entry is valid
      rw [if_neg hany]
      refine hdrop _ (fun hc => Bool.false_ne_true hc.1) (fun hc => absurd hc Bool.false_ne_true)
        (fun j hj => ?_)
      by_cases hj0 : j = 0
      · rw [hj0, ← hfirst]
        rfl
      · rw [← hshow j hj]
        refine answerOf_of_not_valid (fun hvj => hany (List.any_eq_true.mpr ⟨_, ?_, hvj⟩))
        rw [List.mem_range'_1]
        omega

/-- What the tables say once a rule of depth over 24 left its addresses. -/
def lowerBig (V : ℕ → ℕ → Option (ℕ × ℕ)) (ip depth : ℕ) (sub : Option (ℕ × ℕ)) :
    ℕ → ℕ → Option (ℕ × ℕ) :=
  fun i j =>
    if i = ip / 256 ∧ ip % 256 ≤ j ∧ j < ip % 256 + 2 ^ (32 - depth) then
      lower depth sub (V i j)
    else V i j

/-- What `delete_depth_big` does: it lowers the addresses of its rule. -/
theorem deleteDepthBig_spec (h : Ordered lpm lpm V) (hd : 24 < depth) (hi : ip / 256 < 2 ^ 24)
    (hrange : ip % 256 + 2 ^ (32 - depth) ≤ 256) (hsub : ∀ s ∈ sub, s.2 < 2 ^ 24)
    (hhops : ∀ j < 256, ∀ s ∈ V (ip / 256) j, s.2 < 2 ^ 24)
    (hcov : ∀ j, ip % 256 ≤ j ∧ j < ip % 256 + 2 ^ (32 - depth) → IsDeep (V (ip / 256) j))
    (hagree : Agree (lowerBig V ip depth sub (ip / 256))) :
    Ordered lpm (deleteDepthBig lpm ip depth sub) (lowerBig V ip depth sub) := by
  have hpos := Nat.two_pow_pos (32 - depth)
  have hshift : ip >>> 8 = ip / 256 := shiftRight_eq_div_pow ip 8
  have hand : ip &&& 0xff = ip % 256 := and_two_pow_sub_one_eq_mod ip 8
  have hext : Extended lpm (ip / 256) :=
    h.tables.extended_of_isDeep hi (show ip % 256 < 256 from mod_lt _ (by decide))
      (hcov _ ⟨le_refl _, by omega⟩)
  have hgroup := (h.tables.group _ hi hext).2
  -- both ways to lower the entries of the range
  have hboth : ∀ f : RteLpmTblEntry → RteLpmTblEntry,
      (∀ t : RteLpmTblEntry, t.validGroup = true → (f t).validGroup = true) →
      (∀ t : RteLpmTblEntry, t.valid = true → answerOf (f t) = lower depth sub (answerOf t)) →
      Ordered lpm
        (recycleGroup
          { lpm with
            tbl8 := Loop.mapRange ((lpm.tbl24 (ip / 256)).nextHop * 256 + ip % 256)
              (2 ^ (32 - depth)) f lpm.tbl8 }
          (ip / 256) ((lpm.tbl24 (ip / 256)).nextHop * 256))
        (lowerBig V ip depth sub) := by
    intro f hf hlower
    have hmap := h.tables.mapGroup hi hext hf hrange
    have hreads : lowerBig V ip depth sub = update V (ip / 256) (fun j =>
        if ip % 256 ≤ j ∧ j < ip % 256 + 2 ^ (32 - depth) then lower depth sub (V (ip / 256) j)
        else V (ip / 256) j) := onRange_eq_update V (lower depth sub) _ _ _
    refine recycleGroup_spec ⟨rfl, rfl, rfl, rfl, rfl, rfl⟩
      (hmap.congr (fun i' hi' j hj => ?_))
      hi hext hagree (fun j hj s hs => ?_) (fun i' hi' hne he' => ?_)
    · rw [hreads]
      by_cases hne : i' = ip / 256
      · subst hne
        rw [update_self, update_self]
        split
        next hin =>
          have hshow := h.tables.group_shows hi hext hj
          rw [hlower, hshow]
          by_contra hnv
          obtain ⟨d, v, hV, -⟩ := hcov j hin
          rw [answerOf_of_not_valid hnv, hV] at hshow
          cases hshow
        next => rfl
      · rw [update_of_ne hne, update_of_ne hne]
    · unfold lowerBig at hs
      split at hs
      · cases hV : V (ip / 256) j with
        | none =>
          rw [hV] at hs
          exact hsub s hs
        | some r =>
          rw [hV, lower_some] at hs
          split at hs
          · obtain rfl := some.inj hs
            exact hhops j hj _ hV
          · exact hsub s hs
      · exact hhops j hj s hs
    · obtain ⟨j, hj, hdeep⟩ := h.needed i' hi' he'
      refine ⟨j, hj, ?_⟩
      unfold lowerBig
      rw [if_neg (fun hc => hne hc.1)]
      exact hdeep
  unfold deleteDepthBig
  dsimp only
  rw [hshift, hand, depthToRange_of_gt hd]
  cases sub with
  | none =>
    exact hboth _ (fun t ht => by split <;> exact ht)
      (fun t ht => answerOf_delete_none depth ht)
  | some s =>
    exact hboth _ (fun t ht => by split <;> first | exact hgroup | exact ht)
      (fun t ht => answerOf_delete_some depth s.1 (hsub s rfl) _ ht)

end Lpm
