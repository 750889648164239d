import Mathlib.Data.Finset.Sort
import Mathlib.Data.Set.Finite.Lemmas
import Mathlib.Order.Bounds.Basic

/-!
# Chains in the order of their members

A doubly linked chain whose members are linked in their order. What links say
is read off the order: the next member is the one that follows (`Follows`),
the first is the least and the last the greatest. So a chain (`Chain`) needs
no list of its members, and links that are changed for a member that comes or
goes are checked one member at a time.
-/

variable {α : Type*} [LinearOrder α]

/-- **One member follows another**: no member lies between them. -/
def Follows (S : Set α) (a b : α) : Prop :=
  a ∈ S ∧ b ∈ S ∧ a < b ∧ ∀ c ∈ S, ¬ (a < c ∧ c < b)

/-- **A doubly linked chain** of the members of a set, in their order. -/
structure Chain (S : Set α) (first last : Option α) (next prev : α → Option α) : Prop where
  first_iff : ∀ a, first = some a ↔ IsLeast S a
  last_iff : ∀ a, last = some a ↔ IsGreatest S a
  next_iff : ∀ a ∈ S, ∀ b, next a = some b ↔ Follows S a b
  prev_iff : ∀ b ∈ S, ∀ a, prev b = some a ↔ Follows S a b

/-- **A list of the members in the order they are linked in.** -/
structure Linked (es : List α) (first last : Option α) (next prev : α → Option α) : Prop where
  first_eq : first = es.head?
  last_eq : last = es.getLast?
  next_eq : ∀ i (hi : i < es.length), next es[i] = es[i + 1]?
  prev_eq : ∀ i (hi : i < es.length), prev es[i] = if i = 0 then none else es[i - 1]?

open List

namespace Chain

variable {S : Set α} {first last first' last' : Option α} {next prev next' prev' : α → Option α}

theorem empty (next prev : α → Option α) : Chain (∅ : Set α) none none next prev where
  first_iff a := by simp [IsLeast]
  last_iff a := by simp [IsGreatest]
  next_iff a ha := absurd ha (Set.notMem_empty a)
  prev_iff b hb := absurd hb (Set.notMem_empty b)

section

variable (h : Chain S first last next prev)

include h

theorem follows_of_next {a b : α} (ha : a ∈ S) (hb : next a = some b) : Follows S a b :=
  (h.next_iff a ha b).mp hb

theorem follows_of_prev {a b : α} (hb : b ∈ S) (ha : prev b = some a) : Follows S a b :=
  (h.prev_iff b hb a).mp ha

theorem le_of_next_none (hS : S.Finite) {a : α} (ha : a ∈ S) (hnone : next a = none) {c : α}
    (hc : c ∈ S) : c ≤ a := by
  by_contra hlt
  obtain ⟨b, hb⟩ := Set.exists_min_image {d ∈ S | a < d} id (hS.subset (Set.sep_subset S _))
    ⟨c, hc, not_le.mp hlt⟩
  have hfollows : Follows S a b :=
    ⟨ha, hb.1.1, hb.1.2, fun d hd hbetween =>
      absurd (hb.2 d ⟨hd, hbetween.1⟩) (not_le.mpr hbetween.2)⟩
  exact absurd (hnone.symm.trans ((h.next_iff a ha b).mpr hfollows)) (by simp)

theorem le_of_prev_none (hS : S.Finite) {a : α} (ha : a ∈ S) (hnone : prev a = none) {c : α}
    (hc : c ∈ S) : a ≤ c := by
  by_contra hlt
  obtain ⟨b, hb⟩ := Set.exists_max_image {d ∈ S | d < a} id (hS.subset (Set.sep_subset S _))
    ⟨c, hc, not_le.mp hlt⟩
  have hfollows : Follows S b a :=
    ⟨hb.1.1, ha, hb.1.2, fun d hd hbetween =>
      absurd (hb.2 d ⟨hd, hbetween.2⟩) (not_le.mpr hbetween.1)⟩
  exact absurd (hnone.symm.trans ((h.prev_iff a ha b).mpr hfollows)) (by simp)

theorem eq_empty_of_first (hS : S.Finite) (hnone : first = none) : S = ∅ := by
  by_contra hne
  obtain ⟨a, ha, hle⟩ := Set.exists_min_image S id hS (Set.nonempty_iff_ne_empty.mpr hne)
  exact absurd (hnone.symm.trans ((h.first_iff a).mpr ⟨ha, hle⟩)) (by simp)

theorem eq_empty_of_last (hS : S.Finite) (hnone : last = none) : S = ∅ := by
  by_contra hne
  obtain ⟨a, ha, hle⟩ := Set.exists_max_image S id hS (Set.nonempty_iff_ne_empty.mpr hne)
  exact absurd (hnone.symm.trans ((h.last_iff a).mpr ⟨ha, hle⟩)) (by simp)

theorem congr (hnext : ∀ a ∈ S, next' a = next a) (hprev : ∀ a ∈ S, prev' a = prev a) :
    Chain S first last next' prev' where
  first_iff := h.first_iff
  last_iff := h.last_iff
  next_iff a ha b := by rw [hnext a ha, h.next_iff a ha]
  prev_iff b hb a := by rw [hprev b hb, h.prev_iff b hb]

/-- **A new member** is linked between the last member below it and the first
one above it. -/
theorem insert (p : α) (below above : Option α) (hbelow : ∀ a, below = some a → a ∈ S ∧ a < p)
    (hbelow' : ∀ c ∈ S, c < p → ∃ a, below = some a ∧ c ≤ a)
    (habove : ∀ b, above = some b → b ∈ S ∧ p < b)
    (habove' : ∀ c ∈ S, p < c → ∃ b, above = some b ∧ b ≤ c)
    (hfirst : first' = if below = none then some p else first)
    (hlast : last' = if above = none then some p else last)
    (hnext : ∀ c, c = p ∨ c ∈ S → next' c = if c = p then above else if below = some c then some p else next c)
    (hprev : ∀ c, c = p ∨ c ∈ S → prev' c = if c = p then below else if above = some c then some p else prev c)
    :
    Chain (insert p S) first' last' next' prev' where
  first_iff a := by
    rw [hfirst]
    cases hb : below with
    | none =>
      have hlow : ∀ c ∈ S, p ≤ c := by
        intro c hc
        by_contra hlt
        obtain ⟨a, ha, -⟩ := hbelow' c hc (not_le.mp hlt)
        exact absurd (hb.symm.trans ha) (by simp)
      rw [if_pos rfl, Option.some_inj]
      constructor
      · rintro rfl
        exact ⟨Or.inl rfl, fun c hc => hc.elim (fun e => e ▸ le_refl _) (hlow c)⟩
      · intro ha
        exact le_antisymm (ha.1.elim (fun e => e ▸ le_refl _) (hlow a)) (ha.2 (Or.inl rfl))
    | some b =>
      obtain ⟨hbS, hbp⟩ := hbelow b hb
      rw [if_neg (by simp), h.first_iff]
      constructor
      · intro ha
        refine ⟨Or.inr ha.1, fun c hc => hc.elim (fun e => ?_) (fun hc => ha.2 hc)⟩
        exact e ▸ le_trans (ha.2 hbS) hbp.le
      · intro ha
        have hne : a ≠ p := fun e => absurd (ha.2 (Or.inr hbS)) (not_le.mpr (e ▸ hbp))
        exact ⟨ha.1.resolve_left hne, fun c hc => ha.2 (Or.inr hc)⟩
  last_iff a := by
    rw [hlast]
    cases hb : above with
    | none =>
      have hhigh : ∀ c ∈ S, c ≤ p := by
        intro c hc
        by_contra hlt
        obtain ⟨a, ha, -⟩ := habove' c hc (not_le.mp hlt)
        exact absurd (hb.symm.trans ha) (by simp)
      rw [if_pos rfl, Option.some_inj]
      constructor
      · rintro rfl
        exact ⟨Or.inl rfl, fun c hc => hc.elim (fun e => e ▸ le_refl _) (hhigh c)⟩
      · intro ha
        exact le_antisymm (ha.2 (Or.inl rfl)) (ha.1.elim (fun e => e ▸ le_refl _) (hhigh a))
    | some b =>
      obtain ⟨hbS, hpb⟩ := habove b hb
      rw [if_neg (by simp), h.last_iff]
      constructor
      · intro ha
        refine ⟨Or.inr ha.1, fun c hc => hc.elim (fun e => ?_) (fun hc => ha.2 hc)⟩
        exact e ▸ le_trans hpb.le (ha.2 hbS)
      · intro ha
        have hne : a ≠ p := fun e => absurd (ha.2 (Or.inr hbS)) (not_le.mpr (e ▸ hpb))
        exact ⟨ha.1.resolve_left hne, fun c hc => ha.2 (Or.inr hc)⟩
  next_iff a ha b := by
    have hold := h.next_iff a
    have haside := lt_trichotomy a p
    have hbside := lt_trichotomy b p
    simp only [Follows, Set.mem_insert_iff, forall_eq_or_imp] at hold ha ⊢
    rw [hnext a ha]
    grind
  prev_iff b hb a := by
    have hold := h.prev_iff b
    have haside := lt_trichotomy a p
    have hbside := lt_trichotomy b p
    simp only [Follows, Set.mem_insert_iff, forall_eq_or_imp] at hold hb ⊢
    rw [hprev b hb]
    grind

/-- **A member that goes** is bridged by the one before it, which takes its
next member. -/
theorem erase (hS : S.Finite) {a b : α} (ha : a ∈ S) (hab : next a = some b)
    (hlast : last' = if next b = none then some a else last)
    (hnext : ∀ c ∈ S, next' c = if c = a then next b else next c)
    (hprev : ∀ c ∈ S, prev' c = if next b = some c then some a else prev c) :
    Chain (S \ {b}) first last' next' prev' where
  first_iff c := by
    have hfollows := h.follows_of_next ha hab
    have hold := h.first_iff c
    simp only [Follows, IsLeast, lowerBounds, Set.mem_sdiff, Set.mem_singleton_iff,
      Set.mem_ofPred_eq] at hold hfollows ⊢
    rw [hold]
    constructor
    · intro hc
      refine ⟨⟨hc.1, ?_⟩, fun d hd => hc.2 hd.1⟩
      rintro rfl
      exact absurd (hc.2 ha) (not_le.mpr hfollows.2.2.1)
    · intro hc
      refine ⟨hc.1.1, fun d hd => ?_⟩
      by_cases hdb : d = b
      · subst hdb
        exact le_trans (hc.2 ⟨ha, hfollows.2.2.1.ne⟩) hfollows.2.2.1.le
      · exact hc.2 ⟨hd, hdb⟩
  last_iff c := by
    have hfollows := h.follows_of_next ha hab
    rw [hlast]
    cases hb : next b with
    | none =>
      have hhigh : ∀ d ∈ S, d ≤ b := fun d hd => h.le_of_next_none hS hfollows.2.1 hb hd
      have hlow : ∀ d ∈ S, d ≠ b → d ≤ a := fun d hd hdb =>
        not_lt.mp (fun hlt => hfollows.2.2.2 d hd ⟨hlt, lt_of_le_of_ne (hhigh d hd) hdb⟩)
      have hmem : a ∈ S \ {b} := ⟨ha, hfollows.2.2.1.ne⟩
      rw [if_pos rfl, Option.some_inj]
      constructor
      · rintro rfl
        exact ⟨hmem, fun d hd => hlow d hd.1 hd.2⟩
      · intro hc
        exact le_antisymm (hc.2 hmem) (hlow c hc.1.1 hc.1.2)
    | some d =>
      have hbd := h.follows_of_next hfollows.2.1 hb
      rw [if_neg (by simp), h.last_iff]
      constructor
      · intro hc
        refine ⟨⟨hc.1, ?_⟩, fun e he => hc.2 he.1⟩
        rintro rfl
        exact absurd (hc.2 hbd.2.1) (not_le.mpr hbd.2.2.1)
      · intro hc
        refine ⟨hc.1.1, fun e he => ?_⟩
        by_cases heb : e = b
        · subst heb
          exact le_trans hbd.2.2.1.le (hc.2 ⟨hbd.2.1, hbd.2.2.1.ne'⟩)
        · exact hc.2 ⟨he, heb⟩
  next_iff c hc d := by
    have hfollows := h.follows_of_next ha hab
    have hb := h.next_iff b hfollows.2.1
    have hold := h.next_iff c
    simp only [Follows, Set.mem_sdiff, Set.mem_singleton_iff] at hb hold hc hfollows ⊢
    rw [hnext c hc.1]
    grind
  prev_iff d hd c := by
    have hfollows := h.follows_of_next ha hab
    have hb := h.next_iff b hfollows.2.1
    have hold := h.prev_iff d
    simp only [Follows, Set.mem_sdiff, Set.mem_singleton_iff] at hb hold hd hfollows ⊢
    rw [hprev d hd.1]
    grind

end

theorem lt_of_index {es : List α} (hsorted : es.Pairwise (· < ·)) {i j : ℕ} (hi : i < es.length)
    (hj : j < es.length) (hlt : es[i] < es[j]) : i < j := by
  by_contra hge
  rcases Nat.eq_or_lt_of_le (Nat.le_of_not_lt hge) with heq | hgt
  · subst heq
    exact lt_irrefl _ hlt
  · exact lt_asymm hlt (pairwise_iff_getElem.mp hsorted j i hj hi hgt)

/-- The links lead through the members in their order. -/
theorem exists_list (h : Chain S first last next prev) (hS : S.Finite) :
    ∃ es : List α, es.Pairwise (· < ·) ∧ (∀ a, a ∈ es ↔ a ∈ S) ∧ Linked es first last next prev := by
  have hsorted : (hS.toFinset.sort (· ≤ ·)).Pairwise (· < ·) :=
    (Finset.sortedLT_sort hS.toFinset).pairwise
  have hmem : ∀ a, a ∈ hS.toFinset.sort (· ≤ ·) ↔ a ∈ S := fun a => by simp
  generalize hS.toFinset.sort (· ≤ ·) = es at hsorted hmem
  have horder := pairwise_iff_getElem.mp hsorted
  -- neighbours in the list follow each other
  have hfollows : ∀ i (hi : i + 1 < es.length), Follows S es[i] es[i + 1] := by
    intro i hi
    refine ⟨(hmem _).mp (getElem_mem _), (hmem _).mp (getElem_mem _),
      horder i (i + 1) (by omega) hi (by omega), fun c hc hbetween => ?_⟩
    obtain ⟨j, hj, rfl⟩ := mem_iff_getElem.mp ((hmem c).mpr hc)
    have hij := lt_of_index hsorted (by omega) hj hbetween.1
    have hji := lt_of_index hsorted hj hi hbetween.2
    omega
  refine ⟨es, hsorted, hmem, ?_⟩
  constructor
  · cases hes : es with
    | nil =>
      cases hf : first with
      | none => rfl
      | some a =>
        have ha := (hmem a).mpr ((h.first_iff a).mp hf).1
        simp [hes] at ha
    | cons a t =>
      subst hes
      refine (h.first_iff a).mpr ⟨(hmem a).mp mem_cons_self, fun c hc => ?_⟩
      obtain ⟨j, hj, rfl⟩ := mem_iff_getElem.mp ((hmem c).mpr hc)
      rcases Nat.eq_zero_or_pos j with rfl | hpos
      · exact le_refl a
      · exact (horder 0 j (by simp) hj hpos).le
  · rw [getLast?_eq_getElem?]
    rcases Nat.eq_zero_or_pos es.length with hzero | hpos
    · rw [getElem?_eq_none (by omega)]
      cases hl : last with
      | none => rfl
      | some a =>
        have ha := (hmem a).mpr ((h.last_iff a).mp hl).1
        rw [length_eq_zero_iff.mp hzero] at ha
        exact absurd ha (not_mem_nil)
    · rw [getElem?_eq_getElem (by omega)]
      refine (h.last_iff _).mpr ⟨(hmem _).mp (getElem_mem _), fun c hc => ?_⟩
      obtain ⟨j, hj, rfl⟩ := mem_iff_getElem.mp ((hmem c).mpr hc)
      rcases Nat.eq_or_lt_of_le (by omega : j ≤ es.length - 1) with heq | hlt
      · exact le_of_eq (by simp only [heq])
      · exact (horder j (es.length - 1) hj (by omega) hlt).le
  · intro i hi
    have hmemi : es[i] ∈ S := (hmem _).mp (getElem_mem _)
    rcases Nat.lt_or_ge (i + 1) es.length with hlt | hge
    · rw [getElem?_eq_getElem hlt, h.next_iff _ hmemi]
      exact hfollows i hlt
    · rw [getElem?_eq_none hge]
      cases hn : next es[i] with
      | none => rfl
      | some b =>
        have hb := h.follows_of_next hmemi hn
        obtain ⟨j, hj, rfl⟩ := mem_iff_getElem.mp ((hmem b).mpr hb.2.1)
        have hij := lt_of_index hsorted hi hj hb.2.2.1
        omega
  · intro i hi
    have hmemi : es[i] ∈ S := (hmem _).mp (getElem_mem _)
    cases i with
    | zero =>
      cases hp : prev es[0] with
      | none => rfl
      | some a =>
        have ha := h.follows_of_prev hmemi hp
        obtain ⟨j, hj, rfl⟩ := mem_iff_getElem.mp ((hmem a).mpr ha.1)
        exact absurd (lt_of_index hsorted hj hi ha.2.2.1) (Nat.not_lt_zero j)
    | succ i =>
      rw [if_neg (Nat.succ_ne_zero i), Nat.add_sub_cancel,
        getElem?_eq_getElem (by omega : i < es.length), h.prev_iff _ hmemi]
      exact hfollows i hi

end Chain
