import DpdkStudy.Malloc.Shape

/-!
# Free and busy elements

Between two operations a heap is settled (`Settled`): the free elements are
those on the free lists, none of them can be joined with another, and each
area of data lies in a busy element of its own. While an element is taken out
to be joined, split or handed out, the same holds of the others (`Loose`).
-/

namespace Malloc

open Function

variable {cfg : Config} {rs : List Region} {S : Set ℕ} {h h' : Heap}

/-! ## The free lists -/

/-- **A set of elements is listed**: each of them once, on the list of its
size. -/
structure Listed (F : Set ℕ) (h : Heap) : Prop where
  mem_iff : ∀ i x, x ∈ h.free_head i ↔
    x ∈ F ∧ i = mallocElemFreeListIndex (h.size x - headerLen)
  nodup : ∀ i, (h.free_head i).Nodup

namespace Listed

variable {F : Set ℕ}

theorem congr (hl : Listed F h) (hlists : h'.free_head = h.free_head)
    (hsize : ∀ x ∈ F, h'.size x = h.size x) : Listed F h' where
  mem_iff i x := by
    rw [hlists, hl.mem_iff]
    constructor
    · rintro ⟨hx, hi⟩
      exact ⟨hx, by rw [hsize x hx]; exact hi⟩
    · rintro ⟨hx, hi⟩
      exact ⟨hx, by rw [hsize x hx] at hi; exact hi⟩
  nodup := by
    rw [hlists]
    exact hl.nodup

theorem remove (hl : Listed F h) (a : ℕ) : Listed (F \ {a}) (mallocElemFreeListRemove h a) where
  mem_iff i x := by
    change x ∈ (h.free_head i).erase a ↔ _ ∧ i = mallocElemFreeListIndex (h.size x - headerLen)
    rw [(hl.nodup i).mem_erase_iff, hl.mem_iff, Set.mem_sdiff, Set.mem_singleton_iff]
    tauto
  nodup i := (hl.nodup i).erase a

theorem insert (hl : Listed F h) {a : ℕ} (ha : a ∉ F) :
    Listed (insert a F) (mallocElemFreeListInsert h a) where
  mem_iff i x := by
    have hmem := hl.mem_iff i x
    simp only [mallocElemFreeListInsert, update_apply, Set.mem_insert_iff]
    split_ifs with hi
    · rw [← hi, List.mem_cons, hmem]
      constructor
      · rintro (rfl | hx)
        · exact ⟨Or.inl rfl, hi⟩
        · exact ⟨Or.inr hx.1, hx.2⟩
      · rintro ⟨rfl | hx, hidx⟩
        · exact Or.inl rfl
        · exact Or.inr ⟨hx, hidx⟩
    · rw [hmem]
      constructor
      · exact fun hx => ⟨Or.inr hx.1, hx.2⟩
      · rintro ⟨rfl | hx, hidx⟩
        · exact absurd hidx hi
        · exact ⟨hx, hidx⟩
  nodup i := by
    simp only [mallocElemFreeListInsert, update_apply]
    split_ifs with hi
    · refine List.nodup_cons.mpr ⟨fun hmem => ha ((hl.mem_iff _ a).mp hmem).1, ?_⟩
      exact hl.nodup _
    · exact hl.nodup i

end Listed

/-! ## The areas of data -/

/-- **An area of data** that was asked for and is not freed yet: where it is,
how much was asked for, and how it is aligned. -/
structure Area where
  data : ℕ
  size : ℕ
  align : ℕ

/-- **An element holds an area.** If the element is padded there is a header
in the padding, in front of the data. -/
structure Holds (cfg : Config) (S : Set ℕ) (h : Heap) (e : ℕ) (d : Area) : Prop where
  mem : e ∈ S
  busy : h.state e = .busy
  data_eq : d.data = e + h.pad e + headerLen
  fits : d.data + d.size + cfg.trailerLen ≤ e + h.size e
  aligned : d.align ∣ d.data
  inner : h.pad e ≠ 0 → h.state (e + h.pad e) = .pad ∧ h.pad (e + h.pad e) = h.pad e ∧
    h.size (e + h.pad e) = h.size e - h.pad e

namespace Holds

variable {e : ℕ} {d : Area}

theorem fromData (hd : Holds cfg S h e d) : mallocElemFromData h d.data = e := by
  have helem : d.data - headerLen = e + h.pad e := by
    rw [hd.data_eq]
    omega
  rw [mallocElemFromData, helem]
  by_cases hpad : h.pad e = 0
  · simp [hpad, hd.busy]
  · obtain ⟨hstate, hpad', -⟩ := hd.inner hpad
    simp [hstate, hpad']

theorem pad_lt (hd : Holds cfg S h e d) : h.pad e < h.size e := by
  have hdata := hd.data_eq
  have hfits := hd.fits
  simp only [headerLen] at hdata
  omega

theorem header_ne (hd : Holds cfg S h e d) (hs : Shape cfg rs S h) {a i x : ℕ} (ha : a ∈ S)
    (hne : e ≠ a) (hi : i < h.size a) (hx : x = e ∨ x = e + h.pad e) : x ≠ a + i := by
  rcases hx with rfl | rfl
  · simpa using hs.add_ne hd.mem ha hne (hs.size_pos hd.mem) hi
  · exact hs.add_ne hd.mem ha hne hd.pad_lt hi

/-- An element holds its area as long as its headers stay. -/
theorem congr {S' : Set ℕ} (hd : Holds cfg S h e d) (hmem : e ∈ S')
    (hstate : ∀ x, x = e ∨ x = e + h.pad e → h'.state x = h.state x)
    (hpad : ∀ x, x = e ∨ x = e + h.pad e → h'.pad x = h.pad x)
    (hsize : ∀ x, x = e ∨ x = e + h.pad e → h'.size x = h.size x) : Holds cfg S' h' e d where
  mem := hmem
  busy := by rw [hstate e (Or.inl rfl), hd.busy]
  data_eq := by rw [hpad e (Or.inl rfl), hd.data_eq]
  fits := by
    rw [hsize e (Or.inl rfl)]
    exact hd.fits
  aligned := hd.aligned
  inner := by
    rw [hpad e (Or.inl rfl), hstate _ (Or.inr rfl), hpad _ (Or.inr rfl), hsize _ (Or.inr rfl),
      hsize e (Or.inl rfl)]
    exact hd.inner

end Holds

/-! ## Heaps at rest, and with one element taken out -/

/-- **A heap at rest.** -/
structure Settled (cfg : Config) (rs : List Region) (S : Set ℕ) (h : Heap) (areas : List Area) :
    Prop where
  shape : Shape cfg rs S h
  listed : Listed {x | x ∈ S ∧ h.state x = .free} h
  unpadded : ∀ x ∈ S, h.state x = .free → h.pad x = 0
  coalesced : ∀ x ∈ S, ∀ y ∈ S, h.state x = .free → h.state y = .free → ¬ Adjacent cfg h x y
  state : ∀ x ∈ S, h.state x ≠ .pad
  held : ∀ d ∈ areas, ∃ e, Holds cfg S h e d
  distinct : (areas.map Area.data).Nodup

/-- **A heap with one element taken out.** -/
structure Loose (cfg : Config) (rs : List Region) (S : Set ℕ) (h : Heap) (areas : List Area)
    (a : ℕ) : Prop where
  shape : Shape cfg rs S h
  mem : a ∈ S
  pad_lt : h.pad a < h.size a
  listed : Listed {x | x ∈ S ∧ x ≠ a ∧ h.state x = .free} h
  unpadded : ∀ x ∈ S, x ≠ a → h.state x = .free → h.pad x = 0
  coalesced : ∀ x ∈ S, ∀ y ∈ S, x ≠ a → y ≠ a → h.state x = .free → h.state y = .free →
    ¬ Adjacent cfg h x y
  state : ∀ x ∈ S, x ≠ a → h.state x ≠ .pad
  held : ∀ d ∈ areas, ∃ e, e ≠ a ∧ Holds cfg S h e d
  distinct : (areas.map Area.data).Nodup

namespace Loose

variable {areas : List Area} {a n p : ℕ}

theorem join_next (hl : Loose cfg rs S h areas a) (hn : h.next a = some n)
    (hfree : h.state n = .free) (hadj : Adjacent cfg h a n) :
    Loose cfg rs (S \ {n}) (joinElem (mallocElemFreeListRemove h n) a n) areas a := by
  obtain ⟨-, hnS, han, -⟩ := hl.shape.chain.follows_of_next hl.mem hn
  have hne : n ≠ a := by omega
  have hshape : Shape cfg rs S (mallocElemFreeListRemove h n) :=
    hl.shape.congr rfl rfl rfl rfl rfl rfl (fun _ _ => rfl)
  have hsize : ∀ x ∈ S, x ≠ a →
      (joinElem (mallocElemFreeListRemove h n) a n).size x = h.size x := by
    intro x hx hxa
    rw [joinElem_size_mem hshape hl.mem hl.pad_lt hx, if_neg hxa]
    rfl
  constructor
  · exact hshape.join hl.mem hn hadj hl.pad_lt
  · exact ⟨hl.mem, fun h => hne h.symm⟩
  · rw [joinElem_pad, joinElem_size_mem hshape hl.mem hl.pad_lt hl.mem, if_pos rfl]
    exact Nat.lt_add_right _ hl.pad_lt
  · have hset : {x | x ∈ S \ {n} ∧ x ≠ a ∧
        (joinElem (mallocElemFreeListRemove h n) a n).state x = .free} =
        {x | x ∈ S ∧ x ≠ a ∧ h.state x = .free} \ {n} := by
      ext x
      rw [joinElem_state]
      simp only [Set.mem_sdiff, Set.mem_singleton_iff, Set.mem_ofPred_eq]
      exact ⟨fun hx => ⟨⟨hx.1.1, hx.2⟩, hx.1.2⟩, fun hx => ⟨⟨hx.1.1, hx.2⟩, hx.1.2⟩⟩
    rw [hset]
    refine (hl.listed.remove n).congr joinElem_free_head (fun x hx => ?_)
    exact hsize x hx.1.1 hx.1.2.1
  · intro x hx hxa hxfree
    rw [joinElem_state] at hxfree
    rw [joinElem_pad]
    exact hl.unpadded x hx.1 hxa hxfree
  · intro x hx y hy hxa hya hxfree hyfree
    rw [joinElem_state] at hxfree hyfree
    unfold Adjacent
    rw [hsize x hx.1 hxa, joinElem_msl, joinElem_orig_elem]
    exact hl.coalesced x hx.1 y hy.1 hxa hya hxfree hyfree
  · intro x hx hxa
    rw [joinElem_state]
    exact hl.state x hx.1 hxa
  · intro d hd
    obtain ⟨e, hea, he⟩ := hl.held d hd
    have hen : e ≠ n := by
      rintro rfl
      exact absurd (he.busy.symm.trans hfree) (by decide)
    refine ⟨e, hea, he.congr ⟨he.mem, hen⟩ (fun x _ => by rw [joinElem_state]; rfl)
      (fun x _ => by rw [joinElem_pad]; rfl) (fun x hx => ?_)⟩
    rw [joinElem_size, if_neg, if_neg]
    · rfl
    · exact he.header_ne hl.shape hl.mem hea (hl.shape.size_pos hl.mem) hx
    · exact fun h => he.header_ne hl.shape hl.mem hea hl.pad_lt hx h.2
  · exact hl.distinct

/-- The previous element is joined, if it is free, and stands for both. -/
theorem join_prev (hl : Loose cfg rs S h areas a) (hp : h.prev a = some p)
    (hfree : h.state p = .free) (hadj : Adjacent cfg h p a) :
    Loose cfg rs (S \ {a}) (joinElem (mallocElemFreeListRemove h p) p a) areas p := by
  have hfollows := hl.shape.chain.follows_of_prev hl.mem hp
  have hpS : p ∈ S := hfollows.1
  have hne : p ≠ a := hfollows.2.2.1.ne
  have hpad : h.pad p = 0 := hl.unpadded p hpS hne hfree
  have hnext : h.next p = some a := (hl.shape.chain.next_iff p hpS a).mpr hfollows
  have hshape : Shape cfg rs S (mallocElemFreeListRemove h p) :=
    hl.shape.congr rfl rfl rfl rfl rfl rfl (fun _ _ => rfl)
  have hpad_lt : (mallocElemFreeListRemove h p).pad p < (mallocElemFreeListRemove h p).size p := by
    change h.pad p < h.size p
    rw [hpad]
    exact hl.shape.size_pos hpS
  have hsize : ∀ x, x ≠ p → (joinElem (mallocElemFreeListRemove h p) p a).size x = h.size x := by
    intro x hxp
    rw [joinElem_size, if_neg (fun h => h.1 hpad), if_neg hxp]
    rfl
  constructor
  · exact hshape.join hpS hnext hadj hpad_lt
  · exact ⟨hpS, hne⟩
  · rw [joinElem_pad, joinElem_size_mem hshape hpS hpad_lt hpS, if_pos rfl]
    exact Nat.lt_add_right _ hpad_lt
  · have hset : {x | x ∈ S \ {a} ∧ x ≠ p ∧
        (joinElem (mallocElemFreeListRemove h p) p a).state x = .free} =
        {x | x ∈ S ∧ x ≠ a ∧ h.state x = .free} \ {p} := by
      ext x
      rw [joinElem_state]
      simp only [Set.mem_sdiff, Set.mem_singleton_iff, Set.mem_ofPred_eq]
      exact ⟨fun hx => ⟨⟨hx.1.1, hx.1.2, hx.2.2⟩, hx.2.1⟩,
        fun hx => ⟨⟨hx.1.1, hx.1.2.1⟩, hx.2, hx.1.2.2⟩⟩
    rw [hset]
    exact (hl.listed.remove p).congr joinElem_free_head (fun x hx => hsize x hx.2)
  · intro x hx _ hxfree
    rw [joinElem_state] at hxfree
    rw [joinElem_pad]
    exact hl.unpadded x hx.1 hx.2 hxfree
  · intro x hx y hy hxp _ hxfree hyfree
    rw [joinElem_state] at hxfree hyfree
    unfold Adjacent
    rw [hsize x hxp, joinElem_msl, joinElem_orig_elem]
    exact hl.coalesced x hx.1 y hy.1 hx.2 hy.2 hxfree hyfree
  · intro x hx _
    rw [joinElem_state]
    exact hl.state x hx.1 hx.2
  · intro d hd
    obtain ⟨e, hea, he⟩ := hl.held d hd
    have hep : e ≠ p := by
      rintro rfl
      exact absurd (he.busy.symm.trans hfree) (by decide)
    refine ⟨e, hep, he.congr ⟨he.mem, hea⟩ (fun x _ => by rw [joinElem_state]; rfl)
      (fun x _ => by rw [joinElem_pad]; rfl) (fun x hx => hsize x ?_)⟩
    exact he.header_ne hl.shape hpS hep (hl.shape.size_pos hpS) hx
  · exact hl.distinct

/-- **After the first half of a join** no free element can be joined behind. -/
theorem joinNextFree_spec (hl : Loose cfg rs S h areas a) :
    ∃ S', Loose cfg rs S' (joinNextFree cfg h a) areas a ∧ (joinNextFree cfg h a).pad = h.pad ∧
      ∀ x ∈ S', x ≠ a → (joinNextFree cfg h a).state x = .free →
        ¬ Adjacent cfg (joinNextFree cfg h a) a x := by
  rw [joinNextFree]
  cases hn : h.next a with
  | none =>
    refine ⟨S, hl, rfl, fun x hx _ _ hadj => ?_⟩
    have hle := hl.shape.chain.le_of_next_none hl.shape.finite hl.mem hn hx
    have hpos := hl.shape.size_pos hl.mem
    have haddr := hadj.1
    omega
  | some n =>
    obtain ⟨-, hnS, han, hbetween⟩ := hl.shape.chain.follows_of_next hl.mem hn
    by_cases hjoin : h.state n = .free ∧ Adjacent cfg h a n
    · simp only [if_pos hjoin]
      obtain ⟨hfree, hadj⟩ := hjoin
      refine ⟨S \ {n}, hl.join_next hn hfree hadj, joinElem_pad, fun x hx hxa hxfree hax => ?_⟩
      rw [joinElem_state] at hxfree
      refine hl.coalesced n hnS x hx.1 (by omega) hxa hfree hxfree ?_
      -- what is behind the joined element is behind the next one
      obtain ⟨haddr, hmsl, horig⟩ := hax
      rw [joinElem_msl] at hmsl
      rw [joinElem_orig_elem] at horig
      have hshape : Shape cfg rs S (mallocElemFreeListRemove h n) :=
        hl.shape.congr rfl rfl rfl rfl rfl rfl (fun _ _ => rfl)
      rw [joinElem_size_mem hshape hl.mem hl.pad_lt hl.mem, if_pos rfl] at haddr
      refine ⟨?_, hmsl.trans hadj.2.1.symm, fun hm => (hadj.2.2 hm).symm.trans (horig hm)⟩
      have hend := hadj.1
      change x = a + (h.size a + h.size n) at haddr
      omega
    · simp only [if_neg hjoin]
      refine ⟨S, hl, trivial, fun x hx hxa hxfree hadj => hjoin ?_⟩
      have hxn : x = n := by
        have hpos := hl.shape.size_pos hl.mem
        have hax := hadj.1
        rcases lt_trichotomy x n with hlt | heq | hgt
        · exact absurd ⟨by omega, hlt⟩ (hbetween x hx)
        · exact heq
        · have hapart := hl.shape.apart a hl.mem n hnS han
          omega
      subst hxn
      exact ⟨hxfree, hadj⟩

/-- Who ends where an element starts is the previous one. -/
theorem eq_of_ends (hs : Shape cfg rs S h) (ha : a ∈ S) (hp : h.prev a = some p) {x : ℕ}
    (hx : x ∈ S) (hend : a = x + h.size x) : x = p := by
  obtain ⟨hpS, -, hpa, hbetween⟩ := hs.chain.follows_of_prev ha hp
  have hpos := hs.size_pos hx
  rcases lt_trichotomy x p with hlt | heq | hgt
  · have hapart := hs.apart x hx p hpS hlt
    omega
  · exact heq
  · exact absurd ⟨hgt, by omega⟩ (hbetween x hx)

/-- An element that cannot be joined with a free one. -/
def Lone (cfg : Config) (S : Set ℕ) (h : Heap) (a : ℕ) : Prop :=
  ∀ x ∈ S, x ≠ a → h.state x = .free → ¬ Adjacent cfg h a x ∧ ¬ Adjacent cfg h x a

/-- **After both halves of a join** the element that is left cannot be joined
with a free one. -/
theorem join_spec (hl : Loose cfg rs S h areas a) :
    ∃ S', Loose cfg rs S' (mallocElemJoinAdjacentFree cfg h a).1 areas
        (mallocElemJoinAdjacentFree cfg h a).2 ∧
      Lone cfg S' (mallocElemJoinAdjacentFree cfg h a).1 (mallocElemJoinAdjacentFree cfg h a).2 ∧
      (h.pad a = 0 → (mallocElemJoinAdjacentFree cfg h a).1.pad
        (mallocElemJoinAdjacentFree cfg h a).2 = 0) := by
  obtain ⟨S', hl', hpads, hbehind⟩ := hl.joinNextFree_spec
  rw [mallocElemJoinAdjacentFree, ← hpads]
  generalize joinNextFree cfg h a = g at hl' hbehind ⊢
  rw [joinPrevFree]
  cases hp : g.prev a with
  | none =>
    refine ⟨S', hl', fun x hx hxa hxfree => ⟨hbehind x hx hxa hxfree, fun hadj => ?_⟩, id⟩
    change Adjacent cfg g x a at hadj
    have hle := hl'.shape.chain.le_of_prev_none hl'.shape.finite hl'.mem hp hx
    have hpos := hl'.shape.size_pos hx
    have haddr := hadj.1
    omega
  | some p =>
    by_cases hjoin : g.state p = .free ∧ Adjacent cfg g p a
    · simp only [if_pos hjoin]
      obtain ⟨hfree, hadj⟩ := hjoin
      have hpS : p ∈ S' := (hl'.shape.chain.follows_of_prev hl'.mem hp).1
      have hpa : p ≠ a := (hl'.shape.chain.follows_of_prev hl'.mem hp).2.2.1.ne
      have hpad : g.pad p = 0 := hl'.unpadded p hpS hpa hfree
      have hsize : ∀ x, (joinElem (mallocElemFreeListRemove g p) p a).size x =
          if x = p then g.size p + g.size a else g.size x := by
        intro x
        rw [joinElem_size, if_neg (fun h => h.1 hpad)]
        rfl
      refine ⟨_, hl'.join_prev hp hfree hadj, fun x hx hxp hxfree => ⟨?_, ?_⟩, fun _ => ?_⟩
      · rintro ⟨haddr, hmsl, horig⟩
        rw [joinElem_state] at hxfree
        refine hbehind x hx.1 hx.2 hxfree ?_
        rw [joinElem_msl] at hmsl
        rw [joinElem_orig_elem] at horig
        rw [hsize, if_pos rfl] at haddr
        refine ⟨?_, hmsl.trans hadj.2.1.symm, fun hm => (hadj.2.2 hm).symm.trans (horig hm)⟩
        have hend := hadj.1
        omega
      · intro hxadj
        rw [joinElem_state] at hxfree
        unfold Adjacent at hxadj
        rw [hsize, if_neg hxp, joinElem_msl, joinElem_orig_elem] at hxadj
        exact hl'.coalesced x hx.1 p hpS hx.2 hpa hxfree hfree hxadj
      · rw [joinElem_pad]
        exact hpad
    · simp only [if_neg hjoin]
      refine ⟨S', hl', fun x hx hxa hxfree => ⟨hbehind x hx hxa hxfree, fun hadj => hjoin ?_⟩, id⟩
      have hxp : x = p := eq_of_ends hl'.shape hl'.mem hp hx hadj.1
      subst hxp
      exact ⟨hxfree, hadj⟩

theorem settle (hl : Loose cfg rs S h areas a) (hlone : Lone cfg S h a) :
    Settled cfg rs S
      { mallocElemFreeListInsert h a with
        pad := update (mallocElemFreeListInsert h a).pad a 0 } areas := by
  have hset : {x | x ∈ S ∧ update h.state a .free x = .free} =
      insert a {x | x ∈ S ∧ x ≠ a ∧ h.state x = .free} := by
    ext x
    by_cases hxa : x = a
    · subst hxa
      simp [hl.mem]
    · simp [hxa, update_apply]
  have hother : ∀ x, x ≠ a → update h.state a .free x = h.state x :=
    fun x hx => update_of_ne hx _ _
  constructor
  · exact hl.shape.congr rfl rfl rfl rfl rfl rfl (fun _ _ => rfl)
  · change Listed {x | x ∈ S ∧ update h.state a .free x = .free} _
    rw [hset]
    exact (hl.listed.insert (fun hmem => hmem.2.1 rfl)).congr rfl (fun _ _ => rfl)
  · intro x hx hxfree
    change update h.pad a 0 x = 0
    by_cases hxa : x = a
    · rw [hxa, update_self]
    · rw [update_of_ne hxa]
      exact hl.unpadded x hx hxa ((hother x hxa).symm.trans hxfree)
  · intro x hx y hy hxfree hyfree hadj
    by_cases hxa : x = a
    · subst hxa
      have hyx : y ≠ x := by
        have hpos := hl.shape.size_pos hx
        have haddr : y = x + h.size x := hadj.1
        omega
      exact (hlone y hy hyx ((hother y hyx).symm.trans hyfree)).1 hadj
    · have hxfree' : h.state x = .free := (hother x hxa).symm.trans hxfree
      by_cases hya : y = a
      · subst hya
        exact (hlone x hx hxa hxfree').2 hadj
      · exact hl.coalesced x hx y hy hxa hya hxfree' ((hother y hya).symm.trans hyfree) hadj
  · intro x hx
    change update h.state a .free x ≠ .pad
    by_cases hxa : x = a
    · rw [hxa, update_self]
      exact fun h => nomatch h
    · rw [hother x hxa]
      exact hl.state x hx hxa
  · intro d hd
    obtain ⟨e, hea, he⟩ := hl.held d hd
    have hne : ∀ x, x = e ∨ x = e + h.pad e → x ≠ a := fun x hx => by
      simpa using he.header_ne hl.shape hl.mem hea (hl.shape.size_pos hl.mem) hx
    exact ⟨e, he.congr he.mem (fun x hx => update_of_ne (hne x hx) _ _)
      (fun x hx => update_of_ne (hne x hx) _ _) (fun _ _ => rfl)⟩
  · exact hl.distinct

/-- **A free element is split off** behind an element, if nothing free follows. -/
theorem split_off (hl : Loose cfg rs S h areas a)
    (hbehind : ∀ x ∈ S, x ≠ a → h.state x = .free → ¬ Adjacent cfg h a x) {t : ℕ}
    (hat : a + cfg.overhead ≤ t) (hte : t + cfg.overhead ≤ a + h.size a) (ht : cacheLine ∣ t)
    (hpad : a + h.pad a < t) :
    Loose cfg rs (insert t S) (mallocElemFreeListInsert (splitElem h a t) t) areas a := by
  have hover : 0 < cfg.overhead := Nat.add_pos_left (by decide) _
  have hlt : a < t := by omega
  have htS : t ∉ S := hl.shape.notMem_inside hl.mem hlt (by omega)
  have hsize : ∀ x, x = t ∨ x ∈ S → (splitElem h a t).size x =
      if x = a then t - a else if x = t then h.size a - (t - a) else h.size x :=
    fun x hx => splitElem_size_mem hl.shape hl.mem hlt (by omega) hpad hx
  have hstate : ∀ x, (mallocElemFreeListInsert (splitElem h a t) t).state x =
      if x = t then .free else h.state x := by
    intro x
    change update (splitElem h a t).state t .free x = _
    rw [splitElem_state, update_apply, update_apply]
    split_ifs <;> rfl
  have hne : ∀ x ∈ S, x ≠ t := fun x hx e => htS (e ▸ hx)
  constructor
  · exact (hl.shape.split hl.mem hat hte ht hpad).congr rfl rfl rfl rfl rfl rfl (fun _ _ => rfl)
  · exact Or.inr hl.mem
  · change (splitElem h a t).pad a < (splitElem h a t).size a
    rw [splitElem_pad, update_of_ne hlt.ne, hsize a (Or.inr hl.mem), if_pos rfl]
    omega
  · have hset : {x | x ∈ insert t S ∧ x ≠ a ∧
        (mallocElemFreeListInsert (splitElem h a t) t).state x = .free} =
        insert t {x | x ∈ S ∧ x ≠ a ∧ h.state x = .free} := by
      ext x
      simp only [hstate, Set.mem_ofPred_eq, Set.mem_insert_iff]
      by_cases hxt : x = t
      · subst hxt
        simp [hlt.ne']
      · simp [hxt]
    rw [hset]
    refine (Listed.congr hl.listed splitElem_free_head (fun x hx => ?_)).insert (fun h => htS h.1)
    rw [hsize x (Or.inr hx.1), if_neg hx.2.1, if_neg (hne x hx.1)]
  · intro x hx hxa hxfree
    change (splitElem h a t).pad x = 0
    rw [splitElem_pad, update_apply]
    split_ifs with hxt
    · rfl
    · rw [hstate, if_neg hxt] at hxfree
      exact hl.unpadded x (hx.resolve_left hxt) hxa hxfree
  · intro x hx y hy hxa hya hxfree hyfree hadj
    obtain ⟨haddr, hmsl, horig⟩ := hadj
    change y = x + (splitElem h a t).size x at haddr
    change (splitElem h a t).msl y = (splitElem h a t).msl x at hmsl
    change _ → (splitElem h a t).orig_elem x = (splitElem h a t).orig_elem y at horig
    rw [splitElem_msl, update_apply, update_apply] at hmsl
    rw [splitElem_orig_elem, update_apply, update_apply] at horig
    rw [hsize x hx, if_neg hxa] at haddr
    rw [hstate] at hxfree hyfree
    by_cases hxt : x = t
    · -- what is behind the new element was behind the old one
      rw [if_pos hxt] at haddr hmsl horig
      have hyt : y ≠ t := by omega
      rw [if_neg hyt] at hmsl horig hyfree
      exact hbehind y (hy.resolve_left hyt) hya hyfree ⟨by omega, hmsl, horig⟩
    · rw [if_neg hxt] at haddr hmsl horig hxfree
      have hxS : x ∈ S := hx.resolve_left hxt
      have hpos := hl.shape.size_pos hxS
      by_cases hyt : y = t
      · -- no other element ends inside the old one
        refine absurd ?_ (hl.shape.add_ne hxS hl.mem hxa (i := h.size x - 1) (j := t - 1 - a)
          (by omega) (by omega))
        omega
      · rw [if_neg hyt] at hmsl horig hyfree
        exact hl.coalesced x hxS y (hy.resolve_left hyt) hxa hya hxfree hyfree ⟨haddr, hmsl, horig⟩
  · intro x hx hxa
    rw [hstate]
    split_ifs with hxt
    · exact fun h => nomatch h
    · exact hl.state x (hx.resolve_left hxt) hxa
  · intro d hd
    obtain ⟨e, hea, he⟩ := hl.held d hd
    have hin : ∀ x, x = e ∨ x = e + h.pad e → ∀ i < h.size a, x ≠ a + i :=
      fun x hx i hi => he.header_ne hl.shape hl.mem hea hi hx
    have hxt : ∀ x, x = e ∨ x = e + h.pad e → x ≠ t := by
      intro x hx
      have hne := hin x hx (t - a) (by omega)
      omega
    refine ⟨e, hea, he.congr (Or.inr he.mem) (fun x hx => ?_) (fun x hx => ?_) (fun x hx => ?_)⟩
    · rw [hstate, if_neg (hxt x hx)]
    · change (splitElem h a t).pad x = h.pad x
      rw [splitElem_pad, update_of_ne (hxt x hx)]
    · change (splitElem h a t).size x = h.size x
      have hxa : x ≠ a := hin x hx 0 (by omega)
      rw [splitElem_size hlt.ne, if_neg, if_neg hxa, if_neg (hxt x hx)]
      exact fun h => hin x hx _ (by omega) h.2
  · exact hl.distinct

end Loose

end Malloc
