import DpdkStudy.Malloc.Settled

/-!
# The operations keep a heap settled

Allocating takes a free element out, splits off what is not needed behind it,
and hands out the rest, padded or split once more. Freeing and adding memory
put an element back, joined with its neighbours. Resizing joins the next
element and splits off what is too much.
-/

open List Nat

namespace Malloc

open Function

variable {cfg : Config} {rs : List Region} {S : Set ℕ} {h h' : Heap} {areas : List Area}
  {a n : ℕ}

variable {d : Area} {data e size x : ℕ} {req : Request}

/-! ## Taking an element out -/

theorem Settled.take (hs : Settled cfg rs S h areas) (ha : a ∈ S) (hfree : h.state a = .free) :
    Loose cfg rs S (mallocElemFreeListRemove h a) areas a where
  shape := hs.shape.congr rfl rfl rfl rfl rfl rfl (fun _ _ => rfl)
  mem := ha
  pad_lt := by
    change h.pad a < h.size a
    rw [hs.unpadded a ha hfree]
    exact hs.shape.size_pos ha
  listed := by
    have hset : {x | x ∈ S ∧ x ≠ a ∧ h.state x = .free} =
        {x | x ∈ S ∧ h.state x = .free} \ {a} := by
      ext x
      simp only [Set.mem_sdiff, Set.mem_singleton_iff, Set.mem_ofPred_eq]
      tauto
    change Listed {x | x ∈ S ∧ x ≠ a ∧ h.state x = .free} _
    rw [hset]
    exact hs.listed.remove a
  unpadded x hx _ hxfree := hs.unpadded x hx hxfree
  coalesced x hx y hy _ _ hxfree hyfree := hs.coalesced x hx y hy hxfree hyfree
  state x hx _ := hs.state x hx
  held d hd := by
    obtain ⟨e, he⟩ := hs.held d hd
    refine ⟨e, ?_, he.congr he.mem (fun _ _ => rfl) (fun _ _ => rfl) (fun _ _ => rfl)⟩
    rintro rfl
    exact absurd (he.busy.symm.trans hfree) (by decide)
  distinct := hs.distinct

/-- A busy element is taken out, with its area, and in any state. -/
theorem Settled.loosen (hs : Settled cfg rs S h areas) (he : Holds cfg S h e d) (st : ElemState) :
    Loose cfg rs S { h with state := update h.state e st }
      (areas.filter (fun d' => d'.data ≠ d.data)) e where
  shape := hs.shape.congr rfl rfl rfl rfl rfl rfl (fun _ _ => rfl)
  mem := he.mem
  pad_lt := he.pad_lt
  listed := by
    have hset : {x | x ∈ S ∧ x ≠ e ∧ update h.state e st x = .free} =
        {x | x ∈ S ∧ h.state x = .free} := by
      ext x
      by_cases hxe : x = e
      · subst hxe
        simp [he.busy]
      · simp [hxe, update_apply]
    change Listed {x | x ∈ S ∧ x ≠ e ∧ update h.state e st x = .free} _
    rw [hset]
    exact hs.listed.congr rfl (fun _ _ => rfl)
  unpadded x hx hxe hxfree := hs.unpadded x hx ((update_of_ne hxe _ _).symm.trans hxfree)
  coalesced x hx y hy hxe hye hxfree hyfree :=
    hs.coalesced x hx y hy ((update_of_ne hxe _ _).symm.trans hxfree)
      ((update_of_ne hye _ _).symm.trans hyfree)
  state x hx hxe := by
    change update h.state e st x ≠ .pad
    rw [update_of_ne hxe]
    exact hs.state x hx
  held d' hd' := by
    obtain ⟨hmem, hne⟩ := mem_filter.mp hd'
    obtain ⟨e', he'⟩ := hs.held d' hmem
    have hee : e' ≠ e := by
      rintro rfl
      exact of_decide_eq_true hne (he'.data_eq.trans he.data_eq.symm)
    refine ⟨e', hee, he'.congr he'.mem (fun x hx => ?_) (fun _ _ => rfl) (fun _ _ => rfl)⟩
    have hxe := he'.header_ne hs.shape he.mem hee (hs.shape.size_pos he.mem) hx
    exact update_of_ne hxe _ _
  distinct := hs.distinct.sublist (filter_sublist.map Area.data)

/-! ## Handing an element out -/

/-- No area starts behind a header inside the element that is out. -/
theorem Loose.data_notMem (hl : Loose cfg rs S h areas a) {i : ℕ} (hi : i < h.size a)
    (hdata : data = a + i + headerLen) : data ∉ areas.map Area.data := by
  intro hmem
  obtain ⟨d, hd, hdd⟩ := mem_map.mp hmem
  obtain ⟨e, hea, he⟩ := hl.held d hd
  have hne := he.header_ne hl.shape hl.mem hea hi (Or.inr rfl)
  have hheld := he.data_eq
  omega

/-- An element is handed out padded, with a header in the padding. -/
theorem Loose.pad (hl : Loose cfg rs S h areas a) (han : a ≤ n) (hdata : d.data = n + headerLen)
    (hfits : d.data + d.size + cfg.trailerLen ≤ a + h.size a) (haligned : d.align ∣ d.data)
    (hstate : ∀ x, h'.state x = if x = a then .busy else if x = n then .pad else h.state x)
    (hpad : ∀ x, h'.pad x = if x = a ∨ x = n then n - a else h.pad x)
    (hsize : ∀ x, h'.size x = if x ≠ a ∧ x = n then h.size a - (n - a) else h.size x)
    (hshape : h'.first = h.first ∧ h'.last = h.last ∧ h'.next = h.next ∧ h'.prev = h.prev ∧
      h'.msl = h.msl ∧ h'.orig_elem = h.orig_elem ∧ h'.free_head = h.free_head) :
    Settled cfg rs S h' (d :: areas) := by
  obtain ⟨hfirst, hlast, hnext, hprev, hmsl, horig, hlists⟩ := hshape
  have hin : n < a + h.size a := by
    simp only [headerLen] at hdata
    omega
  have hnS : ∀ x ∈ S, x ≠ a → x ≠ n := by
    rintro x hx hxa rfl
    exact hl.shape.notMem_inside hl.mem (by omega) hin hx
  have hsize' : ∀ x ∈ S, h'.size x = h.size x := by
    intro x hx
    rw [hsize, if_neg]
    exact fun hxn => hnS x hx hxn.1 hxn.2
  have hstate' : ∀ x ∈ S, x ≠ a → h'.state x = h.state x := by
    intro x hx hxa
    rw [hstate, if_neg hxa, if_neg (hnS x hx hxa)]
  have hbusy : h'.state a = .busy := by rw [hstate, if_pos rfl]
  have hnotFree : ∀ x ∈ S, h'.state x = .free → x ≠ a := by
    rintro x _ hxfree rfl
    exact absurd (hbusy.symm.trans hxfree) (by decide)
  constructor
  · exact hl.shape.congr hfirst hlast hnext hprev hmsl horig hsize'
  · have hset : {x | x ∈ S ∧ h'.state x = .free} = {x | x ∈ S ∧ x ≠ a ∧ h.state x = .free} := by
      ext x
      refine ⟨fun hx => ?_, fun hx => ⟨hx.1, (hstate' x hx.1 hx.2.1).trans hx.2.2⟩⟩
      have hxa := hnotFree x hx.1 hx.2
      exact ⟨hx.1, hxa, (hstate' x hx.1 hxa).symm.trans hx.2⟩
    rw [hset]
    exact hl.listed.congr hlists (fun x hx => hsize' x hx.1)
  · intro x hx hxfree
    have hxa := hnotFree x hx hxfree
    rw [hpad, if_neg (not_or.mpr ⟨hxa, hnS x hx hxa⟩)]
    exact hl.unpadded x hx hxa ((hstate' x hx hxa).symm.trans hxfree)
  · intro x hx y hy hxfree hyfree hadj
    have hxa := hnotFree x hx hxfree
    have hya := hnotFree y hy hyfree
    unfold Adjacent at hadj
    rw [hsize' x hx, hmsl, horig] at hadj
    exact hl.coalesced x hx y hy hxa hya ((hstate' x hx hxa).symm.trans hxfree)
      ((hstate' y hy hya).symm.trans hyfree) hadj
  · intro x hx
    by_cases hxa : x = a
    · rw [hxa, hbusy]
      exact ElemState.noConfusion
    · rw [hstate' x hx hxa]
      exact hl.state x hx hxa
  · intro d' hd'
    rcases mem_cons.mp hd' with rfl | hd'
    · have hpada : h'.pad a = n - a := by rw [hpad, if_pos (Or.inl rfl)]
      have hnpad : a + (n - a) = n := by omega
      refine ⟨a, hl.mem, hbusy, ?_, ?_, haligned, ?_⟩
      · rw [hpada, hnpad, hdata]
      · rw [hsize' a hl.mem]
        exact hfits
      · rw [hpada, hnpad]
        intro hne
        have hna : n ≠ a := by omega
        rw [hstate, if_neg hna, if_pos rfl, hpad, if_pos (Or.inr rfl), hsize, if_pos ⟨hna, rfl⟩,
          hsize' a hl.mem]
        exact ⟨rfl, rfl, rfl⟩
    · obtain ⟨e, hea, he⟩ := hl.held d' hd'
      have hne : ∀ x, x = e ∨ x = e + h.pad e → x ≠ a ∧ x ≠ n := by
        intro x hx
        have hxa := he.header_ne hl.shape hl.mem hea (hl.shape.size_pos hl.mem) hx
        have hxn := he.header_ne hl.shape hl.mem hea (i := n - a) (by omega) hx
        omega
      refine ⟨e, he.congr he.mem (fun x hx => ?_) (fun x hx => ?_) (fun x hx => ?_)⟩
      · rw [hstate, if_neg (hne x hx).1, if_neg (hne x hx).2]
      · rw [hpad, if_neg (not_or.mpr (hne x hx))]
      · rw [hsize, if_neg (fun h => (hne x hx).2 h.2)]
  · refine nodup_cons.mpr ⟨fun hmem => ?_, hl.distinct⟩
    exact hl.data_notMem (i := n - a) (by omega) (by omega) hmem

/-- What `malloc_elem_alloc` does with its last split. -/
def cutFront (h : Heap) (a n : ℕ) : Heap :=
  mallocElemFreeListInsert
    { splitElem h a n with state := update (splitElem h a n).state n .busy } a

/-- **An element is handed out from the end** of a free one, which stays
free. -/
theorem Loose.cut (hl : Loose cfg rs S h areas a) (hpada : h.pad a = 0)
    (hbefore : ∀ x ∈ S, x ≠ a → h.state x = .free → ¬ Adjacent cfg h x a)
    (han : a + cfg.overhead ≤ n) (hn : cacheLine ∣ n) (hdata : d.data = n + headerLen)
    (hfits : d.data + d.size + cfg.trailerLen ≤ a + h.size a) (haligned : d.align ∣ d.data) :
    Settled cfg rs (insert n S) (cutFront h a n) (d :: areas) := by
  have hover : 0 < cfg.overhead := Nat.add_pos_left (by decide) _
  have hroom : n + cfg.overhead ≤ a + h.size a := by
    simp only [Config.overhead]
    omega
  have hlt : a < n := by omega
  have hnS : n ∉ S := hl.shape.notMem_inside hl.mem hlt (by omega)
  have hnx : ∀ x ∈ S, x ≠ n := fun x hx e => hnS (e ▸ hx)
  have hsize : ∀ x, x = n ∨ x ∈ S → (cutFront h a n).size x =
      if x = a then n - a else if x = n then h.size a - (n - a) else h.size x :=
    fun x hx => splitElem_size_mem hl.shape hl.mem hlt (by omega) (by omega) hx
  have hstate : ∀ x, (cutFront h a n).state x =
      if x = a then .free else if x = n then .busy else h.state x := by
    intro x
    change update (update (splitElem h a n).state n .busy) a .free x = _
    rw [splitElem_state, update_apply, update_apply, update_apply]
    split_ifs <;> rfl
  have hpad : ∀ x, (cutFront h a n).pad x = if x = n then 0 else h.pad x := by
    intro x
    change (splitElem h a n).pad x = _
    rw [splitElem_pad, update_apply]
  constructor
  · exact (hl.shape.split hl.mem han hroom hn (by omega)).congr rfl rfl rfl rfl rfl rfl
      (fun _ _ => rfl)
  · have hset : {x | x ∈ insert n S ∧ (cutFront h a n).state x = .free} =
        insert a {x | x ∈ S ∧ x ≠ a ∧ h.state x = .free} := by
      ext x
      simp only [hstate, Set.mem_ofPred_eq, Set.mem_insert_iff]
      by_cases hxa : x = a
      · subst hxa
        simp [hl.mem]
      · by_cases hxn : x = n
        · subst hxn
          simp [hxa, hnS]
        · simp [hxa, hxn]
    have hlisted : Listed {x | x ∈ S ∧ x ≠ a ∧ h.state x = .free}
        { splitElem h a n with state := update (splitElem h a n).state n .busy } := by
      refine hl.listed.congr splitElem_free_head (fun x hx => ?_)
      have hxsize := hsize x (Or.inr hx.1)
      rwa [if_neg hx.2.1, if_neg (hnx x hx.1)] at hxsize
    rw [hset]
    exact hlisted.insert (fun h => h.2.1 rfl)
  · intro x hx hxfree
    rw [hpad]
    rw [hstate] at hxfree
    by_cases hxn : x = n
    · rw [if_pos hxn]
    · rw [if_neg hxn]
      by_cases hxa : x = a
      · rw [hxa, hpada]
      · rw [if_neg hxa, if_neg hxn] at hxfree
        exact hl.unpadded x (hx.resolve_left hxn) hxa hxfree
  · intro x hx y hy hxfree hyfree hadj
    obtain ⟨haddr, hmsl, horig⟩ := hadj
    change (splitElem h a n).msl y = (splitElem h a n).msl x at hmsl
    change _ → (splitElem h a n).orig_elem x = (splitElem h a n).orig_elem y at horig
    have hfree : ∀ z, (cutFront h a n).state z = .free → z ≠ n := by
      rintro z hz rfl
      rw [hstate, if_neg hlt.ne', if_pos rfl] at hz
      cases hz
    have hxn := hfree x hxfree
    have hyn := hfree y hyfree
    have hxS := hx.resolve_left hxn
    have hyS := hy.resolve_left hyn
    rw [splitElem_msl, update_of_ne hxn, update_of_ne hyn] at hmsl
    rw [splitElem_orig_elem, update_of_ne hxn, update_of_ne hyn] at horig
    rw [hsize x hx, if_neg hxn] at haddr
    rw [hstate, if_neg hxn] at hxfree
    rw [hstate, if_neg hyn] at hyfree
    by_cases hxa : x = a
    · -- the element behind is the one that was handed out
      rw [if_pos hxa] at haddr
      omega
    · rw [if_neg hxa] at haddr hxfree
      by_cases hya : y = a
      · subst hya
        exact hbefore x hxS hxa hxfree ⟨haddr, hmsl, horig⟩
      · rw [if_neg hya] at hyfree
        exact hl.coalesced x hxS y hyS hxa hya hxfree hyfree ⟨haddr, hmsl, horig⟩
  · intro x hx
    rw [hstate]
    by_cases hxa : x = a
    · rw [if_pos hxa]
      exact ElemState.noConfusion
    · rw [if_neg hxa]
      by_cases hxn : x = n
      · rw [if_pos hxn]
        exact ElemState.noConfusion
      · rw [if_neg hxn]
        exact hl.state x (hx.resolve_left hxn) hxa
  · intro d' hd'
    rcases mem_cons.mp hd' with rfl | hd'
    · have hpadn : (cutFront h a n).pad n = 0 := by rw [hpad, if_pos rfl]
      refine ⟨n, Or.inl rfl, ?_, ?_, ?_, haligned, fun hne => absurd hpadn hne⟩
      · rw [hstate, if_neg hlt.ne', if_pos rfl]
      · rw [hpadn, hdata]
        rfl
      · rw [hsize n (Or.inl rfl), if_neg hlt.ne', if_pos rfl]
        omega
    · obtain ⟨e, hea, he⟩ := hl.held d' hd'
      have hne : ∀ x, x = e ∨ x = e + h.pad e → x ≠ a ∧ x ≠ n := by
        intro x hx
        have hxa := he.header_ne hl.shape hl.mem hea (hl.shape.size_pos hl.mem) hx
        have hxn := he.header_ne hl.shape hl.mem hea (i := n - a) (by omega) hx
        omega
      refine ⟨e, he.congr (Or.inr he.mem) (fun x hx => ?_) (fun x hx => ?_) (fun x hx => ?_)⟩
      · rw [hstate, if_neg (hne x hx).1, if_neg (hne x hx).2]
      · rw [hpad, if_neg (hne x hx).2]
      · change (splitElem h a n).size x = h.size x
        rw [splitElem_size hlt.ne, if_neg (fun h => h.1 hpada), if_neg (hne x hx).1,
          if_neg (hne x hx).2]
  · refine nodup_cons.mpr ⟨fun hmem => ?_, hl.distinct⟩
    exact hl.data_notMem (i := n - a) (by omega) (by omega) hmem

theorem Loose.handOut (hl : Loose cfg rs S h areas a) (hpada : h.pad a = 0)
    (hbefore : ∀ x ∈ S, x ≠ a → h.state x = .free → ¬ Adjacent cfg h x a) (han : a ≤ n)
    (hn : cacheLine ∣ n) (hdata : d.data = n + headerLen)
    (hfits : d.data + d.size + cfg.trailerLen ≤ a + h.size a) (haligned : d.align ∣ d.data) :
    ∃ S', Settled cfg rs S' (Malloc.handOut cfg h a n) (d :: areas) := by
  rw [Malloc.handOut]
  by_cases hfront : n - a < cfg.overhead + minDataSize
  · simp only [if_pos hfront, update_self]
    refine ⟨S, hl.pad han hdata hfits haligned ?_ ?_ ?_ ?_⟩
    · intro x
      split_ifs <;> simp only [update_apply] <;> grind
    · intro x
      split_ifs <;> simp only [update_apply] <;> grind
    · intro x
      split_ifs <;> simp only [update_apply] <;> grind
    · split_ifs <;> exact ⟨rfl, rfl, rfl, rfl, rfl, rfl, rfl⟩
  · simp only [if_neg hfront]
    exact ⟨insert n S, hl.cut hpada hbefore (by omega) hn hdata hfits haligned⟩

/-! ## Allocating -/

theorem wordSub_of_le {y : ℕ} (hle : y ≤ x) (hx : x < word) : wordSub x y = x - y := by
  have hy : y % word = y := mod_eq_of_lt (by omega)
  have hsum : x + (word - y) = x - y + word := by omega
  rw [wordSub, hy, hsum, add_mod_right, mod_eq_of_lt (by omega)]

theorem Config.dvd_overhead (cfg : Config) : cacheLine ∣ cfg.overhead := by
  refine Nat.dvd_add (by decide) ?_
  rcases cfg.trailerLen_eq with h0 | h1
  · exact h0 ▸ Nat.dvd_zero _
  · exact h1 ▸ Nat.dvd_refl _

theorem trailer_size_eq (hs : Shape cfg rs S h) (ha : a ∈ S) (han : a ≤ n)
    (hfit : n + (size + cfg.overhead) ≤ a + h.size a) :
    wordSub (wordSub (wordSub (h.size a) (n - a)) size) cfg.overhead =
      h.size a - (n - a) - size - cfg.overhead := by
  have hbounds := hs.bounds ha
  rw [wordSub_of_le (x := h.size a) (by omega) (by omega),
    wordSub_of_le (x := h.size a - (n - a)) (by omega) (by omega),
    wordSub_of_le (by omega) (by omega)]

/-- What is not needed behind the data is split off. -/
theorem Settled.trimTail_spec (hs : Settled cfg rs S h areas) (ha : a ∈ S)
    (hfree : h.state a = .free) (han : a ≤ n) (hn : cacheLine ∣ n) (hsize : cacheLine ∣ size)
    (hfit : n + (size + cfg.overhead) ≤ a + h.size a) :
    ∃ S', Loose cfg rs S' (trimTail cfg h a n size) areas a ∧
      (trimTail cfg h a n size).pad a = 0 ∧
      (∀ x ∈ S', x ≠ a → (trimTail cfg h a n size).state x = .free →
        ¬ Adjacent cfg (trimTail cfg h a n size) x a) ∧
      n + (size + cfg.overhead) ≤ a + (trimTail cfg h a n size).size a := by
  have hpada := hs.unpadded a ha hfree
  have hloose := hs.take ha hfree
  have hbehind : ∀ x ∈ S, x ≠ a → h.state x = .free → ¬ Adjacent cfg h a x :=
    fun x hx _ hxfree => hs.coalesced a ha x hx hfree hxfree
  have hbefore : ∀ x ∈ S, x ≠ a → h.state x = .free → ¬ Adjacent cfg h x a :=
    fun x hx _ hxfree => hs.coalesced x hx a ha hxfree hfree
  rw [trimTail]
  simp only [trailer_size_eq hs.shape ha han hfit]
  by_cases htail : cfg.overhead + minDataSize < h.size a - (n - a) - size - cfg.overhead
  · rw [if_pos htail]
    have hdvd := Nat.dvd_add hn (Nat.dvd_add hsize cfg.dvd_overhead)
    have hat : a < n + (size + cfg.overhead) := by
      simp only [Config.overhead, headerLen]
      omega
    have hloose' := hloose.split_off hbehind (t := n + (size + cfg.overhead)) (by omega)
      (by change _ ≤ a + h.size a; omega) hdvd (by change a + h.pad a < _; omega)
    have hsizea : (splitElem (mallocElemFreeListRemove h a) a (n + (size + cfg.overhead))).size a =
        n + (size + cfg.overhead) - a := by
      rw [splitElem_size hat.ne, if_neg (fun h => h.1 hpada), if_pos rfl]
    refine ⟨_, hloose', ?_, ?_, ?_⟩
    · change (splitElem (mallocElemFreeListRemove h a) a (n + (size + cfg.overhead))).pad a = 0
      rw [splitElem_pad, update_of_ne hat.ne]
      exact hpada
    · intro x hx hxa hxfree hadj
      obtain ⟨haddr, hmsl, horig⟩ := hadj
      have hxt : x ≠ n + (size + cfg.overhead) := by omega
      change update (splitElem (mallocElemFreeListRemove h a) a _).state _ .free x = .free at hxfree
      change a = x + (splitElem (mallocElemFreeListRemove h a) a _).size x at haddr
      change (splitElem (mallocElemFreeListRemove h a) a _).msl a =
        (splitElem (mallocElemFreeListRemove h a) a _).msl x at hmsl
      change _ → (splitElem (mallocElemFreeListRemove h a) a _).orig_elem x =
        (splitElem (mallocElemFreeListRemove h a) a _).orig_elem a at horig
      rw [update_of_ne hxt, splitElem_state, update_of_ne hxt] at hxfree
      rw [splitElem_size hat.ne, if_neg (fun h => h.1 hpada), if_neg hxa, if_neg hxt] at haddr
      rw [splitElem_msl, update_of_ne hxt, update_of_ne hat.ne] at hmsl
      rw [splitElem_orig_elem, update_of_ne hxt, update_of_ne hat.ne] at horig
      exact hbefore x (hx.resolve_left hxt) hxa hxfree ⟨haddr, hmsl, horig⟩
    · change _ ≤ a + (splitElem (mallocElemFreeListRemove h a) a (n + (size + cfg.overhead))).size a
      rw [hsizea]
      omega
  · rw [if_neg htail]
    exact ⟨S, hloose, hpada, hbefore, hfit⟩

theorem Settled.alloc (hs : Settled cfg rs S h areas) (ha : a ∈ S) (hfree : h.state a = .free)
    (size : ℕ) (han : a ≤ n) (hn : cacheLine ∣ n) (hsize : cacheLine ∣ size)
    (hfit : n + (size + cfg.overhead) ≤ a + h.size a) (hdata : d.data = n + headerLen)
    (hdsize : d.size ≤ size) (haligned : d.align ∣ d.data) :
    ∃ S', Settled cfg rs S' (handOut cfg (trimTail cfg h a n size) a n) (d :: areas) := by
  obtain ⟨S', hl, hpada, hbefore, hroom⟩ := hs.trimTail_spec ha hfree han hn hsize hfit
  refine hl.handOut hpada hbefore han hn hdata ?_ haligned
  simp only [Config.overhead] at hroom
  omega

/-- **The start of the data is not below zero**, nor is that of its header:
neither the subtraction of the size nor that of the header wraps. -/
def NoWrap (cfg : Config) (elem elem_size size align bound : ℕ) : Prop :=
  let end_pt := elem + elem_size - cfg.trailerLen
  if sameBlock bound (alignFloor (end_pt - size) align) (end_pt - 1) then
    headerLen ≤ alignFloor (end_pt - size) align
  else
    size ≤ alignFloor end_pt bound ∧ headerLen ≤ alignFloor (alignFloor end_pt bound - size) align

theorem alignFloor_le (x align : ℕ) : alignFloor x align ≤ x := sub_le _ _

theorem dvd_alignFloor (x align : ℕ) : align ∣ alignFloor x align := dvd_sub_mod x

/-- The data lies in the element, aligned. -/
theorem dataStart_spec {elem_size align bound ds : ℕ} (hlow : headerLen ≤ a)
    (hhigh : a + elem_size < word) (hsize : size ≤ elem_size)
    (hwrap : NoWrap cfg a elem_size size align bound)
    (hds : dataStart cfg a elem_size size align bound = some ds) :
    headerLen ≤ ds ∧ ds + size + cfg.trailerLen ≤ a + elem_size ∧ align ∣ ds := by
  have htrailer : cfg.trailerLen ≤ headerLen := by
    rcases cfg.trailerLen_eq with h0 | h1
    · omega
    · rw [h1]
      decide
  obtain ⟨e, he⟩ : ∃ e, a + elem_size - cfg.trailerLen = e := ⟨_, rfl⟩
  have hfirst := alignFloor_le (e - size) align
  have hsub : ∀ x, x ≤ e → size ≤ x → wordSub x size = x - size :=
    fun x hx hle => wordSub_of_le hle (by omega)
  unfold NoWrap at hwrap
  unfold dataStart at hds
  simp only [he] at hwrap hds
  rw [hsub e (le_refl e) (by omega)] at hds
  by_cases hblock : sameBlock bound (alignFloor (e - size) align) (e - 1)
  · rw [if_pos hblock] at hwrap hds
    cases hds
    exact ⟨hwrap, by omega, dvd_alignFloor _ _⟩
  · rw [if_neg hblock] at hwrap hds
    have hend := alignFloor_le e bound
    have hsecond := alignFloor_le (alignFloor e bound - size) align
    rw [hsub _ hend hwrap.1] at hds
    split at hds
    · cases hds
      exact ⟨hwrap.2, by omega, dvd_alignFloor _ _⟩
    · cases hds

theorem dataSize_spec (req : Request) (hne : req.dataSize ≠ 0) :
    req.size ≤ req.dataSize ∧ cacheLine ∣ req.dataSize := by
  refine ⟨?_, dvd_alignFloor _ _⟩
  have hlt := req.size_lt
  unfold Request.dataSize alignCeil alignFloor at *
  simp only [cacheLine, word] at *
  omega

theorem dataAlign_spec (req : Request)
    (hpow : req.align = 0 ∨ req.align = 2 ^ log 2 req.align) :
    cacheLine ∣ req.dataAlign ∧ (if req.align = 0 then 1 else req.align) ∣ req.dataAlign := by
  refine ⟨dvd_alignFloor _ _, ?_⟩
  have hlt := req.align_lt
  split_ifs with hzero
  · exact one_dvd _
  · have halign := hpow.resolve_left hzero
    unfold Request.dataAlign alignCeil
    rw [if_neg hzero, mod_eq_of_lt (by simp only [cacheLine, word]; omega)]
    rcases lt_or_ge 6 (log 2 req.align) with hbig | hsmall
    · have hdvd : cacheLine ∣ req.align := by
        rw [halign]
        exact pow_dvd_pow 2 hbig.le
      have hfloor : alignFloor (req.align + (cacheLine - 1)) cacheLine = req.align := by
        obtain ⟨m, hm⟩ := hdvd
        rw [hm]
        unfold alignFloor cacheLine
        omega
      rw [hfloor]
    · have hle : req.align ≤ cacheLine := by
        rw [halign]
        exact Nat.pow_le_pow_right (by decide) hsmall
      have hfloor : alignFloor (req.align + (cacheLine - 1)) cacheLine = cacheLine := by
        unfold alignFloor
        simp only [cacheLine] at hle ⊢
        omega
      rw [hfloor, halign]
      exact pow_dvd_pow 2 hsmall

theorem findSuitableElement_mem (h : Heap) (hfind : findSuitableElement cfg h req = some a) :
    ∃ i, a ∈ h.free_head i := by
  unfold findSuitableElement at hfind
  simp only at hfind
  split at hfind
  · rename_i e he
    cases hfind
    obtain ⟨i, -, hi⟩ := mem_flatMap.mp (mem_of_find?_eq_some he)
    exact ⟨i, hi⟩
  · split_ifs at hfind
    obtain ⟨i, -, hi⟩ := mem_flatMap.mp (mem_of_find?_eq_some hfind)
    exact ⟨i, hi⟩

/-- **What `malloc_heap_alloc` returns** is the end of a free element, or lies in
it. -/
theorem Settled.mallocHeapAlloc_spec (hs : Settled cfg rs S h areas)
    (hwrap : ∀ elem, findSuitableElement cfg h req = some elem →
      NoWrap cfg elem (h.size elem) req.dataSize req.dataAlign req.bound)
    (hres : Malloc.mallocHeapAlloc cfg h req = some (h', data)) :
    ∃ a n, findSuitableElement cfg h req = some a ∧
      elemStartPt cfg h a req.dataSize req.dataAlign req.bound = some n ∧
      h' = Malloc.handOut cfg (trimTail cfg h a n req.dataSize) a n ∧ data = n + headerLen ∧
      a ∈ S ∧ h.state a = .free ∧ a ≤ n ∧ cacheLine ∣ n ∧ cacheLine ∣ req.dataSize ∧
      n + (req.dataSize + cfg.overhead) ≤ a + h.size a ∧ req.size ≤ req.dataSize ∧
      (if req.align = 0 then 1 else req.align) ∣ data := by
  unfold Malloc.mallocHeapAlloc at hres
  split_ifs at hres with hbad hzero
  have hpow : req.align = 0 ∨ req.align = 2 ^ log 2 req.align := by
    by_contra hnot
    exact hbad (Or.inr (not_or.mp hnot))
  split at hres
  · rename_i elem hfind
    obtain ⟨i, hi⟩ := findSuitableElement_mem h hfind
    obtain ⟨⟨hmem, hfree⟩, -⟩ := (hs.listed.mem_iff i elem).mp hi
    obtain ⟨hlow, hhigh⟩ := hs.shape.bounds hmem
    unfold mallocElemAlloc elemStartPt at hres
    split_ifs at hres with hsmall
    · simp at hres
    · cases hds : dataStart cfg elem (h.size elem) req.dataSize req.dataAlign req.bound with
      | none => simp [hds] at hres
      | some ds =>
        obtain ⟨hhead, hfits, hdvd⟩ := dataStart_spec hlow hhigh (Nat.le_of_not_lt hsmall)
          (hwrap elem hfind) hds
        have hsub : wordSub ds headerLen = ds - headerLen := wordSub_of_le hhead (by omega)
        simp only [hds, hsub] at hres
        split_ifs at hres with hbelow
        · simp at hres
        · simp only [Option.map_some, Option.some_inj, Prod.mk.injEq] at hres
          obtain ⟨rfl, rfl⟩ := hres
          obtain ⟨hline, halign⟩ := dataAlign_spec req hpow
          obtain ⟨hsize, hsdvd⟩ := dataSize_spec req hzero
          have hdata : ds - headerLen + headerLen = ds := by omega
          refine ⟨elem, ds - headerLen, hfind, ?_, rfl, rfl, hmem, hfree,
            Nat.le_of_not_lt hbelow, Nat.dvd_sub (hline.trans hdvd) (by decide), hsdvd, ?_, hsize, ?_⟩
          · simp only [elemStartPt, if_neg hsmall, hds, hsub, if_neg hbelow]
          · simp only [Config.overhead]
            omega
          · rw [hdata]
            exact halign.trans hdvd
  · cases hres

/-- `malloc_heap_alloc` keeps a heap settled, with the new area. -/
theorem Settled.mallocHeapAlloc (hs : Settled cfg rs S h areas)
    (hwrap : ∀ elem, findSuitableElement cfg h req = some elem →
      NoWrap cfg elem (h.size elem) req.dataSize req.dataAlign req.bound)
    (hres : Malloc.mallocHeapAlloc cfg h req = some (h', data)) :
    (∃ S', Settled cfg rs S' h'
      (⟨data, req.size, if req.align = 0 then 1 else req.align⟩ :: areas)) := by
  obtain ⟨a, n, -, -, rfl, hdata, hmem, hfree, han, hn, hsize, hfit, hle, halign⟩ :=
    hs.mallocHeapAlloc_spec hwrap hres
  exact hs.alloc hmem hfree req.dataSize han hn hsize hfit hdata hle halign

/-! ## Freeing -/

/-- `malloc_heap_free` keeps a heap settled, without the area. -/
theorem Settled.mallocHeapFree (hs : Settled cfg rs S h areas) (hd : d ∈ areas) :
    ∃ S', Settled cfg rs S' (Malloc.mallocHeapFree cfg h (mallocElemFromData h d.data)).1
      (areas.filter (fun d' => d'.data ≠ d.data)) := by
  obtain ⟨e, he⟩ := hs.held d hd
  rw [he.fromData, Malloc.mallocHeapFree, if_pos he.busy]
  have hloose := hs.loosen he .free
  obtain ⟨S', hjoined, hlone, -⟩ := hloose.join_spec
  exact ⟨S', hjoined.settle hlone⟩

/-! ## Resizing -/

theorem le_alignCeil (hx : x + cacheLine ≤ word) : x ≤ alignCeil x cacheLine := by
  unfold alignCeil alignFloor
  simp only [cacheLine, word] at *
  omega

theorem alignCeil_lt (hx : x + cacheLine ≤ word) :
    alignCeil x cacheLine < x + cacheLine := by
  unfold alignCeil alignFloor
  simp only [cacheLine, word] at *
  omega

/-- The areas after an area has another size. -/
def resizeArea (areas : List Area) (data size : ℕ) : List Area :=
  areas.map (fun d => if d.data = data then { d with size := size } else d)

/-- **An element that stays busy is settled**, if its data has room for the
new size. -/
theorem Loose.resized (hl : Loose cfg rs S h (areas.filter (fun d' => d'.data ≠ d.data)) e)
    (hbusy : h.state e = .busy) (hdata : d.data = e + h.pad e + headerLen)
    (hinner : h.pad e ≠ 0 → h.state (e + h.pad e) = .pad ∧ h.pad (e + h.pad e) = h.pad e ∧
      h.size (e + h.pad e) = h.size e - h.pad e)
    (hfits : d.data + size + cfg.trailerLen ≤ e + h.size e)
    (haligned : ∀ d' ∈ areas, d'.data = d.data → d'.align ∣ d.data)
    (hdistinct : (areas.map Area.data).Nodup) :
    Settled cfg rs S h (resizeArea areas d.data size) := by
  have hnotFree : ∀ x, h.state x = .free → x ≠ e := by
    rintro x hx rfl
    exact absurd (hbusy.symm.trans hx) (by decide)
  constructor
  · exact hl.shape
  · have hset : {x | x ∈ S ∧ h.state x = .free} = {x | x ∈ S ∧ x ≠ e ∧ h.state x = .free} := by
      ext x
      exact ⟨fun hx => ⟨hx.1, hnotFree x hx.2, hx.2⟩, fun hx => ⟨hx.1, hx.2.2⟩⟩
    rw [hset]
    exact hl.listed
  · exact fun x hx hxfree => hl.unpadded x hx (hnotFree x hxfree) hxfree
  · exact fun x hx y hy hxfree hyfree =>
      hl.coalesced x hx y hy (hnotFree x hxfree) (hnotFree y hyfree) hxfree hyfree
  · intro x hx
    by_cases hxe : x = e
    · rw [hxe, hbusy]
      exact ElemState.noConfusion
    · exact hl.state x hx hxe
  · intro d' hd'
    obtain ⟨d₀, hd₀, rfl⟩ := mem_map.mp hd'
    split_ifs with heq
    · exact ⟨e, hl.mem, hbusy, heq.trans hdata, by rw [heq]; exact hfits,
        by rw [heq]; exact haligned d₀ hd₀ heq, hinner⟩
    · obtain ⟨e', -, he'⟩ := hl.held d₀ (mem_filter.mpr ⟨hd₀, by simpa using heq⟩)
      exact ⟨e', he'⟩
  · have hmap : (resizeArea areas d.data size).map Area.data = areas.map Area.data := by
      rw [resizeArea, map_map]
      exact map_congr_left (fun d' _ => by simp only [Function.comp]; split_ifs <;> rfl)
    rw [hmap]
    exact hdistinct

/-- What is too much of an element that grew is split off again. -/
theorem Loose.cutTail (hl : Loose cfg rs S h (areas.filter (fun d' => d'.data ≠ d.data)) e)
    (hbehind : ∀ x ∈ S, x ≠ e → h.state x = .free → ¬ Adjacent cfg h e x)
    (hbusy : h.state e = .busy) (hdata : d.data = e + h.pad e + headerLen)
    (hinner : h.pad e ≠ 0 → h.state (e + h.pad e) = .pad ∧ h.pad (e + h.pad e) = h.pad e ∧
      h.size (e + h.pad e) = h.size e - h.pad e)
    (hroom : size + h.pad e + cfg.overhead + (minDataSize + cfg.overhead) ≤ h.size e)
    (haligned : ∀ d' ∈ areas, d'.data = d.data → d'.align ∣ d.data)
    (hdistinct : (areas.map Area.data).Nodup) {sp : ℕ}
    (hsp : sp = alignCeil (e + (size + h.pad e + cfg.overhead)) cacheLine) :
    ∃ S', Settled cfg rs S' (mallocElemFreeListInsert (splitElem h e sp) sp)
      (resizeArea areas d.data size) := by
  have hbounds := hl.shape.bounds hl.mem
  have hword : e + (size + h.pad e + cfg.overhead) + cacheLine ≤ word := by
    simp only [minDataSize] at hroom
    omega
  have hge := le_alignCeil hword
  have hlt := alignCeil_lt hword
  have hdvd : cacheLine ∣ sp := hsp ▸ dvd_alignFloor _ _
  rw [← hsp] at hge hlt
  have hover : headerLen ≤ cfg.overhead := le_add_right _ _
  have hhead : 0 < headerLen := by decide
  simp only [minDataSize] at hroom
  have hne : e ≠ sp := by omega
  have hpadne : e + h.pad e ≠ sp := by omega
  have hloose := hl.split_off hbehind (t := sp) (by omega) (by omega) hdvd (by omega)
  have hstate : ∀ x, x ≠ sp →
      (mallocElemFreeListInsert (splitElem h e sp) sp).state x = h.state x := by
    intro x hx
    change update (splitElem h e sp).state sp .free x = _
    rw [update_of_ne hx, splitElem_state, update_of_ne hx]
  have hpad : ∀ x, x ≠ sp → (mallocElemFreeListInsert (splitElem h e sp) sp).pad x = h.pad x := by
    intro x hx
    change (splitElem h e sp).pad x = _
    rw [splitElem_pad, update_of_ne hx]
  have hsize : (mallocElemFreeListInsert (splitElem h e sp) sp).size e = sp - e := by
    change (splitElem h e sp).size e = _
    rw [splitElem_size hne, if_neg (fun h => h.1 (by omega)), if_pos rfl]
  refine ⟨insert sp S, hloose.resized ?_ ?_ ?_ ?_ haligned hdistinct⟩
  · rw [hstate e hne, hbusy]
  · rw [hpad e hne, hdata]
  · rw [hpad e hne]
    intro hpos
    obtain ⟨hst, hpd, -⟩ := hinner hpos
    refine ⟨?_, ?_, ?_⟩
    · rw [hstate _ hpadne, hst]
    · rw [hpad _ hpadne, hpd]
    · rw [hsize]
      change (splitElem h e sp).size (e + h.pad e) = _
      rw [splitElem_size hne, if_pos ⟨hpos, rfl⟩]
  · rw [hsize]
    simp only [Config.overhead] at hge
    omega

theorem Settled.grow (hs : Settled cfg rs S h areas) (he : Holds cfg S h e d)
    (haligned : ∀ d' ∈ areas, d'.data = d.data → d'.align ∣ d.data) (hn : h.next e = some n)
    (hjoin : h.state n = .free ∧ Adjacent cfg h e n)
    (hroom : size + h.pad e + cfg.overhead ≤ h.size e + h.size n) {g : Heap}
    (hg : g = joinElem (mallocElemFreeListRemove h n) e n) {sp : ℕ}
    (hsp : sp = alignCeil (e + (size + h.pad e + cfg.overhead)) cacheLine) :
    ∃ S', Settled cfg rs S'
      (if minDataSize + cfg.overhead ≤ g.size e - (size + h.pad e + cfg.overhead) then
        mallocElemFreeListInsert (splitElem g e sp) sp else g)
      (resizeArea areas d.data size) := by
  have hloose : Loose cfg rs S h (areas.filter (fun d' => d'.data ≠ d.data)) e := by
    have hl := hs.loosen he .busy
    rwa [← he.busy, update_eq_self] at hl
  have hjoined : joinNextFree cfg h e = g := by
    simp only [joinNextFree, hn, if_pos hjoin, hg]
  obtain ⟨S', hl, hpads, hbehind⟩ := hloose.joinNextFree_spec
  rw [hjoined] at hl hpads hbehind
  have hstate : g.state = h.state := by
    rw [hg, joinElem_state]
    rfl
  have hsize : g.size e = h.size e + h.size n := by
    rw [hg, joinElem_size, if_neg (fun hp => hp.1 (by omega)), if_pos rfl]
    rfl
  have hbusy : g.state e = .busy := by rw [hstate, he.busy]
  have hdata : d.data = e + g.pad e + headerLen := by rw [hpads, he.data_eq]
  have hinner : g.pad e ≠ 0 → g.state (e + g.pad e) = .pad ∧ g.pad (e + g.pad e) = g.pad e ∧
      g.size (e + g.pad e) = g.size e - g.pad e := by
    rw [hpads, hstate]
    intro hpos
    obtain ⟨hst, hpd, -⟩ := he.inner hpos
    refine ⟨hst, hpd, ?_⟩
    rw [hsize, hg, joinElem_size, if_pos ⟨hpos, rfl⟩]
    rfl
  split_ifs with hsplit
  · rw [← hpads] at hsplit hsp hroom
    exact hl.cutTail hbehind hbusy hdata hinner (by omega) haligned hs.distinct hsp
  · refine ⟨S', hl.resized hbusy hdata hinner ?_ haligned hs.distinct⟩
    have hdata' := he.data_eq
    rw [hsize]
    simp only [Config.overhead] at hroom
    omega

/-- **`malloc_elem_resize` keeps a heap settled**, and the area has the size
that was asked for where it succeeds. -/
theorem Settled.mallocHeapResize (hs : Settled cfg rs S h areas) (hd : d ∈ areas)
    (hwrap : size + h.pad (mallocElemFromData h d.data) + cfg.overhead < word) :
    ∃ S', Settled cfg rs S' (Malloc.mallocHeapResize cfg h (mallocElemFromData h d.data) size).1
      (if (Malloc.mallocHeapResize cfg h (mallocElemFromData h d.data) size).2 = 0 then
        resizeArea areas d.data size else areas) := by
  obtain ⟨e, he⟩ := hs.held d hd
  rw [he.fromData] at hwrap ⊢
  rw [Malloc.mallocHeapResize, if_pos he.busy, mallocElemResize, mod_eq_of_lt hwrap]
  have haligned : ∀ d' ∈ areas, d'.data = d.data → d'.align ∣ d.data := by
    intro d' hd' heq
    obtain ⟨e', he'⟩ := hs.held d' hd'
    exact heq ▸ he'.aligned
  by_cases hroom : size + h.pad e + cfg.overhead ≤ h.size e
  · simp only [if_pos hroom]
    have hloose : Loose cfg rs S h (areas.filter (fun d' => d'.data ≠ d.data)) e := by
      have hl := hs.loosen he .busy
      rwa [← he.busy, update_eq_self] at hl
    have hdata := he.data_eq
    refine ⟨S, hloose.resized he.busy he.data_eq he.inner ?_ haligned hs.distinct⟩
    simp only [Config.overhead] at hroom
    omega
  · simp only [if_neg hroom]
    cases hn : h.next e with
    | none => exact ⟨S, hs⟩
    | some n =>
      by_cases hjoin : h.state n = .free ∧ Adjacent cfg h e n
      · simp only [if_pos hjoin]
        by_cases hshort : h.size e + h.size n < size + h.pad e + cfg.overhead
        · simp only [if_pos hshort]
          exact ⟨S, hs⟩
        · simp only [if_neg hshort]
          have hgrown := hs.grow he haligned hn hjoin (Nat.le_of_not_lt hshort) rfl rfl
          by_cases hsplit : minDataSize + cfg.overhead ≤
              (joinElem (mallocElemFreeListRemove h n) e n).size e -
                (size + h.pad e + cfg.overhead)
          · rw [if_pos hsplit] at hgrown
            simpa only [if_pos hsplit, if_true] using hgrown
          · rw [if_neg hsplit] at hgrown
            simpa only [if_neg hsplit, if_true] using hgrown
      · simp only [if_neg hjoin]
        exact ⟨S, hs⟩

/-! ## Adding memory -/

/-- The search from below ends at the last element before the address. -/
theorem searchUp_spec (hc : Chain S h.first h.last h.next h.prev) (elem fuel q : ℕ)
    (hq : q ∈ S) (hlt : q < elem) (hfuel : elem ≤ fuel + q) :
    searchUp h elem fuel q ∈ S ∧ searchUp h elem fuel q < elem ∧
      ∀ n, h.next (searchUp h elem fuel q) = some n → elem ≤ n := by
  induction fuel generalizing q with
  | zero => omega
  | succ fuel ih =>
    rw [searchUp]
    cases hn : h.next q with
    | none =>
      refine ⟨hq, hlt, fun n hn' => ?_⟩
      exact absurd (hn.symm.trans hn') (by simp)
    | some n =>
      have hfollows := hc.follows_of_next hq hn
      dsimp only
      split_ifs with hbelow
      · exact ih n hfollows.2.1 hbelow (by have := hfollows.2.2.1; omega)
      · refine ⟨hq, hlt, fun n' hn' => ?_⟩
        have heq : n = n' := Option.some.inj (hn.symm.trans hn')
        omega

/-- The search from above ends at the first element after the address. -/
theorem searchDown_spec (hc : Chain S h.first h.last h.next h.prev) (elem fuel q : ℕ)
    (hq : q ∈ S) (hlt : elem < q) (hfuel : q ≤ fuel + elem) :
    searchDown h elem fuel q ∈ S ∧ elem < searchDown h elem fuel q ∧
      ∀ p, h.prev (searchDown h elem fuel q) = some p → p ≤ elem := by
  induction fuel generalizing q with
  | zero => omega
  | succ fuel ih =>
    rw [searchDown]
    cases hp : h.prev q with
    | none =>
      refine ⟨hq, hlt, fun p hp' => ?_⟩
      exact absurd (hp.symm.trans hp') (by simp)
    | some p =>
      have hfollows := hc.follows_of_prev hq hp
      dsimp only
      split_ifs with habove
      · exact ih p hfollows.1 habove (by have := hfollows.2.2.1; omega)
      · refine ⟨hq, hlt, fun p' hp' => ?_⟩
        have heq : p = p' := Option.some.inj (hp.symm.trans hp')
        omega

/-- **The neighbours** of a new element are the last one below it and the
first one above it. -/
theorem neighbours_spec (hc : Chain S h.first h.last h.next h.prev) (hS : S.Finite) {elem f l : ℕ}
    (hf : h.first = some f) (hl : h.last = some l) (hnew : elem ∉ S) :
    (∀ a, (neighbours h elem f l).1 = some a → a ∈ S ∧ a < elem) ∧
    (∀ c ∈ S, c < elem → ∃ a, (neighbours h elem f l).1 = some a ∧ c ≤ a) ∧
    (∀ b, (neighbours h elem f l).2 = some b → b ∈ S ∧ elem < b) ∧
    (∀ c ∈ S, elem < c → ∃ b, (neighbours h elem f l).2 = some b ∧ b ≤ c) := by
  obtain ⟨hfS, hleast⟩ := (hc.first_iff f).mp hf
  obtain ⟨hlS, hgreatest⟩ := (hc.last_iff l).mp hl
  have hne : ∀ c ∈ S, c ≠ elem := fun c hc e => hnew (e ▸ hc)
  have hfne := hne f hfS
  have hlne := hne l hlS
  unfold neighbours
  by_cases hlow : elem < f
  · rw [if_pos hlow]
    refine ⟨fun a ha => ?_, fun c hcS hlt => ?_, fun b hb => ?_, fun c hcS _ => ?_⟩
    · cases ha
    · have hle := hleast hcS
      omega
    · cases hb
      exact ⟨hfS, hlow⟩
    · exact ⟨f, rfl, hleast hcS⟩
  by_cases hhigh : l < elem
  · rw [if_neg hlow, if_pos hhigh]
    refine ⟨fun a ha => ?_, fun c hcS _ => ?_, fun b hb => ?_, fun c hcS hlt => ?_⟩
    · cases ha
      exact ⟨hlS, hhigh⟩
    · exact ⟨l, rfl, hgreatest hcS⟩
    · cases hb
    · have hle := hgreatest hcS
      omega
  by_cases hnear : elem - f < l - elem
  · rw [if_neg hlow, if_neg hhigh, if_pos hnear]
    obtain ⟨hqS, hlt, hnext⟩ := searchUp_spec hc elem elem f hfS (by omega) (by omega)
    generalize searchUp h elem elem f = q at hqS hlt hnext
    refine ⟨fun a ha => ?_, fun c hcS hclt => ⟨q, rfl, ?_⟩, fun b hb => ?_, fun c hcS hclt => ?_⟩
    · cases ha
      exact ⟨hqS, hlt⟩
    · cases hn : h.next q with
      | none => exact hc.le_of_next_none hS hqS hn hcS
      | some n =>
        have hbetween := (hc.follows_of_next hqS hn).2.2.2 c hcS
        have hge := hnext n hn
        omega
    · have hfollows := hc.follows_of_next hqS hb
      have hge := hnext b hb
      have hbne := hne b hfollows.2.1
      exact ⟨hfollows.2.1, by omega⟩
    · cases hn : h.next q with
      | none =>
        have hle := hc.le_of_next_none hS hqS hn hcS
        omega
      | some n =>
        have hbetween := (hc.follows_of_next hqS hn).2.2.2 c hcS
        exact ⟨n, hn, by omega⟩
  · rw [if_neg hlow, if_neg hhigh, if_neg hnear]
    obtain ⟨hqS, hlt, hprev⟩ := searchDown_spec hc elem l l hlS (by omega) (by omega)
    generalize searchDown h elem l l = q at hqS hlt hprev
    refine ⟨fun a ha => ?_, fun c hcS hclt => ?_, fun b hb => ?_, fun c hcS hclt => ⟨q, rfl, ?_⟩⟩
    · have hfollows := hc.follows_of_prev hqS ha
      have hle := hprev a ha
      have hane := hne a hfollows.1
      exact ⟨hfollows.1, by omega⟩
    · cases hp : h.prev q with
      | none =>
        have hle := hc.le_of_prev_none hS hqS hp hcS
        omega
      | some p =>
        have hbetween := (hc.follows_of_prev hqS hp).2.2.2 c hcS
        exact ⟨p, hp, by omega⟩
    · cases hb
      exact ⟨hqS, hlt⟩
    · cases hp : h.prev q with
      | none => exact hc.le_of_prev_none hS hqS hp hcS
      | some p =>
        have hbetween := (hc.follows_of_prev hqS hp).2.2.2 c hcS
        have hle := hprev p hp
        omega

theorem linkElem_next (below above : Option ℕ) (p c : ℕ) (hbelow : below ≠ some p) :
    (linkElem h p below above).next c =
      if c = p then above else if below = some c then some p else h.next c := by
  cases below <;> cases above <;> simp [linkElem, update_apply] <;> grind

theorem linkElem_prev (below above : Option ℕ) (p c : ℕ) (habove : above ≠ some p) :
    (linkElem h p below above).prev c =
      if c = p then below else if above = some c then some p else h.prev c := by
  cases below <;> cases above <;> simp [linkElem, update_apply] <;> grind

theorem linkElem_first (below above : Option ℕ) (p : ℕ) :
    (linkElem h p below above).first = if below = none then some p else h.first := by
  cases below <;> cases above <;> simp [linkElem]

theorem linkElem_last (below above : Option ℕ) (p : ℕ) :
    (linkElem h p below above).last = if above = none then some p else h.last := by
  cases below <;> cases above <;> simp [linkElem]

theorem linkElem_other (below above : Option ℕ) (p : ℕ) :
    (linkElem h p below above).msl = h.msl ∧ (linkElem h p below above).state = h.state ∧
      (linkElem h p below above).pad = h.pad ∧ (linkElem h p below above).size = h.size ∧
      (linkElem h p below above).orig_elem = h.orig_elem ∧
      (linkElem h p below above).free_head = h.free_head := by
  cases below <;> cases above <;> exact ⟨rfl, rfl, rfl, rfl, rfl, rfl⟩

/-- A new element is linked where its address belongs. -/
theorem mallocElemInsert_spec (hc : Chain S h.first h.last h.next h.prev) (hS : S.Finite) {p : ℕ}
    (hp : p ∉ S) :
    Chain (insert p S) (mallocElemInsert h p).first (mallocElemInsert h p).last
        (mallocElemInsert h p).next (mallocElemInsert h p).prev ∧
      ∃ below above, mallocElemInsert h p = linkElem h p below above := by
  obtain ⟨below, above, heq, hbelow, hbelow', habove, habove'⟩ : ∃ below above,
      mallocElemInsert h p = linkElem h p below above ∧
      (∀ a, below = some a → a ∈ S ∧ a < p) ∧
      (∀ c ∈ S, c < p → ∃ a, below = some a ∧ c ≤ a) ∧
      (∀ b, above = some b → b ∈ S ∧ p < b) ∧
      (∀ c ∈ S, p < c → ∃ b, above = some b ∧ b ≤ c) := by
    cases hf : h.first with
    | none =>
      have hempty := hc.eq_empty_of_first hS hf
      have hl : h.last = none := by
        cases hl : h.last with
        | none => rfl
        | some l =>
          have hmem := ((hc.last_iff l).mp hl).1
          rw [hempty] at hmem
          exact absurd hmem (Set.notMem_empty l)
      subst hempty
      refine ⟨none, none, by simp [mallocElemInsert, hf, hl], ?_, ?_, ?_, ?_⟩ <;> simp
    | some f =>
      cases hl : h.last with
      | none =>
        have hmem := ((hc.first_iff f).mp hf).1
        rw [hc.eq_empty_of_last hS hl] at hmem
        exact absurd hmem (Set.notMem_empty f)
      | some l =>
        obtain ⟨h₁, h₂, h₃, h₄⟩ := neighbours_spec hc hS hf hl hp
        exact ⟨_, _, by simp [mallocElemInsert, hf, hl], h₁, h₂, h₃, h₄⟩
  refine ⟨?_, below, above, heq⟩
  have hbp : below ≠ some p := fun e => hp (hbelow p e).1
  have hap : above ≠ some p := fun e => hp (habove p e).1
  rw [heq]
  exact hc.insert p below above hbelow hbelow' habove habove' (linkElem_first _ _ _)
    (linkElem_last _ _ _) (fun c _ => linkElem_next _ _ _ c hbp)
    (fun c _ => linkElem_prev _ _ _ c hap)

/-- The element of a new region is linked into the heap. -/
theorem Settled.add (hs : Settled cfg rs S h areas) {r : Region}
    (hdisjoint : ∀ r' ∈ rs, ∀ x, ¬ (r.Has x ∧ r'.Has x)) {g : Heap}
    (hg : g = mallocElemInsert (mallocElemInit h r.start r.msl r.len r.start r.len) r.start) :
    Loose cfg (r :: rs) (insert r.start S) g areas r.start ∧ g.pad r.start = 0 := by
  have hlen : 0 < r.len := by
    have hge := r.len_ge
    simp only [cacheLine] at hge
    omega
  have hout : ∀ x, r.Has x → ∀ a ∈ S, ¬ h.Has a x := by
    intro x hx a ha hax
    obtain ⟨r', hr', hr'x⟩ := (hs.shape.tile x).mpr ⟨a, ha, hax⟩
    exact hdisjoint r' hr' x ⟨hx, hr'x⟩
  have hstart : r.start ∉ S := fun hmem =>
    hout r.start ⟨le_refl _, by omega⟩ r.start hmem
      ⟨le_refl _, by have := hs.shape.size_pos hmem; omega⟩
  have hne : ∀ x ∈ S, x ≠ r.start := fun x hx e => hstart (e ▸ hx)
  have hc : Chain S (mallocElemInit h r.start r.msl r.len r.start r.len).first
      (mallocElemInit h r.start r.msl r.len r.start r.len).last
      (mallocElemInit h r.start r.msl r.len r.start r.len).next
      (mallocElemInit h r.start r.msl r.len r.start r.len).prev :=
    hs.shape.chain.congr (fun x hx => update_of_ne (hne x hx) _ _)
      (fun x hx => update_of_ne (hne x hx) _ _)
  obtain ⟨hchain, below, above, hlink⟩ := mallocElemInsert_spec hc hs.shape.finite hstart
  obtain ⟨hmsl, hstate, hpad, hsize, horig, hlists⟩ :=
    linkElem_other (h := mallocElemInit h r.start r.msl r.len r.start r.len) below above r.start
  rw [← hg] at hchain hlink
  rw [← hlink] at hmsl hstate hpad hsize horig hlists
  have hmsl' : g.msl = update h.msl r.start r.msl := hmsl
  have hstate' : g.state = update h.state r.start .free := hstate
  have hpad' : g.pad = update h.pad r.start 0 := hpad
  have hsize' : g.size = update h.size r.start r.len := hsize
  have horig' : g.orig_elem = update h.orig_elem r.start r.start := horig
  have hhas : ∀ a ∈ S, ∀ x, g.Has a x ↔ h.Has a x := by
    intro a ha x
    rw [Heap.Has, Heap.Has, hsize', update_of_ne (hne a ha)]
  have hhasStart : ∀ x, g.Has r.start x ↔ r.Has x := by
    intro x
    rw [Heap.Has, Region.Has, hsize', update_self]
  have hpadStart : g.pad r.start = 0 := by rw [hpad', update_self]
  refine ⟨?_, hpadStart⟩
  constructor
  · constructor
    · exact hs.shape.finite.insert _
    · exact hchain
    · rintro a (rfl | ha)
      · exact r.start_dvd
      · exact hs.shape.addr_dvd a ha
    · rintro a (rfl | ha)
      · rw [hsize', update_self]
        exact r.len_dvd
      · rw [hsize', update_of_ne (hne a ha)]
        exact hs.shape.size_dvd a ha
    · rintro a (rfl | ha)
      · have hge := r.len_ge
        rw [hsize', update_self]
        rcases cfg.trailerLen_eq with h0 | h1
        · simp only [Config.overhead, h0, headerLen, cacheLine] at hge ⊢
          omega
        · simp only [Config.overhead, h1, headerLen, cacheLine] at hge ⊢
          omega
      · rw [hsize', update_of_ne (hne a ha)]
        exact hs.shape.room a ha
    · rintro a (rfl | ha) b (rfl | hb) hab
      · omega
      · rw [hsize', update_self]
        by_contra hlt
        exact hout b ⟨hab.le, by omega⟩ b hb ⟨le_refl _, by have := hs.shape.size_pos hb; omega⟩
      · rw [hsize', update_of_ne (hne a ha)]
        by_contra hlt
        exact hout r.start ⟨le_refl _, by omega⟩ a ha ⟨hab.le, by omega⟩
      · rw [hsize', update_of_ne (hne a ha)]
        exact hs.shape.apart a ha b hb hab
    · intro x
      constructor
      · rintro ⟨r', hr', hx⟩
        rcases mem_cons.mp hr' with rfl | hr'
        · exact ⟨r'.start, Or.inl rfl, (hhasStart x).mpr hx⟩
        · obtain ⟨a, ha, hax⟩ := (hs.shape.tile x).mp ⟨r', hr', hx⟩
          exact ⟨a, Or.inr ha, (hhas a ha x).mpr hax⟩
      · rintro ⟨a, rfl | ha, hx⟩
        · exact ⟨r, mem_cons_self, (hhasStart x).mp hx⟩
        · obtain ⟨r', hr', hr'x⟩ := (hs.shape.tile x).mpr ⟨a, ha, (hhas a ha x).mp hx⟩
          exact ⟨r', mem_cons_of_mem r hr', hr'x⟩
    · rintro a ha x hx r' hr' hr'x
      rcases ha with rfl | ha
      · have hrr : r' = r := by
          rcases mem_cons.mp hr' with rfl | hr'
          · rfl
          · exact absurd ⟨(hhasStart x).mp hx, hr'x⟩ (hdisjoint r' hr' x)
        rw [hmsl', horig', update_self, update_self, hrr]
        exact ⟨rfl, fun _ => rfl⟩
      · have hax := (hhas a ha x).mp hx
        rw [hmsl', horig', update_of_ne (hne a ha), update_of_ne (hne a ha)]
        rcases mem_cons.mp hr' with rfl | hr'
        · exact absurd hax (hout x hr'x a ha)
        · exact hs.shape.owner a ha x hax r' hr' hr'x
  · exact Or.inl rfl
  · rw [hpadStart, hsize', update_self]
    exact hlen
  · have hset : {x | x ∈ insert r.start S ∧ x ≠ r.start ∧ g.state x = .free} =
        {x | x ∈ S ∧ h.state x = .free} := by
      ext x
      rw [hstate']
      by_cases hx : x = r.start
      · simp [hx, hstart]
      · simp [hx, update_apply]
    rw [hset]
    refine hs.listed.congr hlists (fun x hx => ?_)
    rw [hsize', update_of_ne (hne x hx.1)]
  · intro x hx hxr hxfree
    rw [hstate', update_of_ne hxr] at hxfree
    rw [hpad', update_of_ne hxr]
    exact hs.unpadded x (hx.resolve_left hxr) hxfree
  · intro x hx y hy hxr hyr hxfree hyfree hadj
    rw [hstate', update_of_ne hxr] at hxfree
    rw [hstate', update_of_ne hyr] at hyfree
    unfold Adjacent at hadj
    rw [hsize', hmsl', horig', update_of_ne hxr, update_of_ne hxr, update_of_ne hxr,
      update_of_ne hyr, update_of_ne hyr] at hadj
    exact hs.coalesced x (hx.resolve_left hxr) y (hy.resolve_left hyr) hxfree hyfree hadj
  · intro x hx hxr
    rw [hstate', update_of_ne hxr]
    exact hs.state x (hx.resolve_left hxr)
  · intro d hd
    obtain ⟨e, he⟩ := hs.held d hd
    have hes : e ≠ r.start := hne e he.mem
    have hxs : ∀ x, x = e ∨ x = e + h.pad e → x ≠ r.start := by
      rintro x (rfl | rfl)
      · exact hes
      · intro heq
        exact hout r.start ⟨le_refl _, by omega⟩ e he.mem
          ⟨by omega, by have := he.pad_lt; omega⟩
    refine ⟨e, hes, he.congr (Or.inr he.mem) (fun x hx => ?_) (fun x hx => ?_) (fun x hx => ?_)⟩
    · rw [hstate', update_of_ne (hxs x hx)]
    · rw [hpad', update_of_ne (hxs x hx)]
    · rw [hsize', update_of_ne (hxs x hx)]
  · exact hs.distinct

/-- `malloc_heap_add_memory` keeps a heap settled, with the new region. -/
theorem Settled.mallocHeapAddMemory (hs : Settled cfg rs S h areas) {r : Region}
    (hdisjoint : ∀ r' ∈ rs, ∀ x, ¬ (r.Has x ∧ r'.Has x)) :
    ∃ S', Settled cfg (r :: rs) S' (Malloc.mallocHeapAddMemory cfg h r.msl r.start r.len) areas := by
  obtain ⟨hloose, hpad⟩ := hs.add hdisjoint rfl
  obtain ⟨S', hjoined, hlone, hzero⟩ := hloose.join_spec
  refine ⟨S', ?_⟩
  have hsettled := hjoined.settle hlone
  rw [Malloc.mallocHeapAddMemory]
  generalize mallocElemJoinAdjacentFree cfg _ r.start = j at hsettled hzero ⊢
  have hkeep : update (mallocElemFreeListInsert j.1 j.2).pad j.2 0 =
      (mallocElemFreeListInsert j.1 j.2).pad := by
    rw [← hzero hpad]
    exact update_eq_self _ _
  rw [hkeep] at hsettled
  exact hsettled

end Malloc
