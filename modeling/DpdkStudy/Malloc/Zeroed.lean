import DpdkStudy.Malloc.Contents

/-!
# Memory from `rte_zmalloc` is zero

Between two operations the data of each free element is zero where the element
is marked clean (`FreeIsZero`). While an element is taken out to be joined,
split or handed out the same holds of the others (`OthersZero`), and what is
done to the memory then stays inside that element. When memory is freed, all of
the joined element but the data that has been given back is zero if the element
is clean (`ZeroBut`), and that data is cleared then.
-/

namespace Malloc

open Function

variable {cfg : Config} {rs : List Region} {S : Set ℕ} {h h' : Heap} {m m' : Memory}
  {areas : List Area} {a n : ℕ}

/-! ## One element taken out -/

/-- The data of the other free elements is zero where they are marked clean. -/
def OthersZero (cfg : Config) (S : Set ℕ) (h : Heap) (m : Memory) (a : ℕ) : Prop :=
  ∀ x ∈ S, x ≠ a → h.state x = .free → ZeroIfClean cfg h m x

/-- The data of an element is zero, but for some bytes, if it is marked clean. -/
def ZeroBut (cfg : Config) (h : Heap) (m : Memory) (a lo hi : ℕ) : Prop :=
  m.dirty a = false → ∀ x, h.DataHas cfg a x → ¬ (lo ≤ x ∧ x < hi) → m.byte x = some 0

@[simp] theorem Memory.fill_byte (m : Memory) (start len : ℕ) (v : Option UInt8) (x : ℕ) :
    (m.fill start len v).byte x = if start ≤ x ∧ x < start + len then v else m.byte x := rfl

@[simp] theorem Memory.fill_dirty (m : Memory) (start len : ℕ) (v : Option UInt8) :
    (m.fill start len v).dirty = m.dirty := rfl

@[simp] theorem Memory.splitElem_byte (m : Memory) (a t x : ℕ) : (m.splitElem a t).byte x =
    if t ≤ x ∧ x < t + headerLen then none else m.byte x := rfl

@[simp] theorem Memory.splitElem_dirty (m : Memory) (a t : ℕ) :
    (m.splitElem a t).dirty = update m.dirty t (m.dirty a) := rfl

@[simp] theorem Memory.joinElem_byte (m : Memory) (a b : ℕ) : (m.joinElem a b).byte = m.byte := rfl

@[simp] theorem Memory.joinElem_dirty (m : Memory) (a b : ℕ) :
    (m.joinElem a b).dirty = update m.dirty a (m.dirty a || m.dirty b) := rfl

theorem Heap.DataHas.has {x : ℕ} (hx : h.DataHas cfg a x) : h.Has a x :=
  ⟨le_trans (Nat.le_add_right _ _) hx.1, lt_of_le_of_lt (Nat.le_add_right _ _) hx.2⟩

/-- What happens elsewhere leaves the data of an element as it is. -/
theorem OthersZero.congr (ho : OthersZero cfg S h m a) {S' : Set ℕ} {a' : ℕ}
    (hkept : ∀ x ∈ S', x ≠ a' → h'.state x = .free → x ∈ S ∧ x ≠ a ∧ h.state x = .free ∧
      h'.size x = h.size x ∧ m'.dirty x = m.dirty x ∧
      ∀ y, h.DataHas cfg x y → m'.byte y = m.byte y) : OthersZero cfg S' h' m' a' := by
  intro x hx hxa hfree hclean y hy
  obtain ⟨hxS, hne, hfree', hsize, hdirty, hbyte⟩ := hkept x hx hxa hfree
  have hy' : h.DataHas cfg x y := by
    unfold Heap.DataHas at hy ⊢
    rwa [hsize] at hy
  rw [hbyte y hy']
  exact ho x hxS hne hfree' (hdirty.symm.trans hclean) y hy'

/-- The free elements of a heap at rest are those on its lists. -/
theorem Settled.freeIsZero_iff (hs : Settled cfg rs S h areas) :
    FreeIsZero cfg h m ↔ ∀ x ∈ S, h.state x = .free → ZeroIfClean cfg h m x := by
  constructor
  · exact fun hz x hx hfree => hz _ x ((hs.listed.mem_iff _ x).mpr ⟨⟨hx, hfree⟩, rfl⟩)
  · intro hz i x hx
    obtain ⟨⟨hxS, hfree⟩, -⟩ := (hs.listed.mem_iff i x).mp hx
    exact hz x hxS hfree

/-- With an element taken out, the lists have the others. -/
theorem Loose.freeIsZero (hl : Loose cfg rs S h areas a) (ho : OthersZero cfg S h m a) :
    FreeIsZero cfg h m := by
  intro i x hx
  obtain ⟨⟨hxS, hxa, hfree⟩, -⟩ := (hl.listed.mem_iff i x).mp hx
  exact ho x hxS hxa hfree

/-- What is on the lists is zero as the others are. -/
theorem Loose.othersZero (hl : Loose cfg rs S h areas a) (hz : FreeIsZero cfg h m) :
    OthersZero cfg S h m a := fun x hx hxa hfree =>
  hz _ x ((hl.listed.mem_iff _ x).mpr ⟨⟨hx, hxa, hfree⟩, rfl⟩)

/-- An element that is put back is zero if it is marked clean, too. -/
theorem Loose.freeIsZero_insert (hl : Loose cfg rs S h areas a) (ho : OthersZero cfg S h m a)
    (hz : ZeroIfClean cfg h m a) : FreeIsZero cfg (mallocElemFreeListInsert h a) m := by
  intro i x hx
  have hcase : x = a ∨ x ∈ h.free_head i := by
    simp only [mallocElemFreeListInsert, update_apply] at hx
    split_ifs at hx with hi
    · exact (List.mem_cons.mp hx).imp_right (fun hx => hi ▸ hx)
    · exact Or.inr hx
  rcases hcase with rfl | hx
  · exact hz
  · exact hl.freeIsZero ho i x hx

theorem ZeroIfClean.congr (hz : ZeroIfClean cfg h m a) (hsize : h'.size a = h.size a) :
    ZeroIfClean cfg h' m a := by
  intro hclean x hx
  refine hz hclean x ?_
  unfold Heap.DataHas at hx ⊢
  rwa [hsize] at hx

theorem ZeroIfClean.fill (hz : ZeroIfClean cfg h m a) (hs : Shape cfg rs S h) (ha : a ∈ S) {b : ℕ}
    (hb : b ∈ S) (hne : a ≠ b) {start len : ℕ}
    (hin : ∀ x, start ≤ x → x < start + len → h.Has b x) (v : Option UInt8) :
    ZeroIfClean cfg h (m.fill start len v) a := by
  intro hclean x hx
  rw [Memory.fill_byte, if_neg]
  · exact hz hclean x hx
  · exact fun hx' => hne (hs.unique ha hb hx.has (hin x hx'.1 hx'.2))

theorem Settled.freeIsZero_fill (hs : Settled cfg rs S h areas) (hz : FreeIsZero cfg h m) {b : ℕ}
    (hb : b ∈ S) (hbusy : h.state b = .busy) {start len : ℕ}
    (hin : ∀ x, start ≤ x → x < start + len → h.Has b x) (v : Option UInt8) :
    FreeIsZero cfg h (m.fill start len v) := by
  refine hs.freeIsZero_iff.mpr (fun x hx hfree => ?_)
  refine (hs.freeIsZero_iff.mp hz x hx hfree).fill hs.shape hx hb ?_ hin v
  rintro rfl
  exact absurd (hbusy.symm.trans hfree) (by decide)

/-! ## Splitting -/

section

variable (hl : Loose cfg rs S h areas a) (ho : OthersZero cfg S h m a)

include hl ho

/-- A free element that is split off is zero if its part was. -/
theorem Loose.split_off_zero {t : ℕ} (hat : a + cfg.overhead ≤ t)
    (hte : t + cfg.overhead ≤ a + h.size a) (hpad : a + h.pad a < t)
    (htail : m.dirty a = false → ∀ x, t + headerLen ≤ x → x + cfg.trailerLen < a + h.size a → m.byte x = some 0)
    :
    OthersZero cfg (insert t S) (mallocElemFreeListInsert (splitElem h a t) t)
      (m.splitElem a t) a := by
  have hover : 0 < cfg.overhead := Nat.add_pos_left (by decide) _
  have hhead : headerLen ≤ cfg.overhead := Nat.le_add_right _ _
  have hlt : a < t := by omega
  have htS : t ∉ S := hl.shape.notMem_inside hl.mem hlt (by omega)
  have hsize : ∀ x, x = t ∨ x ∈ S → (splitElem h a t).size x =
      if x = a then t - a else if x = t then h.size a - (t - a) else h.size x :=
    fun x hx => splitElem_size_mem hl.shape hl.mem hlt (by omega) hpad hx
  rintro x (rfl | hx) hxa hfree hclean y hy
  · have hy' : x + headerLen ≤ y ∧ y + cfg.trailerLen < a + h.size a := by
      refine ⟨hy.1, ?_⟩
      have hlast := hy.2
      change _ < x + (splitElem h a x).size x at hlast
      rw [hsize x (Or.inl rfl), if_neg hlt.ne', if_pos rfl] at hlast
      omega
    rw [Memory.splitElem_dirty, update_self] at hclean
    rw [Memory.splitElem_byte, if_neg (by omega)]
    exact htail hclean y hy'.1 hy'.2
  · have hxt : x ≠ t := fun e => htS (e ▸ hx)
    have hy' : h.DataHas cfg x y := by
      unfold Heap.DataHas at hy ⊢
      change _ ∧ _ < x + (splitElem h a t).size x at hy
      rwa [hsize x (Or.inr hx), if_neg hxa, if_neg hxt] at hy
    have hfree' : h.state x = .free := by
      change update (splitElem h a t).state t .free x = _ at hfree
      rwa [update_of_ne hxt, splitElem_state, update_of_ne hxt] at hfree
    rw [Memory.splitElem_dirty, update_of_ne hxt] at hclean
    rw [Memory.splitElem_byte, if_neg]
    · exact ho x hx hxa hfree' hclean y hy'
    · intro hyt
      exact hxa (hl.shape.unique hx hl.mem hy'.has ⟨by omega, by omega⟩)

/-! ## Joining -/

/-- The other elements when the next one is joined. -/
theorem Loose.join_next_others (hn : h.next a = some n)
    (hdirty : ∀ x, x ≠ a → m'.dirty x = m.dirty x)
    (hbyte : ∀ y, ¬ h.Has a y → ¬ h.Has n y → m'.byte y = m.byte y) :
    OthersZero cfg (S \ {n}) (joinElem (mallocElemFreeListRemove h n) a n) m' a := by
  have hnS := (hl.shape.chain.follows_of_next hl.mem hn).2.1
  have hshape : Shape cfg rs S (mallocElemFreeListRemove h n) :=
    hl.shape.congr rfl rfl rfl rfl rfl rfl (fun _ _ => rfl)
  refine ho.congr (fun x hx hxa hfree => ⟨hx.1, hxa, ?_, ?_, hdirty x hxa, fun y hy => ?_⟩)
  · rwa [joinElem_state] at hfree
  · rw [joinElem_size_mem hshape hl.mem hl.pad_lt hx.1, if_neg hxa]
    rfl
  · exact hbyte y (fun hay => hxa (hl.shape.unique hx.1 hl.mem hy.has hay))
      (fun hny => hx.2 (hl.shape.unique hx.1 hnS hy.has hny))

/-- The next element is joined and its header erased, if it is free. -/
theorem Loose.joinNextFree_zero {lo hi : ℕ} (hz : ZeroBut cfg h m a lo hi) :
    ∃ S', Loose cfg rs S' (joinNextFree cfg h a) areas a ∧
      OthersZero cfg S' (joinNextFree cfg h a) (m.joinNextFree cfg h a) a ∧
      ZeroBut cfg (joinNextFree cfg h a) (m.joinNextFree cfg h a) a lo hi ∧
      (joinNextFree cfg h a).pad = h.pad ∧ h.size a ≤ (joinNextFree cfg h a).size a := by
  rw [joinNextFree, Memory.joinNextFree]
  cases hn : h.next a with
  | none => exact ⟨S, hl, ho, hz, rfl, le_rfl⟩
  | some n =>
    by_cases hjoin : h.state n = .free ∧ Adjacent cfg h a n
    swap
    · simp only [if_neg hjoin]
      exact ⟨S, hl, ho, hz, trivial, le_rfl⟩
    simp only [if_pos hjoin]
    obtain ⟨hfree, hadj⟩ := hjoin
    obtain ⟨-, hnS, han, -⟩ := hl.shape.chain.follows_of_next hl.mem hn
    have hne : n ≠ a := by omega
    have hend := hadj.1
    have hrooma := hl.shape.room a hl.mem
    have hroomn := hl.shape.room n hnS
    have hpadn := hl.unpadded n hnS hne hfree
    have hshape : Shape cfg rs S (mallocElemFreeListRemove h n) :=
      hl.shape.congr rfl rfl rfl rfl rfl rfl (fun _ _ => rfl)
    have hsize : (joinElem (mallocElemFreeListRemove h n) a n).size a = h.size a + h.size n := by
      rw [joinElem_size_mem hshape hl.mem hl.pad_lt hl.mem, if_pos rfl]
      rfl
    simp only [Config.overhead] at hrooma hroomn
    refine ⟨S \ {n}, hl.join_next hn hfree hadj, hl.join_next_others ho hn ?_ ?_, ?_, joinElem_pad,
      by omega⟩
    · intro x hx
      simp [Memory.memset, hx]
    · intro y hay hny
      simp only [Heap.Has] at hay hny
      simp only [Memory.memset, Memory.fill_byte, Memory.joinElem_byte, hpadn, Config.overhead]
      rw [if_neg (by omega)]
    · intro hclean x hx hout
      simp only [Memory.memset, Memory.fill_dirty, Memory.joinElem_dirty, update_self,
        Bool.or_eq_false_iff] at hclean
      unfold Heap.DataHas at hx
      rw [hsize] at hx
      simp only [Memory.memset, Memory.fill_byte, Memory.joinElem_byte, hpadn, Config.overhead]
      split_ifs with herased
      · rfl
      · by_cases hxa : x + cfg.trailerLen < a + h.size a
        · exact hz hclean.1 x ⟨hx.1, hxa⟩ hout
        · exact ho n hnS hne hfree hclean.2 x ⟨by omega, by omega⟩

/-- **The previous element is joined and the header erased**, if it is free. -/
theorem Loose.joinPrevFree_zero {lo hi : ℕ} (hz : ZeroBut cfg h m a lo hi)
    (hpada : headerLen + h.pad a ≤ h.size a) :
    ∃ S', Loose cfg rs S' (joinPrevFree cfg h a).1 areas (joinPrevFree cfg h a).2 ∧
      OthersZero cfg S' (joinPrevFree cfg h a).1 (m.joinPrevFree cfg h a) (joinPrevFree cfg h a).2 ∧
      ZeroBut cfg (joinPrevFree cfg h a).1 (m.joinPrevFree cfg h a) (joinPrevFree cfg h a).2
        lo hi ∧
      ∀ x, h.Has a x → (joinPrevFree cfg h a).1.Has (joinPrevFree cfg h a).2 x := by
  rw [joinPrevFree, Memory.joinPrevFree]
  cases hp : h.prev a with
  | none => exact ⟨S, hl, ho, hz, fun _ hx => hx⟩
  | some p =>
    by_cases hjoin : h.state p = .free ∧ Adjacent cfg h p a
    swap
    · simp only [if_neg hjoin]
      exact ⟨S, hl, ho, hz, fun _ hx => hx⟩
    simp only [if_pos hjoin]
    obtain ⟨hfree, hadj⟩ := hjoin
    obtain ⟨hpS, -, hpa, -⟩ := hl.shape.chain.follows_of_prev hl.mem hp
    have hne : p ≠ a := by omega
    have hend := hadj.1
    have hrooma := hl.shape.room a hl.mem
    have hroomp := hl.shape.room p hpS
    have hpadp := hl.unpadded p hpS hne hfree
    have hsize : ∀ x, (joinElem (mallocElemFreeListRemove h p) p a).size x =
        if x = p then h.size p + h.size a else h.size x := by
      intro x
      rw [joinElem_size, if_neg (fun h => h.1 hpadp)]
      rfl
    simp only [Config.overhead] at hrooma hroomp
    refine ⟨S \ {a}, hl.join_prev hp hfree hadj, ho.congr ?_, ?_, ?_⟩
    · intro x hx hxp hxfree
      refine ⟨hx.1, hx.2, ?_, by rw [hsize, if_neg hxp], ?_, fun y hy => ?_⟩
      · rwa [joinElem_state] at hxfree
      · simp [Memory.memset, hxp]
      · have hay : ¬ h.Has a y := fun hay => hx.2 (hl.shape.unique hx.1 hl.mem hy.has hay)
        have hpy : ¬ h.Has p y := fun hpy => hxp (hl.shape.unique hx.1 hpS hy.has hpy)
        simp only [Heap.Has] at hay hpy
        simp only [Memory.memset, Memory.fill_byte, Memory.joinElem_byte, Config.overhead]
        rw [if_neg (by omega)]
    · intro hclean x hx hout
      simp only [Memory.memset, Memory.fill_dirty, Memory.joinElem_dirty, update_self,
        Bool.or_eq_false_iff] at hclean
      unfold Heap.DataHas at hx
      rw [hsize, if_pos rfl] at hx
      simp only [Memory.memset, Memory.fill_byte, Memory.joinElem_byte, Config.overhead]
      split_ifs with herased
      · rfl
      · by_cases hxp : x + cfg.trailerLen < p + h.size p
        · exact ho p hpS hne hfree hclean.1 x ⟨hx.1, hxp⟩
        · exact hz hclean.2 x ⟨by omega, by omega⟩ hout
    · intro x hx
      unfold Heap.Has at hx ⊢
      rw [hsize, if_pos rfl]
      omega

theorem Loose.join_zero {lo hi : ℕ} (hz : ZeroBut cfg h m a lo hi)
    (hpada : headerLen + h.pad a ≤ h.size a) :
    ∃ S', Loose cfg rs S' (mallocElemJoinAdjacentFree cfg h a).1 areas
        (mallocElemJoinAdjacentFree cfg h a).2 ∧
      OthersZero cfg S' (mallocElemJoinAdjacentFree cfg h a).1
        (m.mallocElemJoinAdjacentFree cfg h a) (mallocElemJoinAdjacentFree cfg h a).2 ∧
      ZeroBut cfg (mallocElemJoinAdjacentFree cfg h a).1 (m.mallocElemJoinAdjacentFree cfg h a)
        (mallocElemJoinAdjacentFree cfg h a).2 lo hi ∧
      ∀ x, h.Has a x →
        (mallocElemJoinAdjacentFree cfg h a).1.Has (mallocElemJoinAdjacentFree cfg h a).2 x := by
  obtain ⟨S', hl', ho', hz', hpad, hsize⟩ := hl.joinNextFree_zero ho hz
  obtain ⟨S'', hl'', ho'', hz'', hhas⟩ := hl'.joinPrevFree_zero ho' hz' (by rw [hpad]; omega)
  exact ⟨S'', hl'', ho'', hz'', fun x hx => hhas x ⟨hx.1, lt_of_lt_of_le hx.2 (by omega)⟩⟩

end

/-! ## Allocating -/

/-- What is split off behind the data is zero if the element was. -/
theorem Settled.trimTail_zero (hs : Settled cfg rs S h areas) (hz : FreeIsZero cfg h m)
    (ha : a ∈ S) (hfree : h.state a = .free) {size : ℕ} (han : a ≤ n) (hn : cacheLine ∣ n)
    (hsize : cacheLine ∣ size) (hfit : n + (size + cfg.overhead) ≤ a + h.size a) :
    FreeIsZero cfg (trimTail cfg h a n size) (m.trimTail cfg h a n size) ∧
      (m.trimTail cfg h a n size).dirty a = m.dirty a ∧
      ∀ x < n + (size + cfg.overhead), (m.trimTail cfg h a n size).byte x = m.byte x := by
  have hzero := hs.freeIsZero_iff.mp hz
  have hloose := hs.take ha hfree
  have hothers : OthersZero cfg S (mallocElemFreeListRemove h a) m a :=
    fun x hx _ hxfree => hzero x hx hxfree
  rw [trimTail, Memory.trimTail]
  simp only [trailer_size_eq hs.shape ha han hfit]
  by_cases htail : cfg.overhead + minDataSize < h.size a - (n - a) - size - cfg.overhead
  · rw [if_pos htail, if_pos htail]
    have hbehind : ∀ x ∈ S, x ≠ a → h.state x = .free → ¬ Adjacent cfg h a x :=
      fun x hx _ hxfree => hs.coalesced a ha x hx hfree hxfree
    have hpada : (mallocElemFreeListRemove h a).pad a = 0 := hs.unpadded a ha hfree
    have hend : (mallocElemFreeListRemove h a).size a = h.size a := rfl
    have hhead : headerLen ≤ cfg.overhead := Nat.le_add_right _ _
    have hpos : 0 < headerLen := by decide
    have hat : a + cfg.overhead ≤ n + (size + cfg.overhead) := by omega
    have hte : n + (size + cfg.overhead) + cfg.overhead ≤
        a + (mallocElemFreeListRemove h a).size a := by omega
    have hpad : a + (mallocElemFreeListRemove h a).pad a < n + (size + cfg.overhead) := by omega
    have hsplit := hloose.split_off hbehind hat hte
      (Nat.dvd_add hn (Nat.dvd_add hsize cfg.dvd_overhead)) hpad
    have hzeros := hloose.split_off_zero hothers hat hte hpad
      (fun hclean x hfirst hlast => hzero a ha hfree hclean x ⟨by omega, hlast⟩)
    refine ⟨hsplit.freeIsZero hzeros, ?_, fun x hx => ?_⟩
    · rw [Memory.splitElem_dirty, update_of_ne (by omega)]
    · rw [Memory.splitElem_byte, if_neg (by omega)]
  · rw [if_neg htail, if_neg htail]
    exact ⟨hloose.freeIsZero hothers, rfl, fun _ _ => rfl⟩

/-- **The front of an element that is handed out** stays zero, and the header of
the new element has the bit of the old one. -/
theorem Loose.handOut_zero (hl : Loose cfg rs S h areas a) (hz : FreeIsZero cfg h m)
    (hpada : h.pad a = 0) (han : a ≤ n) (hfit : n + cfg.overhead ≤ a + h.size a)
    (hfront : m.dirty a = false → ∀ x, a + headerLen ≤ x → x < n → m.byte x = some 0) :
    FreeIsZero cfg (Malloc.handOut cfg h a n) (m.handOut cfg a n) := by
  have hhead : headerLen ≤ cfg.overhead := Nat.le_add_right _ _
  have hline : 0 < headerLen := by decide
  have hin : ∀ x, n ≤ x → x < n + headerLen → h.Has a x :=
    fun x hfirst hlast => ⟨by omega, by omega⟩
  have hlisted : ∀ i, ∀ x ∈ h.free_head i, x ∈ S ∧ x ≠ a :=
    fun i x hx => ⟨((hl.listed.mem_iff i x).mp hx).1.1, ((hl.listed.mem_iff i x).mp hx).1.2.1⟩
  have hother : ∀ i, ∀ x ∈ h.free_head i, ZeroIfClean cfg h (m.writeHeader n) x := fun i x hx =>
    (hz i x hx).fill hl.shape (hlisted i x hx).1 hl.mem (hlisted i x hx).2 hin none
  rw [Malloc.handOut, Memory.handOut]
  by_cases hsmall : n - a < cfg.overhead + minDataSize
  · simp only [if_pos hsmall, update_self]
    by_cases hpos : 0 < n - a
    · rw [if_pos hpos, if_pos hpos]
      intro i x hx
      refine (hother i x hx).congr (update_of_ne ?_ _ _)
      rintro rfl
      exact hl.shape.notMem_inside hl.mem (by omega) (by omega) (hlisted i x hx).1
    · rw [if_neg hpos, if_neg hpos]
      exact hz
  · simp only [if_neg hsmall]
    have hlt : a < n := by omega
    have hnS : n ∉ S := hl.shape.notMem_inside hl.mem hlt (by omega)
    intro i x hx
    have hcase : x = a ∨ x ∈ h.free_head i := by
      simp only [mallocElemFreeListInsert, splitElem_free_head, update_apply] at hx
      split_ifs at hx with hi
      · exact (List.mem_cons.mp hx).imp_right (fun hx => hi ▸ hx)
      · exact Or.inr hx
    rcases hcase with rfl | hx
    · intro hclean y hy
      rw [Memory.splitElem_dirty, update_of_ne hlt.ne] at hclean
      obtain ⟨hfirst, hlast⟩ := hy
      change _ < x + (splitElem h x n).size x at hlast
      rw [splitElem_size hlt.ne, if_neg (fun h => h.1 hpada), if_pos rfl] at hlast
      rw [Memory.splitElem_byte, if_neg (by omega)]
      exact hfront hclean y hfirst (by omega)
    · obtain ⟨hxS, hxa⟩ := hlisted i x hx
      have hxn : x ≠ n := fun e => hnS (e ▸ hxS)
      have hzx : ZeroIfClean cfg h (m.splitElem a n) x := by
        intro hclean
        rw [Memory.splitElem_dirty, update_of_ne hxn] at hclean
        exact hother i x hx hclean
      refine hzx.congr ?_
      change (splitElem h a n).size x = _
      rw [splitElem_size hlt.ne, if_neg (fun h => h.1 hpada), if_neg hxa, if_neg hxn]

/-- The header that is found from the data has the bit of the old one. -/
theorem handOut_dirty (cfg : Config) (h : Heap) (m : Memory) (han : a ≤ n) :
    (m.handOut cfg a n).dirty (mallocElemFromData (Malloc.handOut cfg h a n) (n + headerLen)) =
      m.dirty a := by
  rw [mallocElemFromData, Nat.add_sub_cancel, Malloc.handOut, Memory.handOut]
  by_cases hsmall : n - a < cfg.overhead + minDataSize
  · simp only [if_pos hsmall, update_self]
    by_cases hpos : 0 < n - a
    · have hback : n - (n - a) = a := by omega
      rw [if_pos hpos, if_pos hpos]
      simp [hback, Memory.writeHeader]
    · have hna : n = a := by omega
      subst hna
      simp
  · have hne : n ≠ a := by
      have hpos : 0 < minDataSize := by decide
      omega
    simp [if_neg hsmall, mallocElemFreeListInsert, hne]

theorem handOut_byte (cfg : Config) (m : Memory) {x : ℕ} (hx : n + headerLen ≤ x) :
    (m.handOut cfg a n).byte x = m.byte x := by
  have hout : ¬ (n ≤ x ∧ x < n + headerLen) := by omega
  rw [Memory.handOut]
  split_ifs <;> simp [Memory.writeHeader, hout]

/-- **`malloc_heap_alloc` keeps what is free zero.** What it hands out is zero
if the header that is found from it is marked clean. -/
theorem Settled.mallocHeapAlloc_zero (hs : Settled cfg rs S h areas) (hz : FreeIsZero cfg h m)
    {req : Request} (hwrap : ∀ elem, findSuitableElement cfg h req = some elem →
      NoWrap cfg elem (h.size elem) req.dataSize req.dataAlign req.bound)
    {data : ℕ} (hres : Malloc.mallocHeapAlloc cfg h req = some (h', data)) :
    FreeIsZero cfg h' (m.mallocHeapAlloc cfg h req) ∧
      ((m.mallocHeapAlloc cfg h req).dirty (mallocElemFromData h' data) = false →
        ∀ x, data ≤ x → x < data + req.size → (m.mallocHeapAlloc cfg h req).byte x = some 0) := by
  obtain ⟨a, n, hfind, hstart, rfl, rfl, ha, hfree, han, hn, hsize, hfit, hle, -⟩ :=
    hs.mallocHeapAlloc_spec hwrap hres
  obtain ⟨hzt, hdirty, hbyte⟩ := hs.trimTail_zero hz ha hfree han hn hsize hfit
  obtain ⟨S', hl, hpada, -, hroom⟩ := hs.trimTail_spec ha hfree han hn hsize hfit
  have hclear : m.dirty a = false → ∀ x, a + headerLen ≤ x →
      x < n + headerLen + req.dataSize → (m.trimTail cfg h a n req.dataSize).byte x = some 0 := by
    intro hclean x hfirst hlast
    simp only [Config.overhead] at hfit hbyte
    rw [hbyte x (by omega)]
    exact hs.freeIsZero_iff.mp hz a ha hfree hclean x ⟨hfirst, by omega⟩
  rw [Memory.mallocHeapAlloc, hfind]
  simp only [Memory.mallocElemAlloc, hstart]
  refine ⟨hl.handOut_zero hzt hpada han (by omega) ?_, fun hclean x hfirst hlast => ?_⟩
  · exact fun hclean x hfirst hlast => hclear (hdirty ▸ hclean) x hfirst (by omega)
  · rw [handOut_dirty cfg _ _ han, hdirty] at hclean
    rw [handOut_byte cfg _ hfirst]
    exact hclear hclean x (by omega) (by omega)

/-! ## Freeing -/

theorem Settled.mallocHeapFree_zero (hs : Settled cfg rs S h areas) (hz : FreeIsZero cfg h m)
    {d : Area} (hd : d ∈ areas) :
    FreeIsZero cfg (Malloc.mallocHeapFree cfg h (mallocElemFromData h d.data)).1
      (m.mallocHeapFree cfg h (mallocElemFromData h d.data)) := by
  obtain ⟨e, he⟩ := hs.held d hd
  have hroom := hs.shape.room e he.mem
  have hdata := he.data_eq
  have hfits := he.fits
  rw [he.fromData, Malloc.mallocHeapFree, Memory.mallocHeapFree, if_pos he.busy, if_pos he.busy]
  have hloose := hs.loosen he .free
  have hothers : OthersZero cfg S { h with state := update h.state e .free }
      { m with dirty := update m.dirty e false } e := by
    intro x hx hxe hfree hclean
    refine hs.freeIsZero_iff.mp hz x hx ?_ ?_
    · exact (update_of_ne hxe _ _).symm.trans hfree
    · exact (update_of_ne hxe _ _).symm.trans hclean
  -- all of the data is cleared at the end
  have hbut : ZeroBut cfg { h with state := update h.state e .free }
      { m with dirty := update m.dirty e false } e (e + headerLen)
      (e + headerLen + (h.size e - cfg.overhead)) := by
    intro _ x hx hout
    obtain ⟨hfirst, hlast⟩ := hx
    simp only [Config.overhead] at hroom hout
    change _ < e + h.size e at hlast
    omega
  obtain ⟨S', hl, ho, hbut', hhas⟩ :=
    hloose.join_zero hothers hbut (by change headerLen + h.pad e ≤ h.size e; omega)
  have hin : ∀ x, e + headerLen ≤ x → x < e + headerLen + (h.size e - cfg.overhead) →
      (mallocElemJoinAdjacentFree cfg { h with state := update h.state e .free } e).1.Has
        (mallocElemJoinAdjacentFree cfg { h with state := update h.state e .free } e).2 x := by
    intro x hfirst hlast
    refine hhas x ⟨by omega, ?_⟩
    change x < e + h.size e
    simp only [Config.overhead] at hroom hlast
    omega
  rw [mallocElemFree, Memory.mallocElemFree]
  simp only
  split_ifs with hclean
  · refine hl.freeIsZero_insert (fun x hx hxa hfree => ?_) (fun _ x hx => ?_)
    · exact (ho x hx hxa hfree).fill hl.shape hx hl.mem hxa hin _
    · rw [Memory.memset, Memory.fill_byte]
      split_ifs with hcleared
      · rfl
      · exact hbut' hclean x hx hcleared
  · exact hl.freeIsZero_insert ho (fun hclean' => absurd hclean' hclean)

/-! ## Adding memory -/

/-- Linking an element changes neither states nor sizes. -/
theorem mallocElemInsert_other (h : Heap) (p : ℕ) :
    (mallocElemInsert h p).state = h.state ∧ (mallocElemInsert h p).pad = h.pad ∧
      (mallocElemInsert h p).size = h.size := by
  unfold mallocElemInsert
  split
  · obtain ⟨-, hstate, hpad, hsize, -⟩ := linkElem_other (h := h) none none p
    exact ⟨hstate, hpad, hsize⟩
  · rename_i f l _ _
    obtain ⟨-, hstate, hpad, hsize, -⟩ :=
      linkElem_other (h := h) (neighbours h p f l).1 (neighbours h p f l).2 p
    exact ⟨hstate, hpad, hsize⟩
  · exact ⟨rfl, rfl, rfl⟩

/-- **`malloc_heap_add_memory` keeps what is free zero**, if the region is zero
where it is marked clean. -/
theorem Settled.mallocHeapAddMemory_zero (hs : Settled cfg rs S h areas) (hz : FreeIsZero cfg h m)
    {r : Region} (hdisjoint : ∀ r' ∈ rs, ∀ x, ¬ (r.Has x ∧ r'.Has x)) {dirty : Bool}
    {bytes : ℕ → UInt8} (hzero : dirty = false → ∀ x, r.Has x → bytes x = 0) :
    FreeIsZero cfg (Malloc.mallocHeapAddMemory cfg h r.msl r.start r.len)
      ((m.map r bytes).mallocHeapAddMemory cfg h r.msl r.start r.len dirty) := by
  obtain ⟨hloose, -⟩ := hs.add hdisjoint rfl
  obtain ⟨hstate, hpad, hsize⟩ :=
    mallocElemInsert_other (Malloc.mallocElemInit h r.start r.msl r.len r.start r.len) r.start
  have hlen := r.len_ge
  simp only [cacheLine] at hlen
  rw [Malloc.mallocHeapAddMemory, Memory.mallocHeapAddMemory]
  generalize mallocElemInsert _ r.start = g at hloose hstate hpad hsize ⊢
  have hothers : OthersZero cfg (insert r.start S) g
      ((m.map r bytes).mallocElemInit r.start dirty) r.start := by
    intro x hx hxr hfree hclean y hy
    have hxS := hx.resolve_left hxr
    have hy' : h.DataHas cfg x y := by
      unfold Heap.DataHas at hy ⊢
      rw [hsize] at hy
      change _ ∧ _ < x + update h.size r.start r.len x at hy
      rwa [update_of_ne hxr] at hy
    rw [hstate] at hfree
    have hout : ¬ r.Has y := by
      obtain ⟨r', hr', hr'y⟩ := (hs.shape.tile y).mpr ⟨x, hxS, hy'.has⟩
      exact fun hry => hdisjoint r' hr' y ⟨hry, hr'y⟩
    have hkept : ((m.map r bytes).mallocElemInit r.start dirty).byte y = m.byte y := by
      unfold Region.Has at hout
      change (if _ ∧ _ then none else if _ ∧ _ then some (bytes y) else m.byte y) = _
      rw [if_neg (by simp only [headerLen]; omega), if_neg hout]
    rw [hkept]
    refine hs.freeIsZero_iff.mp hz x hxS ?_ ?_ y hy'
    · exact (update_of_ne hxr _ _).symm.trans hfree
    · exact (update_of_ne hxr _ _).symm.trans hclean
  have hbut : ZeroBut cfg g ((m.map r bytes).mallocElemInit r.start dirty) r.start 0 0 := by
    intro hclean x hx _
    have hdirty : dirty = false := (update_self _ _ _).symm.trans hclean
    obtain ⟨hfirst, hlast⟩ := hx
    rw [hsize] at hlast
    change _ < r.start + update h.size r.start r.len r.start at hlast
    rw [update_self] at hlast
    have hin : r.start ≤ x ∧ x < r.start + r.len := ⟨by omega, by omega⟩
    change (if _ ∧ _ then none else if _ ∧ _ then some (bytes x) else m.byte x) = _
    rw [if_neg (by omega), if_pos hin, hzero hdirty x hin]
  have hpadded : headerLen + g.pad r.start ≤ g.size r.start := by
    rw [hpad, hsize]
    change _ + update h.pad r.start 0 r.start ≤ update h.size r.start r.len r.start
    rw [update_self, update_self]
    simp only [headerLen]
    omega
  obtain ⟨S', hl, ho, hbut', -⟩ := hloose.join_zero hothers hbut hpadded
  exact hl.freeIsZero_insert ho (fun hclean x hx => hbut' hclean x hx (by omega))

/-! ## Resizing -/

/-- **An element that grows** leaves what is free zero: what is split off behind
it again was the end of the free element. -/
theorem Settled.mallocHeapResize_zero (hs : Settled cfg rs S h areas) (hz : FreeIsZero cfg h m)
    {d : Area} (hd : d ∈ areas) {size : ℕ}
    (hwrap : size + h.pad (mallocElemFromData h d.data) + cfg.overhead < word) :
    FreeIsZero cfg (Malloc.mallocHeapResize cfg h (mallocElemFromData h d.data) size).1
      (m.mallocHeapResize cfg h (mallocElemFromData h d.data) size) := by
  obtain ⟨e, he⟩ := hs.held d hd
  rw [he.fromData] at hwrap ⊢
  rw [Malloc.mallocHeapResize, Memory.mallocHeapResize, if_pos he.busy, if_pos he.busy,
    Malloc.mallocElemResize, Memory.mallocElemResize, Nat.mod_eq_of_lt hwrap]
  by_cases hroom : size + h.pad e + cfg.overhead ≤ h.size e
  · simp only [if_pos hroom]
    exact hz
  simp only [if_neg hroom]
  cases hn : h.next e with
  | none => exact hz
  | some n =>
    by_cases hjoin : h.state n = .free ∧ Adjacent cfg h e n
    swap
    · simp only [if_neg hjoin]
      exact hz
    simp only [if_pos hjoin]
    by_cases hshort : h.size e + h.size n < size + h.pad e + cfg.overhead
    · simp only [if_pos hshort]
      exact hz
    simp only [if_neg hshort]
    have hloose : Loose cfg rs S h (areas.filter (fun d' => d'.data ≠ d.data)) e := by
      have hl := hs.loosen he .busy
      rwa [← he.busy, update_eq_self] at hl
    have hzero := hs.freeIsZero_iff.mp hz
    have hothers : OthersZero cfg (S \ {n}) (joinElem (mallocElemFreeListRemove h n) e n)
        (m.joinElem e n) e := hloose.join_next_others
      (fun x hx _ hfree => hzero x hx hfree) hn (fun x hx => by simp [hx]) (fun _ _ _ => rfl)
    have hfree := (hloose.join_next hn hjoin.1 hjoin.2).freeIsZero hothers
    have hjoined : joinNextFree cfg h e = joinElem (mallocElemFreeListRemove h n) e n := by
      simp only [joinNextFree, hn, if_pos hjoin]
    obtain ⟨S', hl, hpads, hbehind⟩ := hloose.joinNextFree_spec
    rw [hjoined] at hl hpads hbehind
    by_cases hsplit : minDataSize + cfg.overhead ≤
        (joinElem (mallocElemFreeListRemove h n) e n).size e - (size + h.pad e + cfg.overhead)
    swap
    · simp only [if_neg hsplit]
      exact hfree
    simp only [if_pos hsplit]
    obtain ⟨-, hnS, hen, -⟩ := hs.shape.chain.follows_of_next he.mem hn
    have hend := hjoin.2.1
    have hsize : (joinElem (mallocElemFreeListRemove h n) e n).size e = h.size e + h.size n := by
      rw [joinElem_size, if_neg (fun hp => hp.1 (by omega)), if_pos rfl]
      rfl
    have hhead : headerLen ≤ cfg.overhead := Nat.le_add_right _ _
    have hpos : 0 < headerLen := by decide
    have hbounds := hl.shape.bounds hl.mem
    generalize hg : joinElem (mallocElemFreeListRemove h n) e n = g at *
    simp only [minDataSize] at hsplit
    have hword : e + (size + h.pad e + cfg.overhead) + cacheLine ≤ word := by omega
    have hge := le_alignCeil hword
    have hlt := alignCeil_lt hword
    have hdvd : cacheLine ∣ alignCeil (e + (size + h.pad e + cfg.overhead)) cacheLine :=
      dvd_alignFloor _ _
    generalize alignCeil (e + (size + h.pad e + cfg.overhead)) cacheLine = sp at *
    have hat : e + cfg.overhead ≤ sp := by omega
    have hte : sp + cfg.overhead ≤ e + g.size e := by omega
    have hpad : e + g.pad e < sp := by
      rw [hpads]
      omega
    refine (hl.split_off hbehind hat hte hdvd hpad).freeIsZero
      (hl.split_off_zero (hl.othersZero hfree) hat hte hpad (fun hclean x hfirst hlast => ?_))
    rw [Memory.joinElem_dirty, update_self, Bool.or_eq_false_iff] at hclean
    exact hzero n hnS hjoin.1 hclean.2 x ⟨by omega, by omega⟩

/-! ## Runs -/

/-- **A heap at rest that is zero where it is free.** -/
def Blank (cfg : Config) (st : Usage) : Prop := Rests cfg st.toSt ∧ FreeIsZero cfg st.heap st.mem

/-- What `rte_zmalloc` clears is in the element it has been given. -/
theorem Settled.rteZmallocSocket_zero {d : Area} (hs : Settled cfg rs S h (d :: areas))
    (hz : FreeIsZero cfg h m) : FreeIsZero cfg h (m.rteZmallocSocket h d.data d.size) := by
  obtain ⟨e, he⟩ := hs.held d List.mem_cons_self
  have hdata := he.data_eq
  have hfits := he.fits
  rw [Memory.rteZmallocSocket]
  split_ifs
  · exact hs.freeIsZero_fill hz he.mem he.busy (fun x hx hx' => ⟨by omega, by omega⟩) _
  · exact hz

theorem use_blank {st : Usage} {u : Use} (hb : Blank cfg st) (hallowed : Allowed st u)
    (hcounted : Counted cfg st u) : Blank cfg (use cfg st u) := by
  obtain ⟨⟨S, hs⟩, hz⟩ := hb
  cases u with
  | add r dirty bytes =>
    exact ⟨step_rests (.add r) ⟨S, hs⟩ hallowed.1,
      hs.mallocHeapAddMemory_zero hz hallowed.1 hallowed.2⟩
  | malloc req =>
    rw [use]
    split
    · rename_i r hres
      refine ⟨step_rests (.alloc req) ⟨S, hs⟩ hcounted, ?_⟩
      simp only [step, hres]
      exact (hs.mallocHeapAlloc_zero hz hcounted hres).1
    · exact ⟨⟨S, hs⟩, hz⟩
  | zmalloc req =>
    rw [use]
    split
    · rename_i h data hres
      refine ⟨step_rests (.alloc req) ⟨S, hs⟩ hcounted, ?_⟩
      obtain ⟨S', hs'⟩ := hs.mallocHeapAlloc hcounted hres
      simp only [step, hres]
      exact hs'.rteZmallocSocket_zero (hs.mallocHeapAlloc_zero hz hcounted hres).1
    · exact ⟨⟨S, hs⟩, hz⟩
  | free data =>
    refine ⟨step_rests (.free data) ⟨S, hs⟩ hallowed, ?_⟩
    obtain ⟨d, hd, rfl⟩ := List.mem_map.mp hallowed
    exact hs.mallocHeapFree_zero hz hd
  | resize data size =>
    refine ⟨step_rests (.resize data size) ⟨S, hs⟩ ⟨hallowed, hcounted⟩, ?_⟩
    obtain ⟨d, hd, rfl⟩ := List.mem_map.mp hallowed
    exact hs.mallocHeapResize_zero hz hd hcounted
  | write x v =>
    obtain ⟨d, hd, hfirst, hlast⟩ := hallowed
    obtain ⟨e, he⟩ := hs.held d hd
    have hdata := he.data_eq
    have hfits := he.fits
    exact ⟨⟨S, hs⟩,
      hs.freeIsZero_fill hz he.mem he.busy (fun y hy hy' => ⟨by omega, by omega⟩) _⟩

/-- What `rte_zmalloc` returns is zero on a heap that is zero where it is
free. -/
theorem Blank.zeroes {st : Usage} (hb : Blank cfg st) {req : Request}
    (hcounted : Counted cfg st (.zmalloc req)) : Zeroes cfg st req := by
  obtain ⟨⟨S, hs⟩, hz⟩ := hb
  intro h data hres x hfirst hlast
  have hclear := (hs.mallocHeapAlloc_zero hz hcounted hres).2
  simp only [use, hres, Memory.rteZmallocSocket]
  split_ifs with hdirty
  · simp [Memory.memset, hfirst, hlast]
  · exact hclear (Bool.eq_false_iff.mpr hdirty) x hfirst hlast

/-- **Memory from `rte_zmalloc` is zero** in every run, and so is the data of
each free element that is marked clean, where no resize asks for more than can
be counted. -/
theorem zmalloc_zero (cfg : Config) (us : List Use)
    (halong : Runs.Along (use cfg) (fun st u => Allowed st u ∧ Counted cfg st u) Usage.init us) :
    FreeIsZero cfg (Runs.run (use cfg) Usage.init us).heap
      (Runs.run (use cfg) Usage.init us).mem ∧
    ∀ req, Counted cfg (Runs.run (use cfg) Usage.init us) (.zmalloc req) →
      Zeroes cfg (Runs.run (use cfg) Usage.init us) req := by
  have hinit : Blank cfg Usage.init := ⟨⟨∅, settled_init⟩, fun i a ha => absurd ha List.not_mem_nil⟩
  have hblank := halong.invariant (P := Blank cfg) (fun _ _ hb hok => use_blank hb hok.1 hok.2) hinit
  exact ⟨hblank.2, fun req hcounted => hblank.zeroes hcounted⟩

/-! ## Runs on one page -/

/-- The page is added as clean, two areas are taken from it, and the first of
them is written and given back. -/
def oneOfTwo : List Use :=
  [.add page false (fun _ => 0), .malloc hundred, .malloc hundred, .write 8064 1, .free 8064]

/-- No start of a request for a hundred bytes in the page wraps. -/
theorem counted_hundred {st : Usage} {a : ℕ}
    (hfind : findSuitableElement plain st.heap hundred = some a)
    (hlow : headerLen + 64 ≤ a + st.heap.size a - hundred.dataSize) :
    ∀ elem, findSuitableElement plain st.heap hundred = some elem →
      NoWrap plain elem (st.heap.size elem) hundred.dataSize hundred.dataAlign hundred.bound := by
  intro elem helem
  obtain rfl := Option.some.inj (hfind.symm.trans helem)
  have halign : hundred.dataAlign = 64 := by decide
  rw [NoWrap, if_pos (show sameBlock hundred.bound _ _ from Or.inl rfl), halign]
  simp only [plain, alignFloor]
  omega

theorem owned_of_any {st : Usage} {x : ℕ}
    (hany : st.areas.any (fun d => d.data ≤ x && x < d.data + d.size) = true) : Owned st x := by
  obtain ⟨d, hd, hx⟩ := List.any_eq_true.mp hany
  simp only [Bool.and_eq_true, decide_eq_true_eq] at hx
  exact ⟨d, hd, hx⟩

/-- What is given back is cleared, and handed out again as zero. -/
theorem zmalloc_zero_again : Zeroes plain (Runs.run (use plain) Usage.init oneOfTwo) hundred := by
  refine (zmalloc_zero plain oneOfTwo ⟨?_, ?_, ?_, ?_, ?_, trivial⟩).2 hundred ?_
  · exact ⟨⟨fun r' hr' => absurd hr' List.not_mem_nil, fun _ _ _ => rfl⟩, trivial⟩
  · exact ⟨trivial, counted_hundred (a := 4096) (by decide +kernel) (by decide +kernel)⟩
  · exact ⟨trivial, counted_hundred (a := 4096) (by decide +kernel) (by decide +kernel)⟩
  · exact ⟨owned_of_any (by decide +kernel), trivial⟩
  · refine ⟨?_, trivial⟩
    change 8064 ∈ _
    decide +kernel
  · exact counted_hundred (a := 7936) (by decide +kernel) (by decide +kernel)

/-- **A resize that cannot be counted** gives away the whole memory. The page is
added as clean, two areas are taken from it and the first of them is given back.
The second is resized so that its size wraps, and the first is written. -/
def resizedPastAll : List Use :=
  [.add page false (fun _ => 0), .malloc hundred, .malloc hundred, .free 8064,
    .resize 7808 (2 ^ 64 - 64), .write 8064 1]

/-- **Memory from `rte_zmalloc` need not be zero** after a resize whose size
wraps. -/
theorem zmalloc_zero_resized : ¬ ∀ (cfg : Config) (us : List Use),
    Runs.Along (use cfg) Allowed Usage.init us →
      FreeIsZero cfg (Runs.run (use cfg) Usage.init us).heap
        (Runs.run (use cfg) Usage.init us).mem ∧
      ∀ req, Zeroes cfg (Runs.run (use cfg) Usage.init us) req := by
  intro hall
  have halong : Runs.Along (use plain) Allowed Usage.init resizedPastAll := by
    refine ⟨⟨fun r' hr' => absurd hr' List.not_mem_nil, fun _ _ _ => rfl⟩, trivial, trivial,
      ?_, ?_, owned_of_any (by decide +kernel), trivial⟩
    · change 8064 ∈ _
      decide +kernel
    · change 7808 ∈ _
      decide +kernel
  have hserved : (mallocHeapAlloc plain (Runs.run (use plain) Usage.init resizedPastAll).heap
      hundred).map Prod.snd = some 8064 := by decide +kernel
  obtain ⟨⟨h, data⟩, hres, rfl⟩ := Option.map_eq_some_iff.mp hserved
  have hzero := (hall plain resizedPastAll halong).2 hundred h 8064 hres 8064 le_rfl (by decide)
  exact absurd hzero (by decide +kernel)

end Malloc
