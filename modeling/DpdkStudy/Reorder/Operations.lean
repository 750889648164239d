import DpdkStudy.Reorder.Rings

/-!
# What a call does to the two rings

Each call on a reorder buffer, as what it does to the queue of the ready
buffer and to the window of the order buffer (`Shows`). An insertion sets a
slot of the window (`rteReorderInsert_inside`), or makes the window move on
first (`rteReorderInsert_beyond`), or is refused (`rteReorderInsert_far`). A
drain takes from the queue first, and from the window once the queue is empty.
-/

open List Nat

namespace Reorder

open List (replicate reduceOption)

variable {k : ℕ} {l : List Mbuf} {rest w : List (Option Mbuf)} {b : ReorderBuffer}

/-- **The rings of a reorder buffer** hold a queue and a window. -/
structure Shows (k : ℕ) (b : ReorderBuffer) (l : List Mbuf) (rest w : List (Option Mbuf)) :
    Prop where
  ready : Holds k b.readyBuf l rest
  order : Window k b.orderBuf w

theorem shows_fresh (k : ℕ) :
    Shows k (rteReorderInit (2 ^ k)) [] (replicate (2 ^ k) none) (replicate (2 ^ k) none) := by
  have hview : ∀ start len, Ring.view (2 ^ k) (fun _ => (none : Option Mbuf)) start len
      = replicate len none := by
    intro start len
    induction len generalizing start with
    | zero => rfl
    | succ len ih => rw [Ring.view_succ, ih, replicate_succ]
  have hpos := Nat.two_pow_pos k
  exact ⟨⟨rfl, rfl, hpos, hpos, (zero_mod _).symm, hview 0 _⟩, rfl, rfl, hpos, hview 0 _⟩

namespace Shows

variable (h : Shows k b l rest w)

include h

/-- The packets between tail and head are the queue. -/
theorem readyEntries_eq : b.readyEntries = l.map some := by
  have htail := h.ready.tail_lt
  have hlt := h.ready.length_lt
  have hcount : (b.readyBuf.head + 2 ^ k - b.readyBuf.tail) % 2 ^ k = l.length := by
    rw [h.ready.head_eq]
    by_cases hwrap : b.readyBuf.tail + l.length < 2 ^ k
    · rw [mod_eq_of_lt hwrap,
        show b.readyBuf.tail + l.length + 2 ^ k - b.readyBuf.tail = l.length + 2 ^ k by omega,
        add_mod_right, mod_eq_of_lt hlt]
    · have hmod : (b.readyBuf.tail + l.length) % 2 ^ k = b.readyBuf.tail + l.length - 2 ^ k := by
        rw [Nat.mod_eq_sub_mod (Nat.le_of_not_lt hwrap), Nat.mod_eq_of_lt (by omega)]
      rw [hmod, show b.readyBuf.tail + l.length - 2 ^ k + 2 ^ k - b.readyBuf.tail = l.length by
        omega, mod_eq_of_lt hlt]
  have hview : ∀ len ≤ 2 ^ k, Ring.view (2 ^ k) b.readyBuf.entries b.readyBuf.tail len
      = (l.map some ++ rest).take len := by
    intro len hlen
    rw [← h.ready.view_eq]
    refine ext_getElem ?_ (fun i hi hi' => ?_)
    · rw [Ring.length_view, length_take, Ring.length_view, min_eq_left hlen]
    · rw [getElem_take, Ring.getElem_view, Ring.getElem_view]
  rw [ReorderBuffer.readyEntries, h.ready.size_eq, hcount, hview _ (le_of_lt hlt)]
  exact take_left' (length_map some)

theorem orderEntries_eq : b.orderEntries = w := by
  rw [ReorderBuffer.orderEntries, h.order.size_eq]
  exact h.order.view_eq

theorem initialized (mbuf : Mbuf) :
    Shows k (b.initialized mbuf) l rest w := by
  rw [ReorderBuffer.initialized]
  split
  · exact h
  · exact ⟨h.ready, h.order⟩

theorem store (mbuf : Mbuf) {offset : UInt32} (hoff : offset.toNat < 2 ^ k) :
    Shows k (b.store offset mbuf) l rest (w.set offset.toNat (some mbuf)) :=
  ⟨h.ready, h.order.put (some mbuf) hoff⟩

theorem entries_position {offset : UInt32} (hoff : offset.toNat < 2 ^ k) :
    some (b.orderBuf.entries (b.position offset)) = w[offset.toNat]? := by
  have hlen : offset.toNat < (Ring.view (2 ^ k) b.orderBuf.entries b.orderBuf.head
      (2 ^ k)).length := by
    rwa [Ring.length_view]
  rw [← h.order.view_eq, getElem?_eq_getElem hlen, Ring.getElem_view,
    ReorderBuffer.position, h.order.mask_eq, Ring.land_mask_eq_mod]

end Shows

/-! ## Insertion -/

/-- The offset of a number, after the lowest number has moved on. -/
theorem toNat_sub_add_ofNat {x y : UInt32} {p : ℕ} (hp : p ≤ (x - y).toNat) :
    (x - (y + UInt32.ofNat p)).toNat = (x - y).toNat - p := by
  have hx := x.toNat_lt
  have hy := y.toNat_lt
  rw [UInt32.toNat_sub] at hp ⊢
  rw [UInt32.toNat_sub, UInt32.toNat_add, UInt32.toNat_ofNat']
  omega

/-- The lowest number for a packet that is inserted. -/
@[simp] theorem isInitialized_initialized (b : ReorderBuffer) (mbuf : Mbuf) :
    (b.initialized mbuf).isInitialized = true := by
  rw [ReorderBuffer.initialized]
  split
  · assumption
  · rfl

section

variable (h : Shows k b l rest w)

include h

theorem rteReorderInsert_inside {mbuf : Mbuf}
    (hin : (mbuf.seqn - (b.initialized mbuf).minSeqn).toNat < 2 ^ k) :
    rteReorderInsert b mbuf
      = (.ok (), (b.initialized mbuf).store (mbuf.seqn - (b.initialized mbuf).minSeqn) mbuf) := by
  have hsize := (h.initialized mbuf).order.size_eq
  rw [rteReorderInsert]
  exact if_pos (by rwa [hsize])

theorem rteReorderInsert_far {mbuf : Mbuf}
    (hout : 2 ^ k ≤ (mbuf.seqn - (b.initialized mbuf).minSeqn).toNat)
    (hfar : ¬ (mbuf.seqn - (b.initialized mbuf).minSeqn).toNat < 2 * 2 ^ k % 2 ^ 32) :
    rteReorderInsert b mbuf = (.error erange, b.initialized mbuf) := by
  have hsize := (h.initialized mbuf).order.size_eq
  rw [rteReorderInsert]
  refine (if_neg ?_).trans (if_neg ?_)
  · rw [hsize]
    exact not_lt.mpr hout
  · rwa [hsize]

/-- **A packet behind the window** makes it move on. It is refused where the
window did not move far enough for want of room in the ready buffer, and stored
in an empty slot otherwise. -/
theorem rteReorderInsert_beyond {mbuf : Mbuf} {offset : UInt32}
    (hoffset : offset = mbuf.seqn - (b.initialized mbuf).minSeqn) (hout : 2 ^ k ≤ offset.toNat)
    (hnear : offset.toNat < 2 * 2 ^ k % 2 ^ 32) :
    ∃ passed w' b', w = passed ++ w'
      ∧ Moved k b'.readyBuf l passed.reduceOption rest
          (rteReorderFillOverflow (b.initialized mbuf)
            ((b.initialized mbuf).overflow offset)).2.2
      ∧ ((rteReorderFillOverflow (b.initialized mbuf)
            ((b.initialized mbuf).overflow offset)).2.2 = true → b'.readyBuf.isFull = true)
      ∧ (b.readyBuf.isFull = true → passed = [])
      ∧ b'.isInitialized = true
      ∧ b'.minSeqn = (b.initialized mbuf).minSeqn + UInt32.ofNat passed.length
      ∧ (passed.length ≤ offset.toNat + 1 - 2 ^ k
        ∨ ∃ mbuf, passed.getLast? = some (some mbuf))
      ∧ (rteReorderInsert b mbuf = (.error enospc, b') ∧ b'.readyBuf.isFull = true
          ∧ Window k b'.orderBuf (w' ++ replicate passed.length none)
        ∨ rteReorderInsert b mbuf = (.ok (), b') ∧ offset.toNat - 2 ^ k < passed.length
          ∧ Window k b'.orderBuf
              (w' ++ (replicate passed.length none).set (offset.toNat - 2 ^ k) (some mbuf))) := by
  have h' := h.initialized mbuf
  have hinit := isInitialized_initialized b mbuf
  have hready : (b.initialized mbuf).readyBuf = b.readyBuf := by
    rw [ReorderBuffer.initialized]
    split <;> rfl
  revert hoffset h' hinit hready
  rw [rteReorderInsert]
  generalize b.initialized mbuf = a
  intro hoffset h' hinit hready
  have hsize := h'.order.size_eq
  have hover : a.overflow offset = offset.toNat + 1 - 2 ^ k := by
    rw [ReorderBuffer.overflow, hsize]
  have hmod : 2 * 2 ^ k % 2 ^ 32 ≤ 2 * 2 ^ k := mod_le _ _
  have hwin : Window k a.orderBuf (w ++ replicate 0 none) := by
    rw [replicate_zero, append_nil]
    exact h'.order
  obtain ⟨passed, w', hpass, hlast, hdone⟩ :=
    fillLoop_spec (n := a.overflow offset) (by omega) (a.overflow offset) h'.ready hwin
      (by omega)
  have hadv : (rteReorderFillOverflow a (a.overflow offset)).2.1 = passed.length := by
    rw [← zero_add passed.length]
    exact hpass.adv_eq
  have hmin : (rteReorderFillOverflow a (a.overflow offset)).1.minSeqn
      = a.minSeqn + UInt32.ofNat passed.length := by
    rw [← hadv]
    rfl
  have hmoved : Moved k (rteReorderFillOverflow a (a.overflow offset)).1.readyBuf l
      passed.reduceOption rest (rteReorderFillOverflow a (a.overflow offset)).2.2 := hpass.moved
  have hmovedWin : Window k (rteReorderFillOverflow a (a.overflow offset)).1.orderBuf
      (w' ++ replicate passed.length none) := by
    rw [← zero_add passed.length]
    exact hpass.window
  have hcall : ∀ r, (if offset.toNat < a.orderBuf.size then (.ok (), a.store offset mbuf)
      else if offset.toNat < 2 * a.orderBuf.size % 2 ^ 32 then r
      else (.error erange, a) : Except Int Unit × ReorderBuffer) = r := by
    intro r
    rw [hsize, if_neg (not_lt.mpr hout), if_pos hnear]
  rw [← hoffset]
  have hflag : (rteReorderFillOverflow a (a.overflow offset)).2.2 = true →
      (rteReorderFillOverflow a (a.overflow offset)).1.readyBuf.isFull = true := fillLoop_full
  have hstays : b.readyBuf.isFull = true → passed = [] := by
    intro hfull
    rw [← hready] at hfull
    have hnone := hpass.adv_eq
    rw [fillLoop_of_full _ _ _ _ hfull, zero_add] at hnone
    exact eq_nil_of_length_eq_zero hnone.symm
  have hwant : passed.length < a.overflow offset →
      (rteReorderFillOverflow a (a.overflow offset)).1.readyBuf.isFull = true := by
    intro hshort
    rcases hdone with hbreak | hfull | hfar
    · exact hflag hbreak
    · exact hfull
    · exact absurd (hadv ▸ hfar) (not_le.mpr hshort)
  refine Exists.intro passed (Exists.intro w' ?_)
  rw [hover, Nat.sub_zero] at hlast
  have hsplit : w.length = passed.length + w'.length := by
    rw [hpass.split, length_append]
  have hlen := h'.order.length_eq
  by_cases hshort : passed.length < a.overflow offset
  · refine ⟨(rteReorderFillOverflow a (a.overflow offset)).1, hpass.split, hmoved, hflag, hstays,
      hinit, hmin, hlast, Or.inl ⟨?_, hwant hshort, hmovedWin⟩⟩
    exact (hcall _).trans (if_pos (by rwa [hadv]))
  · have hoff : (mbuf.seqn - (rteReorderFillOverflow a (a.overflow offset)).1.minSeqn).toNat
        = offset.toNat - passed.length := by
      rw [hmin, hoffset]
      exact toNat_sub_add_ofNat (by rw [← hoffset]; omega)
    have hput := hmovedWin.put (some mbuf) (d := offset.toNat - passed.length) (by omega)
    rw [set_append_right _ _ (by omega),
      show offset.toNat - passed.length - w'.length = offset.toNat - 2 ^ k by omega] at hput
    refine ⟨(rteReorderFillOverflow a (a.overflow offset)).1.store
        (mbuf.seqn - (rteReorderFillOverflow a (a.overflow offset)).1.minSeqn) mbuf,
      hpass.split, hmoved, hflag, hstays, hinit, hmin, hlast, Or.inr ⟨?_, by omega, ?_⟩⟩
    · exact (hcall _).trans (if_neg (by rwa [hadv]))
    · rw [← hoff] at hput
      exact hput

/-! ## Draining -/

/-- **A drain** takes from the queue, and from the window once the queue is
empty, up to the first gap. -/
theorem rteReorderDrain_spec (maxMbufs : ℕ) :
    ∃ ms w', w = map some ms ++ w'
      ∧ (rteReorderDrain b maxMbufs).1 = (l.take maxMbufs ++ ms).map some
      ∧ Shows k (rteReorderDrain b maxMbufs).2 (l.drop maxMbufs)
          (rest ++ replicate (l.take maxMbufs).length none) (w' ++ replicate ms.length none)
      ∧ (rteReorderDrain b maxMbufs).2.minSeqn = b.minSeqn + UInt32.ofNat ms.length
      ∧ (rteReorderDrain b maxMbufs).2.isInitialized = b.isInitialized
      ∧ (ms = [] ∨ l.drop maxMbufs = []) := by
  have hwin : Window k b.orderBuf (w ++ replicate 0 none) := by
    rw [replicate_zero, append_nil]
    exact h.order
  obtain ⟨hout, hheld⟩ := drainReady_spec maxMbufs h.ready
  obtain ⟨ms, w', hw, hle, hms, hwin', hmin⟩ :=
    @drainOrder_spec k (maxMbufs - (drainReady maxMbufs b.readyBuf).1.length) _ _ _ b.minSeqn hwin
  rw [zero_add] at hwin'
  refine ⟨ms, w', hw, ?_, ⟨hheld, hwin'⟩, hmin, rfl, ?_⟩
  · rw [map_append, ← hout, ← hms]
    rfl
  · rw [hout, length_map, length_take] at hle
    by_cases hall : l.length ≤ maxMbufs
    · exact Or.inr (drop_eq_nil_of_le hall)
    · exact Or.inl (eq_nil_of_length_eq_zero (by omega))

/-- **A drain up to a number before the window** takes nothing where the queue
begins after the number. -/
theorem rteReorderDrainUpToSeqn_nothing (maxMbufs : ℕ) {seqn : UInt32} (hbefore : seqn < b.minSeqn)
    (hfirst : ∀ first, l.head? = some first → first.seqn > seqn) :
    rteReorderDrainUpToSeqn b maxMbufs seqn = some ([], b) := by
  rw [rteReorderDrainUpToSeqn, if_pos hbefore]
  cases l with
  | nil => rw [if_pos (h.ready.tail_eq_head_iff.mpr rfl)]
  | cons first l =>
    have hslot := h.ready.pop.1
    rw [if_neg (fun hmeet => cons_ne_nil _ _ (h.ready.tail_eq_head_iff.mp hmeet))]
    simp only [hslot]
    rw [if_pos (hfirst first rfl)]

/-- **A drain up to a number before the window** takes the packets in front of
the place that the search has found. -/
theorem rteReorderDrainUpToSeqn_found (maxMbufs : ℕ) {seqn : UInt32} (hbefore : seqn < b.minSeqn)
    {first : Mbuf} (hhead : l.head? = some first) (hfirst : ¬ first.seqn > seqn) {d : ℕ}
    (hd : d ≤ l.length) (hfind : readyBufferSeqnFind b.readyBuf seqn = some d) :
    ∃ b', rteReorderDrainUpToSeqn b maxMbufs seqn
        = some ((l.take (min d maxMbufs)).map some, b')
      ∧ Shows k b' (l.drop (min d maxMbufs))
          (rest ++ replicate (l.take (min d maxMbufs)).length none) w
      ∧ b'.minSeqn = b.minSeqn ∧ b'.isInitialized = b.isInitialized := by
  obtain ⟨hout, hheld⟩ := drainReady_spec (min d maxMbufs) h.ready
  have htake := takeReady_eq_drainReady (min d maxMbufs) h.ready
    (le_trans (min_le_left _ _) hd)
  rw [rteReorderDrainUpToSeqn, if_pos hbefore]
  cases l with
  | nil => exact nomatch hhead
  | cons head l =>
    obtain rfl := Option.some.inj hhead
    have hslot := h.ready.pop.1
    rw [if_neg (fun hmeet => cons_ne_nil _ _ (h.ready.tail_eq_head_iff.mp hmeet))]
    simp only [hslot]
    rw [if_neg hfirst]
    simp only [hfind]
    rw [htake, hout]
    exact ⟨{ b with readyBuf := (drainReady (min d maxMbufs) b.readyBuf).2 }, rfl,
      ⟨hheld, h.order⟩, rfl, rfl⟩

/-- **A drain up to a number from the window on** takes the queue, and from the
front of the window, gaps and all. -/
theorem rteReorderDrainUpToSeqn_window (maxMbufs : ℕ) {seqn : UInt32} (hnot : ¬ seqn < b.minSeqn) :
    ∃ passed w' b', w = passed ++ w'
      ∧ Takes (min (seqn - b.minSeqn).toNat (2 ^ k)) (maxMbufs - (l.take maxMbufs).length) passed
      ∧ rteReorderDrainUpToSeqn b maxMbufs seqn
        = some ((l.take maxMbufs ++ passed.reduceOption).map some, b')
      ∧ Shows k b' (l.drop maxMbufs) (rest ++ replicate (l.take maxMbufs).length none)
          (w' ++ replicate passed.length none)
      ∧ b'.minSeqn = b.minSeqn + UInt32.ofNat passed.length
      ∧ b'.isInitialized = b.isInitialized := by
  have hwin : Window k b.orderBuf (w ++ replicate 0 none) := by
    rw [replicate_zero, append_nil]
    exact h.order
  have hle : min (seqn - b.minSeqn).toNat (2 ^ k) ≤ w.length := by
    rw [h.order.length_eq]
    exact min_le_right _ _
  obtain ⟨hout, hheld⟩ := drainReady_spec maxMbufs h.ready
  have hlen : (drainReady maxMbufs b.readyBuf).1.length = (l.take maxMbufs).length := by
    rw [hout, length_map]
  obtain ⟨passed, w', hw, htakes, hpassed, hwin', hmin⟩ :=
    @takeOrder_spec k _ _ _ _ (maxMbufs - (drainReady maxMbufs b.readyBuf).1.length) b.minSeqn
      hwin hle
  rw [zero_add] at hwin'
  rw [hlen] at htakes
  revert hpassed hwin' hmin
  generalize hcall : takeOrder (min (seqn - b.minSeqn).toNat (2 ^ k)) _ _ _ = o
  intro hpassed hwin' hmin
  refine ⟨passed, w', { b with
    readyBuf := (drainReady maxMbufs b.readyBuf).2, orderBuf := o.2.1, minSeqn := o.2.2 },
    hw, htakes, ?_, ⟨hheld, hwin'⟩, hmin, rfl⟩
  rw [rteReorderDrainUpToSeqn, if_neg hnot, map_append, ← hout, ← hpassed, h.order.size_eq,
    ← hcall]

end

/-- **A drain up to a number** takes from the front of the queue, or the whole
queue and from the front of the window, gaps and all. It comes back where the
search of the ready buffer does. -/
theorem rteReorderDrainUpToSeqn_spec (hk : k ≤ 31) (h : Shows k b l rest w)
    (hrest : ∀ x ∈ rest, x = none) (maxMbufs : ℕ) (seqn : UInt32)
    (hfind : seqn < b.minSeqn → ∀ mbuf, l.head? = some mbuf → ¬ mbuf.seqn > seqn →
      readyBufferSeqnFind b.readyBuf seqn ≠ none) :
    ∃ n passed w' b', w = passed ++ w'
      ∧ rteReorderDrainUpToSeqn b maxMbufs seqn
        = some ((l.take n ++ passed.reduceOption).map some, b')
      ∧ Shows k b' (l.drop n) (rest ++ replicate (l.take n).length none)
          (w' ++ replicate passed.length none) := by
  by_cases hbefore : seqn < b.minSeqn
  · by_cases hfirst : ∀ first, l.head? = some first → first.seqn > seqn
    · refine ⟨0, [], w, b, rfl, rteReorderDrainUpToSeqn_nothing h maxMbufs hbefore hfirst, ?_⟩
      rw [drop_zero, take_zero, length_nil, replicate_zero, append_nil,
        length_nil, replicate_zero, append_nil]
      exact h
    · obtain ⟨first, hfirst⟩ := not_forall.mp hfirst
      obtain ⟨hhead, hle⟩ := Classical.not_imp.mp hfirst
      have hslot : b.readyBuf.entries b.readyBuf.tail = some first := by
        cases l with
        | nil => exact nomatch hhead
        | cons head l => exact h.ready.pop.1.trans hhead
      rcases readyBufferSeqnFind_spec hk h.ready hrest hslot hle with ⟨d, hd, hsome⟩ | ⟨hnull, -⟩
      · obtain ⟨b', hcall, hshows, -, -⟩ :=
          rteReorderDrainUpToSeqn_found h maxMbufs hbefore hhead hle hd hsome
        refine ⟨min d maxMbufs, [], w, b', rfl, ?_, ?_⟩
        · rw [reduceOption_nil, append_nil]
          exact hcall
        · rw [length_nil, replicate_zero, append_nil]
          exact hshows
      · exact absurd hnull (hfind hbefore first hhead hle)
  · obtain ⟨passed, w', b', hw, -, hcall, hshows, -, -⟩ :=
      rteReorderDrainUpToSeqn_window h maxMbufs hbefore
    exact ⟨maxMbufs, passed, w', b', hw, hcall, hshows⟩

end Reorder
