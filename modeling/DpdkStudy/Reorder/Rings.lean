import Mathlib.Data.List.ReduceOption
import DpdkStudy.Lib.Ring
import DpdkStudy.Reorder.Reorder

/-!
# The two rings of the reorder buffer

What the rings hold, as lists. The ready buffer holds a queue of packets,
between its tail and its head (`Holds`). The order buffer holds a window of
slots, from its head on, of which some are empty (`Window`). Each loop of the
reorder buffer is then a step on these lists: packets move from the front of
the window to the back of the queue (`moveReady_spec`, `fillLoop_spec`), and
leave from the front of either (`drainReady_spec`, `drainOrder_spec`,
`takeReady_spec`, `takeOrder_spec`).

The list of the slots the window has been through, with its gaps, is called
`passed` below, and `passed.reduceOption` are the packets in it.
-/

open Function List Nat

namespace Reorder

open List (replicate reduceOption)

variable {k : ℕ} {l : List Mbuf} {rest w : List (Option Mbuf)} {c ready order : CirBuffer}

/-- **The ready buffer holds a queue**: its packets are in the slots from the
tail on, and the head is the slot after them. The slots that follow are the
`rest`. -/
structure Holds (k : ℕ) (c : CirBuffer) (l : List Mbuf) (rest : List (Option Mbuf)) : Prop where
  size_eq : c.size = 2 ^ k
  mask_eq : c.mask = 2 ^ k - 1
  tail_lt : c.tail < 2 ^ k
  length_lt : l.length < 2 ^ k
  head_eq : c.head = (c.tail + l.length) % 2 ^ k
  view_eq : Ring.view (2 ^ k) c.entries c.tail (2 ^ k) = l.map some ++ rest

/-- **The order buffer holds a window** of slots, from its head on. -/
structure Window (k : ℕ) (c : CirBuffer) (w : List (Option Mbuf)) : Prop where
  size_eq : c.size = 2 ^ k
  mask_eq : c.mask = 2 ^ k - 1
  head_lt : c.head < 2 ^ k
  view_eq : Ring.view (2 ^ k) c.entries c.head (2 ^ k) = w

/-- The position after one, in a ring of a power of two. -/
theorem next_eq (hmask : c.mask = 2 ^ k - 1) (position : ℕ) :
    c.next position = (position + 1) % 2 ^ k := by
  rw [CirBuffer.next, hmask, Ring.land_mask_eq_mod]

/-! ## The queue -/

namespace Holds

section

variable (h : Holds k c l rest)

include h

theorem length_rest : l.length + rest.length = 2 ^ k := by
  have hlen := congrArg length h.view_eq
  rw [Ring.length_view, length_append, length_map] at hlen
  exact hlen.symm

/-- There is no room exactly when one slot is left. -/
theorem isFull_iff : c.isFull = true ↔ l.length + 1 = 2 ^ k := by
  have hpos : c.next c.head = (c.tail + (l.length + 1)) % 2 ^ k := by
    rw [next_eq h.mask_eq, h.head_eq, mod_add_mod, add_assoc]
  have hlt := h.length_lt
  rw [CirBuffer.isFull, decide_eq_true_iff, hpos]
  constructor
  · intro htail
    have hwrap : (c.tail + (l.length + 1)) % 2 ^ k = (c.tail + 2 ^ k) % 2 ^ k := by
      rw [htail, add_mod_right, mod_eq_of_lt h.tail_lt]
    have := Ring.mod_inj hwrap (by omega) (by omega)
    omega
  · intro hone
    rw [hone, add_mod_right, mod_eq_of_lt h.tail_lt]

/-- Tail and head meet exactly when there is no packet. -/
theorem tail_eq_head_iff : c.tail = c.head ↔ l = [] := by
  have hlt := h.length_lt
  rw [h.head_eq]
  constructor
  · intro hmeet
    have hmod : c.tail % 2 ^ k = (c.tail + l.length) % 2 ^ k := by
      rw [← hmeet, mod_eq_of_lt h.tail_lt]
    have := Ring.mod_inj hmod (by omega) (by omega)
    exact eq_nil_of_length_eq_zero (by omega)
  · intro hnil
    rw [hnil, length_nil, add_zero, mod_eq_of_lt h.tail_lt]

/-- The slot of the packet at a distance from the tail. -/
theorem entries_eq {d : ℕ} (hd : d < 2 ^ k) :
    some (c.entries ((c.tail + d) &&& c.mask)) = (l.map some ++ rest)[d]? := by
  have hlen : d < (Ring.view (2 ^ k) c.entries c.tail (2 ^ k)).length := by
    rwa [Ring.length_view]
  rw [← h.view_eq, getElem?_eq_getElem hlen, Ring.getElem_view, h.mask_eq,
    Ring.land_mask_eq_mod]

/-- A packet written at the head, with the head where it was, is not in the
queue. -/
theorem put_head (entry : Option Mbuf) :
    Holds k (c.put c.head entry) l (rest.set 0 entry) := by
  refine ⟨h.size_eq, h.mask_eq, h.tail_lt, h.length_lt, h.head_eq, ?_⟩
  show Ring.view _ (update c.entries c.head entry) c.tail _ = _
  rw [h.head_eq, Ring.view_update _ _ h.length_lt (le_refl _), h.view_eq, set_append]
  simp

/-- A packet is put at the head, where there is room. -/
theorem push (hroom : c.isFull = false) (mbuf : Mbuf) :
    Holds k { c.put c.head (some mbuf) with head := c.next c.head } (l ++ [mbuf])
      (rest.drop 1) := by
  have hfull : ¬ l.length + 1 = 2 ^ k := by rw [← h.isFull_iff, hroom]; exact Bool.false_ne_true
  have hlt := h.length_lt
  have hrest := h.length_rest
  refine ⟨h.size_eq, h.mask_eq, h.tail_lt, ?_, ?_, ?_⟩
  · rw [length_append, length_singleton]
    omega
  · show c.next c.head = _
    rw [next_eq h.mask_eq, h.head_eq, mod_add_mod, length_append, length_singleton,
      add_assoc]
    rfl
  · refine (h.put_head (some mbuf)).view_eq.trans ?_
    cases rest with
    | nil => simp only [length_nil] at hrest; omega
    | cons x rest => simp

end

theorem pop {mbuf : Mbuf} (h : Holds k c (mbuf :: l) rest) :
    c.entries c.tail = some mbuf
      ∧ Holds k { c.put c.tail none with tail := c.next c.tail } l (rest ++ [none]) := by
  have hlt := h.length_lt
  rw [length_cons] at hlt
  have htail : (c.tail + 0) % 2 ^ k = c.tail := mod_eq_of_lt h.tail_lt
  have hview : Ring.view (2 ^ k) (update c.entries c.tail none) c.tail (2 ^ k)
      = none :: (l.map some ++ rest) := by
    have hset := @Ring.view_update _ _ c.entries c.tail (2 ^ k) 0 none
      (lt_of_le_of_lt (zero_le _) hlt) (le_refl (2 ^ k))
    rw [htail, h.view_eq] at hset
    exact hset
  refine ⟨?_, h.size_eq, h.mask_eq, ?_, lt_of_succ_lt hlt, ?_, ?_⟩
  · have hslot := h.entries_eq (d := 0) (lt_of_le_of_lt (zero_le _) hlt)
    rw [h.mask_eq, Ring.land_mask_eq_mod, htail] at hslot
    exact Option.some.inj hslot
  · show c.next c.tail < _
    rw [next_eq h.mask_eq]
    exact Nat.mod_lt _ (Nat.two_pow_pos k)
  · show c.head = (c.next c.tail + l.length) % _
    rw [h.head_eq, next_eq h.mask_eq, mod_add_mod, length_cons, add_right_comm,
      add_assoc]
  · show Ring.view _ (update c.entries c.tail none) (c.next c.tail) _ = _
    rw [next_eq h.mask_eq, Ring.view_mod, Ring.view_rotate hview, append_assoc]

end Holds

/-! ## The window -/

namespace Window

theorem length_eq (h : Window k c w) : w.length = 2 ^ k := by
  rw [← h.view_eq, Ring.length_view]

theorem entries_head {x : Option Mbuf} (h : Window k c (x :: w)) : c.entries c.head = x := by
  have hlen : 0 < (Ring.view (2 ^ k) c.entries c.head (2 ^ k)).length := by
    rw [Ring.length_view]
    exact Nat.two_pow_pos k
  have hslot := Ring.getElem_view c.entries hlen
  rw [add_zero, mod_eq_of_lt h.head_lt] at hslot
  rw [← hslot]
  simp only [h.view_eq, getElem_cons_zero]

theorem put (h : Window k c w) (entry : Option Mbuf) {d : ℕ} (hd : d < 2 ^ k) :
    Window k (c.put ((c.head + d) &&& c.mask) entry) (w.set d entry) := by
  refine ⟨h.size_eq, h.mask_eq, h.head_lt, ?_⟩
  show Ring.view _ (update c.entries _ entry) c.head _ = _
  rw [h.mask_eq, Ring.land_mask_eq_mod, Ring.view_update _ _ hd (le_refl _), h.view_eq]

/-- The window moves on from its first slot, which is then empty. -/
theorem advance {x : Option Mbuf} (h : Window k c (x :: w)) :
    Window k { c.put c.head none with head := c.next c.head } (w ++ [none]) := by
  have hput := h.put none (Nat.two_pow_pos k)
  rw [h.mask_eq, Ring.land_mask_eq_mod, Nat.add_zero, Nat.mod_eq_of_lt h.head_lt] at hput
  refine ⟨h.size_eq, h.mask_eq, ?_, ?_⟩
  · show c.next c.head < _
    rw [next_eq h.mask_eq]
    exact Nat.mod_lt _ (Nat.two_pow_pos k)
  · show Ring.view _ (update c.entries c.head none) (c.next c.head) _ = _
    rw [next_eq h.mask_eq, Ring.view_mod]
    exact Ring.view_rotate hput.view_eq

/-- Over an empty slot the window moves on as it is. -/
theorem skip (h : Window k c (none :: w)) :
    Window k { c with head := c.next c.head } (w ++ [none]) := by
  have hsame : c.put c.head none = c := by
    rw [CirBuffer.put, show (none : Option Mbuf) = c.entries c.head from h.entries_head.symm,
      update_eq_self]
  have hadv := h.advance
  rw [hsame] at hadv
  exact hadv

theorem pass {x : Option Mbuf} {j : ℕ} (h : Window k c (x :: w ++ replicate j none)) :
    Window k { c.put c.head none with head := c.next c.head } (w ++ replicate (j + 1) none) := by
  rw [cons_append] at h
  have hadv := h.advance
  rwa [append_assoc, ← replicate_succ'] at hadv

theorem passGap {j : ℕ} (h : Window k c (none :: w ++ replicate j none)) :
    Window k { c with head := c.next c.head } (w ++ replicate (j + 1) none) := by
  rw [cons_append] at h
  have hskip := h.skip
  rwa [append_assoc, ← replicate_succ'] at hskip

end Window

/-! ## The overflow of the order buffer -/

/-- **What the ready buffer holds after a move**: all the packets that were
moved, or all but the last, which was written over the slot of its head. -/
def Moved (k : ℕ) (ready : CirBuffer) (l ms : List Mbuf) (rest : List (Option Mbuf)) :
    Bool → Prop
  | false => Holds k ready (l ++ ms) (rest.drop ms.length)
  | true => ∃ kept lost rest', ms = kept ++ [lost] ∧ Holds k ready (l ++ kept) rest'

/-- **The window has passed over slots**, whose packets went to the queue. -/
structure Passes (k : ℕ) (l : List Mbuf) (rest w : List (Option Mbuf)) (j adv : ℕ)
    (passed w' : List (Option Mbuf)) (r : (CirBuffer × CirBuffer) × ℕ × Bool) : Prop where
  split : w = passed ++ w'
  window : Window k r.1.2 (w' ++ replicate (j + passed.length) none)
  adv_eq : r.2.1 = adv + passed.length
  moved : Moved k r.1.1 l passed.reduceOption rest r.2.2

namespace Passes

variable {j adv : ℕ} {p q w' w'' : List (Option Mbuf)} {r r' : (CirBuffer × CirBuffer) × ℕ × Bool}

theorem nil (hr : Holds k ready l rest) (ho : Window k order (w ++ replicate j none)) :
    Passes k l rest w j adv [] w ((ready, order), adv, false) := by
  refine ⟨rfl, ho, rfl, ?_⟩
  show Holds k ready (l ++ []) rest
  rwa [append_nil]

theorem gap (hr : Holds k ready l rest) (ho : Window k order (none :: w ++ replicate j none)) :
    Passes k l rest (none :: w) j adv [none] w
      ((ready, { order with head := order.next order.head }), adv + 1, false) := by
  refine ⟨rfl, ho.passGap, rfl, ?_⟩
  show Holds k ready (l ++ []) rest
  rwa [append_nil]

theorem packet {mbuf : Mbuf} (hr : Holds k ready l rest) (hroom : ready.isFull = false)
    (ho : Window k order (some mbuf :: w ++ replicate j none)) :
    Passes k l rest (some mbuf :: w) j adv [some mbuf] w
      (({ ready.put ready.head (some mbuf) with head := ready.next ready.head },
        { order.put order.head none with head := order.next order.head }), adv + 1, false) :=
  ⟨rfl, ho.pass, rfl, hr.push hroom mbuf⟩

/-- A packet is written where there is no room for it. -/
theorem loss {mbuf : Mbuf} (hr : Holds k ready l rest)
    (ho : Window k order (some mbuf :: w ++ replicate j none)) :
    Passes k l rest (some mbuf :: w) j adv [some mbuf] w
      ((ready.put ready.head (some mbuf),
        { order.put order.head none with head := order.next order.head }), adv + 1, true) := by
  refine ⟨rfl, ho.pass, rfl, [], mbuf, rest.set 0 (some mbuf), rfl, ?_⟩
  rw [append_nil]
  exact hr.put_head _

theorem trans (h : Passes k l rest w j adv p w' r)
    (h' : Passes k (l ++ p.reduceOption) (rest.drop p.reduceOption.length) w' (j + p.length)
      (adv + p.length) q w'' r') :
    Passes k l rest w j adv (p ++ q) w'' r' := by
  refine ⟨?_, ?_, ?_, ?_⟩
  · rw [h.split, h'.split, append_assoc]
  · rw [length_append, ← add_assoc]
    exact h'.window
  · rw [h'.adv_eq, length_append, add_assoc]
  · have hmoved := h'.moved
    rw [reduceOption_append]
    cases hflag' : r'.2.2 with
    | false =>
      rw [hflag'] at hmoved
      show Holds k _ _ _
      rw [length_append, ← drop_drop, ← append_assoc]
      exact hmoved
    | true =>
      rw [hflag'] at hmoved
      obtain ⟨kept, lost, rest', hq, hheld⟩ := hmoved
      refine ⟨p.reduceOption ++ kept, lost, rest', by rw [hq, append_assoc], ?_⟩
      rwa [← append_assoc]

theorem held (h : Passes k l rest w j adv p w' r) (hflag : r.2.2 = false) :
    Holds k r.1.1 (l ++ p.reduceOption) (rest.drop p.reduceOption.length) := by
  have hmoved := h.moved
  rwa [hflag] at hmoved

end Passes

theorem Window.gap_or_packet {j : ℕ} (h : Window k c (w ++ replicate j none)) :
    c.entries c.head = none ∨ ∃ mbuf w', w = some mbuf :: w' ∧ c.entries c.head = some mbuf := by
  cases w with
  | nil =>
    cases j with
    | zero => exact absurd h.length_eq (Nat.two_pow_pos k).ne
    | succ j => exact Or.inl h.entries_head
  | cons x w =>
    cases x with
    | none => exact Or.inl h.entries_head
    | some mbuf => exact Or.inr ⟨mbuf, w, rfl, h.entries_head⟩

/-- **The inner loop** moves a run of packets from the front of the window. -/
theorem moveReady_spec (fuel : ℕ) :
    ∀ {ready order : CirBuffer} {l : List Mbuf} {rest w : List (Option Mbuf)} {j adv : ℕ},
      Holds k ready l rest → Window k order (w ++ replicate j none) →
      ∃ ms w', Passes k l rest w j adv (map some ms) w' (moveReady fuel ready order adv)
        ∧ ((moveReady fuel ready order adv).2.2 = true ∨ ms.length = fuel
          ∨ (moveReady fuel ready order adv).1.2.entries
              (moveReady fuel ready order adv).1.2.head = none) := by
  induction fuel with
  | zero =>
    intro ready order l rest w j adv hr ho
    exact ⟨[], w, Passes.nil hr ho, Or.inr (Or.inl rfl)⟩
  | succ fuel ih =>
    intro ready order l rest w j adv hr ho
    rcases ho.gap_or_packet with hnone | ⟨mbuf, w, rfl, hhead⟩
    · rw [show moveReady (fuel + 1) ready order adv = ((ready, order), adv, false) by
        rw [moveReady, hnone]]
      exact ⟨[], w, Passes.nil hr ho, Or.inr (Or.inr hnone)⟩
    · cases hfull : (ready.put ready.head (some mbuf)).isFull with
      | true =>
        rw [show moveReady (fuel + 1) ready order adv
            = ((ready.put ready.head (some mbuf),
                { order.put order.head none with head := order.next order.head }),
              adv + 1, true) by
          simp only [moveReady, hhead, hfull, if_true]]
        exact ⟨[mbuf], w, Passes.loss hr ho, Or.inl rfl⟩
      | false =>
        have hval : moveReady (fuel + 1) ready order adv
            = moveReady fuel
                { ready.put ready.head (some mbuf) with head := ready.next ready.head }
                { order.put order.head none with head := order.next order.head } (adv + 1) := by
          simp only [moveReady, hhead, hfull, Bool.false_eq_true, if_false]
          rfl
        have hpacket : Passes k l rest (some mbuf :: w) j adv [some mbuf] w _ :=
          Passes.packet hr hfull ho
        obtain ⟨ms, w', hmore, hend⟩ := ih (hpacket.held rfl) hpacket.window
        rw [hval]
        refine ⟨mbuf :: ms, w', hpacket.trans hmore, ?_⟩
        rw [length_cons, add_right_cancel_iff]
        exact hend

/-- One round of the outer loop: a gap, if there is one, and the run of packets
after it. -/
theorem fillRound_spec {n j : ℕ} (hn : n ≤ 2 ^ k) (hj : j < n) (hr : Holds k ready l rest)
    (ho : Window k order (w ++ replicate j none)) :
    ∃ passed w', Passes k l rest w j j passed w'
        (moveReady (skipGap order j).1.size ready (skipGap order j).1 (skipGap order j).2)
      ∧ 0 < passed.length
      ∧ (passed.length = 1 ∨ ∃ mbuf, passed.getLast? = some (some mbuf)) := by
  have hlen := ho.length_eq
  rw [length_append, length_replicate] at hlen
  have hsize : order.size = 2 ^ k := ho.size_eq
  have hlast : ∀ (ms : List Mbuf) (p : List (Option Mbuf)), ms ≠ [] →
      ∃ mbuf, (p ++ map some ms).getLast? = some (some mbuf) := by
    intro ms p hms
    refine ⟨ms.getLast hms, ?_⟩
    rw [getLast?_append, getLast?_map, getLast?_eq_some_getLast hms]
    rfl
  cases w with
  | nil =>
    simp only [length_nil] at hlen
    omega
  | cons x w =>
    cases x with
    | none =>
      have hskip : skipGap order j = ({ order with head := order.next order.head }, j + 1) := by
        rw [skipGap, show order.entries order.head = none from ho.entries_head]
      have hgap : Passes k l rest (none :: w) j j [none] w _ := Passes.gap hr ho
      obtain ⟨ms, w', hmore, _⟩ := moveReady_spec order.size (hgap.held rfl) hgap.window
      rw [hskip]
      refine ⟨[none] ++ map some ms, w', hgap.trans hmore, by simp, ?_⟩
      by_cases hms : ms = []
      · exact Or.inl (by rw [hms]; rfl)
      · exact Or.inr (hlast ms [none] hms)
    | some mbuf =>
      have hskip : skipGap order j = (order, j) := by
        rw [skipGap, show order.entries order.head = some mbuf from ho.entries_head]
      obtain ⟨ms, w', hmove, hend⟩ := @moveReady_spec k order.size _ _ _ _ _ j j hr ho
      rw [hskip]
      have hms : ms ≠ [] := by
        rintro rfl
        rcases hend with hflag | hsizes | hnone
        · have hmoved := hmove.moved
          rw [hflag] at hmoved
          obtain ⟨kept, lost, rest', hnil, _⟩ := hmoved
          exact append_ne_nil_of_right_ne_nil kept (cons_ne_nil lost []) hnil.symm
        · rw [hsize] at hsizes
          exact (Nat.two_pow_pos k).ne hsizes
        · have hwin := hmove.window
          rw [← show some mbuf :: w = w' from hmove.split] at hwin
          exact Option.some_ne_none mbuf (hwin.entries_head.symm.trans hnone)
      refine ⟨map some ms, w', hmove, ?_, Or.inr (hlast ms [] hms)⟩
      rw [length_map]
      exact length_pos_iff.mpr hms

/-- **The outer loop** passes over a gap, if there is one, and moves the run of
packets after it. It stops past the `n` slots asked for only behind a packet,
and before them only for want of room. -/
theorem fillLoop_spec {n : ℕ} (hn : n ≤ 2 ^ k) (fuel : ℕ) :
    ∀ {ready order : CirBuffer} {l : List Mbuf} {rest w : List (Option Mbuf)} {j : ℕ},
      Holds k ready l rest → Window k order (w ++ replicate j none) → n ≤ j + fuel →
      ∃ passed w', Passes k l rest w j j passed w' (fillLoop n fuel ready order j)
        ∧ (passed.length ≤ n - j ∨ ∃ mbuf, passed.getLast? = some (some mbuf))
        ∧ ((fillLoop n fuel ready order j).2.2 = true
          ∨ (fillLoop n fuel ready order j).1.1.isFull = true
          ∨ n ≤ (fillLoop n fuel ready order j).2.1) := by
  induction fuel with
  | zero =>
    intro ready order l rest w j hr ho hfuel
    exact ⟨[], w, Passes.nil hr ho, Or.inl (zero_le _), Or.inr (Or.inr hfuel)⟩
  | succ fuel ih =>
    intro ready order l rest w j hr ho hfuel
    by_cases hgo : j < n ∧ ¬ ready.isFull
    · obtain ⟨p, w', hround, hpos, hend⟩ := fillRound_spec hn hgo.1 hr ho
      have hstep : fillLoop n (fuel + 1) ready order j
          = if (moveReady (skipGap order j).1.size ready (skipGap order j).1
              (skipGap order j).2).2.2
            then moveReady (skipGap order j).1.size ready (skipGap order j).1 (skipGap order j).2
            else fillLoop n fuel
              (moveReady (skipGap order j).1.size ready (skipGap order j).1
                (skipGap order j).2).1.1
              (moveReady (skipGap order j).1.size ready (skipGap order j).1
                (skipGap order j).2).1.2
              (moveReady (skipGap order j).1.size ready (skipGap order j).1
                (skipGap order j).2).2.1 := by
        rw [fillLoop, if_pos hgo]
      revert hstep hround
      generalize moveReady (skipGap order j).1.size ready (skipGap order j).1
        (skipGap order j).2 = r
      intro hround hstep
      have hfirst : p.length ≤ n - j ∨ ∃ mbuf, p.getLast? = some (some mbuf) := by
        rcases hend with hone | hlast
        · exact Or.inl (by omega)
        · exact Or.inr hlast
      rw [hstep]
      cases hflag : r.2.2 with
      | true =>
        rw [if_pos rfl]
        exact ⟨p, w', hround, hfirst, Or.inl hflag⟩
      | false =>
        rw [if_neg Bool.false_ne_true, hround.adv_eq]
        obtain ⟨q, w'', hmore, hlast, hdone⟩ :=
          ih (hround.held hflag) hround.window (by omega)
        refine ⟨p ++ q, w'', hround.trans hmore, ?_, hdone⟩
        rcases hlast with hle | ⟨mbuf, hmbuf⟩
        · cases q with
          | nil =>
            rw [append_nil]
            exact hfirst
          | cons x q =>
            rw [length_append]
            rw [length_cons] at hle ⊢
            exact Or.inl (by omega)
        · refine Or.inr ⟨mbuf, ?_⟩
          rw [getLast?_append, hmbuf]
          rfl
    · rw [show fillLoop n (fuel + 1) ready order j = ((ready, order), j, false) by
        rw [fillLoop, if_neg hgo]]
      refine ⟨[], w, Passes.nil hr ho, Or.inl (zero_le _), ?_⟩
      show false = true ∨ ready.isFull = true ∨ n ≤ j
      by_cases hj : j < n
      · exact Or.inr (Or.inl (not_not.mp fun hfull => hgo ⟨hj, hfull⟩))
      · exact Or.inr (Or.inr (Nat.le_of_not_lt hj))

/-- The inner loop breaks off where the ready buffer is full. -/
theorem moveReady_full {fuel : ℕ} {ready order : CirBuffer} {adv : ℕ}
    (hflag : (moveReady fuel ready order adv).2.2 = true) :
    (moveReady fuel ready order adv).1.1.isFull = true := by
  induction fuel generalizing ready order adv with
  | zero => exact nomatch hflag
  | succ fuel ih =>
    unfold moveReady at hflag ⊢
    cases hslot : order.entries order.head with
    | none =>
      rw [hslot] at hflag
      exact nomatch hflag
    | some mbuf =>
      simp only [hslot] at hflag ⊢
      split at hflag
      · rename_i hfull
        rw [if_pos hfull]
        exact hfull
      · rename_i hroom
        rw [if_neg hroom]
        exact ih hflag

/-- A move breaks off where the ready buffer is full. -/
theorem fillLoop_full {n fuel : ℕ} {ready order : CirBuffer} {adv : ℕ}
    (hflag : (fillLoop n fuel ready order adv).2.2 = true) :
    (fillLoop n fuel ready order adv).1.1.isFull = true := by
  induction fuel generalizing ready order adv with
  | zero => exact nomatch hflag
  | succ fuel ih =>
    unfold fillLoop at hflag ⊢
    split at hflag
    · rename_i hgo
      rw [if_pos hgo]
      dsimp only at hflag ⊢
      split at hflag
      · rename_i hbreak
        rw [if_pos hbreak]
        exact moveReady_full hflag
      · rename_i hnext
        rw [if_neg hnext]
        exact ih hflag
    · exact nomatch hflag

/-- Nothing moves into a ready buffer that is full. -/
theorem fillLoop_of_full (n fuel : ℕ) (order : CirBuffer) (adv : ℕ)
    (hfull : ready.isFull = true) :
    fillLoop n fuel ready order adv = ((ready, order), adv, false) := by
  cases fuel with
  | zero => rfl
  | succ fuel =>
    rw [fillLoop, if_neg]
    exact fun hgo => hgo.2 hfull

/-! ## Draining -/

/-- The ready buffer is drained from the front of its queue. -/
theorem drainReady_spec (n : ℕ) :
    ∀ {ready : CirBuffer} {l : List Mbuf} {rest : List (Option Mbuf)}, Holds k ready l rest →
      (drainReady n ready).1 = (l.take n).map some
        ∧ Holds k (drainReady n ready).2 (l.drop n)
            (rest ++ replicate (l.take n).length none) := by
  induction n with
  | zero =>
    intro ready l rest h
    refine ⟨rfl, ?_⟩
    rw [take_zero, length_nil, replicate_zero, append_nil]
    exact h
  | succ n ih =>
    intro ready l rest h
    cases l with
    | nil =>
      rw [drainReady, if_pos (h.tail_eq_head_iff.mpr rfl)]
      refine ⟨rfl, ?_⟩
      rw [take_nil, length_nil, replicate_zero, append_nil]
      exact h
    | cons mbuf l =>
      obtain ⟨hslot, hpop⟩ := h.pop
      obtain ⟨hout, hleft⟩ := ih hpop
      rw [drainReady, if_neg (fun hmeet => cons_ne_nil _ _ (h.tail_eq_head_iff.mp hmeet))]
      refine ⟨?_, ?_⟩
      · show ready.entries ready.tail :: _ = _
        rw [hslot, hout]
        rfl
      · rw [take_succ_cons, length_cons, replicate_succ, drop_succ_cons,
          append_cons]
        exact hleft

/-- **The loop that takes `n` packets** takes them from the front of the queue,
where there are as many. -/
theorem takeReady_eq_drainReady (n : ℕ) :
    ∀ {ready : CirBuffer} {l : List Mbuf} {rest : List (Option Mbuf)}, Holds k ready l rest →
      n ≤ l.length → takeReady n ready = drainReady n ready := by
  induction n with
  | zero => exact fun _ _ => rfl
  | succ n ih =>
    intro ready l rest h hn
    cases l with
    | nil => exact absurd hn (not_succ_le_zero n)
    | cons mbuf l =>
      rw [drainReady, if_neg (fun hmeet => cons_ne_nil _ _ (h.tail_eq_head_iff.mp hmeet)),
        takeReady, ih h.pop.2 (le_of_succ_le_succ hn)]

/-- The order buffer is drained up to the first gap. -/
theorem drainOrder_spec (n : ℕ) :
    ∀ {order : CirBuffer} {w : List (Option Mbuf)} {j : ℕ} {minSeqn : UInt32},
      Window k order (w ++ replicate j none) →
      ∃ ms w', w = map some ms ++ w' ∧ ms.length ≤ n
        ∧ (drainOrder n order minSeqn).1 = map some ms
        ∧ Window k (drainOrder n order minSeqn).2.1 (w' ++ replicate (j + ms.length) none)
        ∧ (drainOrder n order minSeqn).2.2 = minSeqn + UInt32.ofNat ms.length := by
  induction n with
  | zero =>
    intro order w j minSeqn h
    exact ⟨[], w, rfl, le_refl 0, rfl, h, (UInt32.add_zero minSeqn).symm⟩
  | succ n ih =>
    intro order w j minSeqn h
    rcases h.gap_or_packet with hnone | ⟨mbuf, w, rfl, hhead⟩
    · rw [drainOrder, hnone]
      exact ⟨[], w, rfl, zero_le _, rfl, h, (UInt32.add_zero minSeqn).symm⟩
    · obtain ⟨ms, w', hw, hle, hout, hwin, hmin⟩ := @ih _ _ _ (minSeqn + 1) h.pass
      rw [drainOrder, hhead]
      refine ⟨mbuf :: ms, w', ?_, succ_le_succ hle, ?_, ?_, ?_⟩
      · rw [hw, map_cons, cons_append]
      · show some mbuf :: _ = _
        rw [hout, map_cons]
      · rw [length_cons, ← add_assoc, add_right_comm]
        exact hwin
      · rw [hmin, length_cons, UInt32.ofNat_add, UInt32.add_assoc,
          UInt32.add_comm 1]
        rfl

/-- **How far a window is gone through**: over `n` slots, or as many as have
`max` packets. -/
structure Takes (n max : ℕ) (passed : List (Option Mbuf)) : Prop where
  length_le : passed.length ≤ n
  packets_le : passed.reduceOption.length ≤ max
  ends : passed.length = n ∨ passed.reduceOption.length = max
  nil : max = 0 → passed = []

namespace Takes

variable {n max : ℕ} {passed : List (Option Mbuf)}

theorem zero_slots (max : ℕ) : Takes 0 max [] :=
  ⟨le_refl 0, zero_le _, Or.inl rfl, fun _ => rfl⟩

theorem zero_packets (n : ℕ) : Takes n 0 [] :=
  ⟨zero_le _, le_refl 0, Or.inr rfl, fun _ => rfl⟩

theorem gap (h : Takes n max passed) (hmax : max ≠ 0) : Takes (n + 1) max (none :: passed) := by
  refine ⟨succ_le_succ h.length_le, ?_, ?_, fun hzero => absurd hzero hmax⟩
  · rw [reduceOption_cons_of_none]
    exact h.packets_le
  · rw [reduceOption_cons_of_none, length_cons, add_right_cancel_iff]
    exact h.ends

theorem packet (h : Takes n (max - 1) passed) (hmax : max ≠ 0) (mbuf : Mbuf) :
    Takes (n + 1) max (some mbuf :: passed) := by
  have hle := h.packets_le
  have hends := h.ends
  refine ⟨succ_le_succ h.length_le, ?_, ?_, fun hzero => absurd hzero hmax⟩
  · rw [reduceOption_cons_of_some, length_cons]
    omega
  · rw [reduceOption_cons_of_some, length_cons, length_cons]
    omega

theorem packets_eq (h : Takes n max passed) (w' : List (Option Mbuf)) :
    passed.reduceOption = ((passed ++ w').take n).reduceOption.take max := by
  have hle := h.length_le
  rw [take_append, take_of_length_le hle, reduceOption_append]
  rcases h.ends with hn | hmax
  · rw [hn, Nat.sub_self, take_zero, reduceOption_nil, append_nil,
      take_of_length_le h.packets_le]
  · rw [← hmax, take_left]

end Takes

/-- The order buffer is taken from, gaps and all. -/
theorem takeOrder_spec (n : ℕ) :
    ∀ {order : CirBuffer} {w : List (Option Mbuf)} {j max : ℕ} {minSeqn : UInt32},
      Window k order (w ++ replicate j none) → n ≤ w.length →
      ∃ passed w', w = passed ++ w' ∧ Takes n max passed
        ∧ (takeOrder n max order minSeqn).1 = passed.reduceOption.map some
        ∧ Window k (takeOrder n max order minSeqn).2.1
            (w' ++ replicate (j + passed.length) none)
        ∧ (takeOrder n max order minSeqn).2.2 = minSeqn + UInt32.ofNat passed.length := by
  induction n with
  | zero =>
    intro order w j max minSeqn h hn
    exact ⟨[], w, rfl, Takes.zero_slots max, rfl, h, (UInt32.add_zero minSeqn).symm⟩
  | succ n ih =>
    intro order w j max minSeqn h hn
    by_cases hmax : max = 0
    · rw [takeOrder, if_pos hmax, hmax]
      exact ⟨[], w, rfl, Takes.zero_packets _, rfl, h, (UInt32.add_zero minSeqn).symm⟩
    · rw [takeOrder, if_neg hmax]
      have hnum : ∀ len : ℕ, minSeqn + 1 + UInt32.ofNat len = minSeqn + UInt32.ofNat (len + 1) := by
        intro len
        rw [UInt32.ofNat_add, UInt32.add_assoc, UInt32.add_comm 1]
        rfl
      cases w with
      | nil => exact absurd hn (not_succ_le_zero n)
      | cons x w =>
        have hle : n ≤ w.length := le_of_succ_le_succ hn
        have hhead : order.entries order.head = x := h.entries_head
        rw [hhead]
        cases x with
        | none =>
          obtain ⟨p, w', hw, htakes, hout, hwin, hmin⟩ :=
            @ih _ _ _ max (minSeqn + 1) h.passGap hle
          refine ⟨none :: p, w', by rw [hw, cons_append], htakes.gap hmax, hout, ?_,
            hmin.trans (hnum p.length)⟩
          rw [length_cons, ← add_assoc, add_right_comm]
          exact hwin
        | some mbuf =>
          obtain ⟨p, w', hw, htakes, hout, hwin, hmin⟩ :=
            @ih _ _ _ (max - 1) (minSeqn + 1) h.pass hle
          refine ⟨some mbuf :: p, w', by rw [hw, cons_append], htakes.packet hmax mbuf, ?_, ?_,
            hmin.trans (hnum p.length)⟩
          · show some mbuf :: _ = _
            rw [hout, reduceOption_cons_of_some, map_cons]
          · rw [length_cons, ← add_assoc, add_right_comm]
            exact hwin

/-! ## The search of the ready buffer -/

/-- A packet in a slot is one of the queue, where the other slots are empty. -/
theorem Holds.lt_length (h : Holds k c l rest) (hrest : ∀ x ∈ rest, x = none) {d : ℕ}
    (hd : d < 2 ^ k) {mbuf : Mbuf} (hmbuf : c.entries ((c.tail + d) &&& c.mask) = some mbuf) :
    d < l.length := by
  by_contra hge
  have hslot := h.entries_eq hd
  rw [hmbuf, getElem?_append_right (by rw [length_map]; omega)] at hslot
  exact Option.some_ne_none mbuf (hrest _ (mem_of_getElem? hslot.symm))

/-- **The binary search** answers with a position of the queue, or just behind
it, or reads an empty slot. It never runs below the first packet, which is not
after the number it looks for. -/
theorem seqnFindLoop_spec (hk : k ≤ 31) (h : Holds k c l rest) (hrest : ∀ x ∈ rest, x = none)
    {seqn : UInt32} {first : Mbuf} (hfirst : c.entries c.tail = some first)
    (hle : ¬ first.seqn > seqn) (fuel : ℕ) :
    ∀ low high, low ≤ l.length → high < 2 ^ k → high + 1 - low < fuel →
      (∃ d ≤ l.length, seqnFindLoop c seqn fuel low high = some d)
        ∨ seqnFindLoop c seqn fuel low high = none
          ∧ ∃ d < 2 ^ k, c.entries ((c.tail + d) &&& c.mask) = none := by
  induction fuel with
  | zero => exact fun low high _ _ hfuel => absurd hfuel (not_lt_zero _)
  | succ fuel ih =>
    intro low high hlow hhigh hfuel
    by_cases hgo : low ≤ high
    · have hmid : low + (high - low) / 2 < 2 ^ k := by omega
      rw [seqnFindLoop, if_pos hgo]
      cases hslot : c.entries ((c.tail + (low + (high - low) / 2)) &&& c.mask) with
      | none =>
        simp only [hslot]
        exact Or.inr ⟨trivial, _, hmid, hslot⟩
      | some mbuf =>
        have hlt := h.lt_length hrest hmid hslot
        simp only [hslot]
        by_cases heq : seqn = mbuf.seqn
        · rw [if_pos heq]
          exact Or.inl ⟨_, le_of_lt hlt, rfl⟩
        · rw [if_neg heq]
          by_cases hgt : seqn > mbuf.seqn
          · rw [if_pos hgt]
            exact ih _ _ hlt hhigh (by omega)
          · rw [if_neg hgt]
            -- the slot of the first packet is not looked at on this side
            have hpos : low + (high - low) / 2 ≠ 0 := by
              intro hzero
              rw [hzero, add_zero, h.mask_eq, Ring.land_mask_eq_mod,
                mod_eq_of_lt h.tail_lt, hfirst] at hslot
              rw [← Option.some.inj hslot] at hgt heq
              exact heq (UInt32.le_antisymm (UInt32.not_lt.mp hgt) (UInt32.not_lt.mp hle))
            have hpow : 2 ^ k ≤ 2 ^ 31 := Nat.pow_le_pow_right (by decide) hk
            have hwrap : (low + (high - low) / 2 + 2 ^ 32 - 1) % 2 ^ 32
                = low + (high - low) / 2 - 1 := by
              omega
            rw [hwrap]
            exact ih _ _ hlow (by omega) (by omega)
    · rw [seqnFindLoop, if_neg hgo]
      exact Or.inl ⟨low, hlow, rfl⟩

/-- **`ready_buffer_seqn_find`** on a queue whose first packet is not after the
number. -/
theorem readyBufferSeqnFind_spec (hk : k ≤ 31) (h : Holds k c l rest)
    (hrest : ∀ x ∈ rest, x = none) {seqn : UInt32} {first : Mbuf}
    (hfirst : c.entries c.tail = some first) (hle : ¬ first.seqn > seqn) :
    (∃ d ≤ l.length, readyBufferSeqnFind c seqn = some d)
      ∨ readyBufferSeqnFind c seqn = none
        ∧ ∃ d < 2 ^ k, c.entries ((c.tail + d) &&& c.mask) = none := by
  have hhead : c.head < 2 ^ k := by
    rw [h.head_eq]
    exact Nat.mod_lt _ (Nat.two_pow_pos k)
  have htail := h.tail_lt
  rw [readyBufferSeqnFind, h.size_eq]
  refine seqnFindLoop_spec hk h hrest hfirst hle _ _ _ (zero_le _) ?_ ?_
  · split <;> omega
  · split <;> omega

end Reorder
