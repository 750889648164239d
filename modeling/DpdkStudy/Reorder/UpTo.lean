import DpdkStudy.Lib.Runs
import DpdkStudy.Reorder.Search
import DpdkStudy.Reorder.Spread

/-!
# What a drain up to a number is for

A drain up to a number is to hand out the packets that wait in front of it, in
order, and as many as the caller takes (`DrainsUpTo`). Numbers wrap, so they
are compared by how far they are from the window of the order buffer, forwards
or backwards (`ReorderBuffer.ahead`).

`rte_reorder_drain_up_to_seqn` compares the numbers as they are. It does what it
is for where this makes no difference, and the search of the ready buffer finds
the place of the number among the packets (`Searchable`). In a run whose drains
up to a number are such, whatever the other operations are, they hand out what
they should (`drains_up_to_seqn`); others do not (`drains_up_to_seqn_fails`).
-/

open List

namespace Reorder

open List (replicate reduceOption)
open Runs (run Along)

/-! ## Packets that wait -/

/-- **The packets that wait**, first those in the ready buffer. -/
def ReorderBuffer.waiting (b : ReorderBuffer) : List Mbuf :=
  b.queue ++ b.orderEntries.reduceOption

/-- **A packet precedes a number**, seen from the window. -/
def ReorderBuffer.precedes (b : ReorderBuffer) (seqn : UInt32) (mbuf : Mbuf) : Bool :=
  b.ahead mbuf.seqn < b.ahead seqn

/-- **What a drain up to a number is for**: it comes back, it hands out the
packets that precede the number, in order, and at most as many as it may, and
all others go on to wait. -/
structure DrainsTo (b : ReorderBuffer) (maxMbufs : ℕ) (seqn : UInt32) (out : List Mbuf)
    (b' : ReorderBuffer) : Prop where
  call : rteReorderDrainUpToSeqn b maxMbufs seqn = some (out.map some, b')
  first : out = (b.waiting.filter (b.precedes seqn)).take maxMbufs
  rest : b.waiting = out ++ b'.waiting

/-- **A number can be searched for.** It is less than that of the window exactly
if it is before the window, and then less than that of the first packet in the
ready buffer exactly if it is before that packet: no wrap is in between. Where
the ready buffer is searched, the search finds the place behind the packets
that precede the number. -/
structure Searchable (b : ReorderBuffer) (seqn : UInt32) : Prop where
  window : seqn < b.minSeqn ↔ b.ahead seqn < 0
  first : seqn < b.minSeqn → ∀ first, b.queue.head? = some first →
    (first.seqn > seqn ↔ b.ahead seqn < b.ahead first.seqn)
  finds : seqn < b.minSeqn → ∀ first, b.queue.head? = some first → ¬ first.seqn > seqn →
    Finds b.readyBuf.highest b.queue.length (b.queue.filter (b.precedes seqn)).length

variable {k : ℕ} {l : List Mbuf} {rest w : List (Option Mbuf)} {b : ReorderBuffer}

theorem Shows.waiting_eq (h : Shows k b l rest w) : b.waiting = l ++ w.reduceOption := by
  rw [ReorderBuffer.waiting, h.queue_eq, h.orderEntries_eq]

/-! ## Numbers -/

/-- A number before the window, where there is no wrap in between. -/
theorem toNat_of_ahead_neg {seqn : UInt32} (hneg : b.ahead seqn < 0) :
    (seqn < b.minSeqn ↔ 0 ≤ (b.minSeqn.toNat : ℤ) + b.ahead seqn)
      ∧ (seqn < b.minSeqn → (seqn.toNat : ℤ) = b.minSeqn.toNat + b.ahead seqn) := by
  have hx := seqn.toNat_lt
  have hy := b.minSeqn.toNat_lt
  rw [ahead_eq, UInt32.toNat_sub] at hneg ⊢
  rw [UInt32.lt_iff_toNat_lt]
  split at hneg <;> omega

theorem ahead_of_nonneg {seqn : UInt32} (hpos : 0 ≤ b.ahead seqn) :
    b.ahead seqn = ((seqn - b.minSeqn).toNat : ℤ) := by
  have hx := (seqn - b.minSeqn).toNat_lt
  rw [ahead_eq] at hpos ⊢
  split
  · rfl
  · rename_i hfar
    rw [if_neg hfar] at hpos
    omega

/-! ## Slots -/

theorem Slots.ahead_eq (hk : k ≤ 31) (h : Slots b.minSeqn w) (hlen : w.length = 2 ^ k) {d : ℕ}
    {mbuf : Mbuf} (hd : w[d]? = some (some mbuf)) : b.ahead mbuf.seqn = d := by
  have hlt := (List.getElem?_eq_some_iff.mp hd).1
  have hpow : 2 ^ k ≤ 2 ^ 31 := Nat.pow_le_pow_right (by decide) hk
  have hoff : (mbuf.seqn - b.minSeqn).toNat = d := by
    have hy := b.minSeqn.toNat_lt
    rw [h d mbuf hd, UInt32.toNat_sub, UInt32.toNat_add, UInt32.toNat_ofNat']
    omega
  rw [Reorder.ahead_eq, hoff, if_pos (by omega)]

/-! ## Packets in front of a number -/

section Front

variable {α : Type} {p : α → Bool}

/-- **What is in front of a place** in a list: if all packets in front of one
that a number is behind are so too, those are the first ones. -/
theorem filter_eq_take {l : List α} (hfront : l.Pairwise (fun x y => p y → p x)) :
    l.filter p = l.take (l.filter p).length := by
  induction l with
  | nil => rfl
  | cons x l ih =>
    obtain ⟨hx, hl⟩ := pairwise_cons.mp hfront
    by_cases hp : p x
    · rw [filter_cons_of_pos hp, length_cons, take_succ_cons, ← ih hl]
    · have hnone : l.filter p = [] := filter_eq_nil_iff.mpr fun y hy hpy => hp (hx y hy hpy)
      rw [filter_cons_of_neg hp, hnone]
      rfl

theorem lt_length_filter_iff {l : List α} (hfront : l.Pairwise (fun x y => p y → p x)) {i : ℕ}
    {x : α} (hi : l[i]? = some x) : p x ↔ i < (l.filter p).length := by
  induction l generalizing i with
  | nil => exact nomatch hi
  | cons y l ih =>
    obtain ⟨hy, hl⟩ := pairwise_cons.mp hfront
    by_cases hp : p y
    · rw [filter_cons_of_pos hp, length_cons]
      cases i with
      | zero =>
        rw [← show y = x from Option.some.inj hi]
        exact iff_of_true hp (Nat.succ_pos _)
      | succ i => exact (ih hl hi).trans Nat.succ_lt_succ_iff.symm
    · have hnone : l.filter p = [] := filter_eq_nil_iff.mpr fun z hz hpz => hp (hy z hz hpz)
      rw [filter_cons_of_neg hp, hnone]
      refine iff_of_false (fun hpx => ?_) (Nat.not_lt_zero i)
      cases i with
      | zero => exact hp ((show y = x from Option.some.inj hi) ▸ hpx)
      | succ i => exact hp (hy x (mem_of_getElem? hi) hpx)

end Front

/-- **The packets of a window in front of a number** are those of its first
slots. -/
theorem filter_slots {p : Mbuf → Bool} {w : List (Option Mbuf)} {s n : ℕ}
    (hp : ∀ d mbuf, w[d]? = some (some mbuf) → (p mbuf ↔ s + d < n)) :
    w.reduceOption.filter p = (w.take (n - s)).reduceOption := by
  induction w generalizing s with
  | nil => rw [take_nil, reduceOption_nil, filter_nil]
  | cons x w ih =>
    have htail := @ih (s + 1) fun d mbuf hd => (hp (d + 1) mbuf hd).trans (by omega)
    by_cases hs : s < n
    · rw [show n - s = n - (s + 1) + 1 by omega, take_succ_cons]
      cases x with
      | none => rw [reduceOption_cons_of_none, reduceOption_cons_of_none, htail]
      | some mbuf =>
        rw [reduceOption_cons_of_some, reduceOption_cons_of_some,
          filter_cons_of_pos ((hp 0 mbuf rfl).mpr hs), htail]
    · rw [show n - (s + 1) = 0 by omega, take_zero, reduceOption_nil] at htail
      rw [show n - s = 0 by omega, take_zero, reduceOption_nil]
      cases x with
      | none => rw [reduceOption_cons_of_none, htail]
      | some mbuf =>
        rw [reduceOption_cons_of_some,
          filter_cons_of_neg (fun hmbuf => hs ((hp 0 mbuf rfl).mp hmbuf)), htail]

/-! ## The drain -/

section Drain

variable (hk : k ≤ 31) (h : Shows k b l rest w) (hslots : Slots b.minSeqn w) (hin : InOrder b)
  {seqn : UInt32}

include hk h hslots in
/-- No packet of the window precedes a number before it. -/
theorem filter_window_nil (hneg : b.ahead seqn < 0) :
    w.reduceOption.filter (b.precedes seqn) = [] := by
  have hnone := @filter_slots (b.precedes seqn) w 0 0 fun d mbuf hd => by
    rw [ReorderBuffer.precedes, decide_eq_true_iff, hslots.ahead_eq hk h.order.length_eq hd]
    omega
  rw [hnone, Nat.sub_self, take_zero, reduceOption_nil]

include h hin in
/-- The packets of the queue that precede a number are the first ones. -/
theorem queue_front (seqn : UInt32) :
    l.Pairwise (fun x y => b.precedes seqn y → b.precedes seqn x) := by
  have hsorted := hin.sorted
  rw [h.queue_eq] at hsorted
  refine hsorted.imp fun {x y} hlt hy => ?_
  rw [ReorderBuffer.precedes, decide_eq_true_iff] at hy ⊢
  exact lt_trans hlt hy

include h hin in
/-- **The place of a number** before the window is behind the packets that
precede it. -/
theorem queue_splits (hbefore : seqn < b.minSeqn) (hneg : b.ahead seqn < 0)
    (hfirst : ∀ first, l.head? = some first → first.seqn ≤ seqn) :
    Splits l seqn (l.filter (b.precedes seqn)).length := by
  have hsorted := hin.sorted
  have hbehind := hin.behind
  rw [h.queue_eq] at hsorted hbehind
  have hseqn := (toNat_of_ahead_neg hneg).2 hbefore
  -- there is no wrap between the first packet and the window
  have hnum : ∀ mbuf ∈ l, (mbuf.seqn.toNat : ℤ) = b.minSeqn.toNat + b.ahead mbuf.seqn := by
    intro mbuf hmem
    cases l with
    | nil => exact nomatch hmem
    | cons first l =>
      have hle : b.ahead first.seqn ≤ b.ahead mbuf.seqn := by
        rcases mem_cons.mp hmem with rfl | hmem
        · exact le_refl _
        · exact le_of_lt (rel_of_pairwise_cons hsorted hmem)
      have hlow := (toNat_of_ahead_neg (hbehind first mem_cons_self)).1.mp
        (UInt32.lt_of_le_of_lt (hfirst first rfl) hbefore)
      have hat := toNat_of_ahead_neg (hbehind mbuf hmem)
      exact hat.2 (hat.1.mpr (by omega))
  have hlt : ∀ mbuf ∈ l, (mbuf.seqn < seqn ↔ b.precedes seqn mbuf) := by
    intro mbuf hmem
    rw [UInt32.lt_iff_toNat_lt, ReorderBuffer.precedes, decide_eq_true_iff]
    have hmbuf := hnum mbuf hmem
    omega
  have hfront := queue_front h hin seqn
  refine ⟨fun i mbuf hi hix => ?_, fun i mbuf hi hix => ?_, fun i mbuf hi heq => ?_⟩
  · exact (hlt mbuf (mem_of_getElem? hi)).mpr ((lt_length_filter_iff hfront hi).mpr hix)
  · refine UInt32.not_lt.mp fun hc => ?_
    exact not_lt.mpr hix ((lt_length_filter_iff hfront hi).mp
      ((hlt mbuf (mem_of_getElem? hi)).mp hc))
  · -- all packets in front of one with the number precede it, and none behind it
    refine le_antisymm (not_lt.mp fun hc => ?_) (not_lt.mp fun hc => ?_)
    · obtain ⟨hlen, hmbuf⟩ := List.getElem?_eq_some_iff.mp hi
      have hlt' := pairwise_iff_getElem.mp hsorted _ i (lt_trans hc hlen) hlen hc
      rw [hmbuf, heq] at hlt'
      exact lt_irrefl _ ((lt_length_filter_iff hfront (getElem?_eq_getElem _)).mp
        (decide_eq_true_iff.mpr hlt'))
    · have hprec := (lt_length_filter_iff hfront hi).mpr hc
      rw [← hlt mbuf (mem_of_getElem? hi), heq] at hprec
      exact UInt32.lt_irrefl _ hprec

include hk h hslots hin in
theorem drainsUpTo_before (hs : Searchable b seqn) (maxMbufs : ℕ) (hbefore : seqn < b.minSeqn) :
    ∃ out n rest' b', DrainsTo b maxMbufs seqn out b' ∧ Shows k b' (l.drop n) rest' w
      ∧ b'.minSeqn = b.minSeqn ∧ b'.isInitialized = b.isInitialized := by
  have hneg := hs.window.mp hbefore
  have hqueue := h.queue_eq
  have hfilter : b.waiting.filter (b.precedes seqn) = l.filter (b.precedes seqn) := by
    rw [h.waiting_eq, filter_append, filter_window_nil hk h hslots hneg, append_nil]
  by_cases hnothing : ∀ first, l.head? = some first → first.seqn > seqn
  · have hnil : l.filter (b.precedes seqn) = [] := by
      refine filter_eq_nil_iff.mpr fun mbuf hmem hprec => ?_
      cases l with
      | nil => exact nomatch hmem
      | cons first l =>
        have hlt := (hs.first hbefore first (by rw [hqueue]; rfl)).mp (hnothing first rfl)
        have hpos : 0 < ((first :: l).filter (b.precedes seqn)).length :=
          length_pos_of_mem (mem_filter.mpr ⟨hmem, hprec⟩)
        have hfirst := (lt_length_filter_iff (queue_front h hin seqn) (i := 0) rfl).mpr hpos
        rw [ReorderBuffer.precedes, decide_eq_true_iff] at hfirst
        exact lt_asymm hlt hfirst
    refine ⟨[], 0, rest, b, ⟨rteReorderDrainUpToSeqn_nothing h maxMbufs hbefore hnothing, ?_, rfl⟩,
      h, rfl, rfl⟩
    rw [hfilter, hnil, take_nil]
  · obtain ⟨first, hfirst⟩ := not_forall.mp hnothing
    obtain ⟨hhead, hle⟩ := Classical.not_imp.mp hfirst
    have hsplits := queue_splits h hin hbefore hneg fun m hm => by
      rw [hhead] at hm
      rw [← Option.some.inj hm]
      exact UInt32.not_lt.mp hle
    have hfinds := hs.finds hbefore first (by rw [hqueue, hhead]) hle
    rw [hqueue] at hfinds
    have hfind := readyBufferSeqnFind_eq_some hk h.ready hsplits (fun m hm => by
      rw [hhead] at hm
      rw [← Option.some.inj hm]
      exact UInt32.not_lt.mp hle) hfinds
    have hx := length_filter_le (b.precedes seqn) l
    obtain ⟨b', hcall, hshows, hmin, hinit⟩ :=
      rteReorderDrainUpToSeqn_found h maxMbufs hbefore hhead hle hx hfind
    have htake := filter_eq_take (queue_front h hin seqn)
    refine ⟨_, _, _, b', ⟨hcall, ?_, ?_⟩, hshows, hmin, hinit⟩
    · rw [hfilter, Nat.min_comm, ← take_take, ← htake]
    · rw [h.waiting_eq, hshows.waiting_eq, ← append_assoc, take_append_drop]

include hk h hslots hin in
/-- A drain up to a number of the window, or behind it. -/
theorem drainsUpTo_window (hs : Searchable b seqn) (maxMbufs : ℕ) (hnot : ¬ seqn < b.minSeqn) :
    ∃ out passed w' rest' b', DrainsTo b maxMbufs seqn out b' ∧ w = passed ++ w'
      ∧ Shows k b' (l.drop maxMbufs) rest' (w' ++ replicate passed.length none)
      ∧ (l.drop maxMbufs = [] ∨ passed = [])
      ∧ b'.minSeqn = b.minSeqn + UInt32.ofNat passed.length
      ∧ b'.isInitialized = b.isInitialized := by
  have hnonneg : 0 ≤ b.ahead seqn := not_lt.mp fun hneg => hnot (hs.window.mpr hneg)
  have hahead := ahead_of_nonneg hnonneg
  obtain ⟨passed, w', b', hw, htakes, hcall, hshows, hmin, hinit⟩ :=
    rteReorderDrainUpToSeqn_window h maxMbufs hnot
  have hall : l.filter (b.precedes seqn) = l := by
    refine filter_eq_self.mpr fun mbuf hmem => decide_eq_true_iff.mpr ?_
    exact lt_of_lt_of_le (hin.behind mbuf (by rwa [h.queue_eq])) hnonneg
  have hfront : w.reduceOption.filter (b.precedes seqn)
      = (w.take (min (seqn - b.minSeqn).toNat (2 ^ k))).reduceOption := by
    rw [@filter_slots (b.precedes seqn) w 0 (seqn - b.minSeqn).toNat fun d mbuf hd => by
      rw [ReorderBuffer.precedes, decide_eq_true_iff, hslots.ahead_eq hk h.order.length_eq hd,
        hahead]
      omega, Nat.sub_zero, ← h.order.length_eq]
    by_cases hlen : (seqn - b.minSeqn).toNat ≤ w.length
    · rw [Nat.min_eq_left hlen]
    · rw [Nat.min_eq_right (Nat.le_of_not_le hlen), take_length,
        take_of_length_le (Nat.le_of_not_le hlen)]
  have hend : l.drop maxMbufs = [] ∨ passed = [] := by
    by_cases hlen : l.length ≤ maxMbufs
    · exact Or.inl (drop_eq_nil_of_le hlen)
    · refine Or.inr (htakes.nil ?_)
      rw [length_take]
      omega
  refine ⟨_, passed, w', _, b', ⟨hcall, ?_, ?_⟩, hw, hshows, hend, hmin, hinit⟩
  · have hleft : maxMbufs - (l.take maxMbufs).length = maxMbufs - l.length := by
      rw [length_take]
      omega
    rw [h.waiting_eq, filter_append, hall, hfront, take_append, ← hleft, hw,
      ← htakes.packets_eq w']
  · rw [h.waiting_eq, hshows.waiting_eq, reduceOption_append,
      reduceOption_replicate_none, append_nil, hw, reduceOption_append]
    rcases hend with hdrop | hpassed
    · have htake : l.take maxMbufs = l := by
        rw [← append_nil (l.take maxMbufs), ← hdrop, take_append_drop]
      rw [hdrop, htake, nil_append, append_assoc]
    · rw [hpassed, reduceOption_nil, append_nil, nil_append, ← append_assoc,
        take_append_drop]

end Drain

/-! ## Runs of operations -/

/-- **An operation** on a reorder buffer. -/
inductive Operation
  | insert (mbuf : Mbuf)
  | drain (maxMbufs : ℕ)
  | drainUpToSeqn (maxMbufs : ℕ) (seqn : UInt32)
  | minSeqnSet (minSeqn : UInt32)
  | reset
deriving DecidableEq, Repr

/-- **An operation is done.** One that reads through `NULL` does not come back;
the buffer is then left as it is. A reset initializes the buffer again. -/
def ReorderBuffer.operated (b : ReorderBuffer) : Operation → ReorderBuffer
  | .insert mbuf => (rteReorderInsert b mbuf).2
  | .drain maxMbufs => (rteReorderDrain b maxMbufs).2
  | .drainUpToSeqn maxMbufs seqn =>
    match rteReorderDrainUpToSeqn b maxMbufs seqn with
    | none => b
    | some r => r.2
  | .minSeqnSet minSeqn => (rteReorderMinSeqnSet b minSeqn).2
  | .reset => rteReorderInit b.orderBuf.size

/-- **A drain up to a number is one the code gets right**: the number can be
searched for, and in a buffer of more than 2 ^ 14 slots the packets of the ready
buffer are in order. -/
def Sought (b : ReorderBuffer) : Operation → Prop
  | .drainUpToSeqn _ seqn => Searchable b seqn ∧ (2 ^ 14 < b.orderBuf.size → InOrder b)
  | _ => True

/-- **A drain up to a number does what it is for.** -/
def DrainsUpTo (b : ReorderBuffer) : Operation → Prop
  | .drainUpToSeqn maxMbufs seqn => ∃ out b', DrainsTo b maxMbufs seqn out b'
  | _ => True

namespace Placed

/-- **A drain up to a number** that the code gets right leaves the packets where
their numbers say. -/
theorem drainUpToSeqn (hk : k ≤ 31) (h : Placed k b) {maxMbufs : ℕ} {seqn : UInt32}
    (hs : Sought b (.drainUpToSeqn maxMbufs seqn)) :
    ∃ out b', DrainsTo b maxMbufs seqn out b' ∧ Placed k b' := by
  have hin : InOrder b := by
    by_cases hsmall : k ≤ 14
    · exact h.inOrder hsmall
    · obtain ⟨l, rest, w, qs, hshows, -⟩ := h
      refine hs.2 ?_
      rw [hshows.order.size_eq]
      exact Nat.pow_lt_pow_right (by decide) (not_le.mp hsmall)
  obtain ⟨l, rest, w, qs, hshows, hslots, hspread, hempty⟩ := h
  by_cases hbefore : seqn < b.minSeqn
  · obtain ⟨out, n, rest', b', hout, hshows', hmin, hinit⟩ :=
      drainsUpTo_before hk hshows hslots hin hs.1 maxMbufs hbefore
    refine ⟨out, b', hout, _, rest', w, qs.drop n, hshows', hmin ▸ hslots,
      hmin ▸ hspread.drop n, fun hf => ?_⟩
    obtain ⟨rfl, hw⟩ := hempty (hinit.symm.trans hf)
    exact ⟨drop_nil, hw⟩
  · obtain ⟨out, passed, w', rest', b', hout, rfl, hshows', hend, hmin, hinit⟩ :=
      drainsUpTo_window hk hshows hslots hin hs.1 maxMbufs hbefore
    have hslots' := hslots.pass passed.length
    rw [← hmin] at hslots'
    have hspread' : ∃ qs', Spread k b'.minSeqn (l.drop maxMbufs)
        (w' ++ replicate passed.length none) qs' := by
      rcases hend with hnone | rfl
      · rw [hnone]
        exact ⟨[], Spread.nil k _ _⟩
      · rw [hmin, length_nil, replicate_zero, append_nil]
        exact ⟨_, (UInt32.add_zero b.minSeqn).symm ▸ hspread.drop maxMbufs⟩
    obtain ⟨qs', hspread'⟩ := hspread'
    refine ⟨out, b', hout, _, rest', _, qs', hshows', hslots', hspread', fun hf => ?_⟩
    obtain ⟨rfl, hw⟩ := hempty (hinit.symm.trans hf)
    refine ⟨drop_nil, fun x hx => ?_⟩
    rcases mem_append.mp hx with hx | hx
    · exact hw x (mem_append_right _ hx)
    · exact eq_of_mem_replicate hx

theorem minSeqnSet (h : Placed k b) (minSeqn : UInt32) :
    Placed k (rteReorderMinSeqnSet b minSeqn).2 := by
  rw [rteReorderMinSeqnSet]
  split
  · rename_i hempty
    obtain ⟨l, rest, w, qs, hshows, -⟩ := h
    obtain ⟨rfl, hw⟩ := hshows.of_isEmpty hempty
    exact placed_of_empty ⟨hshows.ready, hshows.order⟩ hw
  · exact h

/-- **An operation** leaves the packets where their numbers say, and does what it
is for if it is a drain up to a number that the code gets right. -/
theorem operated (hk : k ≤ 31) (h : Placed k b) (op : Operation) (hs : Sought b op) :
    DrainsUpTo b op ∧ Placed k (b.operated op) := by
  cases op with
  | insert mbuf => exact ⟨trivial, h.insert mbuf⟩
  | drain maxMbufs => exact ⟨trivial, h.drain maxMbufs⟩
  | drainUpToSeqn maxMbufs seqn =>
    obtain ⟨out, b', hout, hplaced⟩ := h.drainUpToSeqn hk hs
    refine ⟨⟨out, b', hout⟩, ?_⟩
    rw [ReorderBuffer.operated, hout.call]
    exact hplaced
  | minSeqnSet minSeqn => exact ⟨trivial, h.minSeqnSet minSeqn⟩
  | reset =>
    obtain ⟨l, rest, w, qs, hshows, -⟩ := h
    rw [ReorderBuffer.operated, hshows.order.size_eq]
    exact ⟨trivial, placed_init k⟩

end Placed

/-- **Drains up to a number hand out what is in front of it**, in every run of
operations whose drains up to a number are such that the code gets them
right. -/
theorem drains_up_to_seqn (k : ℕ) (hk : k ≤ 31) (ops : List Operation)
    (hsought : Along ReorderBuffer.operated Sought (rteReorderInit (2 ^ k)) ops) :
    Along ReorderBuffer.operated DrainsUpTo (rteReorderInit (2 ^ k)) ops :=
  hsought.imp_of_invariant (fun _ op h hs => Placed.operated hk h op hs) (placed_init k)

/-- In a buffer of four slots, packets 1, 2 and 6 make the window move on, and a
drain up to number 2 finds the first. -/
theorem drains_up_to_seqn_first_packet :
    Along ReorderBuffer.operated DrainsUpTo (rteReorderInit (2 ^ 2))
      [.insert ⟨1, 1⟩, .insert ⟨2, 2⟩, .insert ⟨3, 6⟩, .drainUpToSeqn 8 2] := by
  refine drains_up_to_seqn 2 (by decide) _
    ⟨trivial, trivial, trivial, ⟨⟨by decide, fun _ first hfirst => ?_, fun _ _ _ _ => ?_⟩,
      fun hlarge => absurd hlarge (by decide)⟩, trivial⟩
  · obtain rfl : (⟨1, 1⟩ : Mbuf) = first := Option.some.inj hfirst
    decide
  · exact Or.inr ⟨by decide, 0, by decide, by decide⟩

theorem DrainsUpTo.handed_out {maxMbufs : ℕ} {seqn : UInt32}
    (h : DrainsUpTo b (.drainUpToSeqn maxMbufs seqn)) :
    (rteReorderDrainUpToSeqn b maxMbufs seqn).map Prod.fst
      = some (((b.waiting.filter (b.precedes seqn)).take maxMbufs).map some) := by
  obtain ⟨out, b', hout⟩ := h
  rw [hout.call, ← hout.first]
  rfl

/-- **Drains up to a number go wrong.** Packets 0 and 5 in a buffer of four slots
and a drain up to number 1: the search reads an empty slot. The last number of
all and a drain up to number 0: nothing is handed out. Number 1 and a drain up to
the last number of all: number 1 is handed out. In a buffer of eight slots, with
packets 5 to 10 over the end of the ready buffer, a drain up to number 10: the
search stops at the third of them. -/
theorem drains_up_to_seqn_fails :
    ¬ DrainsUpTo (run ReorderBuffer.operated (rteReorderInit (2 ^ 2))
        [.insert ⟨1, 0⟩, .insert ⟨2, 5⟩]) (.drainUpToSeqn 8 1)
    ∧ ¬ DrainsUpTo (run ReorderBuffer.operated (rteReorderInit (2 ^ 2))
        [.insert ⟨1, 0xFFFFFFFF⟩]) (.drainUpToSeqn 8 0)
    ∧ ¬ DrainsUpTo (run ReorderBuffer.operated (rteReorderInit (2 ^ 2))
        [.insert ⟨1, 1⟩]) (.drainUpToSeqn 8 0xFFFFFFFF)
    ∧ ¬ DrainsUpTo (run ReorderBuffer.operated (rteReorderInit (2 ^ 3))
        [.insert ⟨0, 0⟩, .insert ⟨1, 1⟩, .insert ⟨2, 2⟩, .insert ⟨3, 3⟩, .insert ⟨4, 4⟩,
          .insert ⟨5, 5⟩, .insert ⟨6, 6⟩, .insert ⟨14, 14⟩, .drain 5, .insert ⟨7, 7⟩,
          .insert ⟨8, 8⟩, .insert ⟨9, 9⟩, .insert ⟨10, 10⟩, .insert ⟨18, 18⟩])
        (.drainUpToSeqn 8 10) := by
  refine ⟨fun h => ?_, fun h => ?_, fun h => ?_, fun h => ?_⟩
  all_goals exact absurd h.handed_out (by decide +kernel)

end Reorder
