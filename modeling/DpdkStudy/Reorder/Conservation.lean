import Mathlib.Data.List.Count
import Mathlib.Data.List.Nodup
import DpdkStudy.Lib.Runs
import DpdkStudy.Reorder.Operations

/-!
# No packet is lost or handed out twice

Each packet that a reorder buffer accepts is in one place from then on: handed
out by a drain, in the queue of the ready buffer, or in a slot of the order
buffer. What the calls do keeps the packets of the three places together
(`Kept.called`), so it is so after any run of calls that respect the buffer
(`Respects`).

Not every call does. A packet that has the sequence number of one that is
still waiting takes its slot. A run of packets that does not fit into the
ready buffer loses the packet that comes after it is full: it is written to
the slot of the head, the head stays, and the slot of the order buffer is
emptied (`conserved_fails`).
-/

open List

namespace Reorder

open List (replicate reduceOption)
open Runs (run Along)

/-- The packet of an insertion. -/
def Call.mbuf? : Call → Option Mbuf
  | .insert mbuf => some mbuf
  | _ => none

/-- The packets that a run of calls offers. -/
def offered (calls : List Call) : List Mbuf := calls.filterMap Call.mbuf?

/-- **In how many places a packet is**: drains that have returned it, slots
between the tail and the head of the ready buffer, and slots of the order
buffer. -/
def Trace.places (t : Trace) (mbuf : Mbuf) : ℕ :=
  t.drained.count (some mbuf) + t.buffer.readyEntries.count (some mbuf)
    + t.buffer.orderEntries.count (some mbuf)

/-- **A call respects the buffer.** An insertion inside the window finds its
slot empty. An insertion behind it does not make the inner loop of
`rte_reorder_fill_overflow` break off, which it does where the ready buffer is
full in the middle of a run of packets. A search of the ready buffer reads no
slot that is empty. -/
def Respects (t : Trace) : Call → Prop
  | .insert mbuf =>
    let b := t.buffer.initialized mbuf
    let offset := mbuf.seqn - b.minSeqn
    (offset.toNat < b.orderBuf.size → b.orderBuf.entries (b.position offset) = none)
      ∧ (b.orderBuf.size ≤ offset.toNat → offset.toNat < 2 * b.orderBuf.size % 2 ^ 32 →
          (rteReorderFillOverflow b (b.overflow offset)).2.2 = false)
  | .drain _ => True
  | .drainUpToSeqn _ seqn =>
    seqn < t.buffer.minSeqn → ∀ mbuf, t.buffer.readyEntries.head? = some (some mbuf) →
      ¬ mbuf.seqn > seqn → readyBufferSeqnFind t.buffer.readyBuf seqn ≠ none

/-! ## Slots -/

theorem count_some (w : List (Option Mbuf)) (mbuf : Mbuf) :
    w.count (some mbuf) = w.reduceOption.count mbuf := by
  induction w with
  | nil => rfl
  | cons x w ih =>
    cases x with
    | none => rw [count_cons_of_ne (by simp), reduceOption_cons_of_none, ih]
    | some m =>
      rw [reduceOption_cons_of_some, count_cons, count_cons, ih]
      simp

theorem count_set_none {w : List (Option Mbuf)} {d : ℕ} (hd : w[d]? = some none)
    (mbuf m : Mbuf) :
    (w.set d (some mbuf)).count (some m) = [mbuf].count m + w.count (some m) := by
  obtain ⟨hlen, hslot⟩ := List.getElem?_eq_some_iff.mp hd
  rw [count_set hlen, hslot, count_singleton, Nat.add_comm]
  simp

theorem count_replicate_none (n : ℕ) (m : Mbuf) :
    (replicate n (none : Option Mbuf)).count (some m) = 0 := by
  rw [count_some, reduceOption_replicate_none, count_nil]

theorem count_map_some (ms : List Mbuf) (m : Mbuf) :
    (ms.map some).count (some m) = ms.count m :=
  count_map_of_injective ms some (Option.some_injective Mbuf) m

theorem count_take_add_drop (l : List Mbuf) (n : ℕ) (m : Mbuf) :
    (l.take n).count m + (l.drop n).count m = l.count m := by
  rw [← count_append, take_append_drop]

/-! ## What the calls keep -/

/-- **The packets that were accepted are all there**: handed out, in the queue,
or in the window. The slots of the ready buffer that are not between its tail
and its head are empty. -/
def Kept (k : ℕ) (t : Trace) : Prop :=
  ∃ (out l : List Mbuf) (rest w : List (Option Mbuf)), Shows k t.buffer l rest w
    ∧ (∀ x ∈ rest, x = none) ∧ t.drained = out.map some
    ∧ ∀ m, t.accepted.count m = out.count m + l.count m + w.count (some m)

variable {k : ℕ} {t : Trace}

theorem kept_fresh (k : ℕ) : Kept k (Trace.fresh (2 ^ k)) := by
  refine ⟨[], [], _, _, shows_fresh k, fun x hx => eq_of_mem_replicate hx, rfl, fun m => ?_⟩
  rw [count_replicate_none]
  rfl

/-- Each packet that was accepted is in one place. -/
theorem Kept.places_eq_one (h : Kept k t) (hnodup : t.accepted.Nodup) {mbuf : Mbuf}
    (hmbuf : mbuf ∈ t.accepted) : t.places mbuf = 1 := by
  obtain ⟨out, l, rest, w, hshows, -, hout, hcount⟩ := h
  rw [Trace.places, hout, hshows.readyEntries_eq, hshows.orderEntries_eq, count_map_some,
    count_map_some, ← hcount mbuf]
  exact nodup_iff_count_eq_one.mp hnodup mbuf hmbuf

/-- The slots behind the queue stay empty as packets leave it. -/
theorem append_replicate_none {rest : List (Option Mbuf)} (hrest : ∀ x ∈ rest, x = none) (n : ℕ) :
    ∀ x ∈ rest ++ replicate n none, x = none := by
  intro x hx
  rcases mem_append.mp hx with hx | hx
  · exact hrest x hx
  · exact eq_of_mem_replicate hx

theorem Kept.insert (h : Kept k t) {mbuf : Mbuf} (hok : Respects t (.insert mbuf)) :
    Kept k (t.called (.insert mbuf)) := by
  obtain ⟨out, l, rest, w, hshows, hrest, hout, hcount⟩ := h
  have hinit := hshows.initialized mbuf
  have hsize := hinit.order.size_eq
  by_cases hin : (mbuf.seqn - (t.buffer.initialized mbuf).minSeqn).toNat < 2 ^ k
  · have hcall := rteReorderInsert_inside hshows hin
    have hempty := hinit.entries_position hin
    rw [hok.1 (by rwa [hsize])] at hempty
    rw [Trace.called, hcall]
    refine ⟨out, l, rest, _, hinit.store mbuf hin, hrest, hout, fun m => ?_⟩
    show (t.accepted ++ [mbuf]).count m = _
    rw [count_append, hcount, count_set_none hempty.symm]
    omega
  · by_cases hnear : (mbuf.seqn - (t.buffer.initialized mbuf).minSeqn).toNat < 2 * 2 ^ k % 2 ^ 32
    · obtain ⟨passed, w', b', hw, hmoved, -, -, -, -, -, hres⟩ :=
        rteReorderInsert_beyond hshows rfl (Nat.le_of_not_lt hin) hnear
      rw [hok.2 (by rw [hsize]; exact Nat.le_of_not_lt hin) (by rwa [hsize])] at hmoved
      have hheld : Holds k b'.readyBuf (l ++ passed.reduceOption)
        (rest.drop passed.reduceOption.length) := hmoved
      have hrest' : ∀ x ∈ rest.drop passed.reduceOption.length, x = none :=
        fun x hx => hrest x (mem_of_mem_drop hx)
      rcases hres with ⟨hcall, -, hwin⟩ | ⟨hcall, hlt, hwin⟩
      · rw [Trace.called, hcall]
        refine ⟨out, _, _, _, ⟨hheld, hwin⟩, hrest', hout, fun m => ?_⟩
        show t.accepted.count m = _
        rw [hcount, hw, count_append, count_append, count_append,
          count_replicate_none, count_some passed]
        omega
      · rw [Trace.called, hcall]
        refine ⟨out, _, _, _, ⟨hheld, hwin⟩, hrest', hout, fun m => ?_⟩
        show (t.accepted ++ [mbuf]).count m = _
        rw [count_append, hcount, hw, count_append, count_append, count_append,
          count_set_none (by rw [getElem?_replicate, if_pos hlt]), count_replicate_none,
          count_some passed]
        omega
    · have hcall := rteReorderInsert_far hshows (Nat.le_of_not_lt hin) hnear
      rw [Trace.called, hcall]
      exact ⟨out, l, rest, w, hinit, hrest, hout, hcount⟩

theorem Kept.drain (h : Kept k t) (maxMbufs : ℕ) : Kept k (t.called (.drain maxMbufs)) := by
  obtain ⟨out, l, rest, w, hshows, hrest, hout, hcount⟩ := h
  obtain ⟨ms, w', hw, hdrain, hshows', -, -, -⟩ := rteReorderDrain_spec hshows maxMbufs
  refine ⟨out ++ (l.take maxMbufs ++ ms), _, _, _, hshows', append_replicate_none hrest _, ?_,
    fun m => ?_⟩
  · show t.drained ++ _ = _
    rw [hout, hdrain, ← map_append]
  · have hl := count_take_add_drop l maxMbufs m
    show t.accepted.count m = _
    rw [hcount, hw, count_append, count_append, count_append, count_append,
      count_replicate_none, count_map_some]
    omega

theorem Kept.drainUpToSeqn (hk : k ≤ 31) (h : Kept k t) {maxMbufs : ℕ} {seqn : UInt32}
    (hok : Respects t (.drainUpToSeqn maxMbufs seqn)) :
    Kept k (t.called (.drainUpToSeqn maxMbufs seqn)) := by
  obtain ⟨out, l, rest, w, hshows, hrest, hout, hcount⟩ := h
  obtain ⟨n, passed, w', b', hw, hcall, hshows'⟩ :=
    rteReorderDrainUpToSeqn_spec hk hshows hrest maxMbufs seqn (fun hbefore mbuf hmbuf =>
      hok hbefore mbuf (by rw [hshows.readyEntries_eq, head?_map, hmbuf]; rfl))
  rw [Trace.called, hcall]
  refine ⟨out ++ (l.take n ++ passed.reduceOption), _, _, _, hshows',
    append_replicate_none hrest _, ?_, fun m => ?_⟩
  · show t.drained ++ _ = _
    rw [hout, ← map_append]
  · have hl := count_take_add_drop l n m
    show t.accepted.count m = _
    rw [hcount, hw, count_append, count_append, count_append, count_append,
      count_replicate_none, count_some passed]
    omega

/-- A call that respects the buffer keeps the packets. -/
theorem Kept.called (hk : k ≤ 31) (t : Trace) (call : Call) (h : Kept k t)
    (hok : Respects t call) : Kept k (t.called call) := by
  cases call with
  | insert mbuf => exact h.insert hok
  | drain maxMbufs => exact h.drain maxMbufs
  | drainUpToSeqn maxMbufs seqn => exact h.drainUpToSeqn hk hok

/-! ## Runs of calls -/

/-- The packets that are accepted are of those that are offered. -/
theorem accepted_sublist (calls : List Call) (t : Trace) :
    (run Trace.called t calls).accepted.Sublist (t.accepted ++ offered calls) := by
  induction calls generalizing t with
  | nil =>
    rw [offered, filterMap_nil, append_nil]
    exact List.Sublist.refl _
  | cons call calls ih =>
    refine (ih (t.called call)).trans ?_
    cases call with
    | insert mbuf =>
      have hoffered : offered (.insert mbuf :: calls) = [mbuf] ++ offered calls := rfl
      rw [hoffered, ← append_assoc]
      refine List.Sublist.append_right ?_ _
      rw [Trace.called]
      rcases rteReorderInsert t.buffer mbuf with ⟨_ | _, b⟩
      · exact sublist_append_left _ _
      · exact List.Sublist.refl _
    | drain maxMbufs => exact List.Sublist.refl _
    | drainUpToSeqn maxMbufs seqn =>
      refine List.Sublist.append_right ?_ _
      rw [Trace.called]
      cases rteReorderDrainUpToSeqn t.buffer maxMbufs seqn <;> exact List.Sublist.refl _

/-- **Each packet that was accepted is in one place**, after every run of calls
that respect the buffer: for every size that is a power of two, and packets
that are each inserted once. -/
theorem conserved (k : ℕ) (hk : k ≤ 31) (calls : List Call) (hdistinct : (offered calls).Nodup)
    (hok : Along Trace.called Respects (Trace.fresh (2 ^ k)) calls) :
    ∀ mbuf ∈ (run Trace.called (Trace.fresh (2 ^ k)) calls).accepted,
      (run Trace.called (Trace.fresh (2 ^ k)) calls).places mbuf = 1 := by
  intro mbuf hmbuf
  have hkept : Kept k (run Trace.called (Trace.fresh (2 ^ k)) calls) :=
    hok.invariant (Kept.called hk) (kept_fresh k)
  have hnodup : (run Trace.called (Trace.fresh (2 ^ k)) calls).accepted.Nodup :=
    List.Nodup.sublist (accepted_sublist calls (Trace.fresh (2 ^ k))) hdistinct
  exact hkept.places_eq_one hnodup hmbuf

/-- In a buffer of two slots, three packets of which the last makes the window
move on past the first, and a drain: the first is in one place. -/
theorem conserved_three_packets :
    (run Trace.called (Trace.fresh (2 ^ 1))
      [.insert ⟨1, 7⟩, .insert ⟨2, 9⟩, .insert ⟨3, 10⟩, .drain 1]).places ⟨1, 7⟩ = 1 := by
  refine conserved 1 (by decide) _ (by decide) ?_ ⟨1, 7⟩ (by decide)
  refine ⟨⟨?_, ?_⟩, ⟨?_, ?_⟩, ⟨?_, ?_⟩, trivial, trivial⟩ <;> decide

/-- **Packets are lost.** Two packets with one sequence number: the second
takes the slot of the first. Packets 0, 1 and 2 in a buffer of two slots: the
third makes the first two move, the ready buffer has room for one, and the
other is nowhere. In a buffer of four slots, packets 0 and 5 and a drain up to
number 1: the search reads a slot that is empty. -/
theorem conserved_fails :
    ((offered [.insert ⟨1, 7⟩, .insert ⟨2, 7⟩]).Nodup
      ∧ ⟨1, 7⟩ ∈ (run Trace.called (Trace.fresh (2 ^ 1))
          [.insert ⟨1, 7⟩, .insert ⟨2, 7⟩]).accepted
      ∧ (run Trace.called (Trace.fresh (2 ^ 1))
          [.insert ⟨1, 7⟩, .insert ⟨2, 7⟩]).places ⟨1, 7⟩ = 0)
    ∧ ((offered [.insert ⟨1, 0⟩, .insert ⟨2, 1⟩, .insert ⟨3, 2⟩]).Nodup
      ∧ ⟨2, 1⟩ ∈ (run Trace.called (Trace.fresh (2 ^ 1))
          [.insert ⟨1, 0⟩, .insert ⟨2, 1⟩, .insert ⟨3, 2⟩]).accepted
      ∧ (run Trace.called (Trace.fresh (2 ^ 1))
          [.insert ⟨1, 0⟩, .insert ⟨2, 1⟩, .insert ⟨3, 2⟩]).places ⟨2, 1⟩ = 0)
    ∧ rteReorderDrainUpToSeqn (run Trace.called (Trace.fresh (2 ^ 2))
        [.insert ⟨1, 0⟩, .insert ⟨2, 5⟩]).buffer 8 1 = none := by
  refine ⟨⟨?_, ?_, ?_⟩, ⟨?_, ?_, ?_⟩, ?_⟩
  all_goals decide

end Reorder
