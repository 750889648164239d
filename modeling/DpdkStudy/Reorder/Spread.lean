import Mathlib.Data.List.Chain
import DpdkStudy.Reorder.MinSeqn

/-!
# How far the packets of the ready buffer are apart

Packets in the window of the order buffer are where their numbers say
(`Slots`). Those in the ready buffer are behind the window, and their numbers
go up. How far they are behind depends on the size of the buffer: an overflow
moves the window by at most as many slots as there are and stores its packet
in it, so from one packet to the next it is three times the size at most
(`Spread`). In a buffer of up to 2 ^ 14 slots the packets are then all less than
half the range of numbers behind the window (`Placed.inOrder`), whatever the
calls were.
-/

open List

namespace Reorder

open List (replicate reduceOption)

/-- **How far a number is from the window**: forwards from its first slot, or
backwards. -/
def ReorderBuffer.ahead (b : ReorderBuffer) (seqn : UInt32) : ℤ :=
  (seqn - b.minSeqn).toBitVec.toInt

/-- The packets in the ready buffer. -/
def ReorderBuffer.queue (b : ReorderBuffer) : List Mbuf := b.readyEntries.reduceOption

/-- **The queue is in order**: its numbers go up, before the window. -/
structure InOrder (b : ReorderBuffer) : Prop where
  sorted : b.queue.Pairwise fun x y => b.ahead x.seqn < b.ahead y.seqn
  behind : ∀ mbuf ∈ b.queue, b.ahead mbuf.seqn < 0

variable {k : ℕ} {l : List Mbuf} {rest w : List (Option Mbuf)} {b : ReorderBuffer}

theorem reduceOption_map_some (l : List Mbuf) : (l.map some).reduceOption = l := by
  rw [reduceOption, filterMap_map]
  exact filterMap_some

theorem Shows.queue_eq (h : Shows k b l rest w) : b.queue = l := by
  rw [ReorderBuffer.queue, h.readyEntries_eq, reduceOption_map_some]

theorem ahead_eq (b : ReorderBuffer) (seqn : UInt32) :
    b.ahead seqn = if 2 * (seqn - b.minSeqn).toNat < 2 ^ 32 then ((seqn - b.minSeqn).toNat : ℤ)
      else ((seqn - b.minSeqn).toNat : ℤ) - 2 ^ 32 := by
  rw [ReorderBuffer.ahead, BitVec.toInt_eq_toNat_cond]
  rfl

/-! ## Slots -/

/-- **The packets of a window are where their numbers say.** -/
def Slots (minSeqn : UInt32) (w : List (Option Mbuf)) : Prop :=
  ∀ d mbuf, w[d]? = some (some mbuf) → mbuf.seqn = minSeqn + UInt32.ofNat d

namespace Slots

variable {minSeqn : UInt32} {passed w' : List (Option Mbuf)}

theorem empty (hw : ∀ x ∈ w, x = none) : Slots minSeqn w :=
  fun _ _ hd => nomatch hw _ (mem_of_getElem? hd)

theorem left (h : Slots minSeqn (passed ++ w')) : Slots minSeqn passed := fun d mbuf hd =>
  h d mbuf (by rw [List.getElem?_append_left (List.getElem?_eq_some_iff.mp hd).1, hd])

theorem pass (h : Slots minSeqn (passed ++ w')) (n : ℕ) :
    Slots (minSeqn + UInt32.ofNat passed.length) (w' ++ replicate n none) := by
  intro d mbuf hd
  have hlen : d < w'.length := by
    by_contra hge
    rw [getElem?_append_right (Nat.le_of_not_lt hge)] at hd
    exact nomatch eq_of_mem_replicate (mem_of_getElem? hd)
  rw [getElem?_append_left hlen] at hd
  rw [UInt32.add_assoc, ← UInt32.ofNat_add]
  refine h (passed.length + d) mbuf ?_
  rw [getElem?_append_right (Nat.le_add_right _ _), Nat.add_sub_cancel_left, hd]

theorem set (h : Slots minSeqn w) {d : ℕ} {mbuf : Mbuf}
    (hmbuf : mbuf.seqn = minSeqn + UInt32.ofNat d) : Slots minSeqn (w.set d (some mbuf)) := by
  intro e m he
  rw [getElem?_set] at he
  split at he
  · rename_i heq
    split at he
    · rw [← Option.some.inj (Option.some.inj he), hmbuf, heq]
    · exact nomatch he
  · exact h e m he

end Slots

/-! ## Marks of the packets that are passed -/

/-- **How far the packets of some slots are from their end.** -/
def marks : List (Option Mbuf) → List ℕ
  | [] => []
  | none :: xs => marks xs
  | some _ :: xs => (xs.length + 1) :: marks xs

section Marks

variable {p : List (Option Mbuf)}

theorem length_marks (p : List (Option Mbuf)) : (marks p).length = p.reduceOption.length := by
  induction p with
  | nil => rfl
  | cons x p ih =>
    cases x with
    | none => rw [reduceOption_cons_of_none, marks, ih]
    | some mbuf =>
      rw [reduceOption_cons_of_some, marks, length_cons, length_cons, ih]

theorem marks_bounds {q : ℕ} (hq : q ∈ marks p) : 0 < q ∧ q ≤ p.length := by
  induction p with
  | nil => exact nomatch hq
  | cons x p ih =>
    rw [length_cons]
    cases x with
    | none =>
      have hle := ih hq
      omega
    | some mbuf =>
      rcases mem_cons.mp hq with rfl | hq
      · omega
      · have hle := ih hq
        omega

theorem marks_pairwise (p : List (Option Mbuf)) : (marks p).Pairwise (fun q q' => q' < q) := by
  induction p with
  | nil => exact List.Pairwise.nil
  | cons x p ih =>
    cases x with
    | none => exact ih
    | some mbuf =>
      exact pairwise_cons.mpr ⟨fun q hq => Nat.lt_succ_of_le (marks_bounds hq).2, ih⟩

theorem mem_marks {d : ℕ} {mbuf : Mbuf} (hd : p[d]? = some (some mbuf)) :
    p.length - d ∈ marks p := by
  induction p generalizing d with
  | nil => exact nomatch hd
  | cons x p ih =>
    rw [length_cons]
    cases d with
    | zero =>
      obtain rfl : x = some mbuf := Option.some.inj hd
      exact mem_cons_self
    | succ d =>
      rw [Nat.add_sub_add_right]
      cases x with
      | none => exact ih hd
      | some _ => exact mem_cons_of_mem _ (ih hd)

/-- No packet is further from the end than the first one. -/
theorem first_mark_le {w' : List (Option Mbuf)} {f d : ℕ} {mbuf : Mbuf}
    {n : ℕ} (hf : ((marks p).take n).head? = some f)
    (hd : (p ++ w')[d]? = some (some mbuf)) : p.length - d ≤ f := by
  by_cases hlt : d < p.length
  · rw [getElem?_append_left hlt] at hd
    have hmem := mem_marks hd
    have hpair := marks_pairwise p
    cases hmarks : marks p with
    | nil =>
      rw [hmarks] at hmem
      exact nomatch hmem
    | cons first ms =>
      rw [hmarks] at hf hmem hpair
      obtain rfl : first = f := by
        cases n with
        | zero => exact nomatch hf
        | succ n => exact Option.some.inj hf
      rcases mem_cons.mp hmem with heq | hmem
      · exact le_of_eq heq
      · exact Nat.le_of_lt (rel_of_pairwise_cons hpair hmem)
  · omega

/-- The numbers of the packets, counted from the end of the slots. -/
theorem marks_seqn {minSeqn : UInt32} (h : Slots minSeqn p) :
    p.reduceOption.map Mbuf.seqn
      = (marks p).map fun q => minSeqn + UInt32.ofNat p.length - UInt32.ofNat q := by
  induction p generalizing minSeqn with
  | nil => rfl
  | cons x p ih =>
    have hnext : ∀ n : ℕ, minSeqn + 1 + UInt32.ofNat n = minSeqn + UInt32.ofNat (n + 1) := by
      intro n
      rw [UInt32.ofNat_add, UInt32.add_assoc, UInt32.add_comm 1]
      rfl
    have htail := @ih (minSeqn + 1) fun d mbuf hd => by
      rw [h (d + 1) mbuf hd, hnext]
    rw [hnext] at htail
    rw [length_cons]
    cases x with
    | none => exact htail
    | some mbuf =>
      rw [reduceOption_cons_of_some, map_cons, htail, marks, map_cons,
        UInt32.add_sub_cancel, h 0 mbuf rfl]
      exact congrArg (· :: _) (UInt32.add_zero minSeqn)

end Marks

/-! ## Packets behind the window -/

/-- The window moves on, and what is behind it gets further behind. -/
theorem sub_ofNat_eq (x : UInt32) (q a : ℕ) :
    x - UInt32.ofNat q = x + UInt32.ofNat a - UInt32.ofNat (q + a) := by
  have hx := x.toNat_lt
  rw [← UInt32.toNat_inj]
  simp only [UInt32.toNat_sub, UInt32.toNat_add, UInt32.toNat_ofNat']
  omega

/-- **The packets of the queue are not far apart**: how far they are behind the
window, as whole numbers. The last of them is no further than the size of the
buffer, or there is a packet in the window that is not far from it. -/
structure Spread (k : ℕ) (minSeqn : UInt32) (l : List Mbuf) (w : List (Option Mbuf))
    (qs : List ℕ) : Prop where
  numbers : l.map Mbuf.seqn = qs.map fun q => minSeqn - UInt32.ofNat q
  near : qs.IsChain fun q q' => q' < q ∧ q ≤ q' + 3 * 2 ^ k
  last : ∀ q, qs.getLast? = some q →
    0 < q ∧ (q ≤ 2 ^ k ∨ ∃ d mbuf, w[d]? = some (some mbuf) ∧ q + d ≤ 3 * 2 ^ k)

namespace Spread

variable {minSeqn : UInt32} {qs : List ℕ} {passed w' : List (Option Mbuf)}

theorem nil (k : ℕ) (minSeqn : UInt32) (w : List (Option Mbuf)) : Spread k minSeqn [] w [] :=
  ⟨rfl, isChain_nil, fun _ hq => nomatch hq⟩

theorem length_eq (h : Spread k minSeqn l w qs) : qs.length = l.length := by
  rw [← length_map (f := fun q => minSeqn - UInt32.ofNat q), ← h.numbers, length_map]

theorem drop (h : Spread k minSeqn l w qs) (n : ℕ) :
    Spread k minSeqn (l.drop n) w (qs.drop n) := by
  refine ⟨by rw [map_drop, h.numbers, map_drop], h.near.drop n, fun q hq => ?_⟩
  rw [getLast?_drop] at hq
  split at hq
  · exact nomatch hq
  · exact h.last q hq

theorem set (h : Spread k minSeqn l w qs) (e : ℕ) (m : Mbuf) :
    Spread k minSeqn l (w.set e (some m)) qs := by
  refine ⟨h.numbers, h.near, fun q hq => ⟨(h.last q hq).1, (h.last q hq).2.imp_right ?_⟩⟩
  rintro ⟨d, mbuf, hd, hle⟩
  have hlen := (List.getElem?_eq_some_iff.mp hd).1
  by_cases heq : e = d
  · exact ⟨d, m, by rw [getElem?_set, if_pos heq, if_pos (by rwa [heq])], hle⟩
  · exact ⟨d, mbuf, by rw [getElem?_set, if_neg heq, hd], hle⟩

/-- **The window moves on**, and the first of the packets it has passed go to the
queue. If none does, none was passed, and a packet has been stored in the
window. -/
theorem pass (h : Spread k minSeqn l (passed ++ w') qs) (hslots : Slots minSeqn passed)
    (hle : passed.length ≤ 2 ^ k) (n : ℕ) {wnew : List (Option Mbuf)}
    (hkeep : ∀ (d : ℕ) (mbuf : Mbuf), w'[d]? = some (some mbuf) →
      ∃ m, wnew[d]? = some (some m))
    (hquiet : passed.reduceOption.take n = [] → passed = [] ∨ passed.reduceOption = []
      ∧ ∃ (d : ℕ) (mbuf : Mbuf), wnew[d]? = some (some mbuf) ∧ passed.length + d ≤ 2 * 2 ^ k) :
    Spread k (minSeqn + UInt32.ofNat passed.length) (l ++ passed.reduceOption.take n) wnew
      (qs.map (· + passed.length) ++ (marks passed).take n) := by
  have hbounds : ∀ q ∈ (marks passed).take n, 0 < q ∧ q ≤ passed.length :=
    fun q hq => marks_bounds (mem_of_mem_take hq)
  refine ⟨?_, isChain_append.mpr ⟨?_, ?_, fun q hq f hf => ?_⟩, fun q hq => ?_⟩
  · rw [map_append, map_append, map_take, map_take, h.numbers,
      marks_seqn hslots, map_map]
    congr 1
    refine map_congr_left fun q _ => ?_
    exact sub_ofNat_eq minSeqn q passed.length
  · refine (isChain_map _).mpr (h.near.imp fun q q' hqq => ?_)
    omega
  · refine ((marks_pairwise passed).sublist (take_sublist _ _)).isChain.imp_of_mem_imp ?_
    intro q q' hq hq' hlt
    have hq := hbounds q hq
    omega
  · -- from the last packet of the queue to the first one that was passed
    rw [getLast?_map] at hq
    obtain ⟨q₀, hq₀, rfl⟩ := Option.map_eq_some_iff.mp hq
    obtain ⟨hpos, hnear⟩ := h.last q₀ hq₀
    have hfle := hbounds f (mem_of_mem_head? hf)
    refine ⟨by omega, ?_⟩
    rcases hnear with hnear | ⟨d, mbuf, hd, hnear⟩
    · omega
    · have hfirst := first_mark_le hf hd
      omega
  · rw [getLast?_append] at hq
    cases hmarks : ((marks passed).take n).getLast? with
    | some f =>
      rw [hmarks, Option.some_or] at hq
      have hq := hbounds q (mem_of_getLast? (hmarks.trans hq))
      exact ⟨hq.1, Or.inl (Nat.le_trans hq.2 hle)⟩
    | none =>
      have hkept : passed.reduceOption.take n = [] := by
        refine eq_nil_of_length_eq_zero ?_
        rw [length_take, ← length_marks, ← length_take,
          getLast?_eq_none_iff.mp hmarks, length_nil]
      rw [hmarks, Option.none_or, getLast?_map] at hq
      obtain ⟨q₀, hq₀, rfl⟩ := Option.map_eq_some_iff.mp hq
      obtain ⟨hpos, hnear⟩ := h.last q₀ hq₀
      refine ⟨by omega, ?_⟩
      rcases hquiet hkept with rfl | ⟨hnone, e, mbuf, he, hle'⟩
      · refine hnear.imp_right ?_
        rintro ⟨d, mbuf, hd, hle'⟩
        obtain ⟨m, hm⟩ := hkeep d mbuf hd
        exact ⟨d, m, hm, hle'⟩
      · right
        rcases hnear with hnear | ⟨d, mbuf', hd, hnear⟩
        · exact ⟨e, mbuf, he, by omega⟩
        · -- the packet in the window was not passed
          have hge : passed.length ≤ d := by
            by_contra hlt
            rw [getElem?_append_left (not_le.mp hlt)] at hd
            have hmem := mem_marks hd
            rw [eq_nil_of_length_eq_zero ((length_marks passed).trans
              (congrArg length hnone))] at hmem
            exact nomatch hmem
          rw [getElem?_append_right hge] at hd
          obtain ⟨m, hm⟩ := hkeep _ mbuf' hd
          exact ⟨d - passed.length, m, hm, by omega⟩

theorem le (h : Spread k minSeqn l w qs) : ∀ q ∈ qs, q ≤ l.length * (3 * 2 ^ k) := by
  rw [← h.length_eq]
  have hnear := h.near
  have hlast := h.last
  clear h
  induction qs with
  | nil => exact fun q hq => nomatch hq
  | cons first qs ih =>
    intro q hq
    rw [length_cons, Nat.succ_mul]
    obtain ⟨hhead, hnear⟩ := isChain_cons.mp hnear
    cases qs with
    | nil =>
      obtain rfl := mem_singleton.mp hq
      obtain ⟨-, hle | ⟨d, -, -, hle⟩⟩ := hlast q rfl
      · omega
      · omega
    | cons second qs =>
      have hall := ih hnear fun r hr => hlast r hr
      rcases mem_cons.mp hq with rfl | hq
      · have hstep := (hhead second rfl).2
        have hsecond := hall second mem_cons_self
        omega
      · exact Nat.le_trans (hall q hq) (Nat.le_add_right _ _)

/-- **They are further behind the further in front** they are in the queue, and
all behind the window. -/
theorem sorted (h : Spread k minSeqn l w qs) :
    qs.Pairwise (fun q q' => q' < q) ∧ ∀ q ∈ qs, 0 < q := by
  have hpair : qs.Pairwise (fun q q' => q' < q) := by
    have : IsTrans ℕ (fun q q' => q' < q) := ⟨fun _ _ _ h h' => lt_trans h' h⟩
    exact isChain_iff_pairwise.mp (h.near.imp fun _ _ hqq => hqq.1)
  refine ⟨hpair, fun q hq => ?_⟩
  obtain ⟨front, back, rfl⟩ := append_of_mem hq
  cases hback : back.getLast? with
  | none =>
    rw [getLast?_eq_none_iff.mp hback] at h
    exact (h.last q (by rw [getLast?_append]; rfl)).1
  | some last =>
    have hmem := mem_of_getLast? hback
    have hlt := rel_of_pairwise_cons (pairwise_append.mp hpair).2.1 hmem
    exact Nat.lt_of_le_of_lt (Nat.zero_le last) hlt

end Spread

/-! ## What the calls keep -/

/-- **The packets are where their numbers say**, in the window and behind it.
Before the first packet there is none. -/
def Placed (k : ℕ) (b : ReorderBuffer) : Prop :=
  ∃ l rest w qs, Shows k b l rest w ∧ Slots b.minSeqn w ∧ Spread k b.minSeqn l w qs
    ∧ (b.isInitialized = false → l = [] ∧ ∀ x ∈ w, x = none)

theorem placed_of_empty (h : Shows k b [] rest w) (hw : ∀ x ∈ w, x = none) : Placed k b :=
  ⟨[], rest, w, [], h, Slots.empty hw, Spread.nil k b.minSeqn w, fun _ => ⟨rfl, hw⟩⟩

theorem placed_init (k : ℕ) : Placed k (rteReorderInit (2 ^ k)) :=
  placed_of_empty (shows_fresh k) fun _ hx => eq_of_mem_replicate hx

namespace Placed

/-- **The packets of the ready buffer are in order**, in a buffer of up to
2 ^ 14 slots. -/
theorem inOrder (hk : k ≤ 14) (h : Placed k b) : InOrder b := by
  obtain ⟨l, rest, w, qs, hshows, -, hspread, -⟩ := h
  have hpow : 2 ^ k ≤ 2 ^ 14 := Nat.pow_le_pow_right (by decide) hk
  have hfar : l.length * (3 * 2 ^ k) ≤ 2 ^ 14 * (3 * 2 ^ 14) :=
    Nat.mul_le_mul (Nat.le_trans (Nat.le_of_lt hshows.ready.length_lt) hpow)
      (Nat.mul_le_mul_left 3 hpow)
  obtain ⟨hsorted, hpos⟩ := hspread.sorted
  have hahead : ∀ q ∈ qs, b.ahead (b.minSeqn - UInt32.ofNat q) = -(q : ℤ) := by
    intro q hq
    have hle := hspread.le q hq
    have hpos := hpos q hq
    have hy := b.minSeqn.toNat_lt
    rw [ahead_eq]
    simp only [UInt32.toNat_sub, UInt32.toNat_ofNat']
    split <;> omega
  rw [← hshows.queue_eq] at hspread
  constructor
  · have hpair : (b.queue.map Mbuf.seqn).Pairwise fun x y => b.ahead x < b.ahead y := by
      rw [hspread.numbers]
      refine pairwise_map.mpr (hsorted.imp_of_mem fun {q q'} hq hq' hlt => ?_)
      rw [hahead q hq, hahead q' hq']
      omega
    exact (pairwise_map.mp hpair).imp fun hlt => hlt
  · intro mbuf hmem
    have hseqn := mem_map_of_mem (f := Mbuf.seqn) hmem
    rw [hspread.numbers] at hseqn
    obtain ⟨q, hq, heq⟩ := mem_map.mp hseqn
    rw [← heq, hahead q hq]
    exact neg_lt_zero.mpr (Int.natCast_pos.mpr (hpos q hq))

/-- **What an overflow moves to the queue**: the first packets of the slots it
has passed. If there is none, no slot was passed, or no packet was in them and
the ready buffer is not full. -/
theorem moved_take {b' : ReorderBuffer} {passed : List (Option Mbuf)} {flag : Bool}
    (h : Shows k b l rest w) (hmoved : Moved k b'.readyBuf l passed.reduceOption rest flag)
    (hflag : flag = true → b'.readyBuf.isFull = true)
    (hstays : b.readyBuf.isFull = true → passed = []) :
    ∃ n rest', Holds k b'.readyBuf (l ++ passed.reduceOption.take n) rest'
      ∧ (passed.reduceOption.take n = [] →
        passed = [] ∨ passed.reduceOption = [] ∧ b'.readyBuf.isFull = false) := by
  -- a ready buffer that is full without another packet was so before
  have hsame : ∀ kept rest', Holds k b'.readyBuf (l ++ kept) rest' → kept = [] →
      b'.readyBuf.isFull = true → passed = [] := by
    intro kept rest' hheld hkept hfull
    rw [hkept, append_nil] at hheld
    exact hstays (h.ready.isFull_iff.mpr (hheld.isFull_iff.mp hfull))
  cases flag with
  | false =>
    have hheld : Holds k b'.readyBuf (l ++ passed.reduceOption) _ := hmoved
    refine ⟨passed.reduceOption.length, _, by rwa [take_length], fun hnone => ?_⟩
    rw [take_length] at hnone
    cases hfull : b'.readyBuf.isFull with
    | true => exact Or.inl (hsame _ _ hheld hnone hfull)
    | false => exact Or.inr ⟨hnone, rfl⟩
  | true =>
    obtain ⟨kept, lost, rest', hms, hheld⟩ := hmoved
    have htake : passed.reduceOption.take kept.length = kept := by rw [hms, take_left]
    refine ⟨kept.length, rest', by rwa [htake], fun hnone => ?_⟩
    rw [htake] at hnone
    exact Or.inl (hsame _ _ hheld hnone (hflag rfl))

/-- An insertion leaves the packets where their numbers say. -/
theorem insert (h : Placed k b) (mbuf : Mbuf) : Placed k (rteReorderInsert b mbuf).2 := by
  obtain ⟨l, rest, w, qs, hshows, hslots, hspread, hempty⟩ := h
  have hinit := isInitialized_initialized b mbuf
  obtain ⟨qs, hslots, hspread⟩ : ∃ qs, Slots (b.initialized mbuf).minSeqn w
      ∧ Spread k (b.initialized mbuf).minSeqn l w qs := by
    cases hb : b.isInitialized with
    | true =>
      rw [ReorderBuffer.initialized, if_pos hb]
      exact ⟨qs, hslots, hspread⟩
    | false =>
      obtain ⟨rfl, hw⟩ := hempty hb
      exact ⟨[], Slots.empty hw, Spread.nil k _ w⟩
  have hseqn : mbuf.seqn = (b.initialized mbuf).minSeqn
      + UInt32.ofNat (mbuf.seqn - (b.initialized mbuf).minSeqn).toNat := by
    rw [UInt32.ofNat_toNat, UInt32.add_comm, UInt32.sub_add_cancel]
  by_cases hin : (mbuf.seqn - (b.initialized mbuf).minSeqn).toNat < 2 ^ k
  · rw [rteReorderInsert_inside hshows hin]
    exact ⟨l, rest, _, qs, (hshows.initialized mbuf).store mbuf hin, hslots.set hseqn,
      hspread.set _ mbuf, fun hf => absurd (hinit.symm.trans hf) (by decide)⟩
  · by_cases hnear : (mbuf.seqn - (b.initialized mbuf).minSeqn).toNat < 2 * 2 ^ k % 2 ^ 32
    · obtain ⟨passed, w', b', rfl, hmoved, hflag, hstays, hinit', hmin, -, hres⟩ :=
        rteReorderInsert_beyond hshows rfl (Nat.le_of_not_lt hin) hnear
      obtain ⟨n, rest', hheld, hquiet⟩ := moved_take hshows hmoved hflag hstays
      have hlen := hshows.order.length_eq
      rw [length_append] at hlen
      have hle : passed.length ≤ 2 ^ k := by omega
      rcases hres with ⟨hcall, hfull, hwin⟩ | ⟨hcall, hlt, hwin⟩
      · rw [hcall]
        refine ⟨_, rest', _, qs.map (· + passed.length) ++ (marks passed).take n, ⟨hheld, hwin⟩,
          ?_, ?_, fun hf => absurd (hinit'.symm.trans hf) (by decide)⟩
        · rw [hmin]
          exact hslots.pass passed.length
        · rw [hmin]
          refine hspread.pass hslots.left hle n (fun d m hd => ⟨m, ?_⟩) fun hnone => ?_
          · rw [List.getElem?_append_left (List.getElem?_eq_some_iff.mp hd).1, hd]
          · refine Or.inl ((hquiet hnone).resolve_right fun hroom => ?_)
            exact absurd (hfull.symm.trans hroom.2) (by decide)
      · have hmod : 2 * 2 ^ k % 2 ^ 32 ≤ 2 * 2 ^ k := Nat.mod_le _ _
        have hset : w' ++ (replicate passed.length none).set
              ((mbuf.seqn - (b.initialized mbuf).minSeqn).toNat - 2 ^ k) (some mbuf)
            = (w' ++ replicate passed.length none).set
              ((mbuf.seqn - (b.initialized mbuf).minSeqn).toNat - passed.length) (some mbuf) := by
          rw [set_append_right _ _ (by omega)]
          congr 2
          omega
        rw [hcall]
        refine ⟨_, rest', _, qs.map (· + passed.length) ++ (marks passed).take n, ⟨hheld, hwin⟩,
          ?_, ?_, fun hf => absurd (hinit'.symm.trans hf) (by decide)⟩
        · rw [hmin, hset]
          refine (hslots.pass passed.length).set ?_
          rw [UInt32.add_assoc, ← UInt32.ofNat_add, Nat.add_sub_cancel' (by omega)]
          exact hseqn
        · rw [hmin]
          refine hspread.pass hslots.left hle n (fun d m hd => ⟨m, ?_⟩) fun hnone => ?_
          · rw [List.getElem?_append_left (List.getElem?_eq_some_iff.mp hd).1, hd]
          · refine (hquiet hnone).imp_right fun hroom => ⟨hroom.1,
              (mbuf.seqn - (b.initialized mbuf).minSeqn).toNat - passed.length, mbuf, ?_, ?_⟩
            · rw [hset, getElem?_set, if_pos rfl, if_pos]
              rw [length_append, length_replicate]
              omega
            · omega
    · rw [rteReorderInsert_far hshows (Nat.le_of_not_lt hin) hnear]
      exact ⟨l, rest, w, qs, hshows.initialized mbuf, hslots, hspread,
        fun hf => absurd (hinit.symm.trans hf) (by decide)⟩

/-- A drain leaves the packets where their numbers say. -/
theorem drain (h : Placed k b) (maxMbufs : ℕ) : Placed k (rteReorderDrain b maxMbufs).2 := by
  obtain ⟨l, rest, w, qs, hshows, hslots, hspread, hempty⟩ := h
  obtain ⟨ms, w', rfl, -, hshows', hmin, hinit, hend⟩ := rteReorderDrain_spec hshows maxMbufs
  have hslots' := hslots.pass ms.length
  rw [length_map, ← hmin] at hslots'
  have hspread' : ∃ qs', Spread k (rteReorderDrain b maxMbufs).2.minSeqn (l.drop maxMbufs)
      (w' ++ replicate ms.length none) qs' := by
    rcases hend with rfl | hnone
    · rw [hmin]
      have hsame := hspread.drop maxMbufs
      rw [map_nil, nil_append] at hsame
      rw [length_nil, replicate_zero, append_nil]
      exact ⟨_, (UInt32.add_zero b.minSeqn).symm ▸ hsame⟩
    · rw [hnone]
      exact ⟨[], Spread.nil k _ _⟩
  obtain ⟨qs', hspread'⟩ := hspread'
  refine ⟨_, _, _, qs', hshows', hslots', hspread', fun hf => ?_⟩
  obtain ⟨rfl, hw⟩ := hempty (hinit.symm.trans hf)
  refine ⟨drop_nil, fun x hx => ?_⟩
  rcases mem_append.mp hx with hx | hx
  · exact hw x (mem_append_right _ hx)
  · exact eq_of_mem_replicate hx

end Placed

end Reorder
