import DpdkStudy.Reorder.Rings

/-!
# The search of the ready buffer

Where the binary search of `ready_buffer_seqn_find` looks. It begins with the
positions up to the distance between tail and head, both ends included, and
this is not the number of packets: it is one position too many where the tail
is not after the head, and the number of the other slots where it is. The
search finds the place of a number all the same if it looks at packets only
and the place is among its positions (`Finds`). As long as the packets it looks
at are in front of the place it goes to the right, and the positions that are
left are halved each time, so it is known at which ones it looks.
-/

open Nat

namespace Reorder

variable {k x : ℕ} {l : List Mbuf} {rest : List (Option Mbuf)} {c : CirBuffer} {seqn : UInt32}

/-- **The last position of the search**, at first. -/
def CirBuffer.highest (c : CirBuffer) : ℕ :=
  if c.tail > c.head then c.tail - c.head else c.head - c.tail

/-- **The search finds a place**: with `n` packets and the positions up to
`high`, the place `x` is among the positions and all of these are packets; or
one of the positions it looks at on its way to the right is a packet, and not in
front of the place. -/
def Finds (high n x : ℕ) : Prop :=
  high < n ∧ x ≤ high + 1
    ∨ n ≤ high ∧ ∃ j, x ≤ high - (high + 1) / 2 ^ (j + 1) ∧ high - (high + 1) / 2 ^ (j + 1) < n

/-- **The place of a number** in a queue: what is in front of it is less, and
only the packet of the place may have the number. -/
structure Splits (l : List Mbuf) (seqn : UInt32) (x : ℕ) : Prop where
  below : ∀ i mbuf, l[i]? = some mbuf → i < x → mbuf.seqn < seqn
  above : ∀ i mbuf, l[i]? = some mbuf → x ≤ i → seqn ≤ mbuf.seqn
  only : ∀ i mbuf, l[i]? = some mbuf → mbuf.seqn = seqn → i = x

/-- The middle of some positions, by how many are left behind it. -/
theorem middle_eq {low high : ℕ} (hgo : low ≤ high) :
    low + (high - low) / 2 = high - (high + 1 - low) / 2 := by
  omega

theorem Holds.entries_packet (h : Holds k c l rest) {d : ℕ} {mbuf : Mbuf}
    (hd : l[d]? = some mbuf) : c.entries ((c.tail + d) &&& c.mask) = some mbuf := by
  have hlt : d < l.length := (List.getElem?_eq_some_iff.mp hd).1
  have hslot := h.entries_eq (lt_trans hlt h.length_lt)
  rw [List.getElem?_append_left (by rwa [List.length_map]), List.getElem?_map, hd] at hslot
  exact Option.some.inj hslot

section Loop

variable (hk : k ≤ 31) (h : Holds k c l rest) (hplace : Splits l seqn x)
  (hfirst : ∀ first, l.head? = some first → first.seqn ≤ seqn)

include hk h hplace hfirst in
/-- **A look at a packet**: it is the one of the place, or the search goes on to
its right or to its left, where the place is. -/
theorem seqnFindLoop_look {fuel low high : ℕ} (hgo : low ≤ high)
    (hmid : low + (high - low) / 2 < l.length) :
    low + (high - low) / 2 = x ∧ seqnFindLoop c seqn (fuel + 1) low high = some x
      ∨ low + (high - low) / 2 < x ∧ seqnFindLoop c seqn (fuel + 1) low high
        = seqnFindLoop c seqn fuel (low + (high - low) / 2 + 1) high
      ∨ x ≤ low + (high - low) / 2 ∧ 0 < low + (high - low) / 2
        ∧ seqnFindLoop c seqn (fuel + 1) low high
          = seqnFindLoop c seqn fuel low (low + (high - low) / 2 - 1) := by
  obtain ⟨mbuf, hpacket⟩ : ∃ mbuf, l[low + (high - low) / 2]? = some mbuf :=
    ⟨_, List.getElem?_eq_getElem hmid⟩
  revert hpacket hmid
  rw [seqnFindLoop, if_pos hgo]
  generalize low + (high - low) / 2 = mid
  intro hmid hpacket
  simp only [h.entries_packet hpacket]
  by_cases heq : seqn = mbuf.seqn
  · have hx := hplace.only mid mbuf hpacket heq.symm
    exact Or.inl ⟨hx, by rw [if_pos heq, hx]⟩
  · rw [if_neg heq]
    by_cases hgt : seqn > mbuf.seqn
    · refine Or.inr (Or.inl ⟨?_, if_pos hgt⟩)
      by_contra hge
      exact UInt32.not_lt.mpr (hplace.above mid mbuf hpacket (not_lt.mp hge)) hgt
    · -- the first packet is not after the number
      have hpos : 0 < mid := by
        refine pos_of_ne_zero fun hzero => ?_
        rw [hzero, ← List.head?_eq_getElem?] at hpacket
        exact heq (UInt32.le_antisymm (UInt32.not_lt.mp hgt) (hfirst mbuf hpacket))
      refine Or.inr (Or.inr ⟨?_, hpos, ?_⟩)
      · by_contra hlt
        exact hgt (hplace.below mid mbuf hpacket (not_le.mp hlt))
      · have hpow : 2 ^ k ≤ 2 ^ 31 := Nat.pow_le_pow_right (by decide) hk
        have hlt := h.length_lt
        have hwrap : (mid + 2 ^ 32 - 1) % 2 ^ 32 = mid - 1 := by omega
        rw [if_neg hgt, hwrap]

include hk h hplace hfirst in
/-- The search among packets only finds the place. -/
theorem seqnFindLoop_inside (fuel : ℕ) {low high : ℕ} (hlow : low ≤ x) (hhigh : x ≤ high + 1)
    (hn : high < l.length) (hfuel : high + 1 - low < fuel) :
    seqnFindLoop c seqn fuel low high = some x := by
  induction fuel generalizing low high with
  | zero => exact absurd hfuel (not_lt_zero _)
  | succ fuel ih =>
    by_cases hgo : low ≤ high
    · rcases seqnFindLoop_look hk h hplace hfirst hgo (show _ < l.length by omega) with
        ⟨-, hfound⟩ | ⟨hright, hnext⟩ | ⟨hleft, hpos, hnext⟩
      · exact hfound
      · rw [hnext]
        exact ih hright hhigh hn (by omega)
      · rw [hnext]
        exact ih hlow (by omega) (by omega) (by omega)
    · rw [seqnFindLoop, if_neg hgo]
      exact congrArg some (by omega)

include hk h hplace hfirst in
/-- **The search over more positions than there are packets** finds the place
if it turns to the left in time. The induction is on how often it goes to the
right. -/
theorem seqnFindLoop_beyond (j : ℕ) {fuel low high : ℕ} (hlow : low ≤ x) (hgo : low ≤ high)
    (hx : x ≤ high - (high + 1 - low) / 2 ^ (j + 1))
    (hn : high - (high + 1 - low) / 2 ^ (j + 1) < l.length) (hfuel : high + 1 - low < fuel) :
    seqnFindLoop c seqn fuel low high = some x := by
  induction j generalizing fuel low with
  | zero =>
    cases fuel with
    | zero => exact absurd hfuel (not_lt_zero _)
    | succ fuel =>
      rw [zero_add, pow_one, ← middle_eq hgo] at hx hn
      rcases seqnFindLoop_look hk h hplace hfirst hgo hn with
        ⟨-, hfound⟩ | ⟨hright, -⟩ | ⟨hleft, hpos, hnext⟩
      · exact hfound
      · exact absurd hx (not_le.mpr hright)
      · rw [hnext]
        exact seqnFindLoop_inside hk h hplace hfirst fuel hlow (by omega) (by omega) (by omega)
  | succ j ih =>
    cases fuel with
    | zero => exact absurd hfuel (not_lt_zero _)
    | succ fuel =>
      have hmono : (high + 1 - low) / 2 ^ (j + 1 + 1) ≤ (high + 1 - low) / 2 :=
        div_le_div_left (le_self_pow (succ_ne_zero _) 2) (by decide)
      have hmid := middle_eq hgo
      have hle : x ≤ high := le_trans hx (sub_le _ _)
      rcases seqnFindLoop_look hk h hplace hfirst hgo (show _ < l.length by omega) with
        ⟨-, hfound⟩ | ⟨hright, hnext⟩ | ⟨hleft, hpos, hnext⟩
      · exact hfound
      · have hhalf : (high + 1 - (low + (high - low) / 2 + 1)) / 2 ^ (j + 1)
            = (high + 1 - low) / 2 ^ (j + 1 + 1) := by
          rw [show high + 1 - (low + (high - low) / 2 + 1) = (high + 1 - low) / 2 by omega,
            Nat.div_div_eq_div_mul, ← Nat.pow_succ']
        rw [hnext]
        exact ih hright (le_trans hright hle) (by rwa [hhalf]) (by rwa [hhalf]) (by omega)
      · rw [hnext]
        exact seqnFindLoop_inside hk h hplace hfirst fuel hlow (by omega) (by omega) (by omega)

include hk h hplace hfirst in
theorem readyBufferSeqnFind_eq_some (hfinds : Finds c.highest l.length x) :
    readyBufferSeqnFind c seqn = some x := by
  have hhead : c.head < 2 ^ k := by
    rw [h.head_eq]
    exact Nat.mod_lt _ (Nat.two_pow_pos k)
  have htail := h.tail_lt
  have hhigh : c.highest < 2 ^ k := by
    rw [CirBuffer.highest]
    split <;> omega
  show seqnFindLoop c seqn (c.size + 2) 0 c.highest = some x
  rw [h.size_eq]
  rcases hfinds with ⟨hn, hx⟩ | ⟨-, j, hx, hn⟩
  · exact seqnFindLoop_inside hk h hplace hfirst _ (zero_le _) hx hn (by omega)
  · exact seqnFindLoop_beyond hk h hplace hfirst j (zero_le _) (zero_le _) hx hn (by omega)

end Loop

end Reorder
