import DpdkStudy.Reorder.Operations

/-!
# A reorder buffer that starts again

A reorder buffer without packets can be made to start at another number
(`rteReorderMinSeqnSet`). What has not been inserted far ahead is in the window of
the order buffer only, and the ready buffer is empty. Drains then go as far as they
can: a drain goes through all packets up to the first gap (`rteReorderDrain_all`),
a drain up to a number through everything in front of it
(`rteReorderDrainUpToSeqn_all`), if they may take as many packets.
-/

open List Option

namespace Reorder

open List (replicate reduceOption)

/-- `ENOTEMPTY`. -/
def enotempty : Int := 39

/-- No packet is in the first slots of a buffer. -/
def CirBuffer.noneBelow (buf : CirBuffer) : ℕ → Bool
  | 0 => true
  | n + 1 => (buf.entries n).isNone && buf.noneBelow n

/-- **`rte_reorder_is_empty`**. -/
def rteReorderIsEmpty (b : ReorderBuffer) : Bool :=
  b.readyBuf.tail = b.readyBuf.head ∧ b.orderBuf.noneBelow b.orderBuf.size

/-- **`rte_reorder_min_seqn_set`**. -/
def rteReorderMinSeqnSet (b : ReorderBuffer) (minSeqn : UInt32) :
    Except Int Unit × ReorderBuffer :=
  if rteReorderIsEmpty b then (.ok (), { b with minSeqn := minSeqn, isInitialized := true })
  else (.error (-enotempty), b)

variable {k : ℕ} {rest w : List (Option Mbuf)} {b : ReorderBuffer}

theorem CirBuffer.noneBelow_of_forall {buf : CirBuffer} {n : ℕ}
    (h : ∀ i < n, buf.entries i = none) : buf.noneBelow n = true := by
  induction n with
  | zero => rfl
  | succ n ih =>
    rw [CirBuffer.noneBelow, h n (Nat.lt_succ_self n), ih fun i hi => h i (Nat.lt_succ_of_lt hi)]
    rfl

theorem CirBuffer.noneBelow_entries {buf : CirBuffer} {n i : ℕ} (h : buf.noneBelow n = true)
    (hi : i < n) : buf.entries i = none := by
  induction n with
  | zero => exact absurd hi (Nat.not_lt_zero i)
  | succ n ih =>
    obtain ⟨hlast, hbelow⟩ := Bool.and_eq_true_iff.mp h
    rcases Nat.lt_succ_iff_lt_or_eq.mp hi with hlt | rfl
    · exact ih hbelow hlt
    · exact isNone_iff_eq_none.mp hlast

/-- A buffer without packets starts at any number. -/
theorem rteReorderMinSeqnSet_spec (h : Shows k b [] rest w) (hw : ∀ x ∈ w, x = none)
    (minSeqn : UInt32) :
    rteReorderMinSeqnSet b minSeqn =
      (.ok (), { b with minSeqn := minSeqn, isInitialized := true }) ∧
    Shows k { b with minSeqn := minSeqn, isInitialized := true } [] rest w := by
  have hslot : ∀ i < 2 ^ k, b.orderBuf.entries i = none := by
    intro i hi
    have hhead := h.order.head_lt
    have hlen : (i + 2 ^ k - b.orderBuf.head) % 2 ^ k <
        (Ring.view (2 ^ k) b.orderBuf.entries b.orderBuf.head (2 ^ k)).length := by
      rw [Ring.length_view]
      exact Nat.mod_lt _ (Nat.two_pow_pos k)
    have hget := Ring.getElem_view b.orderBuf.entries hlen
    have hi' : (b.orderBuf.head + (i + 2 ^ k - b.orderBuf.head) % 2 ^ k) % 2 ^ k = i := by
      rw [Nat.add_mod_mod,
        show b.orderBuf.head + (i + 2 ^ k - b.orderBuf.head) = i + 2 ^ k by omega,
        Nat.add_mod_right, Nat.mod_eq_of_lt hi]
    rw [hi'] at hget
    rw [← hget]
    refine hw _ ?_
    rw [← h.order.view_eq]
    exact getElem_mem hlen
  have hempty : rteReorderIsEmpty b = true := by
    rw [rteReorderIsEmpty, decide_eq_true_iff]
    refine ⟨h.ready.tail_eq_head_iff.mpr rfl, CirBuffer.noneBelow_of_forall ?_⟩
    rw [h.order.size_eq]
    exact hslot
  exact ⟨if_pos hempty, ⟨h.ready, h.order⟩⟩

theorem Shows.of_isEmpty {l : List Mbuf} (h : Shows k b l rest w)
    (hempty : rteReorderIsEmpty b = true) : l = [] ∧ ∀ x ∈ w, x = none := by
  rw [rteReorderIsEmpty, decide_eq_true_iff] at hempty
  refine ⟨h.ready.tail_eq_head_iff.mp hempty.1, fun x hx => ?_⟩
  rw [← h.order.view_eq] at hx
  obtain ⟨i, hi, rfl⟩ := mem_iff_getElem.mp hx
  rw [Ring.getElem_view]
  refine CirBuffer.noneBelow_entries hempty.2 ?_
  rw [h.order.size_eq]
  exact Nat.mod_lt _ (Nat.two_pow_pos k)

/-! ## How far a drain goes -/

/-- **The order buffer is drained** through all packets up to the first gap. -/
theorem drainOrder_all (n : ℕ) :
    ∀ {order : CirBuffer} {w : List (Option Mbuf)} {j : ℕ} {minSeqn : UInt32},
      Window k order (w ++ replicate j none) → (w.takeWhile isSome).length ≤ n →
      (drainOrder n order minSeqn).1 = w.takeWhile isSome
        ∧ Window k (drainOrder n order minSeqn).2.1
          (w.dropWhile isSome ++ replicate (j + (w.takeWhile isSome).length) none)
        ∧ (drainOrder n order minSeqn).2.2 =
          minSeqn + UInt32.ofNat (w.takeWhile isSome).length := by
  induction n with
  | zero =>
    intro order w j minSeqn h hle
    have hnil := eq_nil_of_length_eq_zero (Nat.le_zero.mp hle)
    have hdrop : w.dropWhile isSome = w := by
      have hsplit := takeWhile_append_dropWhile (p := isSome) (l := w)
      rwa [hnil, nil_append] at hsplit
    rw [hnil, hdrop]
    exact ⟨rfl, h, (UInt32.add_zero minSeqn).symm⟩
  | succ n ih =>
    intro order w j minSeqn h hle
    cases w with
    | nil =>
      have hnone : order.entries order.head = none :=
        h.gap_or_packet.resolve_right (fun ⟨_, _, hw, _⟩ => absurd hw (by simp))
      rw [drainOrder, hnone]
      exact ⟨rfl, h, (UInt32.add_zero minSeqn).symm⟩
    | cons x w =>
      have hhead : order.entries order.head = x := h.entries_head
      cases x with
      | none =>
        rw [drainOrder, hhead]
        exact ⟨rfl, h, (UInt32.add_zero minSeqn).symm⟩
      | some mbuf =>
        obtain ⟨hout, hwin, hmin⟩ := @ih _ w _ (minSeqn + 1) h.pass (by simpa using hle)
        rw [drainOrder, hhead]
        refine ⟨?_, ?_, ?_⟩
        · show some mbuf :: _ = _
          rw [hout, takeWhile_cons_of_pos rfl]
        · rw [dropWhile_cons_of_pos rfl, takeWhile_cons_of_pos rfl, length_cons,
            ← Nat.add_assoc, Nat.add_right_comm]
          exact hwin
        · rw [hmin, takeWhile_cons_of_pos rfl, length_cons, UInt32.ofNat_add,
            UInt32.add_assoc, UInt32.add_comm 1]
          rfl

/-- **A window is gone through** to the end of its first slots, if their packets
are fewer than may be taken. -/
theorem Takes.eq_take {n max : ℕ} {passed w' : List (Option Mbuf)} (h : Takes n max passed)
    (hmax : ((passed ++ w').take n).reduceOption.length < max) : passed.length = n := by
  refine h.ends.resolve_right fun hall => ?_
  rw [h.packets_eq w', length_take] at hall
  omega

/-- A drain goes through all packets up to the first gap. -/
theorem rteReorderDrain_all (h : Shows k b [] rest w) (maxMbufs : ℕ)
    (hmax : (w.takeWhile isSome).length ≤ maxMbufs) :
    (rteReorderDrain b maxMbufs).1 = w.takeWhile isSome
      ∧ (∃ rest', Shows k (rteReorderDrain b maxMbufs).2 [] rest'
        (w.dropWhile isSome ++ replicate (w.takeWhile isSome).length none))
      ∧ (rteReorderDrain b maxMbufs).2.minSeqn =
        b.minSeqn + UInt32.ofNat (w.takeWhile isSome).length
      ∧ (rteReorderDrain b maxMbufs).2.isInitialized = b.isInitialized := by
  have hwin : Window k b.orderBuf (w ++ replicate 0 none) := by
    rw [replicate_zero, append_nil]
    exact h.order
  obtain ⟨hout, hheld⟩ := drainReady_spec maxMbufs h.ready
  rw [take_nil, map_nil] at hout
  obtain ⟨hdrain, hwin', hmin⟩ := @drainOrder_all k maxMbufs _ _ _ b.minSeqn hwin hmax
  rw [Nat.zero_add] at hwin'
  rw [drop_nil] at hheld
  rw [rteReorderDrain, hout]
  exact ⟨hdrain, ⟨_, hheld, hwin'⟩, hmin, rfl⟩

/-- A drain up to a number goes through everything in front of it. -/
theorem rteReorderDrainUpToSeqn_all (h : Shows k b [] rest w) (maxMbufs : ℕ) (seqn : UInt32)
    (hseqn : ¬ seqn < b.minSeqn) (hle : (seqn - b.minSeqn).toNat ≤ 2 ^ k)
    (hmax : (w.take (seqn - b.minSeqn).toNat).reduceOption.length < maxMbufs) :
    ∃ b' rest', rteReorderDrainUpToSeqn b maxMbufs seqn =
        some ((w.take (seqn - b.minSeqn).toNat).reduceOption.map some, b')
      ∧ Shows k b' [] rest' (w.drop (seqn - b.minSeqn).toNat ++
        replicate (seqn - b.minSeqn).toNat none)
      ∧ b'.minSeqn = seqn ∧ b'.isInitialized = b.isInitialized := by
  obtain ⟨passed, w', b', rfl, htakes, hcall, hshows, hmin, hinit⟩ :=
    rteReorderDrainUpToSeqn_window h maxMbufs hseqn
  rw [Nat.min_eq_left hle, take_nil, length_nil, Nat.sub_zero] at htakes
  rw [take_nil, nil_append] at hcall
  rw [drop_nil] at hshows
  have hlen := htakes.eq_take hmax
  rw [take_left' hlen, drop_left' hlen, ← hlen]
  refine ⟨b', _, hcall, hshows, ?_, hinit⟩
  rw [hmin, hlen, UInt32.ofNat_toNat, UInt32.add_comm, UInt32.sub_add_cancel]

end Reorder
