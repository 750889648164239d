import DpdkStudy.Lib.Runs
import DpdkStudy.Reorder.Operations

/-!
# Packets are delivered in order

What a reorder buffer hands out is in the order of the sequence numbers, as
long as the packets it is offered span fewer numbers than half the range.
Sequence numbers wrap, so they are counted from the start of that span
(`distance`). The lowest number the buffer waits for has then a distance of
its own, the slots of the order buffer hold the packets of the distances from
there on, and what was moved to the ready buffer or handed out is before it
(`Numbered`). Whether a packet was lost on the way makes no difference.
-/

open List Nat

namespace Reorder

open List (replicate reduceOption)
open Runs (run)

/-- **How far a packet is** from the start of the numbers that are spanned. -/
def distance (base : UInt32) (mbuf : Mbuf) : ℕ := (mbuf.seqn - base).toNat

/-- **The calls of a run**: insertions of packets that span fewer numbers than
half the range, and drains. -/
def Spans (base : UInt32) : Call → Prop
  | .insert mbuf => distance base mbuf < 2 ^ 31
  | .drain _ => True
  | .drainUpToSeqn _ _ => False

variable {base : UInt32} {k M : ℕ} {done : List Mbuf} {w : List (Option Mbuf)} {t : Trace}

/-- **The packets are where their numbers say**: in the slots of the window
they have the distances from `M` on, and those that have left it are in order
and before `M`. -/
structure Numbered (base : UInt32) (M : ℕ) (done : List Mbuf) (w : List (Option Mbuf)) :
    Prop where
  le : M ≤ 2 ^ 31
  sorted : done.Pairwise (fun a b => distance base a < distance base b)
  before : ∀ mbuf ∈ done, distance base mbuf < M
  slot : ∀ d mbuf, w[d]? = some (some mbuf) → distance base mbuf = M + d ∧ M + d < 2 ^ 31

/-- Slots that are numbered hold packets in order. -/
theorem reduceOption_sorted (passed : List (Option Mbuf)) :
    ∀ M, (∀ d mbuf, passed[d]? = some (some mbuf) → distance base mbuf = M + d) →
      passed.reduceOption.Pairwise (fun a b => distance base a < distance base b)
        ∧ ∀ mbuf ∈ passed.reduceOption,
          M ≤ distance base mbuf ∧ distance base mbuf < M + passed.length := by
  induction passed with
  | nil => exact fun M _ => ⟨List.Pairwise.nil, fun mbuf hmbuf => nomatch hmbuf⟩
  | cons x passed ih =>
    intro M hslot
    obtain ⟨hsorted, hbounds⟩ := ih (M + 1) (fun d mbuf hd => by
      rw [hslot (d + 1) mbuf hd]
      omega)
    have htail : ∀ mbuf ∈ passed.reduceOption,
        M < distance base mbuf ∧ distance base mbuf < M + (x :: passed).length := by
      intro mbuf hmbuf
      obtain ⟨hge, hlt⟩ := hbounds mbuf hmbuf
      rw [length_cons]
      omega
    cases x with
    | none =>
      rw [reduceOption_cons_of_none]
      exact ⟨hsorted, fun mbuf hmbuf => ⟨le_of_lt (htail mbuf hmbuf).1, (htail mbuf hmbuf).2⟩⟩
    | some first =>
      have hfirst : distance base first = M := hslot 0 first rfl
      rw [reduceOption_cons_of_some]
      refine ⟨pairwise_cons.mpr ⟨fun mbuf hmbuf => ?_, hsorted⟩, fun mbuf hmbuf => ?_⟩
      · rw [hfirst]
        exact (htail mbuf hmbuf).1
      · rcases mem_cons.mp hmbuf with rfl | hmbuf
        · rw [hfirst, length_cons]
          omega
        · exact ⟨le_of_lt (htail mbuf hmbuf).1, (htail mbuf hmbuf).2⟩

namespace Numbered

theorem empty (hM : M ≤ 2 ^ 31) (hw : ∀ x ∈ w, x = none) : Numbered base M [] w := by
  refine ⟨hM, List.Pairwise.nil, fun mbuf hmbuf => (nomatch hmbuf), fun d mbuf hd => ?_⟩
  exact nomatch hw _ (mem_of_getElem? hd)

/-- A packet at the end of the slots that are passed bounds them. -/
theorem add_length_le {passed w' : List (Option Mbuf)} (h : Numbered base M done (passed ++ w'))
    {mbuf : Mbuf} (hlast : passed.getLast? = some (some mbuf)) : M + passed.length ≤ 2 ^ 31 := by
  rw [getLast?_eq_getElem?] at hlast
  have hlen := (List.getElem?_eq_some_iff.mp hlast).1
  have hslot := h.slot (passed.length - 1) mbuf (by rw [getElem?_append_left hlen, hlast])
  omega

/-- **The window moves on**, and some of the packets it has passed leave it. -/
theorem pass {passed w' : List (Option Mbuf)} {kept : List Mbuf}
    (h : Numbered base M done (passed ++ w'))
    (hle : M + passed.length ≤ 2 ^ 31) (hkept : kept.Sublist passed.reduceOption) :
    Numbered base (M + passed.length) (done ++ kept)
      (w' ++ replicate passed.length none) := by
  obtain ⟨hsorted, hbounds⟩ := @reduceOption_sorted base passed M (fun d mbuf hd =>
    (h.slot d mbuf (by rw [List.getElem?_append_left (List.getElem?_eq_some_iff.mp hd).1, hd])).1)
  refine ⟨hle, ?_, ?_, ?_⟩
  · refine pairwise_append.mpr ⟨h.sorted, hsorted.sublist hkept, fun a ha b hb => ?_⟩
    exact lt_of_lt_of_le (h.before a ha) (hbounds b (hkept.subset hb)).1
  · intro mbuf hmbuf
    rcases mem_append.mp hmbuf with hmbuf | hmbuf
    · exact lt_of_lt_of_le (h.before mbuf hmbuf) (le_add_right M _)
    · exact (hbounds mbuf (hkept.subset hmbuf)).2
  · intro d mbuf hd
    have hlen : d < w'.length := by
      by_contra hge
      rw [getElem?_append_right (Nat.le_of_not_lt hge)] at hd
      exact nomatch eq_of_mem_replicate (mem_of_getElem? hd)
    rw [getElem?_append_left hlen] at hd
    rw [add_assoc]
    refine h.slot (passed.length + d) mbuf ?_
    rw [getElem?_append_right (Nat.le_add_right _ _), Nat.add_sub_cancel_left, hd]

theorem set (h : Numbered base M done w) {mbuf : Mbuf} (hge : M ≤ distance base mbuf)
    (hlt : distance base mbuf < 2 ^ 31) :
    Numbered base M done (w.set (distance base mbuf - M) (some mbuf)) := by
  refine ⟨h.le, h.sorted, h.before, fun d m hd => ?_⟩
  rw [getElem?_set] at hd
  split at hd
  · rename_i heq
    split at hd
    · rw [← Option.some.inj (Option.some.inj hd), ← heq]
      omega
    · exact nomatch hd
  · exact h.slot d m hd

end Numbered

/-! ## What the calls keep -/

/-- **The reorder buffer delivers in order**: its packets are where their
numbers say, counted from the lowest number it waits for. Before the first
packet there is no such number, and nothing else. -/
def Ordered (base : UInt32) (k : ℕ) (t : Trace) : Prop :=
  ∃ (out l : List Mbuf) (rest w : List (Option Mbuf)) (M : ℕ), Shows k t.buffer l rest w
    ∧ t.drained = out.map some ∧ Numbered base M (out ++ l) w
    ∧ (t.buffer.isInitialized = true ∧ t.buffer.minSeqn = base + UInt32.ofNat M
      ∨ t.buffer.isInitialized = false ∧ out ++ l = [] ∧ ∀ x ∈ w, x = none)

theorem ordered_fresh (base : UInt32) (k : ℕ) : Ordered base k (Trace.fresh (2 ^ k)) := by
  have hnone : ∀ x ∈ replicate (2 ^ k) (none : Option Mbuf), x = none :=
    fun x hx => eq_of_mem_replicate hx
  exact ⟨[], [], _, _, 0, shows_fresh k, rfl, Numbered.empty (zero_le _) hnone,
    Or.inr ⟨rfl, rfl, hnone⟩⟩

theorem Ordered.initialized (h : Ordered base k t) {mbuf : Mbuf}
    (hmbuf : distance base mbuf < 2 ^ 31) :
    ∃ (out l : List Mbuf) (rest w : List (Option Mbuf)) (M : ℕ), Shows k t.buffer l rest w
      ∧ t.drained = out.map some ∧ Numbered base M (out ++ l) w
      ∧ (t.buffer.initialized mbuf).minSeqn = base + UInt32.ofNat M := by
  obtain ⟨out, l, rest, w, M, hshows, hout, hnum, ⟨hinit, hmin⟩ | ⟨hinit, hnil, hnone⟩⟩ := h
  · refine ⟨out, l, rest, w, M, hshows, hout, hnum, ?_⟩
    rw [ReorderBuffer.initialized, if_pos hinit, hmin]
  · refine ⟨out, l, rest, w, distance base mbuf, hshows, hout, ?_, ?_⟩
    · rw [hnil]
      exact Numbered.empty (le_of_lt hmbuf) hnone
    · rw [ReorderBuffer.initialized, hinit, if_neg Bool.false_ne_true, distance,
        UInt32.ofNat_toNat, UInt32.add_comm, UInt32.sub_add_cancel]

/-- The numbers an insertion takes reach over half the range at most. -/
theorem two_mul_mod_le (hk : k ≤ 31) : 2 * 2 ^ k % 2 ^ 32 ≤ 2 ^ 31 := by
  rcases lt_or_eq_of_le hk with hlt | rfl
  · have hpow : 2 ^ k ≤ 2 ^ 30 := Nat.pow_le_pow_right (by decide) (Nat.le_of_lt_succ hlt)
    exact le_trans (mod_le _ _) (by omega)
  · decide

/-- **A packet that is not refused** is not before the lowest number, and its
offset is how far it is from there. -/
theorem offset_eq {minSeqn : UInt32} (hmin : minSeqn = base + UInt32.ofNat M) (hM : M ≤ 2 ^ 31)
    {mbuf : Mbuf} (hoff : (mbuf.seqn - minSeqn).toNat < 2 ^ 31) :
    M ≤ distance base mbuf ∧ (mbuf.seqn - minSeqn).toNat = distance base mbuf - M := by
  have hge : M ≤ distance base mbuf := by
    rw [hmin] at hoff
    rw [distance]
    rw [UInt32.toNat_sub, UInt32.toNat_add, UInt32.toNat_ofNat'] at hoff
    rw [UInt32.toNat_sub]
    have hx := mbuf.seqn.toNat_lt
    have hy := base.toNat_lt
    omega
  refine ⟨hge, ?_⟩
  rw [hmin]
  exact toNat_sub_add_ofNat hge

theorem Ordered.insert (hk : k ≤ 31) (h : Ordered base k t) {mbuf : Mbuf}
    (hmbuf : distance base mbuf < 2 ^ 31) : Ordered base k (t.called (.insert mbuf)) := by
  obtain ⟨out, l, rest, w, M, hshows, hout, hnum, hmin⟩ := h.initialized hmbuf
  have hinit := isInitialized_initialized t.buffer mbuf
  by_cases hin : (mbuf.seqn - (t.buffer.initialized mbuf).minSeqn).toNat < 2 ^ k
  · have hpow : 2 ^ k ≤ 2 ^ 31 := Nat.pow_le_pow_right (by decide) hk
    obtain ⟨hge, hoff⟩ := offset_eq hmin hnum.le (lt_of_lt_of_le hin hpow)
    have hstore := (hshows.initialized mbuf).store mbuf hin
    rw [hoff] at hstore
    rw [Trace.called, rteReorderInsert_inside hshows hin]
    exact ⟨out, l, rest, _, M, hstore, hout, hnum.set hge hmbuf, Or.inl ⟨hinit, hmin⟩⟩
  · by_cases hnear : (mbuf.seqn - (t.buffer.initialized mbuf).minSeqn).toNat < 2 * 2 ^ k % 2 ^ 32
    · obtain ⟨hge, hoff⟩ :=
        offset_eq hmin hnum.le (lt_of_lt_of_le hnear (two_mul_mod_le hk))
      obtain ⟨passed, w', b', hw, hmoved, -, -, hinit', hmin', hlast, hres⟩ :=
        rteReorderInsert_beyond hshows rfl (Nat.le_of_not_lt hin) hnear
      rw [hw] at hnum
      have hle : M + passed.length ≤ 2 ^ 31 := by
        rcases hlast with hshort | ⟨last, hlast⟩
        · have hpos := Nat.two_pow_pos k
          omega
        · exact hnum.add_length_le hlast
      have hminSeqn : b'.minSeqn = base + UInt32.ofNat (M + passed.length) := by
        rw [hmin', hmin, UInt32.ofNat_add, UInt32.add_assoc]
      -- whether the last of the packets was lost
      have hheld : ∃ kept rest', kept.Sublist passed.reduceOption
          ∧ Holds k b'.readyBuf (l ++ kept) rest' := by
        revert hmoved
        generalize (rteReorderFillOverflow _ _).2.2 = flag
        intro hmoved
        cases flag with
        | false => exact ⟨_, _, List.Sublist.refl _, hmoved⟩
        | true =>
          obtain ⟨kept, lost, rest', hkept, hheld⟩ := hmoved
          exact ⟨kept, rest', by rw [hkept]; exact sublist_append_left _ _, hheld⟩
      obtain ⟨kept, rest', hkept, hheld⟩ := hheld
      have hpass := hnum.pass hle hkept
      rw [append_assoc] at hpass
      rcases hres with ⟨hcall, -, hwin⟩ | ⟨hcall, hlt, hwin⟩
      · rw [Trace.called, hcall]
        exact ⟨out, _, _, _, _, ⟨hheld, hwin⟩, hout, hpass, Or.inl ⟨hinit', hminSeqn⟩⟩
      · rw [Trace.called, hcall]
        refine ⟨out, _, _, _, _, ⟨hheld, hwin⟩, hout, ?_, Or.inl ⟨hinit', hminSeqn⟩⟩
        have hlen := hshows.order.length_eq
        rw [hw, length_append] at hlen
        have hset := hpass.set (by omega : M + passed.length ≤ distance base mbuf) hmbuf
        rw [set_append_right _ _ (by omega)] at hset
        rw [hoff, show distance base mbuf - M - 2 ^ k
          = distance base mbuf - (M + passed.length) - w'.length by omega]
        exact hset
    · rw [Trace.called, rteReorderInsert_far hshows (Nat.le_of_not_lt hin) hnear]
      exact ⟨out, l, rest, w, M, hshows.initialized mbuf, hout, hnum, Or.inl ⟨hinit, hmin⟩⟩

theorem Ordered.drain (h : Ordered base k t) (maxMbufs : ℕ) :
    Ordered base k (t.called (.drain maxMbufs)) := by
  obtain ⟨out, l, rest, w, M, hshows, hout, hnum, hinit⟩ := h
  obtain ⟨ms, w', hw, hdrain, hshows', hmin, hinit', hempty⟩ :=
    rteReorderDrain_spec hshows maxMbufs
  rw [hw] at hnum
  have hlist : out ++ (l.take maxMbufs ++ ms) ++ l.drop maxMbufs = out ++ l ++ ms := by
    rcases hempty with rfl | hdrop
    · rw [append_nil, append_nil, append_assoc, take_append_drop]
    · have htake : l.take maxMbufs = l := by
        rw [← append_nil (l.take maxMbufs), ← hdrop, take_append_drop]
      rw [hdrop, htake, append_nil, append_assoc]
  have hle : M + (map some ms).length ≤ 2 ^ 31 := by
    cases hlast : ms.getLast? with
    | none =>
      rw [getLast?_eq_none_iff.mp hlast]
      exact hnum.le
    | some mbuf =>
      have hsome : (map some ms).getLast? = some (some mbuf) := by
        rw [getLast?_map, hlast]
        rfl
      exact hnum.add_length_le hsome
  have hkept : ms.Sublist (map some ms).reduceOption := by
    rw [reduceOption, filterMap_map]
    exact (filterMap_some).symm ▸ List.Sublist.refl ms
  have hpass := hnum.pass hle hkept
  rw [length_map, ← hlist] at hpass
  refine ⟨_, _, _, _, _, hshows', ?_, hpass, ?_⟩
  · show t.drained ++ _ = _
    rw [hout, hdrain, ← map_append]
  · rcases hinit with ⟨hinit, hminSeqn⟩ | ⟨hinit, hnil, hnone⟩
    · refine Or.inl ⟨hinit'.trans hinit, ?_⟩
      show (rteReorderDrain t.buffer maxMbufs).2.minSeqn = _
      rw [hmin, hminSeqn, UInt32.ofNat_add, UInt32.add_assoc]
    · have hms : ms = [] := by
        cases ms with
        | nil => rfl
        | cons mbuf ms => exact nomatch hnone (some mbuf) (by rw [hw]; exact mem_cons_self)
      refine Or.inr ⟨hinit'.trans hinit, ?_, fun x hx => ?_⟩
      · rw [hlist, hnil, hms]
        rfl
      · rw [hms, length_nil, replicate_zero, append_nil] at hx
        exact hnone x (by rw [hw]; exact mem_append_right _ hx)

theorem Ordered.called (hk : k ≤ 31) (t : Trace) (call : Call) (h : Ordered base k t)
    (hcall : Spans base call) : Ordered base k (t.called call) := by
  cases call with
  | insert mbuf => exact h.insert hk hcall
  | drain maxMbufs => exact h.drain maxMbufs
  | drainUpToSeqn maxMbufs seqn => exact hcall.elim

/-! ## Runs of calls -/

/-- What is handed out is in order, counted from the first packet. -/
theorem Ordered.drained_pairwise (h : Ordered base k t) :
    ∃ out : List Mbuf, t.drained = out.map some ∧ ∀ first, out.head? = some first →
      out.Pairwise (fun a b => a.seqn - first.seqn < b.seqn - first.seqn) := by
  obtain ⟨out, l, rest, w, M, -, hout, hnum, -⟩ := h
  refine ⟨out, hout, fun first hfirst => ?_⟩
  have hsorted := (pairwise_append.mp hnum.sorted).1
  have hfrom : ∀ mbuf ∈ out, distance base first ≤ distance base mbuf := by
    intro mbuf hmbuf
    cases out with
    | nil => exact nomatch hmbuf
    | cons head out =>
      rw [← Option.some.inj hfirst]
      rcases mem_cons.mp hmbuf with rfl | hmbuf
      · exact le_refl _
      · exact le_of_lt (rel_of_pairwise_cons hsorted hmbuf)
  refine hsorted.imp_of_mem (fun {a b} ha hb hlt => ?_)
  have hx := a.seqn.toNat_lt
  have hy := b.seqn.toNat_lt
  have hz := first.seqn.toNat_lt
  have hbase := base.toNat_lt
  have hfa := hfrom a ha
  have hfb := hfrom b hb
  rw [UInt32.lt_iff_toNat_lt]
  simp only [distance, UInt32.toNat_sub] at hfa hfb hlt ⊢
  omega

/-- A slot of the order buffer holds the packet with the number of the slot. -/
theorem Ordered.seqn_eq (h : Ordered base k t) {d : ℕ} {mbuf : Mbuf}
    (hd : t.buffer.orderEntries[d]? = some (some mbuf)) :
    mbuf.seqn = t.buffer.minSeqn + UInt32.ofNat d := by
  obtain ⟨out, l, rest, w, M, hshows, -, hnum, hinit⟩ := h
  rw [hshows.orderEntries_eq] at hd
  rcases hinit with ⟨-, hmin⟩ | ⟨-, -, hnone⟩
  · have hdist : mbuf.seqn - base = UInt32.ofNat (M + d) := by
      rw [← (hnum.slot d mbuf hd).1, distance, UInt32.ofNat_toNat]
    rw [hmin, UInt32.add_assoc, ← UInt32.ofNat_add, ← hdist, UInt32.add_comm,
      UInt32.sub_add_cancel]
  · exact nomatch hnone _ (mem_of_getElem? hd)

/-- **Packets are delivered in order.** For every size that is a power of two
and every run of insertions and drains whose packets span fewer numbers than
half the range: what is handed out is in order, and each slot of the order
buffer that is not empty holds the packet with the lowest number the buffer
waits for, and the distance of the slot from the head on top. -/
theorem delivered_in_order (k : ℕ) (hk : k ≤ 31) (base : UInt32) (calls : List Call)
    (hcalls : ∀ call ∈ calls, Spans base call) :
    (∃ out : List Mbuf, (run Trace.called (Trace.fresh (2 ^ k)) calls).drained = out.map some
        ∧ ∀ first, out.head? = some first →
          out.Pairwise (fun a b => a.seqn - first.seqn < b.seqn - first.seqn))
      ∧ ∀ d mbuf,
        (run Trace.called (Trace.fresh (2 ^ k)) calls).buffer.orderEntries[d]? = some (some mbuf) →
        mbuf.seqn
          = (run Trace.called (Trace.fresh (2 ^ k)) calls).buffer.minSeqn + UInt32.ofNat d := by
  have hordered : Ordered base k (run Trace.called (Trace.fresh (2 ^ k)) calls) :=
    (Runs.along_of_forall (fun call hcall _ => hcalls call hcall) _).invariant
      (Ordered.called hk) (ordered_fresh base k)
  exact ⟨hordered.drained_pairwise, fun d mbuf hd => hordered.seqn_eq hd⟩

/-- The numbers wrap, and one of them is missing. -/
theorem delivered_in_order_over_the_wrap :
    (∃ out : List Mbuf, (run Trace.called (Trace.fresh (2 ^ 2))
        [.insert ⟨1, 0xFFFFFFFE⟩, .insert ⟨2, 1⟩, .insert ⟨3, 0xFFFFFFFF⟩, .drain 8,
          .insert ⟨4, 5⟩, .drain 8]).drained = out.map some
        ∧ ∀ first, out.head? = some first →
          out.Pairwise (fun a b => a.seqn - first.seqn < b.seqn - first.seqn))
      ∧ ∀ d mbuf,
        (run Trace.called (Trace.fresh (2 ^ 2))
          [.insert ⟨1, 0xFFFFFFFE⟩, .insert ⟨2, 1⟩, .insert ⟨3, 0xFFFFFFFF⟩, .drain 8,
            .insert ⟨4, 5⟩, .drain 8]).buffer.orderEntries[d]? = some (some mbuf) →
        mbuf.seqn
          = (run Trace.called (Trace.fresh (2 ^ 2))
              [.insert ⟨1, 0xFFFFFFFE⟩, .insert ⟨2, 1⟩, .insert ⟨3, 0xFFFFFFFF⟩, .drain 8,
                .insert ⟨4, 5⟩, .drain 8]).buffer.minSeqn + UInt32.ofNat d := by
  refine delivered_in_order 2 (by decide) 0xFFFFFFFE _ (fun call hcall => ?_)
  simp only [mem_cons, not_mem_nil, or_false] at hcall
  rcases hcall with rfl | rfl | rfl | rfl | rfl | rfl
  · show distance _ _ < _
    decide
  · show distance _ _ < _
    decide
  · show distance _ _ < _
    decide
  · trivial
  · show distance _ _ < _
    decide
  · trivial

end Reorder
