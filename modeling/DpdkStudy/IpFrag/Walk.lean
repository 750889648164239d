import Mathlib.Algebra.BigOperators.Group.Finset.Basic
import Mathlib.Algebra.GroupWithZero.Nat
import Mathlib.Data.List.Chain
import DpdkStudy.IpFrag.Reassembly

/-!
# The walk backwards

What `ipv4_frag_reassemble` chains is a run of fragments, each of which starts
where the one before it ends, up to the last fragment (`Walking`). It ends at
the first fragment, or at a hole.
-/

open List

namespace IpFrag

open Function

/-! ## Packets that are chained -/

namespace Mbuf

/-- A packet without its headers. -/
def strip (m : Mbuf) : Mbuf := m.adj (m.l2_len + m.l3_len)

/-- **Packets in a row**, chained from the last one on, without the headers of
all but the first. -/
def glue : Mbuf → List Mbuf → Mbuf
  | a, [] => a
  | a, b :: bs => a.chain (glue b bs).strip

variable {a b : Mbuf} {bs : List Mbuf}

@[simp]
theorem chain_seg (a b : Mbuf) : (a.chain b).seg = a.seg := by
  simp only [chain]
  split <;> rfl

@[simp]
theorem chain_l2_len (a b : Mbuf) : (a.chain b).l2_len = a.l2_len := by
  simp only [chain]
  split <;> rfl

@[simp]
theorem chain_l3_len (a b : Mbuf) : (a.chain b).l3_len = a.l3_len := by
  simp only [chain]
  split <;> rfl

@[simp]
theorem chain_ip (a b : Mbuf) : (a.chain b).ip = a.ip := by
  simp only [chain]
  split <;> rfl

@[simp]
theorem adj_ids (m : Mbuf) (len : ℕ) : (m.adj len).ids = m.ids := by
  simp only [adj]
  split <;> rfl

@[simp]
theorem adj_nb_segs (m : Mbuf) (len : ℕ) : (m.adj len).nb_segs = m.nb_segs := by
  simp only [adj]
  split <;> rfl

@[simp]
theorem strip_ids (m : Mbuf) : m.strip.ids = m.ids := m.adj_ids _

@[simp]
theorem strip_nb_segs (m : Mbuf) : m.strip.nb_segs = m.nb_segs := m.adj_nb_segs _

/-- Packets are chained if they do not have too many segments. -/
theorem chain_of_le (h : a.nb_segs + b.nb_segs ≤ maxNbSegs) :
    a.chain b =
      { a with
        next := a.next ++ b.segs
        nb_segs := a.nb_segs + b.nb_segs
        pkt_len := a.pkt_len + b.pkt_len } := by
  rw [chain, if_neg (by omega)]

theorem chain_ids (h : a.nb_segs + b.nb_segs ≤ maxNbSegs) : (a.chain b).ids = a.ids + b.ids := by
  rw [chain_of_le h]
  simp [ids, segs]

@[simp]
theorem glue_seg (a : Mbuf) (bs : List Mbuf) : (glue a bs).seg = a.seg := by
  cases bs <;> simp [glue]

@[simp]
theorem glue_l2_len (a : Mbuf) (bs : List Mbuf) : (glue a bs).l2_len = a.l2_len := by
  cases bs <;> simp [glue]

@[simp]
theorem glue_l3_len (a : Mbuf) (bs : List Mbuf) : (glue a bs).l3_len = a.l3_len := by
  cases bs <;> simp [glue]

@[simp]
theorem glue_ip (a : Mbuf) (bs : List Mbuf) : (glue a bs).ip = a.ip := by
  cases bs <;> simp [glue]

/-- The segments of some packets. -/
def nbSegsOf (ms : List Mbuf) : ℕ := (ms.map nb_segs).sum

/-- The mbufs of some packets. -/
def idsOf (ms : List Mbuf) : Multiset ℕ := (ms.map ids).sum

@[simp]
theorem nbSegsOf_cons (m : Mbuf) (ms : List Mbuf) :
    nbSegsOf (m :: ms) = m.nb_segs + nbSegsOf ms := by
  simp [nbSegsOf]

@[simp]
theorem idsOf_nil : idsOf [] = 0 := rfl

@[simp]
theorem idsOf_cons (m : Mbuf) (ms : List Mbuf) : idsOf (m :: ms) = m.ids + idsOf ms := by
  simp [idsOf]

@[simp]
theorem idsOf_append (ms ns : List Mbuf) : idsOf (ms ++ ns) = idsOf ms + idsOf ns := by
  simp [idsOf]

theorem idsOf_perm {ms ns : List Mbuf} (h : ms.Perm ns) : idsOf ms = idsOf ns :=
  (h.map ids).sum_eq

theorem nbSegsOf_perm {ms ns : List Mbuf} (h : ms.Perm ns) : nbSegsOf ms = nbSegsOf ns :=
  (h.map nb_segs).sum_eq

/-- **What is chained has the segments of all packets**, if they are not too
many. -/
theorem glue_nb_segs (h : nbSegsOf (a :: bs) ≤ maxNbSegs) :
    (glue a bs).nb_segs = nbSegsOf (a :: bs) := by
  induction bs generalizing a with
  | nil => simp [glue, nbSegsOf]
  | cons b bs ih =>
    rw [nbSegsOf_cons] at h
    have hrest := ih (a := b) (by omega)
    rw [glue, chain_of_le (by rw [strip_nb_segs, hrest]; omega)]
    simp only [strip_nb_segs, hrest, nbSegsOf_cons]

theorem glue_ids (h : nbSegsOf (a :: bs) ≤ maxNbSegs) : (glue a bs).ids = idsOf (a :: bs) := by
  induction bs generalizing a with
  | nil => simp [glue]
  | cons b bs ih =>
    rw [nbSegsOf_cons] at h
    have hsegs : (glue b bs).nb_segs = nbSegsOf (b :: bs) := glue_nb_segs (by omega)
    rw [glue, chain_ids (by rw [strip_nb_segs, hsegs]; omega), strip_ids, ih (by omega),
      idsOf_cons a]

end Mbuf

open Mbuf

/-! ## The invariant of the walk -/

/-- **The slots that are in use** up to the one with number `n` hold packets,
none without length. -/
structure Filled (F : ℕ → Frag) (M : ℕ → Mbuf) (n : ℕ) : Prop where
  mb : ∀ j ≤ n, (F j).mb = some (M j)
  len : ∀ j ≤ n, 0 < (F j).len

/-- One slot's fragment is followed by another's. -/
def Meets (F : ℕ → Frag) (i j : ℕ) : Prop := (F i).ofs + (F i).len = (F j).ofs

/-- **The walk has come to a slot** by those of a list, the last of which is the
one of the last fragment. All that is chained is in the one it is at. -/
structure Walking (F : ℕ → Frag) (M : ℕ → Mbuf) (n : ℕ) (w : Walk) (tail : List ℕ) : Prop where
  last : (w.curr_idx :: tail).getLast? = some lastFragIdx
  nodup : (w.curr_idx :: tail).Nodup
  first : firstFragIdx ∉ w.curr_idx :: tail
  le : ∀ j ∈ w.curr_idx :: tail, j ≤ n
  meets : (w.curr_idx :: tail).IsChain (Meets F)
  ofs : w.ofs = (F w.curr_idx).ofs
  other : ∀ j, j ∉ w.curr_idx :: tail → w.frags j = F j
  behind : ∀ j ∈ tail, w.frags j = (F j).clear
  here : w.frags w.curr_idx =
    { F w.curr_idx with mb := some (glue (M w.curr_idx) (tail.map M)) }

variable {F : ℕ → Frag} {M : ℕ → Mbuf} {n : ℕ} {w : Walk} {tail : List ℕ}

theorem Filled.start (hf : Filled F M n) (ofs : ℕ) (hofs : ofs = (F lastFragIdx).ofs) :
    Walking F M n ⟨F, ofs, lastFragIdx⟩ [] where
  last := rfl
  nodup := nodup_singleton _
  first := by simp [lastFragIdx, firstFragIdx]
  le := by simp [lastFragIdx]
  meets := isChain_singleton _
  ofs := hofs
  other j _ := rfl
  behind j hj := absurd hj not_mem_nil
  here := by
    have hmb := hf.mb lastFragIdx (Nat.zero_le n)
    simp only [map_nil, glue]
    rw [← hmb]

namespace Walking

/-- What is chained does not start before the slot the walk is at. -/
theorem ofs_le (hw : Walking F M n w tail) : ∀ j ∈ w.curr_idx :: tail, w.ofs ≤ (F j).ofs := by
  have hchain : (w.curr_idx :: tail).IsChain (fun i j => (F i).ofs ≤ (F j).ofs) :=
    hw.meets.imp (fun i j h => by rw [Meets] at h; omega)
  have htrans : IsTrans ℕ (fun i j => (F i).ofs ≤ (F j).ofs) := ⟨fun _ _ _ => le_trans⟩
  have hpair := pairwise_cons.mp hchain.pairwise
  intro j hj
  rw [hw.ofs]
  cases hj with
  | head => exact le_refl _
  | tail _ hj => exact hpair.1 j hj

/-- A fragment that ends where the walk is is not chained yet. -/
theorem notMem (hw : Walking F M n w tail) {i : ℕ} (hlen : 0 < (F i).len)
    (hmeets : (F i).ofs + (F i).len = w.ofs) : i ∉ w.curr_idx :: tail := by
  intro hi
  have hle := hw.ofs_le i hi
  omega

/-- A link is one step of the walk, also that to the first fragment. -/
theorem link_eq (hw : Walking F M n w tail) (hf : Filled F M n) {i : ℕ} (hi : i ≤ n)
    (hnotMem : i ∉ w.curr_idx :: tail) :
    w.link i = some
      { frags := update (update w.frags w.curr_idx (F w.curr_idx).clear) i
          { F i with mb := some (glue (M i) ((w.curr_idx :: tail).map M)) }
        ofs := (F i).ofs
        curr_idx := i } := by
  have hother := hw.other i hnotMem
  rw [Walk.link, hother, hf.mb i hi, hw.here]
  simp only [Option.bind_some, Option.map_some, map_cons, glue, strip, glue_l2_len,
    glue_l3_len, Frag.clear]

/-- A link to a fragment that ends where the walk is. -/
theorem link (hw : Walking F M n w tail) (hf : Filled F M n) {i : ℕ} (hi : i ≤ n)
    (hfirst : i ≠ firstFragIdx) (hmeets : (F i).ofs + (F i).len = w.ofs) :
    ∃ w', w.link i = some w' ∧ Walking F M n w' (w.curr_idx :: tail) ∧ w'.ofs < w.ofs := by
  have hlen := hf.len i hi
  have hnotMem := hw.notMem hlen hmeets
  refine ⟨_, hw.link_eq hf hi hnotMem, ?_, by show (F i).ofs < w.ofs; omega⟩
  have hcurr : i ≠ w.curr_idx := fun h => hnotMem (h ▸ mem_cons_self)
  exact
    { last := by
        rw [getLast?_cons_cons]
        exact hw.last
      nodup := nodup_cons.mpr ⟨hnotMem, hw.nodup⟩
      first := by
        rw [mem_cons, not_or]
        exact ⟨Ne.symm hfirst, hw.first⟩
      le := forall_mem_cons.mpr ⟨hi, hw.le⟩
      meets := isChain_cons_cons.mpr ⟨hmeets.trans hw.ofs, hw.meets⟩
      ofs := rfl
      other := fun j hj => by
        rw [mem_cons, not_or] at hj
        have hjcurr : j ≠ w.curr_idx := fun h => hj.2 (h ▸ mem_cons_self)
        show update (update w.frags w.curr_idx _) i _ j = F j
        rw [update_of_ne hj.1, update_of_ne hjcurr]
        exact hw.other j hj.2
      behind := fun j hj => by
        have hji : j ≠ i := fun h => hnotMem (h ▸ hj)
        show update (update w.frags w.curr_idx _) i _ j = (F j).clear
        rw [update_of_ne hji]
        by_cases hjcurr : j = w.curr_idx
        · rw [hjcurr, update_self]
        · rw [update_of_ne hjcurr]
          exact hw.behind j ((mem_cons.mp hj).resolve_left hjcurr)
      here := update_self _ _ _ }

/-- One scan of the slots gets further, or there is a hole. -/
theorem scan (first_len : ℕ) (hw : Walking F M n w tail) (hf : Filled F M n) {i : ℕ} (hi : i ≤ n) :
    ∃ w' tail', Walk.scan first_len i w = some w' ∧ Walking F M n w' tail' ∧
      (w'.ofs < w.ofs ∨ w' = w ∧ tail' = tail ∧
        (w.ofs ≠ first_len → ∀ j ≤ i, firstFragIdx < j → (F j).ofs + (F j).len ≠ w.ofs)) := by
  induction i generalizing w tail with
  | zero =>
    refine ⟨w, tail, rfl, hw, Or.inr ⟨rfl, rfl, fun _ j hj hfirst => ?_⟩⟩
    rw [Nat.le_zero.mp hj] at hfirst
    exact absurd hfirst (Nat.not_lt_zero _)
  | succ i ih =>
    rw [Walk.scan]
    by_cases hstop : i + 1 = firstFragIdx ∨ w.ofs = first_len
    · rw [if_pos hstop]
      refine ⟨w, tail, rfl, hw, Or.inr ⟨rfl, rfl, fun hne j hj hfirst => ?_⟩⟩
      have hfirst' := hstop.resolve_right hne
      omega
    rw [if_neg hstop]
    rw [not_or] at hstop
    -- every slot the walk looks at is as it was, or is behind it
    by_cases hbehind : i + 1 ∈ w.curr_idx :: tail
    · have hfrag : (w.frags (i + 1)).ofs = (F (i + 1)).ofs ∧
          (w.frags (i + 1)).len = (F (i + 1)).len := by
        rcases mem_cons.mp hbehind with heq | hj
        · rw [heq, hw.here]
          exact ⟨rfl, rfl⟩
        · rw [hw.behind _ hj]
          exact ⟨rfl, rfl⟩
      have hlen := hf.len (i + 1) hi
      have hle := hw.ofs_le (i + 1) hbehind
      have hne : (F (i + 1)).ofs + (F (i + 1)).len ≠ w.ofs := by omega
      rw [if_neg (by rw [hfrag.1, hfrag.2]; exact hne)]
      obtain ⟨w', tail', hscan, hw', hprogress⟩ := ih hw (Nat.le_of_succ_le hi)
      refine ⟨w', tail', hscan, hw',
        hprogress.imp_right (fun h => ⟨h.1, h.2.1, fun hofs j hj hj' => ?_⟩)⟩
      rcases Nat.lt_or_eq_of_le hj with hlt | heq
      · exact h.2.2 hofs j (Nat.lt_succ_iff.mp hlt) hj'
      · rw [heq]
        exact hne
    · rw [hw.other _ hbehind]
      by_cases hmeets : (F (i + 1)).ofs + (F (i + 1)).len = w.ofs
      · rw [if_pos hmeets]
        obtain ⟨w₁, hlink, hw₁, hlt⟩ := hw.link hf hi hstop.1 hmeets
        obtain ⟨w', tail', hscan, hw', hprogress⟩ := ih hw₁ (Nat.le_of_succ_le hi)
        refine ⟨w', tail', by rw [hlink]; exact hscan, hw', Or.inl ?_⟩
        rcases hprogress with hlt' | ⟨heq, -, -⟩
        · exact hlt'.trans hlt
        · rw [heq]
          exact hlt
      · rw [if_neg hmeets]
        obtain ⟨w', tail', hscan, hw', hprogress⟩ := ih hw (Nat.le_of_succ_le hi)
        refine ⟨w', tail', hscan, hw',
          hprogress.imp_right (fun h => ⟨h.1, h.2.1, fun hofs j hj hj' => ?_⟩)⟩
        rcases Nat.lt_or_eq_of_le hj with hlt | heq
        · exact h.2.2 hofs j (Nat.lt_succ_iff.mp hlt) hj'
        · rw [heq]
          exact hmeets

/-- The walk ends, at the first fragment or at a hole. -/
theorem back (first_len : ℕ) (hw : Walking F M n w tail) (hf : Filled F M n) {fuel : ℕ} (hfuel : w.ofs < fuel) :
    ∃ w' tail' whole, Walk.back first_len n fuel w = some (w', whole) ∧ Walking F M n w' tail' ∧
      (whole = true → w'.ofs = first_len) ∧
      (whole = false → w'.ofs ≠ first_len ∧
        ∀ j ≤ n, firstFragIdx < j → (F j).ofs + (F j).len ≠ w'.ofs) := by
  induction fuel generalizing w tail with
  | zero => exact absurd hfuel (Nat.not_lt_zero _)
  | succ fuel ih =>
    rw [Walk.back]
    by_cases hofs : w.ofs = first_len
    · rw [if_pos hofs]
      exact ⟨w, tail, true, rfl, hw, fun _ => hofs, fun h => by simp at h⟩
    rw [if_neg hofs]
    obtain ⟨w₁, tail₁, hscan, hw₁, hprogress⟩ := hw.scan first_len hf (le_refl n)
    rw [hscan, Option.bind_some]
    rcases hprogress with hlt | ⟨heq, -, hhole⟩
    · have hcurr : w₁.curr_idx ≠ w.curr_idx := by
        intro h
        have hofs₁ := hw₁.ofs
        rw [h, ← hw.ofs] at hofs₁
        omega
      rw [if_neg hcurr]
      exact ih hw₁ (by omega)
    · subst heq
      rw [if_pos rfl]
      exact ⟨w₁, tail₁, false, rfl, hw₁, fun h => by simp at h, fun _ => ⟨hofs, hhole hofs⟩⟩

end Walking

/-! ## What is left of the slots -/

/-- **A sum over all slots** is one over those of a list and one over the
others. -/
theorem sum_map_add {A : Type} [AddCommMonoid A] (f : ℕ → A) {l : List ℕ} (hnodup : l.Nodup)
    (hle : ∀ j ∈ l, j ≤ n) :
    (l.map f).sum + ∑ j ∈ Finset.range (n + 1) \ l.toFinset, f j = ∑ j ∈ Finset.range (n + 1), f j := by
  have hsub : l.toFinset ⊆ Finset.range (n + 1) := fun j hj =>
    Finset.mem_range.mpr (Nat.lt_succ_of_le (hle j (mem_toFinset.mp hj)))
  rw [← sum_toFinset f hnodup, add_comm]
  exact Finset.sum_sdiff hsub

/-- **Slots in the order of their fragments**, from the first to the last one,
each with the one that follows it. -/
structure Ordered (F : ℕ → Frag) (n : ℕ) (rest : List ℕ) : Prop where
  last : (firstFragIdx :: rest).getLast? = some lastFragIdx
  nodup : (firstFragIdx :: rest).Nodup
  le : ∀ j ∈ firstFragIdx :: rest, j ≤ n
  meets : (firstFragIdx :: rest).IsChain (Meets F)

/-- **Fragments that follow each other** are as long as what they reach over. -/
theorem sum_len_of_meets {i : ℕ} {l : List ℕ} (h : (i :: l).IsChain (Meets F)) {last : ℕ}
    (hlast : (i :: l).getLast? = some last) :
    (F i).ofs + ((i :: l).map (fun j => (F j).len)).sum = (F last).ofs + (F last).len := by
  induction l generalizing i with
  | nil =>
    have heq : i = last := Option.some.inj hlast
    simp [heq]
  | cons j l ih =>
    obtain ⟨hmeets, hrest⟩ := isChain_cons_cons.mp h
    have hsum := ih hrest (by rw [← hlast, getLast?_cons_cons])
    rw [Meets] at hmeets
    rw [map_cons, sum_cons]
    omega

/-- **All slots are in the order**, if their fragments are as long as the
datagram. -/
theorem Ordered.mem (ho : Ordered F n tail) (hf : Filled F M n)
    (hfirst : (F firstFragIdx).ofs = 0)
    (hsize : ∑ j ∈ Finset.range (n + 1), (F j).len = (F lastFragIdx).ofs + (F lastFragIdx).len)
    {j : ℕ} (hj : j ≤ n) : j ∈ firstFragIdx :: tail := by
  by_contra hnotMem
  have hsum := sum_len_of_meets ho.meets ho.last
  have hsplit := sum_map_add (fun j => (F j).len) ho.nodup ho.le
  have hrest : ∑ j ∈ Finset.range (n + 1) \ (firstFragIdx :: tail).toFinset, (F j).len = 0 := by
    omega
  have hmem : j ∈ Finset.range (n + 1) \ (firstFragIdx :: tail).toFinset :=
    Finset.mem_sdiff.mpr
      ⟨Finset.mem_range.mpr (Nat.lt_succ_of_le hj), fun h => hnotMem (mem_toFinset.mp h)⟩
  have hzero := (Finset.sum_eq_zero_iff.mp hrest) j hmem
  have hlen := hf.len j hj
  omega

theorem Ordered.perm (ho : Ordered F n tail) (hall : ∀ j ≤ n, j ∈ firstFragIdx :: tail) :
    (firstFragIdx :: tail).Perm (range (n + 1)) := by
  refine (perm_ext_iff_of_nodup ho.nodup nodup_range).mpr (fun j => ?_)
  rw [mem_range]
  exact ⟨fun hj => Nat.lt_succ_of_le (ho.le j hj), fun hj => hall j (Nat.lt_succ_iff.mp hj)⟩

/-- The mbufs in a slot. -/
def Frag.ids (f : Frag) : Multiset ℕ := f.mb.elim 0 Mbuf.ids

theorem idsOf_filterMap (frags : ℕ → Frag) (n : ℕ) :
    idsOf ((range n).filterMap (fun i => (frags i).mb)) =
      ∑ i ∈ Finset.range n, (frags i).ids := by
  induction n with
  | zero => rfl
  | succ n ih =>
    rw [range_succ, filterMap_append, idsOf_append, ih, Finset.sum_range_succ]
    congr 1
    cases hmb : (frags n).mb <;> simp [Frag.ids, hmb]

/-- **The walk keeps the mbufs**, if those in the slots do not have too many
segments. -/
theorem Walking.ids (hw : Walking F M n w tail) (hf : Filled F M n)
    (hsegs : ∑ j ∈ Finset.range (n + 1), (M j).nb_segs ≤ maxNbSegs) :
    ∑ j ∈ Finset.range (n + 1), (w.frags j).ids = ∑ j ∈ Finset.range (n + 1), (F j).ids := by
  have hcount := sum_map_add (fun j => (M j).nb_segs) hw.nodup hw.le
  have hnb : nbSegsOf ((w.curr_idx :: tail).map M) ≤ maxNbSegs := by
    rw [nbSegsOf, map_map]
    exact le_trans (Nat.le_of_add_right_le (le_of_eq hcount)) hsegs
  rw [← sum_map_add (fun j => (w.frags j).ids) hw.nodup hw.le,
    ← sum_map_add (fun j => (F j).ids) hw.nodup hw.le]
  congr 1
  · have hhere : (w.frags w.curr_idx).ids = idsOf ((w.curr_idx :: tail).map M) := by
      rw [hw.here, Frag.ids, Option.elim_some, glue_ids hnb, map_cons]
    have htail : (tail.map (fun j => (w.frags j).ids)).sum = 0 := by
      refine sum_eq_zero (fun x hx => ?_)
      obtain ⟨j, hj, rfl⟩ := mem_map.mp hx
      rw [hw.behind j hj]
      rfl
    have hF : (w.curr_idx :: tail).map (fun j => (F j).ids) =
        ((w.curr_idx :: tail).map M).map Mbuf.ids := by
      rw [map_map]
      refine map_congr_left (fun j hj => ?_)
      rw [Frag.ids, hf.mb j (hw.le j hj)]
      rfl
    rw [hF, map_cons, sum_cons, htail, hhere, add_zero, idsOf]
  · refine Finset.sum_congr rfl (fun j hj => ?_)
    rw [hw.other j (fun h => (Finset.mem_sdiff.mp hj).2 (mem_toFinset.mpr h))]

/-! ## The result -/

/-- **A datagram that is put together**: its fragments in their order, the
header of the first one brought up to date. -/
def assembled (M : ℕ → Mbuf) (rest : List ℕ) (total_size : ℕ) : Mbuf :=
  { glue (M firstFragIdx) (rest.map M) with ip := wholeHdr (M firstFragIdx) total_size }

/-- **What `ipv4_frag_reassemble` does**: it puts the fragments together that
follow each other from the first to the last one, or it stops at a hole. -/
theorem ipv4FragReassemble_spec {fp : FragPkt} (hf : Filled fp.frags M (fp.last_idx - 1))
    (hidx : minFragNum ≤ fp.last_idx) (hfirst : (fp.frags firstFragIdx).ofs = 0) :
    (∃ rest, Ordered fp.frags (fp.last_idx - 1) rest ∧
      ipv4FragReassemble fp = some
        ({ fp with frags := fun j =>
            if j ∈ firstFragIdx :: rest then (fp.frags j).clear else fp.frags j },
          some (assembled M rest fp.total_size))) ∨
    ∃ w tail, Walking fp.frags M (fp.last_idx - 1) w tail ∧
      ipv4FragReassemble fp = some ({ fp with frags := w.frags }, none) ∧
      w.ofs ≠ (fp.frags firstFragIdx).len ∧
      ∀ j ≤ fp.last_idx - 1, firstFragIdx < j →
        (fp.frags j).ofs + (fp.frags j).len ≠ w.ofs := by
  have hone : firstFragIdx ≤ fp.last_idx - 1 := by
    rw [minFragNum] at hidx
    rw [firstFragIdx]
    omega
  obtain ⟨w, tail, whole, hback, hw, hreached, hhole⟩ :=
    (hf.start _ rfl).back (fp.frags firstFragIdx).len hf (Nat.lt_succ_self _)
  cases whole with
  | false =>
    refine Or.inr ⟨w, tail, hw, ?_, hhole rfl⟩
    rw [ipv4FragReassemble, hback]
    rfl
  | true =>
    have hofs := hreached rfl
    refine Or.inl ⟨w.curr_idx :: tail, ?_, ?_⟩
    · exact
        { last := by
            rw [getLast?_cons_cons]
            exact hw.last
          nodup := nodup_cons.mpr ⟨hw.first, hw.nodup⟩
          le := forall_mem_cons.mpr ⟨hone, hw.le⟩
          meets := isChain_cons_cons.mpr
            ⟨by rw [Meets, hfirst, ← hw.ofs, hofs, Nat.zero_add], hw.meets⟩ }
    · rw [ipv4FragReassemble, hback]
      simp only [Option.bind_some, if_true, hw.link_eq hf hone hw.first, update_self,
        Option.map_some]
      congr 2
      · congr 1
        funext j
        by_cases hj : j = firstFragIdx
        · rw [hj, update_self, if_pos mem_cons_self]
          rfl
        · rw [update_of_ne hj, update_of_ne hj]
          by_cases hcurr : j = w.curr_idx
          · rw [hcurr, update_self, if_pos (mem_cons_of_mem _ mem_cons_self)]
          · rw [update_of_ne hcurr]
            by_cases htail : j ∈ tail
            · rw [hw.behind j htail,
                if_pos (mem_cons_of_mem _ (mem_cons_of_mem _ htail))]
            · rw [hw.other j (by simp [hcurr, htail]), if_neg (by simp [hj, hcurr, htail])]
      · rw [assembled, wholeHdr, wholeHdr, glue_ip, glue_l3_len]

end IpFrag
