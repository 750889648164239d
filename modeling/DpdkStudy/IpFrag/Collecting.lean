import DpdkStudy.IpFrag.Walk
import Mathlib.Algebra.Order.BigOperators.Group.List
import Mathlib.Algebra.Order.Ring.Nat

/-!
# Collecting a datagram

An entry of the table holds fragments of one datagram, the first and the last
one in slots of their own, and knows how many bytes they have together
(`Collecting`). A fragment that comes in is stored, or the entry is given up,
or it is the one that makes the datagram whole.
-/

open List

namespace IpFrag

open Function Mbuf

variable {total : ℕ} {a : Mbuf} {bs : List Mbuf} {fp' : FragPkt}

/-- How many bytes of the datagram a fragment has. -/
def Mbuf.fragLen (m : Mbuf) : ℕ := m.ip.total_length.toNat - m.l3_len

/-- **Fragments one after the other**, from the start of the datagram to its
end. -/
structure Tiles (total : ℕ) (a : Mbuf) (bs : List Mbuf) : Prop where
  first : a.ip.ofs = 0
  meets : (a :: bs).IsChain (fun m m' => m.ip.ofs + m.fragLen = m'.ip.ofs)
  last : ∀ m, (a :: bs).getLast? = some m → m.ip.ofs + m.fragLen = total

/-- **Fragments of which a datagram can be made**, the last of which is one. -/
def Tiled (ms : List Mbuf) : Prop :=
  ∃ a bs total, (a :: bs).Perm ms ∧ Tiles total a bs ∧
    ∀ m, (a :: bs).getLast? = some m → m.ip.moreFrags = false

/-- **As many bytes as the datagram has**: the first and the last fragment are
there, which ends where all lengths together end. -/
structure Complete (ms : List Mbuf) : Prop where
  first : ∃ a ∈ ms, a.ip.ofs = 0
  last : ∃ m ∈ ms, m.ip.ofs ≠ 0 ∧ m.ip.moreFrags = false ∧
    m.ip.ofs + m.fragLen = (ms.map fragLen).sum

theorem Tiled.perm {ms ns : List Mbuf} (h : Tiled ms) (hp : ms.Perm ns) : Tiled ns := by
  obtain ⟨a, bs, total, hperm, ht, hend⟩ := h
  exact ⟨a, bs, total, hperm.trans hp, ht, hend⟩

theorem Complete.perm {ms ns : List Mbuf} (h : Complete ms) (hp : ms.Perm ns) : Complete ns := by
  obtain ⟨⟨a, ha, hofs⟩, m, hm, hne, hmore, hend⟩ := h
  exact ⟨⟨a, hp.subset ha, hofs⟩, m, hp.subset hm, hne, hmore, hend.trans (hp.map _).sum_eq⟩

/-- The lengths of fragments that tile a datagram add up. -/
theorem Tiles.sum (ht : Tiles total a bs) :
    a.fragLen + (bs.map fragLen).sum = total := by
  obtain ⟨hfirst, hmeets, hlast⟩ := ht
  -- the part from some fragment on is as long as what it reaches over
  have hpart : ∀ (bs : List Mbuf) (b : Mbuf),
      (b :: bs).IsChain (fun m m' => m.ip.ofs + m.fragLen = m'.ip.ofs) →
      (∀ m, (b :: bs).getLast? = some m → m.ip.ofs + m.fragLen = total) →
      b.ip.ofs + (b.fragLen + (bs.map fragLen).sum) = total := by
    intro bs
    induction bs with
    | nil =>
      intro b _ hlast
      simpa using hlast b rfl
    | cons c bs ih =>
      intro b hmeets hlast
      obtain ⟨hbc, hrest⟩ := isChain_cons_cons.mp hmeets
      have hc := ih c hrest (fun m hm => hlast m (by rw [getLast?_cons_cons]; exact hm))
      rw [map_cons, sum_cons]
      omega
  have h := hpart bs a hmeets hlast
  omega

theorem Tiles.end_le (ht : Tiles total a bs) :
    ∀ m ∈ a :: bs, m.ip.ofs + m.fragLen ≤ total := by
  obtain ⟨-, hmeets, hlast⟩ := ht
  induction bs generalizing a with
  | nil =>
    intro m hm
    rw [mem_singleton.mp hm]
    exact le_of_eq (hlast a rfl)
  | cons b bs ih =>
    obtain ⟨hab, hrest⟩ := isChain_cons_cons.mp hmeets
    have hle := ih hrest (fun m hm => hlast m (by rw [getLast?_cons_cons]; exact hm))
    intro m hm
    rcases mem_cons.mp hm with rfl | hm
    · have := hle b mem_cons_self
      omega
    · exact hle m hm

/-- A fragment behind the first one starts where another ends. -/
theorem Tiles.exists_before (ht : Tiles total a bs) :
    ∀ m ∈ bs, ∃ m' ∈ a :: bs, m'.ip.ofs + m'.fragLen = m.ip.ofs := by
  have hmeets := ht.meets
  clear ht
  induction bs generalizing a with
  | nil => exact fun m hm => absurd hm not_mem_nil
  | cons b bs ih =>
    obtain ⟨hab, hrest⟩ := isChain_cons_cons.mp hmeets
    intro m hm
    rcases mem_cons.mp hm with rfl | hm
    · exact ⟨a, mem_cons_self, hab⟩
    · obtain ⟨m', hm', heq⟩ := ih hrest m hm
      exact ⟨m', mem_cons_of_mem a hm', heq⟩

/-- Behind the first fragment there is none that starts the datagram. -/
theorem Tiles.ofs_ne_zero (ht : Tiles total a bs) (hpos : ∀ m ∈ a :: bs, 0 < m.fragLen) :
    ∀ b ∈ bs, b.ip.ofs ≠ 0 := by
  have hchain : (a :: bs).IsChain (fun m m' => m.ip.ofs < m'.ip.ofs) := by
    refine ht.meets.imp_of_mem_imp (fun m m' hm _ h => ?_)
    have := hpos m hm
    omega
  have htrans : IsTrans Mbuf (fun m m' => m.ip.ofs < m'.ip.ofs) := ⟨fun _ _ _ => lt_trans⟩
  intro b hb
  have hlt := (pairwise_cons.mp hchain.pairwise).1 b hb
  omega

/-! ## The fragments of an entry -/

/-- **An entry that collects the fragments with a key**, each of which has a
property. -/
structure Gathered (P : Mbuf → Prop) (k : FragKey) (fp : FragPkt) : Prop where
  key : fp.key = some k
  two_le : minFragNum ≤ fp.last_idx
  le_eight : fp.last_idx ≤ maxFragNum
  beyond : ∀ j, fp.last_idx ≤ j → (fp.frags j).mb = none
  middle : ∀ j, firstFragIdx < j → j < fp.last_idx → (fp.frags j).mb ≠ none
  shown : ∀ j m, (fp.frags j).mb = some m → P m ∧ m.ip.key = k ∧ (fp.frags j).ofs = m.ip.ofs ∧
    (fp.frags j).len = m.fragLen ∧ 0 < m.fragLen
  first : ∀ m, (fp.frags firstFragIdx).mb = some m → m.ip.ofs = 0
  other : ∀ j m, j ≠ firstFragIdx → (fp.frags j).mb = some m → m.ip.ofs ≠ 0
  more : ∀ j m, firstFragIdx < j → (fp.frags j).mb = some m → m.ip.moreFrags = true
  last : ∀ m, (fp.frags lastFragIdx).mb = some m →
    m.ip.moreFrags = false ∧ fp.total_size = m.ip.ofs + m.fragLen
  no_last : (fp.frags lastFragIdx).mb = none → fp.total_size = uint32Max
  size : fp.frag_size = (fp.freed.map fragLen).sum

/-- **An entry in use**: there are still bytes missing. -/
structure Collecting (P : Mbuf → Prop) (k : FragKey) (fp : FragPkt) : Prop
    extends Gathered P k fp where
  missing : fp.frag_size < fp.total_size

/-- **An entry that is not in use** has no fragments. -/
structure Idle (fp : FragPkt) : Prop where
  key : fp.key = none
  empty : ∀ j, (fp.frags j).mb = none

variable {P : Mbuf → Prop} {k : FragKey} {fp : FragPkt}

theorem Gathered.mono {Q : Mbuf → Prop} (hg : Gathered P k fp) (h : ∀ m, P m → Q m) :
    Gathered Q k fp :=
  { hg with shown := fun j m hm => (hg.shown j m hm).imp_left (h m) }

theorem Collecting.mono {Q : Mbuf → Prop} (hc : Collecting P k fp) (h : ∀ m, P m → Q m) :
    Collecting Q k fp :=
  ⟨hc.toGathered.mono h, hc.missing⟩

theorem mem_freed {m : Mbuf} : m ∈ fp.freed ↔ ∃ j < fp.last_idx, (fp.frags j).mb = some m := by
  simp [FragPkt.freed]

theorem Gathered.freed (hg : Gathered P k fp) {m : Mbuf} (hm : m ∈ fp.freed) :
    P m ∧ m.ip.key = k ∧ 0 < m.fragLen := by
  obtain ⟨j, -, hj⟩ := mem_freed.mp hm
  obtain ⟨hP, hkey, -, -, hpos⟩ := hg.shown j m hj
  exact ⟨hP, hkey, hpos⟩

/-- An entry that is given up has no fragments any more. -/
theorem idle_free (hbeyond : ∀ j, fp.last_idx ≤ j → (fp.frags j).mb = none) :
    Idle fp.free.invalidate where
  key := rfl
  empty j := by
    show (if j < fp.last_idx then (fp.frags j).clear else fp.frags j).mb = none
    split
    · rfl
    · exact hbeyond j (by omega)

theorem collecting_reset (fp : FragPkt) (hkey : fp.key = some k)
    (hempty : ∀ j, (fp.frags j).mb = none) (tms : UInt64) :
    Collecting P k (fp.reset tms) ∧ (fp.reset tms).freed = [] := by
  have hnone : ∀ j, ((fp.reset tms).frags j).mb = none := by
    intro j
    simp only [FragPkt.reset, update_apply]
    split_ifs
    · rfl
    · rfl
    · exact hempty j
  have hfreed : (fp.reset tms).freed = [] := by simp [FragPkt.freed, hnone]
  refine ⟨?_, hfreed⟩
  exact
    { key := hkey
      two_le := le_refl _
      le_eight := (by decide : minFragNum ≤ maxFragNum)
      beyond := fun j _ => hnone j
      middle := fun j hj hj' => absurd hj' (Nat.not_lt.mpr hj)
      shown := fun j m hm => by rw [hnone j] at hm; simp at hm
      first := fun m hm => by rw [hnone] at hm; simp at hm
      other := fun j m _ hm => by rw [hnone] at hm; simp at hm
      more := fun j m _ hm => by rw [hnone] at hm; simp at hm
      last := fun m hm => by rw [hnone] at hm; simp at hm
      no_last := fun _ => rfl
      size := by rw [hfreed]; rfl
      missing := by show 0 < uint32Max; decide }

/-! ## A fragment is stored -/

/-- One more element of a range is found where there was none. -/
theorem filterMap_range_update {α : Type} {f : ℕ → Option α} {n i : ℕ} (hi : i < n)
    (hnone : f i = none) (a : α) :
    ((range n).filterMap (update f i (some a))).Perm (a :: (range n).filterMap f) := by
  induction n with
  | zero => exact absurd hi (Nat.not_lt_zero i)
  | succ n ih =>
    rw [range_succ, filterMap_append, filterMap_append]
    by_cases hin : i = n
    · subst hin
      have hprev : (range i).filterMap (update f i (some a)) = (range i).filterMap f :=
        filterMap_congr (fun j hj => update_of_ne (mem_range.mp hj).ne _ _)
      simp [hprev, hnone]
    · have hlast : update f i (some a) n = f n := update_of_ne (Ne.symm hin) _ _
      simp only [filterMap_cons, filterMap_nil, hlast]
      exact (ih (by omega)).append_right _

theorem freed_update (ofs len : ℕ) (mb : Mbuf) {last_idx idx : ℕ} {frags : ℕ → Frag}
    (hidx : idx < last_idx) (hnone : (frags idx).mb = none) :
    ((range last_idx).filterMap (fun i => (update frags idx ⟨ofs, len, some mb⟩ i).mb)).Perm
      (mb :: (range last_idx).filterMap (fun i => (frags i).mb)) := by
  have heq : (fun i => (update frags idx ⟨ofs, len, some mb⟩ i).mb) =
      update (fun i => (frags i).mb) idx (some mb) :=
    funext (fun i => apply_update (fun _ f => f.mb) frags idx _ i)
  rw [heq]
  exact filterMap_range_update hidx hnone mb

/-- The slots that are not in use have no fragments. -/
theorem filterMap_range_of_none {α : Type} {f : ℕ → Option α} {n m : ℕ} (hle : n ≤ m)
    (hnone : ∀ j, n ≤ j → f j = none) : (range m).filterMap f = (range n).filterMap f := by
  induction m, hle using Nat.le_induction with
  | base => rfl
  | succ m hm ih =>
    rw [range_succ, filterMap_append, ih]
    simp [hnone m hm]

/-- The entry with a fragment in one of its slots. -/
def FragPkt.put (fp : FragPkt) (idx : ℕ) (mb : Mbuf) : FragPkt :=
  { fp with frags := update fp.frags idx ⟨mb.ip.ofs, mb.fragLen, some mb⟩ }

theorem Gathered.put (hg : Gathered P k fp) {mb : Mbuf} (hP : P mb) (hkey : mb.ip.key = k)
    (hlen : 0 < mb.fragLen) (idx last_idx total_size : ℕ) (hidx : idx < last_idx)
    (hle : fp.last_idx ≤ last_idx) (hle_eight : last_idx ≤ maxFragNum)
    (hnew : ∀ j, fp.last_idx ≤ j → j < last_idx → j = idx) (hnone : (fp.frags idx).mb = none)
    (hfirst : idx = firstFragIdx ↔ mb.ip.ofs = 0)
    (hmore : firstFragIdx < idx → mb.ip.moreFrags = true) (hlast : idx = lastFragIdx →
      mb.ip.moreFrags = false ∧ total_size = mb.ip.ofs + mb.fragLen)
    (hkept : idx ≠ lastFragIdx → total_size = fp.total_size) (hfp' : fp' = FragPkt.put
      { fp with
        frag_size := fp.frag_size + mb.fragLen
        total_size := total_size
        last_idx := last_idx } idx mb) :
    Gathered P k fp' ∧ fp'.freed.Perm (mb :: fp.freed) := by
  subst hfp'
  have hperm : ((range last_idx).filterMap
      (fun i => (update fp.frags idx ⟨mb.ip.ofs, mb.fragLen, some mb⟩ i).mb)).Perm
        (mb :: fp.freed) := by
    have h := freed_update mb.ip.ofs mb.fragLen mb hidx hnone
    rwa [filterMap_range_of_none hle hg.beyond] at h
  refine ⟨?_, hperm⟩
  exact
    { key := hg.key
      two_le := le_trans hg.two_le hle
      le_eight := hle_eight
      beyond := fun j hj => by
        have hne : j ≠ idx := (lt_of_lt_of_le hidx hj).ne'
        simp only [FragPkt.put, update_of_ne hne]
        exact hg.beyond j (le_trans hle hj)
      middle := fun j hj hj' => by
        by_cases hjidx : j = idx
        · simp [FragPkt.put, hjidx]
        · simp only [FragPkt.put, update_of_ne hjidx]
          exact hg.middle j hj (Nat.lt_of_not_le (fun h => hjidx (hnew j h hj')))
      shown := fun j m hm => by
        by_cases hjidx : j = idx
        · simp only [FragPkt.put, hjidx, update_self, Option.some.injEq] at hm ⊢
          subst hm
          exact ⟨hP, hkey, rfl, rfl, hlen⟩
        · simp only [FragPkt.put, update_of_ne hjidx] at hm ⊢
          exact hg.shown j m hm
      first := fun m hm => by
        by_cases hidx1 : firstFragIdx = idx
        · simp only [FragPkt.put, ← hidx1, update_self, Option.some.injEq] at hm
          subst hm
          exact hfirst.mp hidx1.symm
        · simp only [FragPkt.put, update_of_ne hidx1] at hm
          exact hg.first m hm
      other := fun j m hj hm => by
        by_cases hjidx : j = idx
        · simp only [FragPkt.put, hjidx, update_self, Option.some.injEq] at hm
          subst hm
          exact fun h => hj (hjidx.trans (hfirst.mpr h))
        · simp only [FragPkt.put, update_of_ne hjidx] at hm
          exact hg.other j m hj hm
      more := fun j m hj hm => by
        by_cases hjidx : j = idx
        · simp only [FragPkt.put, hjidx, update_self, Option.some.injEq] at hm
          subst hm
          exact hmore (hjidx ▸ hj)
        · simp only [FragPkt.put, update_of_ne hjidx] at hm
          exact hg.more j m hj hm
      last := fun m hm => by
        by_cases hidx0 : lastFragIdx = idx
        · simp only [FragPkt.put, ← hidx0, update_self, Option.some.injEq] at hm
          subst hm
          exact hlast hidx0.symm
        · simp only [FragPkt.put, update_of_ne hidx0] at hm
          have hold := hg.last m hm
          exact ⟨hold.1, (hkept (Ne.symm hidx0)).trans hold.2⟩
      no_last := fun hm => by
        by_cases hidx0 : lastFragIdx = idx
        · simp [FragPkt.put, ← hidx0] at hm
        · simp only [FragPkt.put, update_of_ne hidx0] at hm
          exact (hkept (Ne.symm hidx0)).trans (hg.no_last hm)
      size := by
        have hsum := (hperm.map fragLen).sum_eq
        rw [map_cons, sum_cons] at hsum
        show fp.frag_size + mb.fragLen = _
        rw [hg.size, Nat.add_comm]
        exact hsum.symm }

/-- A fragment that is stored is in a slot of its kind. -/
theorem Gathered.slot (hg : Gathered P k fp) {mb : Mbuf} (hP : P mb) (hkey : mb.ip.key = k)
    (hlen : 0 < mb.fragLen) {idx : ℕ}
    (hslot : fp.slot mb.ip.ofs mb.fragLen mb.ip.moreFrags = (fp', some idx)) :
    Gathered P k (fp'.put idx mb) ∧ (fp'.put idx mb).freed.Perm (mb :: fp.freed) := by
  have htwo := hg.two_le
  rw [minFragNum] at htwo
  rw [FragPkt.slot] at hslot
  by_cases hofs : mb.ip.ofs = 0
  · by_cases hnone : (fp.frags firstFragIdx).mb = none
    · simp only [hofs, if_true, hnone, Option.isNone_none, Prod.mk.injEq,
        Option.some.injEq] at hslot
      obtain ⟨rfl, rfl⟩ := hslot
      exact hg.put hP hkey hlen firstFragIdx fp.last_idx fp.total_size
        (by rw [firstFragIdx]; omega) (le_refl _) hg.le_eight
        (fun j hj hj' => absurd hj' (Nat.not_lt.mpr hj)) hnone (iff_of_true rfl hofs)
        (fun h => absurd h (lt_irrefl _)) (fun h => absurd h (by decide)) (fun _ => rfl) rfl
    · simp [hofs, hnone] at hslot
  by_cases hmore : mb.ip.moreFrags = true
  · by_cases hroom : fp.last_idx < maxFragNum
    · simp only [hofs, if_false, hmore, Bool.not_true, Bool.false_eq_true, hroom, if_true,
        Prod.mk.injEq, Option.some.injEq] at hslot
      obtain ⟨rfl, rfl⟩ := hslot
      exact hg.put hP hkey hlen fp.last_idx (fp.last_idx + 1) fp.total_size
        (Nat.lt_succ_self _) (Nat.le_succ _) hroom
        (fun j hj hj' => by omega) (hg.beyond _ (le_refl _))
        (iff_of_false (by rw [firstFragIdx]; omega) hofs) (fun _ => hmore)
        (fun h => by rw [lastFragIdx] at h; omega) (fun _ => rfl) rfl
    · simp [hofs, hmore, hroom] at hslot
  · rw [Bool.not_eq_true] at hmore
    by_cases hnone : (fp.frags lastFragIdx).mb = none
    · simp only [hofs, if_false, hmore, Bool.not_false, if_true, hnone, Option.isNone_none,
        Prod.mk.injEq, Option.some.injEq] at hslot
      obtain ⟨rfl, rfl⟩ := hslot
      exact hg.put hP hkey hlen lastFragIdx fp.last_idx (mb.ip.ofs + mb.fragLen)
        (by rw [lastFragIdx]; omega) (le_refl _)
        hg.le_eight (fun j hj hj' => absurd hj' (Nat.not_lt.mpr hj)) hnone
        (iff_of_false (by decide) hofs) (fun h => absurd h (by decide)) (fun _ => ⟨hmore, rfl⟩)
        (fun h => absurd rfl h) rfl
    · simp [hofs, hmore, hnone] at hslot

/-- Where there is no slot, the fragments are left as they are. -/
theorem FragPkt.slot_none {ofs len : ℕ} {more_frags : Bool}
    (hslot : fp.slot ofs len more_frags = (fp', none)) :
    fp'.frags = fp.frags ∧ fp'.last_idx = fp.last_idx := by
  rw [FragPkt.slot] at hslot
  dsimp only at hslot
  split_ifs at hslot
  all_goals
    obtain ⟨rfl, h⟩ := Prod.mk.inj hslot
    first
      | exact ⟨rfl, rfl⟩
      | simp at h

@[simp]
theorem FragPkt.slot_start (fp : FragPkt) (ofs len : ℕ) (more_frags : Bool) :
    (fp.slot ofs len more_frags).1.start = fp.start := by
  rw [FragPkt.slot]
  dsimp only
  split_ifs <;> rfl

/-! ## The fragments are all there -/

namespace Gathered

/-- The packets in the slots, one in place of those that are missing. -/
def packets (fp : FragPkt) (mb : Mbuf) (j : ℕ) : Mbuf := (fp.frags j).mb.getD mb

/-- The fragments together are not as long as if the size were unknown. -/
theorem frag_size_lt (hg : Gathered P k fp) : fp.frag_size < uint32Max := by
  have hcount : fp.freed.length ≤ maxFragNum :=
    le_trans (length_filterMap_le _ _) (by rw [length_range]; exact hg.le_eight)
  have hle : ∀ x ∈ fp.freed.map fragLen, x ≤ 65535 := by
    intro x hx
    obtain ⟨m, -, rfl⟩ := mem_map.mp hx
    have hlt := m.ip.total_length.toNat_lt
    rw [fragLen]
    omega
  have hsum := sum_le_card_nsmul _ _ hle
  rw [← hg.size, length_map, nsmul_eq_mul, Nat.cast_id] at hsum
  rw [maxFragNum] at hcount
  rw [uint32Max]
  omega

/-- All slots are filled once the first and the last are. -/
theorem filled (hg : Gathered P k fp) (mb : Mbuf) (hfirst : (fp.frags firstFragIdx).mb ≠ none)
    (hlast : (fp.frags lastFragIdx).mb ≠ none) :
    Filled fp.frags (packets fp mb) (fp.last_idx - 1) := by
  have htwo := hg.two_le
  rw [minFragNum] at htwo
  have hsome : ∀ j ≤ fp.last_idx - 1, (fp.frags j).mb ≠ none := by
    intro j hj
    rcases j with _ | _ | j
    · exact hlast
    · exact hfirst
    · exact hg.middle (j + 2) (by rw [firstFragIdx]; omega) (by omega)
  have hmb : ∀ j ≤ fp.last_idx - 1, (fp.frags j).mb = some (packets fp mb j) := by
    intro j hj
    obtain ⟨m, hm⟩ := Option.ne_none_iff_exists'.mp (hsome j hj)
    rw [packets, hm, Option.getD_some]
  refine ⟨hmb, fun j hj => ?_⟩
  obtain ⟨-, -, -, hlen, hpos⟩ := hg.shown j _ (hmb j hj)
  rw [hlen]
  exact hpos

variable {mb : Mbuf}

variable (hg : Gathered P k fp)

include hg

/-- What an entry holds are the packets in its slots. -/
theorem freed_eq (hf : Filled fp.frags (packets fp mb) (fp.last_idx - 1)) :
    fp.freed = (range fp.last_idx).map (packets fp mb) := by
  have htwo := hg.two_le
  rw [minFragNum] at htwo
  have hmap : fp.freed = (range fp.last_idx).filterMap (fun i => some (packets fp mb i)) :=
    filterMap_congr (fun j hj => hf.mb j (by have := mem_range.mp hj; omega))
  rw [hmap, filterMap_eq_map']

/-- A sum over the slots is one over what the entry holds. -/
theorem sum_slots {A : Type} [AddCommMonoid A]
    (hf : Filled fp.frags (packets fp mb) (fp.last_idx - 1)) (f : Mbuf → A) :
    ∑ j ∈ Finset.range (fp.last_idx - 1 + 1), f (packets fp mb j) = (fp.freed.map f).sum := by
  have htwo := hg.two_le
  rw [minFragNum] at htwo
  have hrange : Finset.range fp.last_idx = (range fp.last_idx).toFinset := by
    ext j
    simp
  rw [Nat.sub_add_cancel (by omega), hg.freed_eq hf, map_map, hrange,
    sum_toFinset _ nodup_range]
  rfl

/-- **A sum over the fragments that is as long as the datagram** is complete. -/
theorem complete (hfirst : (fp.frags firstFragIdx).mb ≠ none)
    (hlast : (fp.frags lastFragIdx).mb ≠ none) (hsize : fp.frag_size = fp.total_size) :
    Complete fp.freed := by
  have htwo := hg.two_le
  rw [minFragNum] at htwo
  obtain ⟨a, ha⟩ := Option.ne_none_iff_exists'.mp hfirst
  obtain ⟨m, hm⟩ := Option.ne_none_iff_exists'.mp hlast
  obtain ⟨hmore, htotal⟩ := hg.last m hm
  refine ⟨⟨a, mem_freed.mpr ⟨firstFragIdx, by rw [firstFragIdx]; omega, ha⟩, hg.first a ha⟩,
    m, mem_freed.mpr ⟨lastFragIdx, by rw [lastFragIdx]; omega, hm⟩,
    hg.other lastFragIdx m (by decide) hm, hmore, ?_⟩
  rw [← htotal, ← hsize, hg.size]

/-- Fragments of which a datagram can be made have as many bytes as it. -/
theorem of_tiled (hlast : (fp.frags lastFragIdx).mb ≠ none) (hperm : (a :: bs).Perm fp.freed)
    (ht : Tiles total a bs) (hend : ∀ m, (a :: bs).getLast? = some m → m.ip.moreFrags = false) :
    fp.frag_size = fp.total_size ∧ fp.total_size = total ∧
      (fp.frags firstFragIdx).mb ≠ none := by
  have htwo := hg.two_le
  rw [minFragNum] at htwo
  have hpos : ∀ m ∈ a :: bs, 0 < m.fragLen := fun m hm => (hg.freed (hperm.subset hm)).2.2
  obtain ⟨l, hl⟩ := Option.ne_none_iff_exists'.mp hlast
  have hlmem : l ∈ a :: bs :=
    hperm.symm.subset (mem_freed.mpr ⟨lastFragIdx, by rw [lastFragIdx]; omega, hl⟩)
  have hlofs : l.ip.ofs ≠ 0 := hg.other lastFragIdx l (by decide) hl
  have hlbs : l ∈ bs := (mem_cons.mp hlmem).resolve_left (fun h => hlofs (h ▸ ht.first))
  -- the last fragment of the order is the one in the slot for it
  have hne := ne_nil_of_mem hlbs
  have hz := getLast?_eq_some_getLast hne
  have hzmem : bs.getLast hne ∈ bs := getLast_mem hne
  have hz' : (a :: bs).getLast? = some (bs.getLast hne) := by
    rw [getLast?_cons_of_ne_nil hne, hz]
  obtain ⟨j, -, hj⟩ := mem_freed.mp (hperm.subset (mem_cons_of_mem a hzmem))
  have hzofs := ht.ofs_ne_zero hpos _ hzmem
  have hj0 : j = lastFragIdx := by
    rcases j with _ | _ | j
    · rfl
    · exact absurd (hg.first _ hj) hzofs
    · have hmore := hg.more _ _ (by rw [firstFragIdx]; omega) hj
      rw [hend _ hz'] at hmore
      simp at hmore
  rw [hj0] at hj
  have htotal : fp.total_size = total := (hg.last _ hj).2.trans (ht.last _ hz')
  refine ⟨?_, htotal, ?_⟩
  · rw [hg.size, htotal, ← (hperm.map fragLen).sum_eq, map_cons, sum_cons]
    exact ht.sum
  · obtain ⟨i, -, hi⟩ := mem_freed.mp (hperm.subset mem_cons_self)
    have hi1 : i = firstFragIdx := by
      by_contra hne1
      exact hg.other i a hne1 hi ht.first
    rw [← hi1, hi]
    simp

/-- Where there is a hole, no datagram can be made of the fragments. -/
theorem not_tiled_of_hole (hf : Filled fp.frags (packets fp mb) (fp.last_idx - 1)) {w : Walk}
    {tail : List ℕ} (hw : Walking fp.frags (packets fp mb) (fp.last_idx - 1) w tail)
    (hofs : w.ofs ≠ (fp.frags firstFragIdx).len)
    (hhole : ∀ j ≤ fp.last_idx - 1, firstFragIdx < j → (fp.frags j).ofs + (fp.frags j).len ≠ w.ofs)
    :
    ¬ Tiled fp.freed := by
  rintro ⟨a, bs, total, hperm, ht, hend⟩
  have hlast : (fp.frags lastFragIdx).mb ≠ none := by
    rw [hf.mb lastFragIdx (Nat.zero_le _)]
    simp
  obtain ⟨-, htotal, -⟩ := hg.of_tiled hlast hperm ht hend
  -- the fragment the walk is at has another one before it
  have hcurr : w.curr_idx ≤ fp.last_idx - 1 := hw.le _ mem_cons_self
  obtain ⟨-, -, hcofs, -, hcpos⟩ := hg.shown _ _ (hf.mb _ hcurr)
  have hcne : (packets fp mb w.curr_idx).ip.ofs ≠ 0 :=
    hg.other _ _ (fun h => hw.first (h ▸ mem_cons_self)) (hf.mb _ hcurr)
  have hcmem : packets fp mb w.curr_idx ∈ a :: bs := by
    refine hperm.symm.subset (mem_freed.mpr ⟨w.curr_idx, ?_, hf.mb _ hcurr⟩)
    have htwo := hg.two_le
    rw [minFragNum] at htwo
    omega
  have hcbs := (mem_cons.mp hcmem).resolve_left (fun h => hcne (h ▸ ht.first))
  obtain ⟨b, hb, hbend⟩ := ht.exists_before _ hcbs
  obtain ⟨j, hjlt, hj⟩ := mem_freed.mp (hperm.subset hb)
  obtain ⟨-, -, hjofs, hjlen, -⟩ := hg.shown j b hj
  have hmeets : (fp.frags j).ofs + (fp.frags j).len = w.ofs := by
    rw [hjofs, hjlen, hbend, ← hcofs, hw.ofs]
  rcases j with _ | _ | j
  · have hle := ht.end_le _ hcmem
    have hbtotal := (hg.last b hj).2
    rw [hw.ofs] at hofs
    omega
  · have hzero : (fp.frags firstFragIdx).ofs = 0 := hjofs.trans (hg.first b hj)
    rw [firstFragIdx] at hzero hofs
    rw [zero_add] at hmeets
    omega
  · exact hhole (j + 2) (by omega) (by rw [firstFragIdx]; omega) hmeets

/-- The fragments in their order tile the datagram. -/
theorem tiles (hf : Filled fp.frags (packets fp mb) (fp.last_idx - 1)) {rest : List ℕ}
    (ho : Ordered fp.frags (fp.last_idx - 1) rest) :
    Tiles fp.total_size (packets fp mb firstFragIdx) (rest.map (packets fp mb)) := by
  have hone : firstFragIdx ≤ fp.last_idx - 1 := ho.le _ mem_cons_self
  have hshown : ∀ j ≤ fp.last_idx - 1, (fp.frags j).ofs = (packets fp mb j).ip.ofs ∧
      (fp.frags j).len = (packets fp mb j).fragLen := fun j hj =>
    ⟨(hg.shown j _ (hf.mb j hj)).2.2.1, (hg.shown j _ (hf.mb j hj)).2.2.2.1⟩
  refine ⟨hg.first _ (hf.mb _ hone), ?_, fun m hm => ?_⟩
  · rw [← map_cons, isChain_map]
    refine ho.meets.imp_of_mem_imp (fun i j hi hj h => ?_)
    rw [Meets, (hshown i (ho.le i hi)).1, (hshown i (ho.le i hi)).2,
      (hshown j (ho.le j hj)).1] at h
    exact h
  · rw [← map_cons, getLast?_map, ho.last, Option.map_some] at hm
    obtain rfl := Option.some.inj hm
    exact (hg.last _ (hf.mb _ (Nat.zero_le _))).2.symm

end Gathered

/-! ## One more fragment -/

/-- **Why an entry is given up**: the datagram has a first or a last fragment
already, or too many others; or there are as many bytes as it has, but they do
not make it up. -/
inductive Refused (fp : FragPkt) (mb : Mbuf) : Prop
  | first (ofs : mb.ip.ofs = 0) (again : ∃ m ∈ fp.freed, m.ip.ofs = 0)
  | last (ofs : mb.ip.ofs ≠ 0) (more : mb.ip.moreFrags = false)
      (again : ∃ m ∈ fp.freed, m.ip.ofs ≠ 0 ∧ m.ip.moreFrags = false)
  | many (ofs : mb.ip.ofs ≠ 0) (more : mb.ip.moreFrags = true) (full : maxFragNum ≤ fp.last_idx)
  | apart (enough : ∃ m ∈ mb :: fp.freed, m.ip.ofs ≠ 0 ∧ m.ip.moreFrags = false ∧
        m.ip.ofs + m.fragLen ≤ ((mb :: fp.freed).map fragLen).sum)
      (not_tiled : ¬ Tiled (mb :: fp.freed))

theorem Gathered.refused (hg : Gathered P k fp) {mb : Mbuf}
    (hslot : fp.slot mb.ip.ofs mb.fragLen mb.ip.moreFrags = (fp', none)) : Refused fp mb := by
  have htwo := hg.two_le
  rw [minFragNum] at htwo
  rw [FragPkt.slot] at hslot
  by_cases hofs : mb.ip.ofs = 0
  · cases hfirst : (fp.frags firstFragIdx).mb with
    | none => simp [hofs, hfirst] at hslot
    | some m =>
      exact Refused.first hofs
        ⟨m, mem_freed.mpr ⟨firstFragIdx, by rw [firstFragIdx]; omega, hfirst⟩, hg.first m hfirst⟩
  by_cases hmore : mb.ip.moreFrags = true
  · by_cases hroom : fp.last_idx < maxFragNum
    · simp [hofs, hmore, hroom] at hslot
    · exact Refused.many hofs hmore (Nat.not_lt.mp hroom)
  · rw [Bool.not_eq_true] at hmore
    cases hlast : (fp.frags lastFragIdx).mb with
    | none => simp [hofs, hmore, hlast] at hslot
    | some m =>
      exact Refused.last hofs hmore
        ⟨m, mem_freed.mpr ⟨lastFragIdx, by rw [lastFragIdx]; omega, hlast⟩,
          hg.other lastFragIdx m (by decide) hlast, (hg.last m hlast).1⟩

/-- **There are as many bytes as the datagram has**, so the last fragment is
there. -/
theorem Gathered.enough (hg : Gathered P k fp) (hmissing : ¬ fp.frag_size < fp.total_size) :
    (fp.frags lastFragIdx).mb ≠ none ∧ ∃ m ∈ fp.freed, m.ip.ofs ≠ 0 ∧ m.ip.moreFrags = false ∧
      m.ip.ofs + m.fragLen ≤ (fp.freed.map fragLen).sum := by
  have htwo := hg.two_le
  rw [minFragNum] at htwo
  cases hlast : (fp.frags lastFragIdx).mb with
  | none =>
    have htotal := hg.no_last hlast
    have hlt := hg.frag_size_lt
    omega
  | some m =>
    obtain ⟨hmore, htotal⟩ := hg.last m hlast
    refine ⟨by simp, m, mem_freed.mpr ⟨lastFragIdx, by rw [lastFragIdx]; omega, hlast⟩,
      hg.other lastFragIdx m (by decide) hlast, hmore, ?_⟩
    rw [← hg.size]
    omega

/-- **What a fragment makes of an entry**: it is stored; or the entry is given
up, and all mbufs are on the death row if those of a complete datagram do not
have too many segments; or the datagram is whole. -/
inductive Outcome (P : Mbuf → Prop) (k : FragKey) (fp : FragPkt) (mb : Mbuf) :
    FragPkt × List Mbuf × Option Mbuf → Prop
  | stored {fp' : FragPkt} (collecting : Collecting P k fp')
      (perm : fp'.freed.Perm (mb :: fp.freed)) (start : fp'.start = fp.start) :
      Outcome P k fp mb (fp', [], none)
  | dropped {fp' : FragPkt} {dr : List Mbuf} (idle : Idle fp') (refused : Refused fp mb)
      (ids : (Complete (mb :: fp.freed) → nbSegsOf (mb :: fp.freed) ≤ maxNbSegs) →
        idsOf dr = idsOf (mb :: fp.freed)) :
      Outcome P k fp mb (fp', dr, none)
  | whole {fp' : FragPkt} {a : Mbuf} {bs : List Mbuf} {total : ℕ} (idle : Idle fp')
      (perm : (a :: bs).Perm (mb :: fp.freed)) (complete : Complete (mb :: fp.freed))
      (tiles : Tiles total a bs) :
      Outcome P k fp mb (fp', [], some { glue a bs with ip := wholeHdr a total })

/-- **What the reassembly makes of an entry**, if its fragments are as long as
the datagram. -/
theorem Gathered.reassemble (hg : Gathered P k fp) (hfirst : (fp.frags firstFragIdx).mb ≠ none)
    (hsize : fp.frag_size = fp.total_size) {fp₀ : FragPkt} {mb : Mbuf}
    (hperm : fp.freed.Perm (mb :: fp₀.freed)) :
    ∃ fp' out, ipv4FragReassemble fp = some (fp', out) ∧
      match out with
      | some m => Outcome P k fp₀ mb (fp'.invalidate, [], some m)
      | none => Outcome P k fp₀ mb (fp'.free.invalidate, fp'.freed, none) := by
  have htwo := hg.two_le
  have hlast : (fp.frags lastFragIdx).mb ≠ none := by
    intro h
    have htotal := hg.no_last h
    have hlt := hg.frag_size_lt
    omega
  have hf := hg.filled mb hfirst hlast
  have hcomplete := hg.complete hfirst hlast hsize
  have hone : firstFragIdx ≤ fp.last_idx - 1 := by
    rw [minFragNum] at htwo
    rw [firstFragIdx]
    omega
  have hfofs : (fp.frags firstFragIdx).ofs = 0 := by
    rw [(hg.shown _ _ (hf.mb _ hone)).2.2.1]
    exact hg.first _ (hf.mb _ hone)
  have hbeyond : ∀ j, ¬ j ≤ fp.last_idx - 1 → (fp.frags j).mb = none := fun j hj =>
    hg.beyond j (by omega)
  rcases ipv4FragReassemble_spec hf htwo hfofs with
    ⟨rest, ho, heq⟩ | ⟨w, tail, hw, heq, hofs, hhole⟩
  · refine ⟨_, _, heq, ?_⟩
    have hall : ∀ j ≤ fp.last_idx - 1, j ∈ firstFragIdx :: rest := by
      refine fun j hj => ho.mem hf hfofs ?_ hj
      have hlens : ∀ j ∈ Finset.range (fp.last_idx - 1 + 1),
          (fp.frags j).len = (packets fp mb j).fragLen := fun j hj =>
        (hg.shown j _ (hf.mb j (Nat.lt_succ_iff.mp (Finset.mem_range.mp hj)))).2.2.2.1
      obtain ⟨hofs₀, hlen₀⟩ := (hg.shown _ _ (hf.mb lastFragIdx (Nat.zero_le _))).2.2.imp_right
        (fun h => h.1)
      rw [Finset.sum_congr rfl hlens, hg.sum_slots hf fragLen, ← hg.size, hsize, hofs₀, hlen₀]
      exact (hg.last _ (hf.mb lastFragIdx (Nat.zero_le _))).2
    have hmap : ((firstFragIdx :: rest).map (packets fp mb)).Perm (mb :: fp₀.freed) := by
      refine ((ho.perm hall).map _).trans ?_
      rw [Nat.sub_add_cancel (by rw [minFragNum] at htwo; omega), ← hg.freed_eq hf]
      exact hperm
    refine Outcome.whole ⟨rfl, fun j => ?_⟩ hmap (hcomplete.perm hperm) (hg.tiles hf ho)
    show (if j ∈ firstFragIdx :: rest then (fp.frags j).clear else fp.frags j).mb = none
    split
    · rfl
    · rename_i hj
      exact hbeyond j (fun h => hj (hall j h))
  · obtain ⟨-, m, hm, hmofs, hmore, hend⟩ := hg.enough (by omega)
    have hrefused : Refused fp₀ mb :=
      Refused.apart
        ⟨m, hperm.subset hm, hmofs, hmore, by rw [← (hperm.map fragLen).sum_eq]; exact hend⟩
        (fun h => hg.not_tiled_of_hole hf hw hofs hhole (h.perm hperm.symm))
    refine ⟨_, _, heq, Outcome.dropped (idle_free (fun j hj => ?_)) hrefused (fun hsegs => ?_)⟩
    · have hj' : ¬ j ≤ fp.last_idx - 1 := by
        have : fp.last_idx ≤ j := hj
        rw [minFragNum] at htwo
        omega
      show (w.frags j).mb = none
      rw [hw.other j (fun h => hj' (hw.le j h))]
      exact hbeyond j hj'
    · have hnb : ∑ j ∈ Finset.range (fp.last_idx - 1 + 1), (packets fp mb j).nb_segs ≤
          maxNbSegs := by
        rw [hg.sum_slots hf nb_segs]
        have h := hsegs (hcomplete.perm hperm)
        rwa [nbSegsOf, ← (hperm.map nb_segs).sum_eq] at h
      have hids := hw.ids hf hnb
      rw [Nat.sub_add_cancel (by rw [minFragNum] at htwo; omega), ← idsOf_filterMap,
        ← idsOf_filterMap] at hids
      exact hids.trans (idsOf_perm hperm)

/-- `ip_frag_process` has one of the outcomes. -/
theorem ipFragProcess_spec (hc : Collecting P k fp) {mb : Mbuf} (hP : P mb)
    (hkey : mb.ip.key = k) (hlen : 0 < mb.fragLen) :
    ∃ r, ipFragProcess fp mb mb.ip.ofs mb.fragLen mb.ip.moreFrags = some r ∧
      Outcome P k fp mb r := by
  rw [ipFragProcess]
  cases hslot : fp.slot mb.ip.ofs mb.fragLen mb.ip.moreFrags with
  | mk fp' idx =>
  have hstart := fp.slot_start mb.ip.ofs mb.fragLen mb.ip.moreFrags
  rw [hslot] at hstart
  cases idx with
  | none =>
    obtain ⟨hfrags, hidx⟩ := FragPkt.slot_none hslot
    have hfreed : fp'.freed = fp.freed := by rw [FragPkt.freed, FragPkt.freed, hfrags, hidx]
    refine ⟨_, rfl, Outcome.dropped (idle_free (fun j hj => ?_)) (hc.toGathered.refused hslot)
      (fun _ => ?_)⟩
    · rw [hfrags]
      exact hc.beyond j (hidx ▸ hj)
    · rw [hfreed]
      exact idsOf_perm (perm_append_singleton _ _)
  | some idx =>
    obtain ⟨hg, hperm⟩ := hc.toGathered.slot hP hkey hlen hslot
    show ∃ r, (if (fp'.put idx mb).frag_size < (fp'.put idx mb).total_size then
      some (fp'.put idx mb, [], none) else _) = some r ∧ _
    by_cases hmissing : (fp'.put idx mb).frag_size < (fp'.put idx mb).total_size
    · rw [if_pos hmissing]
      exact ⟨_, rfl, Outcome.stored ⟨hg, hmissing⟩ hperm hstart⟩
    rw [if_neg hmissing]
    by_cases hall : (fp'.put idx mb).frag_size = (fp'.put idx mb).total_size ∧
        ((fp'.put idx mb).frags firstFragIdx).mb.isSome = true
    · obtain ⟨fp'', out, heq, hout⟩ := hg.reassemble (Option.isSome_iff_ne_none.mp hall.2) hall.1 hperm
      have hpos : (if (fp'.put idx mb).frag_size = (fp'.put idx mb).total_size ∧
          ((fp'.put idx mb).frags firstFragIdx).mb.isSome = true then
            ipv4FragReassemble (fp'.put idx mb) else some (fp'.put idx mb, none)) =
          some (fp'', out) := by rw [if_pos hall, heq]
      refine ⟨_, congrArg (Option.map _) hpos, ?_⟩
      cases out with
      | none => exact hout
      | some m => exact hout
    · have hneg : (if (fp'.put idx mb).frag_size = (fp'.put idx mb).total_size ∧
          ((fp'.put idx mb).frags firstFragIdx).mb.isSome = true then
            ipv4FragReassemble (fp'.put idx mb) else some (fp'.put idx mb, none)) =
          some (fp'.put idx mb, none) := by rw [if_neg hall]
      obtain ⟨hlast, m, hm, hmofs, hmore, hend⟩ := hg.enough hmissing
      have hrefused : Refused fp mb := by
        refine Refused.apart
          ⟨m, hperm.subset hm, hmofs, hmore, by rw [← (hperm.map fragLen).sum_eq]; exact hend⟩
          (fun h => ?_)
        obtain ⟨a, bs, total, hp, ht, hz⟩ := h.perm hperm.symm
        obtain ⟨hsize, -, hfirst⟩ := hg.of_tiled hlast hp ht hz
        exact hall ⟨hsize, Option.isSome_iff_ne_none.mpr hfirst⟩
      exact ⟨_, congrArg (Option.map _) hneg,
        Outcome.dropped (idle_free hg.beyond) hrefused (fun _ => idsOf_perm hperm)⟩

end IpFrag
