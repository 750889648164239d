import DpdkStudy.IpFrag.Fragmentation

/-!
# Cut and put together again

The fragments of a datagram are fed to the reassembly in any order, among
packets with other keys. The last one gives the datagram back, unless one of
the fragments is empty or they do not fit in one packet (`Mendable`).
-/

open List Option Nat

namespace IpFrag

open Function Mbuf

variable {ofs : ℕ} {f : Mbuf} {rest : List Mbuf} {c : Call}

/-! ## The fragments of a datagram -/

/-- **All fragments of a datagram**, from the first to the last, none of them
empty. -/
structure Fragments (k : FragKey) (payload : List UInt8) (fs : List Mbuf) : Prop where
  key : ∀ f ∈ fs, f.ip.key = k
  trimmed : ∀ f ∈ fs, f.trimmed = f
  pos : ∀ f ∈ fs, 0 < f.fragLen
  tiles : ∀ a bs, fs = a :: bs → Tiles payload.length a bs
  more : ∀ f ∈ fs, f.ip.moreFrags = false ↔ fs.getLast? = some f
  increasing : fs.Pairwise (fun m m' => m.ip.ofs < m'.ip.ofs)

/-- A fragment in between. -/
def isMiddle (m : Mbuf) : Bool := decide (m.ip.ofs ≠ 0) && m.ip.moreFrags

variable {k : FragKey} {frag_size : ℕ} {payload : List UInt8}

theorem Piece.trimmed {more_frags : Bool} (hp : Piece k frag_size ofs more_frags f) :
    f.trimmed = f := by
  have hexcess : f.excess = 0 := by
    rw [Mbuf.excess, hp.pkt_len, hp.l2_len]
    simp
  rw [Mbuf.trimmed, hexcess, if_neg (lt_irrefl 0)]

/-- Pieces follow each other, up to the end of the bytes. -/
theorem Pieces.meets {a : Mbuf} {bs : List Mbuf} (h : Pieces k frag_size ofs payload (a :: bs)) :
    a.ip.ofs = ofs ∧ (a :: bs).IsChain (fun m m' => m.ip.ofs + m.fragLen = m'.ip.ofs) ∧
      (∀ m, (a :: bs).getLast? = some m → m.ip.ofs + m.fragLen = ofs + payload.length) ∧
      (a :: bs).flatMap Mbuf.payload = payload := by
  induction bs generalizing a ofs payload with
  | nil =>
    obtain ⟨hp, rest', rfl, rfl⟩ := h
    refine ⟨hp.ofs_eq, isChain_singleton _, fun m hm => ?_, by simp⟩
    have ham : a = m := some.inj hm
    rw [← ham, hp.ofs_eq, hp.fragLen, append_nil]
  | cons b bs ih =>
    obtain ⟨hp, rest', rfl, hrest⟩ := h
    obtain ⟨hofs, hchain, hlast, hbytes⟩ := ih hrest
    refine ⟨hp.ofs_eq, isChain_cons_cons.mpr ⟨by rw [hp.ofs_eq, hofs], hchain⟩,
      fun m hm => ?_, by rw [flatMap_cons, hbytes]⟩
    rw [hlast m (by rw [← hm, getLast?_cons_cons]), hp.fragLen, length_append,
      add_assoc]

theorem Pieces.piece {fs : List Mbuf} (h : Pieces k frag_size ofs payload fs) :
    ∀ f ∈ fs, ∃ ofs more, Piece k frag_size ofs more f := by
  induction fs generalizing ofs payload with
  | nil => exact fun f hf => absurd hf not_mem_nil
  | cons a bs ih =>
    obtain ⟨hp, rest', -, hrest⟩ := h
    intro f hf
    rcases mem_cons.mp hf with rfl | hf
    · exact ⟨_, _, hp⟩
    · exact ih hrest f hf

/-- Fragments that are not empty start one behind the other. -/
theorem pairwise_ofs {fs : List Mbuf}
    (hmeets : fs.IsChain (fun m m' => m.ip.ofs + m.fragLen = m'.ip.ofs))
    (hpos : ∀ f ∈ fs, 0 < f.fragLen) : fs.Pairwise (fun m m' => m.ip.ofs < m'.ip.ofs) := by
  have htrans : IsTrans Mbuf (fun m m' => m.ip.ofs < m'.ip.ofs) := ⟨fun _ _ _ => lt_trans⟩
  refine (hmeets.imp_of_mem_imp (fun m m' hm _ h => ?_)).pairwise
  have := hpos m hm
  omega

/-- The last piece says that there are no more, and no other. -/
theorem Pieces.more {fs : List Mbuf} (h : Pieces k frag_size ofs payload fs)
    (hpos : ∀ f ∈ fs, 0 < f.fragLen) :
    ∀ f ∈ fs, f.ip.moreFrags = false ↔ fs.getLast? = some f := by
  induction fs generalizing ofs payload with
  | nil => exact fun f hf => absurd hf not_mem_nil
  | cons a bs ih =>
    have hpair := pairwise_ofs h.meets.2.1 hpos
    obtain ⟨hp, rest', -, hrest⟩ := h
    cases bs with
    | nil =>
      intro f hf
      rw [mem_singleton.mp hf]
      exact iff_of_true hp.more rfl
    | cons b bs =>
      intro f hf
      rw [getLast?_cons_cons]
      rcases mem_cons.mp hf with rfl | hf
      · refine iff_of_false (by rw [hp.more]; simp) (fun hlast => ?_)
        exact lt_irrefl _ ((pairwise_cons.mp hpair).1 f (mem_of_getLast? hlast))
      · exact ih hrest (fun f hf => hpos f (mem_cons_of_mem a hf)) f hf

/-- Pieces that are not empty are the fragments of a datagram. -/
theorem Pieces.fragments {fs : List Mbuf} (h : Pieces k frag_size 0 payload fs)
    (hpos : ∀ f ∈ fs, 0 < f.fragLen) : Fragments k payload fs where
  key f hf := by
    obtain ⟨ofs, more, hp⟩ := h.piece f hf
    exact hp.key
  trimmed f hf := by
    obtain ⟨ofs, more, hp⟩ := h.piece f hf
    exact hp.trimmed
  pos := hpos
  tiles a bs heq := by
    subst heq
    obtain ⟨hofs, hmeets, hlast, -⟩ := h.meets
    exact ⟨hofs, hmeets, fun m hm => by rw [hlast m hm, zero_add]⟩
  more := h.more hpos
  increasing := by
    cases fs with
    | nil => exact List.Pairwise.nil
    | cons a bs => exact pairwise_ofs h.meets.2.1 hpos

namespace Fragments

variable {fs : List Mbuf}

variable (hf : Fragments k payload fs)

include hf

theorem nodup : (fs.map (fun f => f.ip.ofs)).Nodup :=
  pairwise_map.mpr (hf.increasing.imp (fun h => h.ne))

theorem sum (hne : fs ≠ []) :
    (fs.map fragLen).sum = payload.length := by
  obtain ⟨a, bs, rfl⟩ := exists_cons_of_ne_nil hne
  rw [map_cons, sum_cons]
  exact (hf.tiles a bs rfl).sum

/-- The last fragment ends where the datagram does. -/
theorem end_eq (hmem : f ∈ fs) (hmore : f.ip.moreFrags = false) :
    f.ip.ofs + f.fragLen = payload.length := by
  obtain ⟨a, bs, rfl⟩ := exists_cons_of_ne_nil (ne_nil_of_mem hmem)
  exact (hf.tiles a bs rfl).last f ((hf.more f hmem).mp hmore)

theorem last_unique {g : Mbuf} (hmem : f ∈ fs) (hmem' : g ∈ fs) (hmore : f.ip.moreFrags = false)
    (hmore' : g.ip.moreFrags = false) : f = g :=
  some.inj (((hf.more f hmem).mp hmore).symm.trans ((hf.more g hmem').mp hmore'))

theorem ofs_ne_zero (htwo : 2 ≤ fs.length) (hmem : f ∈ fs) (hmore : f.ip.moreFrags = false) :
    f.ip.ofs ≠ 0 := by
  obtain ⟨a, bs, rfl⟩ := exists_cons_of_ne_nil (ne_nil_of_mem hmem)
  have hlast := (hf.more f hmem).mp hmore
  have hne : bs ≠ [] := by
    rintro rfl
    simp at htwo
  rw [getLast?_cons_of_ne_nil hne] at hlast
  have hlt := (pairwise_cons.mp hf.increasing).1 f (mem_of_getLast? hlast)
  omega

/-- **Fragments in another order** that tile a datagram are in the same order. -/
theorem eq_of_tiles {a : Mbuf} {bs : List Mbuf} {total : ℕ} (hperm : (a :: bs).Perm fs)
    (ht : Tiles total a bs) : a :: bs = fs := by
  have hpair := pairwise_ofs ht.meets (fun m hm => hf.pos m (hperm.subset hm))
  refine List.Perm.eq_of_pairwise (fun m m' _ _ h h' => ?_) hpair hf.increasing hperm
  exact absurd (h.trans h') (lt_irrefl _)

/-- The first and the last fragment are two, the others are in between. -/
theorem countP_isMiddle (htwo : 2 ≤ fs.length) :
    fs.countP isMiddle + 2 = fs.length := by
  obtain ⟨a, bs, rfl⟩ := exists_cons_of_length_pos (l := fs) (by omega)
  have hne : bs ≠ [] := ne_nil_of_length_pos (by rw [length_cons] at htwo; omega)
  obtain ⟨init, z, rfl⟩ : ∃ init z, bs = init ++ [z] :=
    ⟨_, _, (dropLast_append_getLast hne).symm⟩
  have hz : (a :: (init ++ [z])).getLast? = some z := by
    rw [← cons_append, getLast?_concat]
  have hzmore := (hf.more z (mem_of_getLast? hz)).mpr hz
  have hfirst : isMiddle a = false := by simp [isMiddle, (hf.tiles a _ rfl).first]
  have hlast : isMiddle z = false := by simp [isMiddle, hzmore]
  obtain ⟨hafter, hpair⟩ := pairwise_cons.mp hf.increasing
  have hinit : init.countP isMiddle = init.length := by
    refine countP_eq_length.mpr (fun m hm => ?_)
    have hofs := hafter m (mem_append_left _ hm)
    have hbefore := (pairwise_append.mp hpair).2.2 m hm z mem_cons_self
    rw [isMiddle, Bool.and_eq_true, decide_eq_true_iff]
    refine ⟨by omega, Bool.not_eq_false _ ▸ fun hmore => ?_⟩
    have hmem : m ∈ a :: (init ++ [z]) := mem_cons_of_mem a (mem_append_left _ hm)
    rw [hf.last_unique hmem (mem_of_getLast? hz) hmore hzmore] at hbefore
    exact lt_irrefl _ hbefore
  simp [hfirst, hlast, hinit]

end Fragments

/-! ## The entry of a datagram -/

/-- An element for each number of a range is counted. -/
theorem le_countP_filterMap_range {A : Type} {f : ℕ → Option A} {q : A → Bool} (a n : ℕ)
    (h : ∀ j, a ≤ j → j < n → ∃ x, f j = some x ∧ q x = true) :
    n - a ≤ ((range n).filterMap f).countP q := by
  induction n with
  | zero => rw [Nat.zero_sub]; exact Nat.zero_le _
  | succ n ih =>
    have hprev := ih (fun j hj hj' => h j hj (hj'.trans (lt_succ_self n)))
    rw [range_succ, filterMap_append, countP_append]
    by_cases hn : a ≤ n
    · obtain ⟨x, hx, hq⟩ := h n hn (lt_succ_self n)
      have hone : ((([n] : List ℕ).filterMap f).countP q) = 1 := by simp [hx, hq]
      rw [hone]
      omega
    · omega

variable {P : Mbuf → Prop} {fp : FragPkt} {fs : List Mbuf}

/-- All slots but two are for fragments in between. -/
theorem Gathered.le_countP (hg : Gathered P k fp) :
    fp.last_idx - minFragNum ≤ fp.freed.countP isMiddle := by
  refine le_countP_filterMap_range minFragNum fp.last_idx (fun j hj hlt => ?_)
  have hfirst : firstFragIdx < j := hj
  obtain ⟨m, hm⟩ := ne_none_iff_exists'.mp (hg.middle j hfirst hlt)
  refine ⟨m, hm, ?_⟩
  rw [isMiddle, Bool.and_eq_true, decide_eq_true_iff]
  exact ⟨hg.other j m (by omega) hm, hg.more j m hfirst hm⟩

/-- The last fragment says how long the datagram is. -/
theorem Gathered.total_size_eq (hg : Gathered P k fp) {m : Mbuf} (hm : m ∈ fp.freed)
    (hofs : m.ip.ofs ≠ 0) (hmore : m.ip.moreFrags = false) :
    fp.total_size = m.ip.ofs + m.fragLen := by
  obtain ⟨j, -, hj⟩ := mem_freed.mp hm
  match j, hj with
  | 0, hj => exact (hg.last m hj).2
  | 1, hj => exact absurd (hg.first m hj) hofs
  | j + 2, hj =>
    have hmore' := hg.more _ _ (by rw [firstFragIdx]; omega) hj
    rw [hmore] at hmore'
    simp at hmore'

/-- **A fragment is not refused** by the entry that holds others of the same
datagram. -/
theorem Fragments.not_refused (hf : Fragments k payload fs) (htwo : 2 ≤ fs.length)
    (hle : fs.length ≤ maxFragNum) (hg : Gathered P k fp)
    (hperm : ((f :: fp.freed) ++ rest).Perm fs) : ¬ Refused fp f := by
  have hmem : f ∈ fs := hperm.subset (mem_append_left _ mem_cons_self)
  have hstored : ∀ m ∈ fp.freed, m ∈ fs := fun m hm =>
    hperm.subset (mem_append_left _ (mem_cons_of_mem f hm))
  have hne : ∀ m ∈ fp.freed, m.ip.ofs ≠ f.ip.ofs := by
    intro m hm heq
    have hnodup := (hperm.map (fun m => m.ip.ofs)).nodup_iff.mpr hf.nodup
    rw [cons_append, map_cons, nodup_cons] at hnodup
    exact hnodup.1 (heq ▸ mem_map_of_mem (mem_append_left _ hm))
  have hsum := hf.sum (ne_nil_of_mem hmem)
  rw [← (hperm.map fragLen).sum_eq, map_append, sum_append] at hsum
  intro hrefused
  cases hrefused with
  | first ofs again =>
    obtain ⟨m, hm, hofs⟩ := again
    exact hne m hm (hofs.trans ofs.symm)
  | last ofs more again =>
    obtain ⟨m, hm, -, hmore⟩ := again
    exact hne m hm (by rw [hf.last_unique (hstored m hm) hmem hmore more])
  | many ofs more full =>
    have hcount := (hperm.countP_eq isMiddle).trans (by rfl)
    have hmiddle := hf.countP_isMiddle htwo
    have hslots := hg.le_countP
    have hone : isMiddle f = true := by simp [isMiddle, ofs, more]
    rw [cons_append, countP_cons, if_pos hone, countP_append] at hcount
    rw [minFragNum] at hslots
    rw [maxFragNum] at hle full
    omega
  | apart enough not_tiled =>
    obtain ⟨m, hm, -, hmore, hend⟩ := enough
    have hmfs : m ∈ fs := hperm.subset (mem_append_left _ hm)
    rw [hf.end_eq hmfs hmore] at hend
    -- no fragment is missing
    have hrest : rest = [] := by
      by_contra hrest
      obtain ⟨g, gs, rfl⟩ := exists_cons_of_ne_nil hrest
      have hpos := hf.pos g (hperm.subset (mem_append_right _ mem_cons_self))
      rw [map_cons (l := gs), sum_cons] at hsum
      omega
    rw [hrest, append_nil] at hperm
    obtain ⟨a, bs, rfl⟩ := exists_cons_of_ne_nil (ne_nil_of_mem hmem)
    exact not_tiled ⟨a, bs, _, hperm.symm, hf.tiles a bs rfl, fun m hm =>
      (hf.more m (mem_of_getLast? hm)).mpr hm⟩

/-- **What a fragment makes of the entry**: it is stored, unless it is the one
that was missing. -/
theorem Fragments.outcome (hf : Fragments k payload fs) (htwo : 2 ≤ fs.length)
    (hle : fs.length ≤ maxFragNum) (hg : Gathered P k fp)
    (hperm : ((f :: fp.freed) ++ rest).Perm fs) {fp' : FragPkt} {dr : List Mbuf} {out : Option Mbuf}
    (hout : Outcome P k fp f (fp', dr, out)) :
    (rest ≠ [] → out = none ∧ Collecting P k fp' ∧ fp'.freed.Perm (f :: fp.freed) ∧
        fp'.start = fp.start) ∧
      (rest = [] → ∃ a bs, fs = a :: bs ∧
        out = some { glue a bs with ip := wholeHdr a payload.length }) := by
  have hmem : f ∈ fs := hperm.subset (mem_append_left _ mem_cons_self)
  have hsum := hf.sum (ne_nil_of_mem hmem)
  rw [← (hperm.map fragLen).sum_eq, map_append, sum_append] at hsum
  cases hout with
  | stored collecting perm start =>
    refine ⟨fun _ => ⟨rfl, collecting, perm, start⟩, fun hrest => ?_⟩
    -- the last fragment is among those that are stored
    rw [hrest, append_nil] at hperm
    rw [hrest, map_nil, sum_nil, add_zero] at hsum
    obtain ⟨z, hz⟩ : ∃ z, fs.getLast? = some z :=
      ⟨_, getLast?_eq_some_getLast (ne_nil_of_mem hmem)⟩
    have hzmem := mem_of_getLast? hz
    have hzmore := (hf.more z hzmem).mpr hz
    have hend := hf.end_eq hzmem hzmore
    have htotal := collecting.toGathered.total_size_eq ((perm.trans hperm).symm.subset hzmem)
      (hf.ofs_ne_zero htwo hzmem hzmore) hzmore
    have hmissing := collecting.missing
    rw [htotal, hend, collecting.size, (perm.map fragLen).sum_eq] at hmissing
    omega
  | dropped idle refused ids => exact absurd refused (hf.not_refused htwo hle hg hperm)
  | whole idle perm complete tiles =>
    rename_i a bs total
    obtain ⟨-, m, hm, -, hmore, hend⟩ := complete
    rw [hf.end_eq (hperm.subset (mem_append_left _ hm)) hmore] at hend
    have hrest : rest = [] := by
      by_contra hrest
      obtain ⟨g, gs, rfl⟩ := exists_cons_of_ne_nil hrest
      have hpos := hf.pos g (hperm.subset (mem_append_right _ mem_cons_self))
      rw [map_cons (l := gs), sum_cons] at hsum
      omega
    refine ⟨fun h => absurd hrest h, fun _ => ⟨a, bs, ?_, ?_⟩⟩
    · rw [hrest, append_nil] at hperm
      exact (hf.eq_of_tiles (perm.trans hperm) tiles).symm
    · rw [hrest, append_nil] at hperm
      have hlen := hf.sum (ne_nil_of_mem hmem)
      rw [← hf.eq_of_tiles (perm.trans hperm) tiles, map_cons, sum_cons,
        tiles.sum] at hlen
      rw [hlen]

/-! ## A run -/

/-- **The packets with a key** among some calls. -/
def fed (k : FragKey) (calls : List Call) : List Mbuf :=
  (calls.filter (fun c => decide (c.mb.ip.key = k))).map Call.mb

/-- **No timeout**: no call is too late for an entry that another one made. -/
def Punctual (max_cycles : UInt64) (calls : List Call) : Prop :=
  ∀ c ∈ calls, ∀ c' ∈ calls, ¬ max_cycles + c.tms < c'.tms

/-- **The table is large enough**: there is an entry for each packet with the
key. -/
def Roomy (crc : FragKey → UInt32) (k : FragKey) (st : Option St) (c : Call) : Prop :=
  ∀ s, st = some s → c.mb.ip.key = k → ∀ tbl dr found,
    ipFragFind crc s.tbl c.mb.ip.key c.tms = some (tbl, dr, found) → found ≠ none

/-- **The state between two fragments**: those that were fed are in one entry,
which is not timed out as long as calls of a list are made. -/
structure Between (crc : FragKey → UInt32) (k : FragKey) (max_cycles : UInt64) (calls : List Call)
    (done : List Mbuf) (st : St) : Prop where
  tabled : Tabled crc (fun _ => True) st.tbl
  max_cycles_eq : st.tbl.max_cycles = max_cycles
  max_entries : 0 < st.tbl.max_entries
  quiet : ∀ m ∈ st.returned, m.ip.key ≠ k
  absent : done = [] → ∀ p, (st.tbl.pkt p).key ≠ some k
  entry : done ≠ [] → ∃ p, (st.tbl.pkt p).key = some k ∧ (st.tbl.pkt p).freed.Perm done ∧
    ∃ c ∈ calls, (st.tbl.pkt p).start = c.tms

variable {crc : FragKey → UInt32} {max_cycles : UInt64} {calls : List Call} {done : List Mbuf}
  {st : St} {tbl : Tbl}

/-- An entry that a call made is not timed out for another one. -/
theorem Punctual.fresh (hp : Punctual max_cycles calls) {c' : Call} (hc : c ∈ calls)
    (hc' : c' ∈ calls) (hstart : fp.start = c.tms) : fp.timedOut max_cycles c'.tms = false := by
  rw [FragPkt.timedOut, hstart, decide_eq_false_iff_not]
  exact hp c hc c' hc'

/-- A packet with another key leaves the fragments alone. -/
theorem Between.other (hb : Between crc k max_cycles calls done st) (hp : Punctual max_cycles calls)
    (hc : c ∈ calls) (hkey : c.mb.ip.key ≠ k) :
    ∃ st', callStep crc (some st) c = some st' ∧ Between crc k max_cycles calls done st' := by
  obtain ⟨tbl', dr, out, heq, hrec⟩ := (rteIpv4FragReassemblePacket_spec hb.tabled
    (fun _ : 0 < c.mb.fragLen => trivial) c.tms).resolve_left (fun h => hb.max_entries.ne' h.2)
  refine ⟨_, by rw [callStep, bind_some, heq]; rfl, ?_⟩
  exact
    { tabled := hrec.tabled
      max_cycles_eq := hrec.shape.max_cycles.trans hb.max_cycles_eq
      max_entries := hrec.shape.max_entries.symm ▸ hb.max_entries
      quiet := fun m hm => by
        rcases mem_append.mp hm with hm | hm
        · obtain ⟨ms, a, bs, total, ⟨p, hpkey, -, rfl, -⟩, hperm, -, rfl⟩ :=
            hrec.whole m (mem_toList.mp hm)
          have hakey : a.ip.key = c.mb.ip.key := by
            rcases mem_cons.mp (hperm.subset mem_cons_self) with rfl | ha
            · rw [trimmed_ip]
            · exact ((hb.tabled.collecting p _ hpkey).toGathered.freed ha).2.1
          exact fun h => hkey (hakey.symm.trans h)
        · exact hb.quiet m hm
      absent := fun hdone p hpkey => hb.absent hdone p (hrec.keys p k hpkey (Ne.symm hkey))
      entry := fun hdone => by
        obtain ⟨p, hpkey, hperm, c', hc', hstart⟩ := hb.entry hdone
        have hsame := hrec.others p k hpkey (Ne.symm hkey)
          (hb.max_cycles_eq ▸ hp.fresh hc' hc hstart)
        rw [← hsame] at hpkey hperm hstart
        exact ⟨p, hpkey, hperm, c', hc', hstart⟩ }

/-- **The entry for a packet with the key** holds the fragments that were fed. -/
theorem Between.find (hb : Between crc k max_cycles calls done st) (hp : Punctual max_cycles calls)
    (hc : c ∈ calls) (hkey : c.mb.ip.key = k) (hroom : Roomy crc k (some st) c) :
    ∃ tbl₁ dr₁ p, ipFragFind crc st.tbl c.mb.ip.key c.tms = some (tbl₁, dr₁, some p) ∧
      Collecting (fun _ => True) k (tbl₁.pkt p) ∧ (tbl₁.pkt p).freed.Perm done ∧
      ∃ c' ∈ calls, (tbl₁.pkt p).start = c'.tms := by
  obtain ⟨tbl₁, dr₁, found, hfind, hf⟩ := (ipFragFind_spec hb.tabled c.mb.ip.key
    c.tms).resolve_left (fun h => hb.max_entries.ne' h.2)
  obtain ⟨p, rfl⟩ := ne_none_iff_exists'.mp (hroom st rfl hkey tbl₁ dr₁ found hfind)
  have hpkey := hf.key_eq p rfl
  rw [hkey] at hpkey
  refine ⟨tbl₁, dr₁, p, hfind, hf.tabled.collecting p k hpkey, ?_⟩
  by_cases hdone : done = []
  · rcases hf.entry p rfl with ⟨hsame, -⟩ | ⟨hfreed, hstart⟩
    · rw [hsame] at hpkey
      exact absurd hpkey (hb.absent hdone p)
    · rw [hfreed, hdone]
      exact ⟨List.Perm.nil, c, hc, hstart⟩
  · obtain ⟨q, hqkey, hperm, c', hc', hstart⟩ := hb.entry hdone
    -- the entry is kept, and no other has the key
    have hsame := hf.others q (by rw [hqkey]; simp)
      (hb.max_cycles_eq ▸ hp.fresh hc' hc hstart)
    have hpq : p = q := hf.tabled.unique p q k hpkey (by rw [hsame]; exact hqkey)
    rw [hpq, hsame]
    exact ⟨hperm, c', hc', hstart⟩

variable {fs : List Mbuf} {payload : List UInt8}

/-- A fragment that is fed: nothing is returned before the last one. -/
theorem Between.fragment (hb : Between crc k max_cycles calls done st)
    (hp : Punctual max_cycles calls) (hfs : Fragments k payload fs) (htwo : 2 ≤ fs.length)
    (hle : fs.length ≤ maxFragNum) (hc : c ∈ calls) (hkey : c.mb.ip.key = k)
    (hroom : Roomy crc k (some st) c) (rest : List Mbuf) (hperm : (c.mb :: done ++ rest).Perm fs) :
    ∃ tbl' dr out, rteIpv4FragReassemblePacket crc st.tbl c.mb c.tms = some (tbl', dr, out) ∧
      (rest ≠ [] → out = none ∧ ∃ st', callStep crc (some st) c = some st' ∧
        Between crc k max_cycles calls (c.mb :: done) st') ∧
      (rest = [] → ∃ a bs, fs = a :: bs ∧
        out = some { glue a bs with ip := wholeHdr a payload.length }) := by
  obtain ⟨tbl₁, dr₁, p, hfind, hcollecting, hfreed, c', hc', hstart⟩ := hb.find hp hc hkey hroom
  obtain ⟨tbl', dr, out, heq, hrec⟩ := (rteIpv4FragReassemblePacket_spec hb.tabled
    (fun _ : 0 < c.mb.fragLen => trivial) c.tms).resolve_left (fun h => hb.max_entries.ne' h.2)
  have hmem : c.mb ∈ fs := hperm.subset (mem_append_left _ mem_cons_self)
  obtain ⟨dr', hout⟩ := hrec.outcome tbl₁ dr₁ p hfind (hfs.pos _ hmem)
  rw [hkey, hfs.trimmed _ hmem] at hout
  have hperm' : ((c.mb :: (tbl₁.pkt p).freed) ++ rest).Perm fs :=
    ((hfreed.cons c.mb).append_right rest).trans hperm
  obtain ⟨hmore, hlast⟩ := hfs.outcome htwo hle hcollecting.toGathered hperm' hout
  refine ⟨tbl', dr, out, heq, fun hrest => ?_, hlast⟩
  obtain ⟨rfl, hcollecting', hstored, hstart'⟩ := hmore hrest
  refine ⟨rfl, _, by rw [callStep, bind_some, heq]; rfl, ?_⟩
  exact
    { tabled := hrec.tabled
      max_cycles_eq := hrec.shape.max_cycles.trans hb.max_cycles_eq
      max_entries := hrec.shape.max_entries.symm ▸ hb.max_entries
      quiet := hb.quiet
      absent := fun h => absurd h (cons_ne_nil _ _)
      entry := fun _ => ⟨p, hcollecting'.key, hstored.trans (hfreed.cons _), c', hc',
        hstart'.trans hstart⟩ }

/-- Calls before the last fragment return nothing with the key. -/
theorem Between.run (hp : Punctual max_cycles calls) (hfs : Fragments k payload fs)
    (htwo : 2 ≤ fs.length) (hle : fs.length ≤ maxFragNum) (hrest : rest ≠ []) {es : List Call}
    (hes : ∀ c ∈ es, c ∈ calls) (hb : Between crc k max_cycles calls done st)
    (hroom : Runs.Along (callStep crc) (Roomy crc k) (some st) es)
    (hperm : (done ++ fed k es ++ rest).Perm fs) :
    ∃ st' done', Runs.run (callStep crc) (some st) es = some st' ∧
      Between crc k max_cycles calls done' st' ∧ done'.Perm (done ++ fed k es) := by
  induction es generalizing st done with
  | nil => exact ⟨st, done, rfl, hb, by simp [fed]⟩
  | cons c es ih =>
    have hc := hes c mem_cons_self
    have hes' : ∀ c' ∈ es, c' ∈ calls := fun c' hc' => hes c' (mem_cons_of_mem c hc')
    by_cases hkey : c.mb.ip.key = k
    · have hfed : fed k (c :: es) = c.mb :: fed k es := by simp [fed, hkey]
      have hmove : (done ++ fed k (c :: es)).Perm (c.mb :: done ++ fed k es) := by
        rw [hfed]
        exact perm_middle
      have hperm' := (hmove.append_right rest).symm.trans hperm
      obtain ⟨tbl', dr, out, -, hmore, -⟩ := hb.fragment hp hfs htwo hle hc hkey hroom.1
        (fed k es ++ rest) (by rwa [← append_assoc])
      obtain ⟨-, st', hstep, hb'⟩ := hmore (by simp [hrest])
      rw [Runs.Along, hstep] at hroom
      obtain ⟨st'', done', hrun, hb'', hdone⟩ := ih hes' hb' hroom.2 hperm'
      exact ⟨st'', done', by rw [Runs.run, hstep, hrun], hb'', hdone.trans hmove.symm⟩
    · have hfed : fed k (c :: es) = fed k es := by simp [fed, hkey]
      obtain ⟨st', hstep, hb'⟩ := hb.other hp hc hkey
      rw [Runs.Along, hstep] at hroom
      rw [hfed] at hperm ⊢
      obtain ⟨st'', done', hrun, hb'', hdone⟩ := ih hes' hb' hroom.2 hperm
      exact ⟨st'', done', by rw [Runs.run, hstep, hrun], hb'', hdone⟩

/-! ## The datagram that is returned -/

namespace Mbuf

variable {a : Mbuf} {bs : List Mbuf}

theorem card_ids (m : Mbuf) : m.ids.card = m.segs.length := by simp [ids]

/-- The mbufs of some packets are as many as their segments. -/
theorem card_idsOf (ms : List Mbuf) :
    (idsOf ms).card = (ms.map (fun m => m.segs.length)).sum := by
  induction ms with
  | nil => rfl
  | cons m ms ih => rw [idsOf_cons, Multiset.card_add, card_ids, ih, map_cons, sum_cons]

/-- Where no byte is missing, all packets are chained. -/
theorem nbSegsOf_le_of_glue (hhead : ∀ b ∈ bs, b.l2_len + b.l3_len ≤ b.seg.dataLen)
    (hpos : ∀ b ∈ bs, 0 < b.payload.length) (hne : bs ≠ [])
    (hall : a.bytes.length + (bs.map (fun b => b.payload.length)).sum ≤ (glue a bs).bytes.length) :
    nbSegsOf (a :: bs) ≤ maxNbSegs := by
  induction bs generalizing a with
  | nil => exact absurd rfl hne
  | cons b bs ih =>
    have hb := hpos b mem_cons_self
    have hfits : a.nb_segs + (glue b bs).strip.nb_segs ≤ maxNbSegs := by
      by_contra hmany
      rw [glue, chain, if_pos (by omega), map_cons, sum_cons] at hall
      omega
    have hstrip := (strip_eq (m := glue b bs) (by
      rw [glue_l2_len, glue_l3_len, glue_seg]
      exact hhead b mem_cons_self)).1
    rw [glue, chain_bytes hfits, hstrip, length_append, map_cons, sum_cons] at hall
    rw [strip_nb_segs] at hfits
    rw [nbSegsOf_cons]
    cases bs with
    | nil => simpa [glue, nbSegsOf] using hfits
    | cons c bs =>
      have hpayload : (glue b (c :: bs)).payload.length =
          (glue b (c :: bs)).bytes.length - (b.l2_len + b.l3_len) := by
        rw [payload, length_drop, glue_l2_len, glue_l3_len]
      have hown : b.payload.length = b.bytes.length - (b.l2_len + b.l3_len) := by
        rw [payload, length_drop]
      rw [hpayload] at hall
      have hrest := ih (a := b) (fun d hd => hhead d (mem_cons_of_mem b hd))
        (fun d hd => hpos d (mem_cons_of_mem b hd)) (cons_ne_nil c bs) (by omega)
      rwa [glue_nb_segs hrest] at hfits

end Mbuf

/-- A fragment's bytes are its header and its payload. -/
theorem Piece.bytes {more_frags : Bool} (hp : Piece k frag_size ofs more_frags f)
    (hpos : 0 < f.fragLen) :
    f.bytes.length = f.l3_len + f.payload.length ∧
      f.pkt_len = f.l2_len + f.l3_len + f.fragLen ∧ f.l2_len + f.l3_len ≤ f.seg.dataLen := by
  have hl2 := hp.l2_len
  have hheader := hp.header
  have hpkt := hp.pkt_len
  have hlen : f.payload.length = f.bytes.length - (f.l2_len + f.l3_len) := by
    rw [Mbuf.payload, length_drop]
  have hfirst := f.dataLen_le_bytes
  rw [Mbuf.fragLen] at hpos ⊢
  omega

theorem Pieces.length_eq (h : Pieces k frag_size ofs payload fs) (hpos : ∀ f ∈ fs, 0 < f.fragLen) :
    fs.length = (payload.length + frag_size - 1) / frag_size := by
  induction fs generalizing ofs payload with
  | nil =>
    obtain rfl : payload = [] := h
    rcases Nat.eq_zero_or_pos frag_size with h0 | h0
    · simp [h0]
    · rw [length_nil, length_nil, Nat.zero_add, Nat.div_eq_of_lt (by omega)]
  | cons a bs ih =>
    obtain ⟨hp, rest', rfl, hrest⟩ := h
    have hlen := ih hrest (fun f hf => hpos f (mem_cons_of_mem a hf))
    have ha := hpos a mem_cons_self
    have hle := hp.le
    rw [hp.fragLen] at ha hle
    rw [length_cons, length_append, hlen]
    by_cases hbs : bs = []
    · subst hbs
      obtain rfl : rest' = [] := hrest
      rw [length_nil, Nat.zero_add, Nat.add_zero, Nat.div_eq_of_lt (by omega),
        Nat.div_eq_of_lt_le (by omega : 1 * frag_size ≤ _) (by omega)]
    · have hfull := hp.full (by simpa using hbs)
      rw [hp.fragLen] at hfull
      rw [hfull, Nat.add_comm frag_size, Nat.add_assoc, Nat.add_sub_assoc (by omega),
        Nat.add_sub_assoc (by omega), show frag_size + frag_size - 1 = frag_size - 1 + frag_size by
          omega, ← Nat.add_assoc, Nat.add_div_right _ (by omega)]

/-- **What the fragments are chained to** is a packet with the payload, if and
only if they do not have too many segments. -/
theorem Pieces.glue {a : Mbuf} {bs : List Mbuf}
    (h : Pieces k frag_size 0 payload (a :: bs)) (hpos : ∀ f ∈ a :: bs, 0 < f.fragLen)
    (hne : bs ≠ []) (hlen : a.l3_len + payload.length < 2 ^ 16)
    (hsegs : ∀ f ∈ a :: bs, f.nb_segs = f.segs.length % 2 ^ 16) {out : Mbuf} {ip : Ipv4Hdr}
    (hout : out = { Mbuf.glue a bs with ip := ip }) :
    out.payload = payload ∧ out.Valid ↔
      ((a :: bs).map (fun f => f.segs.length)).sum ≤ maxNbSegs := by
  have hbytes := fun f hf => (h.piece f hf).elim (fun _ h => h.elim (fun _ hp => hp.bytes (hpos f hf)))
  have hlens := fun f hf => (h.piece f hf).elim (fun _ h => h.elim (fun _ hp => hp.fragLen))
  have hhead : ∀ b ∈ bs, b.l2_len + b.l3_len ≤ b.seg.dataLen := fun b hb =>
    (hbytes b (mem_cons_of_mem a hb)).2.2
  have hpayload : (a :: bs).flatMap Mbuf.payload = payload := h.meets.2.2.2
  rw [flatMap_cons] at hpayload
  have ha := hbytes a mem_cons_self
  have hsum : a.payload.length + (bs.map (fun b => b.payload.length)).sum = payload.length := by
    rw [← hpayload, length_append, length_flatMap]
  have hownbytes : out.bytes = (Mbuf.glue a bs).bytes := by rw [hout]; rfl
  have hownsegs : out.segs = (Mbuf.glue a bs).segs := by rw [hout]; rfl
  have hownpayload : out.payload = (Mbuf.glue a bs).bytes.drop (a.l2_len + a.l3_len) := by
    rw [hout]
    show (Mbuf.glue a bs).bytes.drop ((Mbuf.glue a bs).l2_len + (Mbuf.glue a bs).l3_len) = _
    rw [glue_l2_len, glue_l3_len]
  have hl2 : a.l2_len = 0 := (h.piece a mem_cons_self).elim (fun _ h => h.elim (fun _ hp =>
    hp.l2_len))
  constructor
  · rintro ⟨hwhole, hvalid⟩
    have hwhole' := congrArg length hwhole
    rw [hownpayload, length_drop] at hwhole'
    have hppos : ∀ b ∈ bs, 0 < b.payload.length := fun b hb => by
      have hb' := mem_cons_of_mem a hb
      rw [← hlens b hb']
      exact hpos b hb'
    have hnb := nbSegsOf_le_of_glue (a := a) hhead hppos hne (by
      obtain ⟨b, bs, rfl⟩ := exists_cons_of_ne_nil hne
      have hb := hppos b mem_cons_self
      rw [map_cons, sum_cons] at hsum ⊢
      omega)
    have hcard := congrArg Multiset.card (glue_ids hnb)
    rw [card_ids, card_idsOf] at hcard
    have hle := hvalid.nb_segs_le
    rw [hvalid.nb_segs, hownsegs, hcard] at hle
    exact hle
  · intro hle
    have heach : ∀ f ∈ a :: bs, f.nb_segs = f.segs.length := by
      intro f hf
      have hone : f.segs.length ≤ ((a :: bs).map (fun f => f.segs.length)).sum :=
        single_le_sum (fun _ _ => zero_le _) _ (mem_map_of_mem hf)
      rw [hsegs f hf]
      rw [maxNbSegs] at hle
      exact mod_eq_of_lt (by omega)
    have hcount : nbSegsOf (a :: bs) = ((a :: bs).map (fun f => f.segs.length)).sum := by
      rw [nbSegsOf, map_congr_left heach]
    rw [← hcount] at hle
    obtain ⟨hglue, hpkt⟩ := glue_eq hle hhead (fun b hb =>
      (hbytes b (mem_cons_of_mem a hb)).2.1)
    have hcard := congrArg Multiset.card (glue_ids hle)
    rw [card_ids, card_idsOf, ← hcount] at hcard
    have hlength : out.bytes.length = a.l3_len + payload.length := by
      rw [hownbytes, hglue, length_append, length_flatMap, ha.1]
      omega
    refine ⟨?_, ?_⟩
    · rw [hownpayload, hglue, drop_append_of_le_length (by omega)]
      exact hpayload
    · have hlensum : (bs.map fragLen).sum = (bs.map (fun b => b.payload.length)).sum := by
        rw [map_congr_left (fun b hb => hlens b (mem_cons_of_mem a hb))]
      exact
        { nb_segs := by
            rw [hownsegs, hcard, ← glue_nb_segs hle, hout]
          nb_segs_le := by
            rw [hout]
            show (Mbuf.glue a bs).nb_segs ≤ maxNbSegs
            rw [glue_nb_segs hle]
            exact hle
          pkt_len := by
            rw [hlength, hout]
            show (Mbuf.glue a bs).pkt_len = _
            have hfirst := hlens a mem_cons_self
            rw [hpkt, hlensum]
            omega
          data_len := fun s hs => by
            have hpart : s.dataLen ≤ out.bytes.length := by
              rw [Mbuf.bytes, length_flatMap, Seg.dataLen]
              exact single_le_sum (fun _ _ => zero_le _) _
                (mem_map_of_mem (f := fun s => s.data.length) hs)
            omega }

/-! ## The round trip -/

/-- **When a datagram can be mended**: it does not end in an empty segment where
a fragment ends, and its fragments do not need too many mbufs, one each for the
header and those that are attached. -/
structure Mendable (pkt : Mbuf) (mtu_size : ℕ) : Prop where
  last : 0 < pkt.lastseg.dataLen ∨ ¬ pkt.fragSize mtu_size ∣ pkt.datagram.length
  segs : (pkt.datagram.length + pkt.fragSize mtu_size - 1) / pkt.fragSize mtu_size +
    attachedFor (pkt.fragSize mtu_size) 0 (restLens pkt.ip.headerLen pkt.segs) ≤ maxNbSegs

/-- **A datagram comes back** with the last call, and not before: a packet with
its payload and its header, without a flag or an offset. -/
def RoundTrips (crc : FragKey → UInt32) (tbl : Tbl) (pkt : Mbuf) (calls : List Call) (c : Call) :
    Prop :=
  ∃ st tbl' dr out, Runs.run (callStep crc) (some (St.fresh tbl)) calls = some st ∧
    (∀ m ∈ st.returned, m.ip.key ≠ pkt.ip.key) ∧
    rteIpv4FragReassemblePacket crc st.tbl c.mb c.tms = some (tbl', dr, some out) ∧
    (out.payload = pkt.datagram ∧ out.Valid) ∧
    out.ip = { pkt.ip with fragment_offset := 0, hdr_checksum := 0 }

/-- The header and the payload of a datagram are as long as it says. -/
theorem Datagram.length_eq {pkt : Mbuf} (hd : Datagram pkt)
    (hheader : pkt.ip.headerLen ≤ pkt.seg.dataLen) :
    pkt.ip.headerLen + pkt.datagram.length = pkt.ip.total_length.toNat := by
  have hfirst := pkt.dataLen_le_bytes
  rw [datagram, length_drop, ← hd.pkt_len, hd.valid.pkt_len]
  omega

/-- The first fragment has the header of the datagram. -/
theorem wholeHdr_fragmentOf {pkt : Mbuf} (hd : Datagram pkt)
    (hflag : pkt.ip.fragment_offset.toNat = 0 ∨ pkt.ip.fragment_offset.toNat = 2 ^ 15)
    (hheader : pkt.ip.headerLen ≤ pkt.seg.dataLen) (mbuf : ℕ) (out : List Seg) (more : Bool) :
    wholeHdr (fragmentOf pkt.cutting mbuf out pkt.ip.fragment_offset more) pkt.datagram.length =
      { pkt.ip with fragment_offset := 0, hdr_checksum := 0 } := by
  have htotal : UInt16.ofNat (pkt.datagram.length + pkt.ip.headerLen) = pkt.ip.total_length := by
    rw [add_comm, hd.length_eq hheader, UInt16.ofNat_toNat]
  have hofs : ((pkt.ip.fragment_offset + UInt16.ofNat (0 / hdrOffsetUnits)) |||
      (if more then hdrMfFlag else 0)) &&& hdrDfFlag = 0 := by
    have hcases : pkt.ip.fragment_offset = 0 ∨ pkt.ip.fragment_offset = 0x8000 :=
      hflag.imp (fun h => UInt16.toNat_inj.mp h) (fun h => UInt16.toNat_inj.mp h)
    rcases hcases with h | h <;> rw [h] <;> cases more <;> decide
  simp only [wholeHdr, fragmentOf, fillIpv4hdrFrag, cutting, htotal, hofs]

theorem fed_append (calls : List Call) (hkey : c.mb.ip.key = k) :
    fed k (calls ++ [c]) = fed k calls ++ [c.mb] := by
  simp [fed, hkey]

theorem Between.fresh {bucket_num bucket_entries max_entries : UInt32} {tbl : Tbl}
    (hcreate : rteIpFragTableCreate bucket_num bucket_entries max_entries max_cycles = some tbl)
    (hmax : max_entries ≠ 0) : Between crc k max_cycles calls [] (St.fresh tbl) := by
  have hspec : Tabled crc (fun _ => True) tbl ∧ _ := rteIpFragTableCreate_spec hcreate
  obtain ⟨htabled, -, hentries, hcycles⟩ := hspec
  rw [rteIpFragTableCreate] at hcreate
  split_ifs at hcreate
  obtain rfl := some.inj hcreate
  exact
    { tabled := htabled
      max_cycles_eq := hcycles
      max_entries := by
        show 0 < max_entries.toNat
        exact pos_of_ne_zero (fun h => hmax (UInt32.toNat_inj.mp h))
      quiet := fun m hm => absurd hm not_mem_nil
      absent := fun _ p => by simp [St.fresh, FragPkt.zero]
      entry := fun h => absurd rfl h }

/-- **A last fragment that is empty** is not stored, and so nothing is returned
with the key. -/
theorem not_returned_of_last_empty
    (htabled : Tabled crc (fun m => m.ip.key = k → m.ip.moreFrags = true) tbl)
    (hkey : c.mb.ip.key = k) (hempty : c.mb.ip.moreFrags = false → c.mb.fragLen = 0) {tbl' : Tbl}
    {dr : List Mbuf} {out : Mbuf} :
    rteIpv4FragReassemblePacket crc tbl c.mb c.tms ≠ some (tbl', dr, some out) := by
  intro heq
  have hpos : 0 < c.mb.fragLen := by
    by_contra hzero
    rw [rteIpv4FragReassemblePacket, if_pos (by rw [fragLen] at hzero; omega)] at heq
    simp at heq
  have hmore : c.mb.ip.moreFrags = true := by
    by_contra h
    exact hpos.ne' (hempty (Bool.eq_false_iff.mpr h))
  rcases rteIpv4FragReassemblePacket_spec htabled
    (fun _ _ => by rw [trimmed_ip]; exact hmore) c.tms with ⟨hnone, -⟩ | ⟨_, _, _, heq', hrec⟩
  · rw [hnone] at heq
    simp at heq
  · rw [heq] at heq'
    obtain ⟨rfl, hrest⟩ := Prod.mk.inj (some.inj heq')
    obtain ⟨rfl, rfl⟩ := Prod.mk.inj hrest
    obtain ⟨ms, a, bs, total, ⟨p, hpkey, -, rfl, -, m, hm, -, hlast, -⟩, -⟩ := hrec.whole out rfl
    have htrue : m.ip.moreFrags = true := by
      rcases mem_cons.mp hm with rfl | hm
      · rw [trimmed_ip]
        exact hmore
      · obtain ⟨hP, hmkey, -⟩ := (htabled.collecting p _ hpkey).toGathered.freed hm
        exact hP (hmkey.trans hkey)
    rw [hlast] at htrue
    simp at htrue

/-- Calls whose fragments are not the last one do not store a last one. -/
theorem tabled_of_last_empty {bucket_num bucket_entries max_entries : UInt32} {tbl : Tbl}
    (hcreate : rteIpFragTableCreate bucket_num bucket_entries max_entries max_cycles = some tbl)
    (hempty : ∀ m ∈ fed k calls, m.ip.moreFrags = false → m.fragLen = 0)
    (hrun : Runs.run (callStep crc) (some (St.fresh tbl)) calls = some st) :
    Tabled crc (fun m => m.ip.key = k → m.ip.moreFrags = true) st.tbl := by
  have hsome : ∀ c ∈ calls, 0 < c.mb.fragLen →
      c.mb.trimmed.ip.key = k → c.mb.trimmed.ip.moreFrags = true := by
    intro c hc hpos hkey
    rw [trimmed_ip] at hkey ⊢
    by_contra h
    have hmem : c.mb ∈ fed k calls :=
      mem_map_of_mem (mem_filter.mpr ⟨hc, by simpa using hkey⟩)
    exact hpos.ne' (hempty _ hmem (Bool.eq_false_iff.mpr h))
  have halong : Runs.Along (callStep crc) (fun _ c => 0 < c.mb.fragLen →
      c.mb.trimmed.ip.key = k → c.mb.trimmed.ip.moreFrags = true) (some (St.fresh tbl)) calls :=
    Runs.along_of_forall (fun c hc _ => hsome c hc) _
  have hinv := halong.invariant (P := fun o => ∀ s, o = some s →
    Tabled crc (fun m => m.ip.key = k → m.ip.moreFrags = true) s.tbl) (by
      intro o c ho hc s hs
      cases o with
      | none => simp [callStep] at hs
      | some s₀ =>
        rcases rteIpv4FragReassemblePacket_spec (ho s₀ rfl) hc c.tms with
          ⟨hnone, -⟩ | ⟨tbl', dr, out, heq, hrec⟩
        · simp [callStep, hnone] at hs
        · rw [callStep, bind_some, heq] at hs
          obtain rfl := some.inj hs
          exact hrec.tabled) (fun s hs => by
      obtain rfl := some.inj hs
      exact (rteIpFragTableCreate_spec hcreate).1)
  exact hinv st hrun

/-- **A datagram that is cut and put together** comes back if and only if it can
be mended: in a table with room for it, without a timeout, whatever the order
of its fragments and the packets among them. -/
theorem fragments_round_trip (crc : FragKey → UInt32)
    (bucket_num bucket_entries max_entries : UInt32) (max_cycles : UInt64) (tbl : Tbl)
    (hcreate : rteIpFragTableCreate bucket_num bucket_entries max_entries max_cycles = some tbl)
    (hmax : max_entries ≠ 0) (pkt : Mbuf) (hd : Datagram pkt) (nb_pkts_out : ℕ)
    (mtu_size : UInt16) (pool_direct pool_indirect : List ℕ) (frags : List Mbuf)
    (hcut : rteIpv4FragmentPacket pkt nb_pkts_out mtu_size.toNat pool_direct pool_indirect =
      .ok frags)
    (htwo : minFragNum ≤ frags.length) (hle : frags.length ≤ maxFragNum)
    (calls : List Call) (c : Call) (hperm : (fed pkt.ip.key (calls ++ [c])).Perm frags)
    (hkey : c.mb.ip.key = pkt.ip.key) (hpunctual : Punctual max_cycles (calls ++ [c]))
    (hroom : Runs.Along (callStep crc) (Roomy crc pkt.ip.key) (some (St.fresh tbl))
      (calls ++ [c])) :
    RoundTrips crc tbl pkt calls c ↔ Mendable pkt mtu_size.toNat := by
  obtain ⟨hloop, hin, hpos, hflag, hheader⟩ := hd.cut hcut
  have hdvd : hdrOffsetUnits ∣ pkt.fragSize mtu_size.toNat := dvd_mul_left _ _
  have hpieces : Pieces pkt.ip.key (pkt.fragSize mtu_size.toNat) 0 pkt.datagram frags :=
    cut_pieces hflag hdvd hpos hin hloop
  have hlastseg : pkt.cutting.in_segs.getLast? = some pkt.lastseg :=
    getLast?_eq_some_getLast _
  rw [fed_append calls hkey] at hperm
  by_cases hlast : 0 < pkt.lastseg.dataLen ∨
      ¬ pkt.fragSize mtu_size.toNat ∣ pkt.datagram.length
  · -- no fragment is empty, and the last call has all of them
    have hne : pkt.datagram ≠ [] := by
      intro hnil
      obtain ⟨a, bs, rfl⟩ := exists_cons_of_length_pos (l := frags) (by
        rw [minFragNum] at htwo
        omega)
      obtain ⟨hp, rest', hbytes, -⟩ := hpieces
      have hbs : bs ≠ [] := by
        rintro rfl
        simp [minFragNum] at htwo
      have hfull := hp.full (by simpa using hbs)
      rw [hnil, append_eq_nil_iff] at hbytes
      rw [hp.fragLen, hbytes.1, length_nil] at hfull
      omega
    have hlens := cut_pos hflag hdvd hpos hin hloop (hlast.imp (fun h s hs => by
      rw [hlastseg] at hs
      exact some.inj hs ▸ h) (fun h => by
      show ¬ _ ∣ 0 + pkt.datagram.length
      rwa [zero_add])) hne
    have hfs := hpieces.fragments hlens
    obtain ⟨hbefore, hroom'⟩ := hroom.append
    have hmem : ∀ c' ∈ calls, c' ∈ calls ++ [c] := fun c' h => mem_append_left _ h
    obtain ⟨st, done, hrun, hb, hdone⟩ := Between.run hpunctual hfs htwo hle
      (cons_ne_nil c.mb []) hmem (Between.fresh hcreate hmax) hbefore
      (by rwa [nil_append])
    rw [hrun] at hroom'
    obtain ⟨tbl', dr, out, heq, -, hout⟩ := hb.fragment hpunctual hfs htwo hle
      (mem_append_right _ mem_cons_self) hkey hroom'.1 [] (by
        rw [append_nil]
        exact ((hdone.cons c.mb).trans (perm_append_singleton c.mb _).symm).trans hperm)
    obtain ⟨a, bs, rfl, rfl⟩ := hout rfl
    have hbs : bs ≠ [] := by
      rintro rfl
      simp [minFragNum] at htwo
    obtain ⟨hsum, hnb⟩ := cut_segs hflag hdvd hpos hin hloop
    obtain ⟨-, h0⟩ | ⟨-, mbuf, _, _, aout, in_segs, _, _, -, hcons, -⟩ := cut_step hloop
    · exact absurd h0 (cons_ne_nil _ _)
    obtain ⟨ha, -⟩ := cons.inj hcons
    have hhdr : wholeHdr a pkt.datagram.length =
        { pkt.ip with fragment_offset := 0, hdr_checksum := 0 } := by
      rw [ha]
      exact wholeHdr_fragmentOf hd hflag hheader mbuf aout _
    have hroom16 : a.l3_len + pkt.datagram.length < 2 ^ 16 := by
      rw [ha, show (fragmentOf pkt.cutting mbuf aout pkt.ip.fragment_offset _).l3_len =
        pkt.ip.headerLen from rfl, hd.length_eq hheader]
      exact pkt.ip.total_length.toNat_lt
    have hglue := hpieces.glue hlens hbs hroom16 hnb
      (rfl : { glue a bs with ip := wholeHdr a pkt.datagram.length } = _)
    have hcount : ((a :: bs).map (fun f => f.segs.length)).sum ≤ maxNbSegs ↔
        Mendable pkt mtu_size.toNat := by
      rw [hsum, hpieces.length_eq hlens]
      exact ⟨fun h => ⟨hlast, h⟩, fun h => h.segs⟩
    rw [← hcount, ← hglue]
    constructor
    · rintro ⟨st', tbl'', dr', out, hrun', -, heq', hpayload, -⟩
      obtain rfl := some.inj (hrun.symm.trans hrun')
      rw [heq] at heq'
      obtain ⟨-, heq'⟩ := Prod.mk.inj (some.inj heq')
      rw [some.inj (Prod.mk.inj heq').2]
      exact hpayload
    · intro hpayload
      exact ⟨st, tbl', dr, _, hrun, hb.quiet, heq, hpayload, hhdr⟩
  · refine iff_of_false ?_ (fun h => hlast h.last)
    rw [not_or, not_lt, not_not, le_zero] at hlast
    have hempty := cut_last_empty hflag hdvd hpos hin hloop hlastseg hlast.1 (by
      show _ ∣ 0 + pkt.datagram.length
      rw [zero_add]
      exact hlast.2)
    rintro ⟨st, tbl', dr, out, hrun, -, heq, -⟩
    refine not_returned_of_last_empty (tabled_of_last_empty hcreate (fun m hm => ?_) hrun) hkey
      (hempty c.mb (hperm.subset (mem_append_right _ mem_cons_self))) heq
    exact hempty m (hperm.subset (mem_append_left _ hm))

theorem Roomy.of_find {st : Option St}
    (h : st.bind (fun s => (ipFragFind crc s.tbl c.mb.ip.key c.tms).map (fun r => r.2.2.isSome)) =
      some true) : Roomy crc k st c := by
  rintro s rfl - tbl dr found hfind rfl
  rw [bind_some, hfind] at h
  simp at h

/-- A datagram of ninety-six bytes, with some segments behind them that are
empty. -/
def ninetySix (empty : ℕ) : Mbuf where
  ip := ⟨0x45, 0, 116, 1, 0, 64, 17, 0, 1, 2, []⟩
  l2_len := 0
  l3_len := 20
  pkt_len := 116
  nb_segs := 1 + empty
  seg := ⟨0, List.replicate 116 0⟩
  next := List.replicate empty ⟨1, []⟩

/-- One of its fragments on a link for packets of sixty-eight bytes. -/
def ninetySixFrag (empty i : ℕ) : Mbuf :=
  ((rteIpv4FragmentPacket (ninetySix empty) 8 68 [10, 11, 12] [20, 21, 22]).toOption.getD []).getD
    i (ninetySix empty)

theorem datagram_ninetySix {empty : ℕ} (hle : empty < maxNbSegs) : Datagram (ninetySix empty) where
  valid :=
    { nb_segs := by
        show 1 + empty = (replicate empty _).length + 1
        rw [length_replicate, add_comm]
      nb_segs_le := by
        show 1 + empty ≤ maxNbSegs
        omega
      pkt_len := by simp [ninetySix, Mbuf.bytes, Mbuf.segs]
      data_len := fun s hs => by
        simp only [ninetySix, Mbuf.segs, mem_cons, mem_replicate] at hs
        rcases hs with rfl | ⟨-, rfl⟩
        · simp [Seg.dataLen]
        · simp [Seg.dataLen] }
  pkt_len := rfl
  header := (by decide : ((0x45 : UInt8) &&& 0x0f).toNat * ihlMultiplier = ipv4HdrSize + 0)
  offset := (by decide : (0 : UInt16) &&& hdrOffsetMask = 0)
  more := (by decide : (0 : UInt16) &&& hdrMfFlag = 0)

theorem punctual_of_zero {calls : List Call} (h : ∀ c ∈ calls, c.tms = 0) :
    Punctual max_cycles calls := by
  intro c hc c' hc' hlt
  rw [h c' hc', UInt64.lt_iff_toNat_lt] at hlt
  exact absurd hlt (not_lt_zero _)

set_option maxRecDepth 10000 in
/-- Two fragments are put together, the last one first. -/
theorem fragments_round_trip_two :
    rteIpv4FragmentPacket (ninetySix 0) 8 68 [10, 11, 12] [20, 21, 22] =
        .ok [ninetySixFrag 0 0, ninetySixFrag 0 1] ∧
      RoundTrips (fun _ => 0) oneEntry (ninetySix 0) [⟨ninetySixFrag 0 1, 0⟩]
        ⟨ninetySixFrag 0 0, 0⟩ := by
  have hcut : rteIpv4FragmentPacket (ninetySix 0) 8 68 [10, 11, 12] [20, 21, 22] =
      .ok [ninetySixFrag 0 0, ninetySixFrag 0 1] := by decide +kernel
  refine ⟨hcut, (fragments_round_trip (fun _ => 0) 1 1 1 0 oneEntry rfl (by decide) (ninetySix 0)
    (datagram_ninetySix (by decide)) 8 68 [10, 11, 12] [20, 21, 22]
    [ninetySixFrag 0 0, ninetySixFrag 0 1] hcut (by decide) (by decide) _ _ ?_ rfl
    (punctual_of_zero (by simp)) ?_).mpr ⟨Or.inl (by decide), by decide +kernel⟩⟩
  · exact List.Perm.swap _ _ _
  · exact ⟨Roomy.of_find (by decide +kernel), Roomy.of_find (by decide +kernel), trivial⟩

set_option maxRecDepth 10000 in
/-- **A datagram that ends in an empty segment** is cut into three fragments, the
last of which is empty: nothing is returned. -/
theorem empty_fragment_not_returned :
    ¬ ∀ (tbl : Tbl) (pkt : Mbuf) (frags : List Mbuf) (calls : List Call) (c : Call),
      rteIpFragTableCreate 1 1 1 0 = some tbl → Datagram pkt →
      rteIpv4FragmentPacket pkt 8 68 [10, 11, 12] [20, 21, 22] = .ok frags →
      minFragNum ≤ frags.length → frags.length ≤ maxFragNum →
      (fed pkt.ip.key (calls ++ [c])).Perm frags → c.mb.ip.key = pkt.ip.key →
      Punctual 0 (calls ++ [c]) →
      Runs.Along (callStep (fun _ => 0)) (Roomy (fun _ => 0) pkt.ip.key) (some (St.fresh tbl))
        (calls ++ [c]) →
      RoundTrips (fun _ => 0) tbl pkt calls c := by
  intro hall
  obtain ⟨st, tbl', dr, out, hrun, -, heq, -⟩ := hall oneEntry (ninetySix 1)
    [ninetySixFrag 1 0, ninetySixFrag 1 1, ninetySixFrag 1 2]
    [⟨ninetySixFrag 1 0, 0⟩, ⟨ninetySixFrag 1 1, 0⟩] ⟨ninetySixFrag 1 2, 0⟩ rfl
    (datagram_ninetySix (by decide)) (by decide +kernel) (by decide) (by decide)
    (List.Perm.refl _) rfl (punctual_of_zero (by simp))
    ⟨Roomy.of_find (by decide +kernel), Roomy.of_find (by decide +kernel),
      Roomy.of_find (by decide +kernel), trivial⟩
  have hnone : ((Runs.run (callStep (fun _ => 0)) (some (St.fresh oneEntry))
      [⟨ninetySixFrag 1 0, 0⟩, ⟨ninetySixFrag 1 1, 0⟩]).bind (fun st =>
        (rteIpv4FragReassemblePacket (fun _ => 0) st.tbl (ninetySixFrag 1 2) 0).bind
          (fun r => r.2.2))).isNone = true := by decide +kernel
  rw [hrun, bind_some] at hnone
  change ((rteIpv4FragReassemblePacket (fun _ => 0) st.tbl (ninetySixFrag 1 2) 0).bind
    (fun r => r.2.2)).isNone = true at hnone
  simp only at heq
  rw [heq] at hnone
  simp at hnone

end IpFrag
