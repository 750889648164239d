import DpdkStudy.Pktmbuf.Holding

/-!
# Clones

A clone has an mbuf for each segment, attached to the buffer of the segment. The
clone is freed like any other packet, and everything is as it was – but not if its
mbufs have pinned buffers: these are lost when the mbufs are attached to others,
and are not found again (`not_restored_of_pinned`).
-/

open List

namespace Pktmbuf

open Function

variable {env : Env} {h h₀ : Heap} {mp : ℕ}

/-! ## Packets that are in order -/

/-- **A packet is as its first mbuf says** (`rte_mbuf_check`), and buffers have
lengths of 16 bits. -/
structure Chain (m : Pkt) : Prop where
  nb_segs : m.nb_segs = m.segs.length
  nb_segs_lt : m.nb_segs < 2 ^ 16
  pkt_len : m.pkt_len = m.bytes.length
  pkt_len_lt : m.pkt_len < 2 ^ 32
  buf_len : ∀ s ∈ m.segs, s.dataLen + s.tailroom < 2 ^ 16

/-- **A packet can be used**: it is in order, each of its segments can be attached
to, and it can be freed. -/
structure Usable (env : Env) (h : Heap) (m : Pkt) : Prop where
  chain : Chain m
  attach : ∀ s ∈ m.segs, ∀ mi, (rtePktmbufAttach h mi s).isSome
  free : (rtePktmbufFree env h m.segs).isSome

/-- A packet in order can be used if its flags tell where its buffers are. -/
theorem Usable.of_told {m : Pkt} (hchain : Chain m) (htold : ∀ s ∈ m.segs, s.Told) :
    Usable env h m where
  chain := hchain
  attach s hs mi := by
    obtain ⟨c, heq, -⟩ := rtePktmbufAttach_eq (h := h) (htold s hs) mi
    rw [heq]
    rfl
  free := rtePktmbufFree_isSome htold

/-- **Segments that are in use**: their flags tell where their buffers are, these are
referred to, less than the counters allow, and they are not those of mbufs in the
pool. -/
structure InUse (h : Heap) (mp more : ℕ) (segs : List Seg) : Prop where
  told : ∀ s ∈ segs, s.Told
  referred : ∀ s ∈ segs, 1 ≤ h.count s.place
  few : ∀ s ∈ segs, h.count s.place + more < 2 ^ 16
  apart : ∀ s ∈ segs, ∀ x ∈ h.free mp, s.place ≠ .embedded x.1

/-! ## Segments that are attached -/

/-- **The mbufs of a clone**: they are lent by the pool, and attached to buffers that
are in use. -/
structure Attached (env : Env) (h₀ h : Heap) (mp : ℕ) (cs : List Seg) : Prop where
  lent : Lent h₀ h mp (cs.map (fun c => (c.mbuf, env.home mp c.mbuf))) (cs.map Seg.place)
  direct : ∀ c ∈ cs, ¬ c.IsDirect
  inUse : InUse h₀ mp 0 cs

/-- **What is known of the first one**: nobody refers to its mbuf, and its buffer is
referred to once more. -/
theorem Attached.head {c : Seg} {cs : List Seg} (hstock : Stocked env h₀ mp)
    (hmem : (c.mbuf, env.home mp c.mbuf) ∈ h₀.free mp) (hin : InUse h₀ mp 0 (c :: cs))
    (hcounted : Counted h₀ h ((c :: cs).map Seg.place)) :
    env.poolOf c.mbuf = mp ∧ h.refcnt c.mbuf = 1 ∧ 2 ≤ h.count c.place := by
  obtain ⟨hpool, -, hone, -⟩ := hstock _ hmem
  refine ⟨hpool, ?_, ?_⟩
  · have hcount := hcounted (.embedded c.mbuf)
    have hzero : ((c :: cs).map Seg.place).count (.embedded c.mbuf) = 0 := by
      refine count_eq_zero.mpr (fun hin' => ?_)
      obtain ⟨s, hs, heq⟩ := mem_map.mp hin'
      exact hin.apart s hs _ hmem heq
    rw [hzero, Nat.add_zero] at hcount
    exact (UInt16.toNat_inj.mp hcount).trans hone
  · have hcount := hcounted c.place
    have hone' := hin.referred c mem_cons_self
    rw [map_cons, count_cons_self] at hcount
    omega

theorem InUse.tail {more : ℕ} {s : Seg} {segs : List Seg} (h' : InUse h mp more (s :: segs)) :
    InUse h mp more segs where
  told t ht := h'.told t (mem_cons_of_mem s ht)
  referred t ht := h'.referred t (mem_cons_of_mem s ht)
  few t ht := h'.few t (mem_cons_of_mem s ht)
  apart t ht := h'.apart t (mem_cons_of_mem s ht)

/-- **The mbufs of a clone are freed**: everything is as it was, if the pool has no
pinned buffers. -/
theorem Attached.free {cs : List Seg} (hstock : Stocked env h₀ mp) (hpin : env.pinned mp = false)
    (ha : Attached env h₀ h mp cs) :
    ∃ h', rtePktmbufFree env h cs = some h' ∧ Restored h₀ h' mp := by
  induction cs generalizing h with
  | nil => exact ⟨h, rfl, ha.lent.restored⟩
  | cons c cs ih =>
    obtain ⟨hpool, hone, htwo⟩ := Attached.head hstock (ha.lent.mem mem_cons_self) ha.inUse
      ha.lent.counted
    have hfree := @rtePktmbufFreeSeg_attached env _ _ (ha.direct c mem_cons_self)
      (ha.inUse.told c mem_cons_self) hone htwo
    rw [hpool, hpin, if_neg (fun hboth => Bool.false_ne_true hboth.2)] at hfree
    have hlent := ha.lent
    rw [map_cons, map_cons, Env.home, if_neg (by rw [hpin]; exact Bool.false_ne_true)]
      at hlent
    obtain ⟨h', heq, hrestored⟩ := ih (h := rteMbufRawFree env (h.unrefer c.place) c.mbuf
      (.embedded c.mbuf)) ⟨hlent.unrefer.rawFree hpool,
        fun d hd => ha.direct d (mem_cons_of_mem c hd), ha.inUse.tail⟩
    refine ⟨h', ?_, hrestored⟩
    rw [rtePktmbufFree, hfree]
    exact heq

/-- How many mbufs of a pool have the buffers that they have of their own. -/
def homes (env : Env) (h : Heap) (mp : ℕ) : ℕ :=
  (h.free mp).countP (fun x => x.2 = env.home mp x.1)

/-- No mbuf of a clone comes back with its pinned buffer. -/
theorem homes_free {cs : List Seg} (hstock : Stocked env h₀ mp) (hpin : env.pinned mp = true)
    (hmem : ∀ c ∈ cs, (c.mbuf, env.home mp c.mbuf) ∈ h₀.free mp)
    (hdirect : ∀ c ∈ cs, ¬ c.IsDirect) (hin : InUse h₀ mp 0 cs)
    (hcounted : Counted h₀ h (cs.map Seg.place)) {h' : Heap}
    (hfree : rtePktmbufFree env h cs = some h') : homes env h' mp = homes env h mp := by
  induction cs generalizing h with
  | nil => rw [← Option.some.inj hfree]
  | cons c cs ih =>
    obtain ⟨hpool, hone, htwo⟩ := Attached.head hstock (hmem c mem_cons_self) hin hcounted
    have hseg := @rtePktmbufFreeSeg_attached env _ _ (hdirect c mem_cons_self)
      (hin.told c mem_cons_self) hone htwo
    rw [rtePktmbufFree, hseg] at hfree
    have hrest := ih (fun d hd => hmem d (mem_cons_of_mem c hd))
      (fun d hd => hdirect d (mem_cons_of_mem c hd)) hin.tail (by
        split
        · exact hcounted.unrefer
        · intro p
          rw [count_rteMbufRawFree]
          exact hcounted.unrefer p) hfree
    rw [hrest]
    split
    · rw [homes, homes, Heap.free_unrefer]
    · have hne : ¬ Place.embedded c.mbuf = env.home mp c.mbuf := by
        rw [Env.home, if_pos hpin]
        exact Place.noConfusion
      rw [homes, homes, rteMbufRawFree, hpool]
      simp only [update_self]
      rw [countP_cons_of_neg (by simpa using hne), Heap.free_unrefer]

/-- **Pinned buffers are lost**: a clone that is freed does not leave everything as it
was. -/
theorem Attached.not_restored_of_pinned {cs : List Seg} (hstock : Stocked env h₀ mp)
    (hpin : env.pinned mp = true) (ha : Attached env h₀ h mp cs) (hne : cs ≠ []) {h' : Heap}
    (hfree : rtePktmbufFree env h cs = some h') : ¬ Restored h₀ h' mp := by
  intro hrestored
  have hhomes := homes_free hstock hpin
    (fun c hc => ha.lent.mem (mem_map_of_mem (f := fun c => (c.mbuf, env.home mp c.mbuf)) hc))
    ha.direct ha.inUse ha.lent.counted hfree
  have hsame : homes env h' mp = homes env h₀ mp := hrestored.free.countP_eq _
  have hlent := ha.lent.free.countP_eq (fun x => x.2 = env.home mp x.1)
  rw [countP_append, countP_map] at hlent
  have hall : cs.countP ((fun x => decide (x.2 = env.home mp x.1)) ∘
      fun c => (c.mbuf, env.home mp c.mbuf)) = cs.length :=
    countP_eq_length.mpr (fun c _ => by simp)
  have hpos := length_pos_of_ne_nil hne
  rw [homes, homes] at hhomes hsame
  omega

/-! ## The clone of a packet -/

/-- **One more segment is attached to**, with an mbuf that was taken for it. -/
theorem attach_one {mc : List Seg} {mi md : Seg}
    (hlent : Lent h₀ h mp ((mi.mbuf, mi.place) :: mc.map (fun c => (c.mbuf, env.home mp c.mbuf)))
      (mc.map Seg.place))
    (hstock : Stocked env h₀ mp) (hdirect : ∀ c ∈ mc, ¬ c.IsDirect) (hmc : InUse h₀ mp 0 mc)
    (hmd : InUse h₀ mp (mc.length + 1) [md]) :
    ∃ c, rtePktmbufAttach h mi md = some (c, h.refer md.place) ∧
      Attached env h₀ (h.refer md.place) mp (mc ++ [c]) ∧ c.data = md.data ∧
      c.tailroom = md.tailroom := by
  have hmi := hstock _ (hlent.mem mem_cons_self)
  have hmem : md ∈ [md] := mem_singleton_self md
  have hfew := hmd.few md hmem
  -- the counter of the buffer does not overflow
  have hlt : h.count md.place + 1 < 2 ^ 16 := by
    have hcount : (mc.map Seg.place).count md.place ≤ (mc.map Seg.place).length :=
      count_le_length
    rw [length_map] at hcount
    rw [hlent.counted md.place]
    omega
  obtain ⟨c, hattach, hmbuf, hplace, hdata, htail, htold, hnot⟩ :=
    rtePktmbufAttach_eq (h := h) (hmd.told md hmem) mi
  have hsplit : ∀ {P : Seg → Prop}, (∀ d ∈ mc, P d) → P c → ∀ d ∈ mc ++ [c], P d := by
    intro P hall hlast d hd
    rcases mem_append.mp hd with hd | hd
    · exact hall d hd
    · rw [mem_singleton.mp hd]
      exact hlast
  refine ⟨c, hattach, ⟨?_, hsplit hdirect hnot, hsplit hmc.told htold, ?_, ?_, ?_⟩, hdata, htail⟩
  · refine (hlent.refer hlt).perm ?_ ?_
    · rw [map_append, map_singleton, hmbuf, ← hmi.2.1]
      exact perm_append_singleton _ _
    · rw [map_append, map_singleton, hplace]
      exact perm_append_singleton _ _
  · exact hsplit hmc.referred (by rw [hplace]; exact hmd.referred md hmem)
  · exact hsplit hmc.few (by rw [hplace]; omega)
  · exact hsplit hmc.apart (by rw [hplace]; exact hmd.apart md hmem)

/-- What a segment has in common with the one it is attached to. -/
def extent (s : Seg) : List UInt8 × ℕ := (s.data, s.tailroom)

/-- The first of some segments that are in use, alone. -/
theorem InUse.first {more few : ℕ} {s : Seg} {segs : List Seg}
    (h' : InUse h mp more (s :: segs)) (hle : few ≤ more) : InUse h mp few [s] := by
  have hmem : ∀ t ∈ [s], t ∈ s :: segs := fun t ht => by
    rw [mem_singleton.mp ht]
    exact mem_cons_self
  refine ⟨fun t ht => h'.told t (hmem t ht), fun t ht => h'.referred t (hmem t ht),
    fun t ht => ?_, fun t ht => h'.apart t (hmem t ht)⟩
  exact Nat.lt_of_le_of_lt (Nat.add_le_add_left hle _) (h'.few t (hmem t ht))

/-- **The loop attaches an mbuf to each segment**, as long as there are mbufs. -/
theorem cloneLoop_spec {mc : List Seg} {mi md : Seg} {rest : List Seg}
    (hlent : Lent h₀ h mp ((mi.mbuf, mi.place) :: mc.map (fun c => (c.mbuf, env.home mp c.mbuf)))
      (mc.map Seg.place))
    (hstock : Stocked env h₀ mp) (hdirect : ∀ c ∈ mc, ¬ c.IsDirect) (hmc : InUse h₀ mp 0 mc)
    (hin : InUse h₀ mp (mc.length + 1 + rest.length) (md :: rest)) :
    ∃ segs done h', cloneLoop env mp h mc mi md rest = some (segs, done, h') ∧ segs ≠ [] ∧
      Attached env h₀ h' mp segs ∧
      (done = true → segs.map extent = (mc ++ md :: rest).map extent) ∧
      (done = false → (h.free mp).length < rest.length) := by
  induction rest generalizing h mc mi md with
  | nil =>
    obtain ⟨c, hattach, hattached, hdata, htail⟩ :=
      attach_one hlent hstock hdirect hmc (hin.first (Nat.le_add_right _ _))
    rw [cloneLoop, hattach]
    refine ⟨mc ++ [c], true, _, rfl, by simp, hattached, fun _ => ?_, fun h => by cases h⟩
    simp [extent, hdata, htail]
  | cons md' rest ih =>
    obtain ⟨c, hattach, hattached, hdata, htail⟩ :=
      attach_one hlent hstock hdirect hmc (hin.first (Nat.le_add_right _ _))
    rw [cloneLoop, hattach, Option.bind_eq_bind, Option.bind_some]
    dsimp only
    cases halloc : rtePktmbufAlloc env (h.refer md.place) mp with
    | none =>
      refine ⟨mc ++ [c], false, _, rfl, by simp, hattached, (fun h => by cases h), fun _ => ?_⟩
      rw [rtePktmbufAlloc_eq_none, Heap.free_refer] at halloc
      simp [halloc]
    | some r =>
      obtain ⟨mi', h'⟩ := r
      have hmore : mc.length + 1 + (md' :: rest).length = (mc ++ [c]).length + 1 + rest.length := by
        simp only [length_append, length_cons, length_nil]
        omega
      obtain ⟨hlent', -, -, -, hlength⟩ := hattached.lent.alloc halloc
      obtain ⟨segs, done, h'', heq, hne, hall, hsame, hfew⟩ :=
        ih hlent' hattached.direct hattached.inUse (hmore ▸ hin.tail)
      refine ⟨segs, done, h'', heq, hne, hall, fun hdone => ?_, fun hdone => ?_⟩
      · rw [hsame hdone]
        simp [extent, hdata, htail]
      · have hlt := hfew hdone
        rw [Heap.free_refer] at hlength
        rw [length_cons]
        omega

/-- **The clone of a packet**, segment by segment, or those of its segments that there
were mbufs for. -/
theorem rtePktmbufClone_spec {m : Pkt} (hstock : Stocked env h mp)
    (hin : InUse h mp m.segs.length m.segs) {mi : Seg} {h₁ : Heap}
    (halloc : rtePktmbufAlloc env h mp = some (mi, h₁)) :
    ∃ segs h', segs ≠ [] ∧ Attached env h h' mp segs ∧
      ((segs.map extent = m.segs.map extent ∧ ∃ s next, segs = s :: next ∧
          rtePktmbufClone env h m mp =
            some (some ⟨s, next, segs.length % 2 ^ 16, m.pkt_len⟩, h')) ∨
        ((h.free mp).length < m.segs.length ∧
          rtePktmbufClone env h m mp =
            (rtePktmbufFree env h' segs).map (fun h => (none, h)))) := by
  obtain ⟨hlent, -, -, -, hlength⟩ := (Lent.refl h mp).alloc halloc
  have hmore : m.segs.length = ([] : List Seg).length + 1 + m.next.length := by
    simp only [Pkt.segs, length_cons, length_nil]
    omega
  obtain ⟨segs, done, h', heq, hne, hall, hsame, hfew⟩ :=
    @cloneLoop_spec _ _ _ _ [] _ _ _ hlent hstock nofun ⟨nofun, nofun, nofun, nofun⟩ (hmore ▸ hin)
  refine ⟨segs, h', hne, hall, ?_⟩
  rw [rtePktmbufClone, halloc]
  simp only
  rw [heq]
  show _ ∧ (∃ s next, segs = s :: next ∧ (if done then _ else _) = _) ∨
    _ ∧ (if done then _ else _) = _
  cases done with
  | true =>
    obtain ⟨s, next, rfl⟩ := exists_cons_of_ne_nil hne
    exact .inl ⟨hsame rfl, s, next, rfl, rfl⟩
  | false =>
    refine .inr ⟨?_, rfl⟩
    have hlt := hfew rfl
    rw [Pkt.segs, length_cons]
    omega

/-- A packet with the lengths of one that is in order is in order. -/
theorem Chain.of_extent {m : Pkt} (hchain : Chain m) {s : Seg} {next : List Seg}
    (hsame : (s :: next).map extent = m.segs.map extent) :
    Chain ⟨s, next, (s :: next).length % 2 ^ 16, m.pkt_len⟩ ∧
      (s :: next).map Seg.data = m.segs.map Seg.data := by
  have hlength : (s :: next).length = m.segs.length := by
    simpa using congrArg length hsame
  have hdata : (s :: next).map Seg.data = m.segs.map Seg.data := by
    have hfst := congrArg (map Prod.fst) hsame
    rwa [map_map, map_map] at hfst
  have hlt : (s :: next).length < 2 ^ 16 := by
    rw [hlength, ← hchain.nb_segs]
    exact hchain.nb_segs_lt
  refine ⟨⟨Nat.mod_eq_of_lt hlt, Nat.mod_lt _ (Nat.two_pow_pos 16), ?_, hchain.pkt_len_lt,
    fun t ht => ?_⟩, hdata⟩
  · show m.pkt_len = ((s :: next).flatMap Seg.data).length
    rw [hchain.pkt_len, Pkt.bytes, flatMap_def, flatMap_def, hdata]
  · have hmem : extent t ∈ m.segs.map extent := hsame ▸ mem_map_of_mem (f := extent) ht
    obtain ⟨t', ht', hext⟩ := mem_map.mp hmem
    have hlt' := hchain.buf_len t' ht'
    obtain ⟨hd, htail⟩ := Prod.mk.inj hext
    rw [Seg.dataLen, hd, htail] at hlt'
    exact hlt'

/-- **What a clone is to be**: the same bytes in each segment, a packet that can be
used and that gives back what it holds; without mbufs, nothing is held. -/
def CloneOk (env : Env) (h : Heap) (mp : ℕ) (m : Pkt) : Prop :=
  ∃ r h', rtePktmbufClone env h m mp = some (r, h') ∧
    match r with
    | none => (h.free mp).length < m.segs.length ∧ Restored h h' mp
    | some mc =>
      mc.segs.map Seg.data = m.segs.map Seg.data ∧ Usable env h' mc ∧
        ∃ h'', rtePktmbufFree env h' mc.segs = some h'' ∧ Restored h h'' mp

/-- **Clones are what they are to be exactly for pools without pinned buffers**, and for
those without mbufs. -/
theorem cloneOk_iff {m : Pkt} (hchain : Chain m) (hstock : Stocked env h mp)
    (hin : InUse h mp m.segs.length m.segs) :
    CloneOk env h mp m ↔ h.free mp = [] ∨ env.pinned mp = false := by
  cases halloc : rtePktmbufAlloc env h mp with
  | none =>
    have hnone : rtePktmbufClone env h m mp = some (none, h) := by rw [rtePktmbufClone, halloc]
    have hempty := rtePktmbufAlloc_eq_none.mp halloc
    refine iff_of_true ⟨none, h, hnone, ?_, (Lent.refl h mp).restored⟩ (.inl hempty)
    rw [hempty]
    exact Nat.zero_lt_succ _
  | some r =>
    obtain ⟨mi, h₁⟩ := r
    have hnot : ¬ h.free mp = [] := fun hempty => by
      rw [rtePktmbufAlloc_eq_none.mpr hempty] at halloc
      cases halloc
    rw [or_iff_right hnot]
    obtain ⟨segs, h', hne, hall, hcases⟩ := rtePktmbufClone_spec hstock hin halloc
    have hcan := @rtePktmbufFree_isSome env h' segs hall.inUse.told
    constructor
    · intro hok
      by_contra hpin
      rw [Bool.not_eq_false] at hpin
      obtain ⟨r, h'', heq, hr⟩ := hok
      rcases hcases with ⟨-, s, next, rfl, hclone⟩ | ⟨-, hclone⟩
      · rw [hclone] at heq
        obtain ⟨rfl, rfl⟩ := Prod.mk.inj (Option.some.inj heq)
        obtain ⟨-, -, h₃, hfree, hrestored⟩ := hr
        exact hall.not_restored_of_pinned hstock hpin hne hfree hrestored
      · rw [hclone] at heq
        obtain ⟨h₃, hfree, hpair⟩ := Option.map_eq_some_iff.mp heq
        obtain ⟨rfl, rfl⟩ := Prod.mk.inj hpair
        exact hall.not_restored_of_pinned hstock hpin hne hfree hr.2
    · intro hpin
      obtain ⟨h₃, hfree, hrestored⟩ := hall.free hstock hpin
      rcases hcases with ⟨hsame, s, next, rfl, hclone⟩ | ⟨hfew, hclone⟩
      · obtain ⟨hchain', hdata⟩ := hchain.of_extent hsame
        exact ⟨_, h', hclone, hdata, Usable.of_told hchain' hall.inUse.told, h₃, hfree, hrestored⟩
      · rw [hfree] at hclone
        exact ⟨none, h₃, hclone, hfew, hrestored⟩

end Pktmbuf
