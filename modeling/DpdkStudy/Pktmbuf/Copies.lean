import DpdkStudy.Pktmbuf.Reading

/-!
# Copies

A copy has the bytes of a packet in new mbufs, each full but the last one. The
first mbuf has the flags of the packet, without those that say where its buffer is:
right for an mbuf whose buffer is behind it, and wrong for one with a pinned buffer,
which nobody can attach to then (`copyOk_iff`).
-/

open List

namespace Pktmbuf

open Function

variable {env : Env} {h h₀ : Heap} {mp : ℕ}

/-! ## The mbufs of a pool -/

/-- What a segment has of its pool. -/
def owned (s : Seg) : ℕ × Place := (s.mbuf, s.place)

/-- The mbufs that were taken are freed, and everything is as it was. -/
theorem free_owned {segs : List Seg} (hstock : Stocked env h₀ mp)
    (hlent : Lent h₀ h mp (segs.map owned) [])
    (hown : ∀ s ∈ segs, s.IsDirect ∨ s.HasExtbuf ∧ env.pinned mp = true) :
    ∃ h', rtePktmbufFree env h segs = some h' ∧ Restored h₀ h' mp := by
  induction segs generalizing h with
  | nil => exact ⟨h, rfl, hlent.restored⟩
  | cons s segs ih =>
    obtain ⟨hpool, hhome, hone, hpin⟩ := hstock _ (hlent.mem mem_cons_self)
    simp only [owned] at hpool hhome hone hpin
    have hcount : ∀ p, h.count p = h₀.count p := hlent.counted
    have hone' : h.refcnt s.mbuf = 1 := by
      rw [← hone]
      exact UInt16.toNat_inj.mp (hcount (.embedded s.mbuf))
    have hfree := @rtePktmbufFreeSeg_own env h s hone' (by
      refine (hown s mem_cons_self).imp_right (fun hboth => ⟨hboth.1, ?_, ?_⟩)
      · rw [hpool]
        exact hboth.2
      · rw [Env.home, if_pos hboth.2] at hhome
        refine ⟨env.pin s.mbuf, hhome, ?_⟩
        rw [← hpin hboth.2]
        exact UInt16.toNat_inj.mp (hcount (.external (env.pin s.mbuf))))
    obtain ⟨h', heq, hrestored⟩ := ih (hlent.rawFree hpool)
      (fun t ht => hown t (mem_cons_of_mem s ht))
    refine ⟨h', ?_, hrestored⟩
    rw [rtePktmbufFree, hfree]
    exact heq

/-! ## The loop -/

namespace Copy

/-- The segments of a copy. -/
def segs (mc : Copy) : List Seg := mc.front ++ [mc.m_last]

/-- **A copy in the making**: its mbufs are those of the pool, the first ones are full,
and the flags are right but for the first one. -/
structure Making (env : Env) (h₀ h : Heap) (mp : ℕ) (mc : Copy) : Prop where
  lent : Lent h₀ h mp (mc.segs.map owned) []
  full : ∀ s ∈ mc.front, s.tailroom = 0
  room : ∀ s ∈ mc.segs, s.dataLen + s.tailroom = env.room mp
  direct : ∃ s next, mc.segs = s :: next ∧ s.IsDirect ∧
    ∀ t ∈ next, t.ol_flags = if env.pinned mp then fExternal else 0
  nb_segs : mc.nb_segs = mc.segs.length % 2 ^ 16
  pkt_len : mc.pkt_len = (bytesOf mc.segs).length % 2 ^ 32

variable {mc : Copy}

theorem segs_append (mc : Copy) (bytes : List UInt8) :
    (mc.append bytes).segs = mc.front ++ [{ mc.m_last with
      data := mc.m_last.data ++ bytes, tailroom := mc.m_last.tailroom - bytes.length }] := rfl

/-- The bytes that are appended are the last ones. -/
theorem bytesOf_segs_append (mc : Copy) (bytes : List UInt8) :
    bytesOf (mc.append bytes).segs = bytesOf mc.segs ++ bytes := by
  simp [Copy.append, segs]

/-- Bytes are appended where there is room for them. -/
theorem Making.append (hm : Making env h₀ h mp mc) {bytes : List UInt8}
    (hroom : bytes.length ≤ mc.m_last.tailroom) :
    Making env h₀ h mp (mc.append bytes) := by
  obtain ⟨s, next, hsegs, hdirect, hflags⟩ := hm.direct
  have howned : (mc.append bytes).segs.map owned = mc.segs.map owned := by
    simp [Copy.append, segs, owned]
  refine ⟨howned ▸ hm.lent, hm.full, fun t ht => ?_, ?_, ?_, ?_⟩
  · rcases mem_append.mp ht with ht | ht
    · exact hm.room t (mem_append_left _ ht)
    · rw [mem_singleton.mp ht]
      have hlast := hm.room mc.m_last (mem_append_right _ (mem_singleton_self _))
      show (mc.m_last.data ++ bytes).length + (mc.m_last.tailroom - bytes.length) = env.room mp
      rw [Seg.dataLen] at hlast
      rw [length_append]
      omega
  · rw [segs_append]
    rw [segs] at hsegs
    cases hfront : mc.front with
    | nil =>
      rw [hfront] at hsegs
      obtain ⟨rfl, rfl⟩ := cons.inj hsegs
      exact ⟨_, [], rfl, hdirect, fun t ht => by cases ht⟩
    | cons f front =>
      rw [hfront] at hsegs
      obtain ⟨rfl, rfl⟩ := cons.inj hsegs
      refine ⟨f, _, rfl, hdirect, fun t ht => ?_⟩
      rcases mem_append.mp ht with ht | ht
      · exact hflags t (mem_append_left _ ht)
      · rw [mem_singleton.mp ht]
        exact hflags mc.m_last (mem_append_right _ (mem_singleton_self _))
  · rw [segs_append]
    show mc.nb_segs = _
    rw [hm.nb_segs, segs, length_append, length_append]
    rfl
  · rw [bytesOf_segs_append, length_append]
    show (mc.pkt_len + bytes.length) % 2 ^ 32 = _
    rw [hm.pkt_len, Nat.mod_add_mod]

/-- A full buffer has a new one chained to it, if there is an mbuf. -/
theorem Making.chainNew (hm : Making env h₀ h mp mc) :
    match mc.chainNew env h mp with
    | none => mc.m_last.tailroom = 0 ∧ h.free mp = []
    | some (mc', h') => Making env h₀ h' mp mc' ∧ bytesOf mc'.segs = bytesOf mc.segs ∧
        (mc.m_last.tailroom ≠ 0 ∧ mc' = mc ∧ h' = h ∨
          mc.m_last.tailroom = 0 ∧ mc'.m_last.tailroom = env.room mp ∧
            (h'.free mp).length + 1 = (h.free mp).length) := by
  rw [Copy.chainNew]
  by_cases hfull : mc.m_last.tailroom = 0
  · rw [if_pos hfull]
    cases halloc : rtePktmbufAlloc env h mp with
    | none => exact ⟨hfull, rtePktmbufAlloc_eq_none.mp halloc⟩
    | some r =>
      obtain ⟨m_last, h'⟩ := r
      obtain ⟨hlent, hdata, htail, hflags, hlength⟩ := hm.lent.alloc halloc
      obtain ⟨s, next, hsegs, hdirect, hnext⟩ := hm.direct
      rw [Option.map_some]
      refine ⟨⟨hlent.perm ?_ (List.Perm.refl _), fun t ht => ?_, fun t ht => ?_, ?_, ?_, ?_⟩, ?_,
        .inr ⟨hfull, htail, hlength⟩⟩
      · rw [segs, map_append]
        exact perm_append_singleton _ _
      · rcases mem_append.mp ht with ht | ht
        · exact hm.full t ht
        · rw [mem_singleton.mp ht]
          exact hfull
      · rcases mem_append.mp ht with ht | ht
        · exact hm.room t ht
        · rw [mem_singleton.mp ht, Seg.dataLen]
          show m_last.data.length + m_last.tailroom = env.room mp
          rw [hdata, htail, length_nil, Nat.zero_add]
      · refine ⟨s, next ++ [m_last], ?_, hdirect, fun t ht => ?_⟩
        · show mc.segs ++ [m_last] = _
          rw [hsegs, cons_append]
        · rcases mem_append.mp ht with ht | ht
          · exact hnext t ht
          · rw [mem_singleton.mp ht]
            exact hflags
      · show (mc.nb_segs + 1) % 2 ^ 16 = (mc.segs ++ [m_last]).length % 2 ^ 16
        rw [hm.nb_segs, length_append, Nat.mod_add_mod]
        rfl
      · show mc.pkt_len = (bytesOf (mc.segs ++ [m_last])).length % 2 ^ 32
        rw [hm.pkt_len, bytesOf_append]
        simp [hdata]
      · show bytesOf (mc.segs ++ [m_last]) = _
        rw [bytesOf_append]
        simp [hdata]
  · rw [if_neg hfull]
    exact ⟨hm, rfl, .inl ⟨hfull, rfl, rfl⟩⟩

/-- **What there is in a copy**: the full segments, and what is in the last one. -/
theorem Making.length (hm : Making env h₀ h mp mc) :
    (bytesOf mc.segs).length = env.room mp * mc.front.length + mc.m_last.dataLen := by
  have hfront : ∀ front : List Seg, (∀ s ∈ front, s.tailroom = 0) →
      (∀ s ∈ front, s.dataLen + s.tailroom = env.room mp) →
      (bytesOf front).length = env.room mp * front.length := by
    intro front hfull hroom
    induction front with
    | nil => rfl
    | cons s front ih =>
      have hs := hroom s mem_cons_self
      rw [hfull s mem_cons_self, Nat.add_zero, Seg.dataLen] at hs
      rw [bytesOf_cons, length_append, hs, length_cons, Nat.mul_succ, Nat.add_comm,
        ih (fun t ht => hfull t (mem_cons_of_mem s ht))
          (fun t ht => hroom t (mem_cons_of_mem s ht))]
  rw [segs, bytesOf_append, length_append,
    hfront mc.front hm.full (fun s hs => hm.room s (mem_append_left _ hs))]
  simp [Seg.dataLen]

/-- The mbufs of a copy are so many of those that there were. -/
theorem Making.taken (hm : Making env h₀ h mp mc) :
    mc.front.length + 1 + (h.free mp).length = (h₀.free mp).length := by
  have hperm := hm.lent.free.length_eq
  rw [length_append, length_map, segs, length_append] at hperm
  exact hperm

/-- The copy is freed, and everything is as it was. -/
theorem Making.free (hstock : Stocked env h₀ mp) (hm : Making env h₀ h mp mc) :
    ∃ h', rtePktmbufFree env h mc.segs = some h' ∧ Restored h₀ h' mp := by
  refine free_owned hstock hm.lent (fun s hs => ?_)
  obtain ⟨f, next, hsegs, hdirect, hflags⟩ := hm.direct
  rw [hsegs] at hs
  rcases mem_cons.mp hs with rfl | hs
  · exact .inl hdirect
  · have hflag := hflags s hs
    by_cases hpin : env.pinned mp = true
    · rw [if_pos hpin] at hflag
      refine .inr ⟨?_, hpin⟩
      rw [Seg.HasExtbuf, hflag]
      decide
    · rw [if_neg hpin] at hflag
      refine .inl ?_
      rw [Seg.IsDirect, hflag, UInt64.zero_and]

end Copy

/-- A packet that is made of a copy has its segments. -/
@[simp]
theorem Pkt.segs_ofSegs (front : List Seg) (last : Seg) (nb_segs pkt_len : ℕ) :
    (Pkt.ofSegs front last nb_segs pkt_len).segs = front ++ [last] := by
  cases front <;> rfl

@[simp]
theorem Pkt.nb_segs_ofSegs (front : List Seg) (last : Seg) (nb_segs pkt_len : ℕ) :
    (Pkt.ofSegs front last nb_segs pkt_len).nb_segs = nb_segs := by
  cases front <;> rfl

@[simp]
theorem Pkt.pkt_len_ofSegs (front : List Seg) (last : Seg) (nb_segs pkt_len : ℕ) :
    (Pkt.ofSegs front last nb_segs pkt_len).pkt_len = pkt_len := by
  cases front <;> rfl

open Copy

/-- How many bytes are copied at a time. -/
def copyLen (seg : Seg) (off len : ℕ) (mc : Copy) : ℕ :=
  min (min (seg.dataLen - off) len) mc.m_last.tailroom

/-- A turn of the loop, from the segment of the offset on. -/
theorem copyLoop_succ {fuel off off' len : ℕ} {mc : Copy} {segs rest : List Seg} {seg : Seg}
    (hlen : len ≠ 0) (hskip : skipSegs off segs = some (off', seg, rest)) :
    copyLoop env mp (fuel + 1) h mc off len segs =
      match mc.chainNew env h mp with
      | none => (rtePktmbufFree env h mc.segs).map (fun h => (none, h))
      | some (mc, h) =>
        copyLoop env mp fuel h (mc.append ((seg.data.drop off').take (copyLen seg off' len mc)))
          (off' + copyLen seg off' len mc) (len - copyLen seg off' len mc) (seg :: rest) := by
  rw [copyLoop, if_neg hlen, hskip]
  rfl

/-- The loop copies the bytes, or finds no mbuf and frees what it took. -/
theorem copyLoop_spec (hstock : Stocked env h₀ mp) {fuel off len : ℕ} {mc : Copy}
    {segs : List Seg} (hm : Making env h₀ h mp mc)
    (hfilled : mc.front ≠ [] → env.room mp ≠ 0 → mc.m_last.data ≠ [])
    (hlen : off + len ≤ (bytesOf segs).length) (hfuel : len + (h.free mp).length < fuel) :
    (∃ h', copyLoop env mp fuel h mc off len segs = some (none, h') ∧ Restored h₀ h' mp ∧
      env.room mp * (h₀.free mp).length < (bytesOf mc.segs).length + len) ∨
    (∃ mc' h', copyLoop env mp fuel h mc off len segs =
        some (some (.ofSegs mc'.front mc'.m_last mc'.nb_segs mc'.pkt_len), h') ∧
      Making env h₀ h' mp mc' ∧
      (mc'.front ≠ [] → env.room mp ≠ 0 → mc'.m_last.data ≠ []) ∧
      bytesOf mc'.segs = bytesOf mc.segs ++ ((bytesOf segs).drop off).take len) := by
  induction fuel generalizing h mc off len segs with
  | zero => exact absurd hfuel (Nat.not_lt_zero _)
  | succ fuel ih =>
    by_cases hzero : len = 0
    · rw [copyLoop, if_pos hzero]
      exact .inr ⟨mc, h, rfl, hm, hfilled, by rw [hzero, take_zero, append_nil]⟩
    · obtain ⟨off', seg, rest, hskip, hoff, -, hdrop⟩ :=
        skipSegs_spec (show off < (bytesOf segs).length by omega)
      have hnew := hm.chainNew
      rw [copyLoop_succ hzero hskip]
      cases hchain : mc.chainNew env h mp with
      | none =>
        rw [hchain] at hnew
        obtain ⟨h', hfree, hrestored⟩ := hm.free hstock
        refine .inl ⟨h', by rw [hfree]; rfl, hrestored, ?_⟩
        -- all mbufs are taken and full
        have hlast := hm.room mc.m_last (mem_append_right _ (mem_singleton_self _))
        have htaken := hm.taken
        rw [hnew.2, length_nil, Nat.add_zero] at htaken
        rw [hnew.1, Nat.add_zero] at hlast
        rw [hm.length, hlast, ← htaken, Nat.mul_succ]
        omega
      | some r =>
        obtain ⟨mc', h'⟩ := r
        rw [hchain] at hnew
        obtain ⟨hm', hsame, hcases⟩ := hnew
        simp only
        generalize hn : copyLen seg off' len mc' = n
        have hn' : n = min (min (seg.dataLen - off') len) mc'.m_last.tailroom := hn.symm
        have hchunk : ((seg.data.drop off').take n).length = n := by
          rw [length_take, length_drop]
          rw [Seg.dataLen] at hn'
          omega
        have hlength := congrArg length hdrop
        rw [length_drop, length_drop] at hlength
        have hpos : env.room mp ≠ 0 → n ≠ 0 := fun hroom => by
          rcases hcases with ⟨htail, rfl, -⟩ | ⟨-, htail, -⟩ <;> omega
        have hfuel' : len - n + (h'.free mp).length < fuel := by
          rcases hcases with ⟨htail, rfl, rfl⟩ | ⟨-, htail, hless⟩ <;> omega
        -- what is copied now, and what is left
        have hbytes : bytesOf (mc'.append ((seg.data.drop off').take n)).segs =
            bytesOf mc.segs ++ ((bytesOf segs).drop off).take n := by
          rw [bytesOf_segs_append, hsame, ← hdrop, bytesOf_cons,
            drop_append_of_le_length (Nat.le_of_lt hoff), take_append_of_le_length]
          rw [length_drop]
          rw [Seg.dataLen] at hn'
          omega
        have hleft : ((bytesOf (seg :: rest)).drop (off' + n)).take (len - n) =
            (((bytesOf segs).drop off).drop n).take (len - n) := by
          rw [← drop_drop, hdrop]
        have hall : ((bytesOf segs).drop off).take n ++
            (((bytesOf segs).drop off).drop n).take (len - n) =
              ((bytesOf segs).drop off).take len := by
          rw [← take_add, Nat.add_sub_cancel' (by omega)]
        have hfilled' : (mc'.append ((seg.data.drop off').take n)).front ≠ [] →
            env.room mp ≠ 0 → (mc'.append ((seg.data.drop off').take n)).m_last.data ≠ [] := by
          intro _ hroom hnil
          obtain ⟨-, hnil⟩ := append_eq_nil_iff.mp hnil
          rw [hnil] at hchunk
          exact hpos hroom hchunk.symm
        rcases ih (hm'.append (by rw [hchunk]; omega)) hfilled'
          (show off' + n + (len - n) ≤ (bytesOf (seg :: rest)).length by omega) hfuel' with
          ⟨h'', heq, hrestored, hshort⟩ | ⟨mc'', h'', heq, hm'', hlast, hdone⟩
        · refine .inl ⟨h'', heq, hrestored, ?_⟩
          rw [hbytes, length_append, length_take, length_drop] at hshort
          omega
        · refine .inr ⟨mc'', h'', heq, hm'', hlast, ?_⟩
          rw [hdone, hbytes, hleft, append_assoc, hall]

/-! ## The copy of a packet -/

/-- The flags that say where a buffer is are cleared. -/
theorem and_not_and (x y : UInt64) : (x &&& ~~~y) &&& y = 0 := by
  apply UInt64.toBitVec_inj.mp
  ext i
  simp only [UInt64.toBitVec_and, UInt64.toBitVec_not, BitVec.getElem_and, BitVec.getElem_not]
  cases x.toBitVec[i] <;> cases y.toBitVec[i] <;> simp

/-- A copy begins with an mbuf that has the flags of the packet. -/
theorem Copy.Making.start {mc : Seg} {h₁ : Heap} (halloc : rtePktmbufAlloc env h mp = some (mc, h₁))
    (ol_flags : UInt64) :
    Making env h h₁ mp
      ⟨[], { mc with ol_flags := ol_flags &&& ~~~(fIndirect ||| fExternal) }, 1, 0⟩ := by
  obtain ⟨hlent, hdata, htail, -, -⟩ := (Lent.refl h mp).alloc halloc
  refine ⟨hlent, nofun, fun s hs => ?_, ⟨_, [], rfl, and_not_and _ _, nofun⟩, rfl, ?_⟩
  · rw [mem_singleton.mp hs, Seg.dataLen]
    show mc.data.length + mc.tailroom = env.room mp
    rw [hdata, htail, length_nil, Nat.zero_add]
  · simp [segs, hdata]

theorem Copy.Making.segs_length {mc : Copy} (hm : Making env h₀ h mp mc)
    (hfilled : mc.front ≠ [] → env.room mp ≠ 0 → mc.m_last.data ≠ [])
    (hsome : bytesOf mc.segs ≠ []) :
    mc.segs.length = ((bytesOf mc.segs).length - 1) / env.room mp + 1 := by
  have hlength := hm.length
  have hpos := length_pos_of_ne_nil hsome
  have hlast := hm.room mc.m_last (mem_append_right _ (mem_singleton_self _))
  have hroom : env.room mp ≠ 0 := fun hzero => by
    rw [hzero, Nat.zero_mul] at hlength
    omega
  have hdata : 0 < mc.m_last.dataLen := by
    cases hfront : mc.front with
    | nil =>
      rw [hfront, length_nil, Nat.mul_zero] at hlength
      omega
    | cons s front =>
      exact length_pos_of_ne_nil (hfilled (by rw [hfront]; exact nofun) hroom)
  have hsub : (bytesOf mc.segs).length - 1 =
      env.room mp * mc.front.length + (mc.m_last.dataLen - 1) := by omega
  rw [hsub, Nat.mul_add_div (Nat.pos_of_ne_zero hroom), Nat.div_eq_of_lt (by omega), segs,
    length_append]
  rfl

/-- The copy of a part of a packet, or too few mbufs for it. -/
theorem rtePktmbufCopy_spec {m : Pkt} (hchain : Chain m) (hstock : Stocked env h mp)
    {off len n : ℕ} (hoff : off < m.pkt_len) (hne : h.free mp ≠ [])
    (hn : n = min len (m.pkt_len - off)) :
    (∃ h', rtePktmbufCopy env h m mp off len = some (none, h') ∧ Restored h h' mp ∧
      env.room mp * (h.free mp).length < n) ∨
    (∃ mc h', rtePktmbufCopy env h m mp off len =
        some (some (.ofSegs mc.front mc.m_last mc.nb_segs mc.pkt_len), h') ∧
      Making env h h' mp mc ∧ bytesOf mc.segs = (m.bytes.drop off).take n ∧
      mc.segs.length = (n - 1) / env.room mp + 1) := by
  have hpkt := hchain.pkt_len
  rw [Pkt.bytes_eq] at hpkt
  rw [rtePktmbufCopy, if_neg (Nat.not_le.mpr hoff)]
  cases halloc : rtePktmbufAlloc env h mp with
  | none => exact absurd (rtePktmbufAlloc_eq_none.mp halloc) hne
  | some r =>
    obtain ⟨mc, h₁⟩ := r
    have hlen : (if len > m.pkt_len - off then m.pkt_len - off else len) = n := by
      rw [hn]
      split <;> omega
    have hdata : mc.data = [] := ((Lent.refl h mp).alloc halloc).2.1
    have hstart := Making.start halloc m.seg.ol_flags
    simp only [hlen]
    by_cases hzero : n = 0
    · subst hzero
      rw [copyLoop, if_pos rfl]
      refine .inr ⟨_, h₁, rfl, hstart, ?_, ?_⟩
      · simp [segs, hdata]
      · simp [segs]
    · have hlen' : off + n ≤ (bytesOf m.segs).length := by omega
      rcases copyLoop_spec hstock hstart (fun hc => absurd rfl hc) hlen'
        (Nat.lt_succ_self (n + (h₁.free mp).length)) with
        ⟨h', heq, hrestored, hshort⟩ | ⟨mc', h', heq, hm, hfilled, hbytes⟩
      · refine .inl ⟨h', heq, hrestored, ?_⟩
        have hempty : bytesOf (⟨[], { mc with
            ol_flags := m.seg.ol_flags &&& ~~~(fIndirect ||| fExternal) }, 1, 0⟩ : Copy).segs =
              [] := by
          simp [segs, hdata]
        rw [hempty, length_nil, Nat.zero_add] at hshort
        exact hshort
      · have hbytes' : bytesOf mc'.segs = (m.bytes.drop off).take n := by
          rw [hbytes, Pkt.bytes_eq]
          simp [segs, hdata]
        have hlength : (bytesOf mc'.segs).length = n := by
          rw [hbytes', length_take, length_drop, Pkt.bytes_eq]
          omega
        refine .inr ⟨mc', h', heq, hm, hbytes', ?_⟩
        rw [hm.segs_length hfilled (fun hnil => hzero (by rw [← hlength, hnil, length_nil])),
          hlength]

namespace Copy.Making

variable {mc : Copy}

section

variable (hstock : Stocked env h₀ mp) (hm : Making env h₀ h mp mc)

include hstock hm

theorem place {s : Seg} (hs : s ∈ mc.segs) :
    env.poolOf s.mbuf = mp ∧ s.place = env.home mp s.mbuf :=
  have hstocked := hstock _ (hm.lent.mem (mem_map_of_mem (f := owned) hs))
  ⟨hstocked.1, hstocked.2.1⟩

/-- A copy can be attached to only if its pool has no pinned buffers. -/
theorem not_pinned (htold : ∀ s ∈ mc.segs, s.Told) : env.pinned mp = false := by
  by_contra hpin
  rw [Bool.not_eq_false] at hpin
  obtain ⟨s, next, hsegs, hdirect, -⟩ := hm.direct
  have hs : s ∈ mc.segs := by
    rw [hsegs]
    exact mem_cons_self
  have htold' := htold s hs
  have hplace := (hm.place hstock hs).2
  rw [Env.home, if_pos hpin] at hplace
  rw [Seg.Told, hplace] at htold'
  exact hdirect.not_hasExtbuf htold'

/-- **Without pinned buffers**, the flags of a copy tell where its buffers are. -/
theorem told (hpin : env.pinned mp = false) : ∀ s ∈ mc.segs, s.Told := by
  intro s hs
  have hplace := (hm.place hstock hs).2
  rw [Env.home, hpin, if_neg Bool.false_ne_true] at hplace
  obtain ⟨f, next, hsegs, hdirect, hflags⟩ := hm.direct
  rw [Seg.Told, hplace]
  rw [hsegs] at hs
  rcases mem_cons.mp hs with rfl | hs
  · exact hdirect.not_hasExtbuf
  · have hflag := hflags s hs
    rw [hpin, if_neg Bool.false_ne_true] at hflag
    show ¬ s.ol_flags &&& fExternal ≠ 0
    rw [hflag, UInt64.zero_and]
    exact not_not.mpr rfl

end

/-- A copy is in order if its mbufs can be counted. -/
theorem chain (hm : Making env h₀ h mp mc) (hsegs : mc.segs.length < 2 ^ 16)
    (hbytes : (bytesOf mc.segs).length < 2 ^ 32) :
    Chain (.ofSegs mc.front mc.m_last mc.nb_segs mc.pkt_len) where
  nb_segs := by
    rw [Pkt.nb_segs_ofSegs, Pkt.segs_ofSegs, hm.nb_segs, Nat.mod_eq_of_lt hsegs, segs]
  nb_segs_lt := by
    rw [Pkt.nb_segs_ofSegs, hm.nb_segs]
    exact Nat.mod_lt _ (Nat.two_pow_pos 16)
  pkt_len := by
    rw [Pkt.pkt_len_ofSegs, Pkt.bytes_eq, Pkt.segs_ofSegs, hm.pkt_len, Nat.mod_eq_of_lt hbytes,
      segs]
  pkt_len_lt := by
    rw [Pkt.pkt_len_ofSegs, hm.pkt_len]
    exact Nat.mod_lt _ (Nat.two_pow_pos 32)
  buf_len s hs := by
    rw [Pkt.segs_ofSegs] at hs
    rw [hm.room s hs]
    exact env.room_lt mp

/-- There were mbufs enough for the bytes of a copy. -/
theorem enough (hm : Making env h₀ h mp mc) :
    (bytesOf mc.segs).length ≤ env.room mp * (h₀.free mp).length := by
  have hlast := hm.room mc.m_last (mem_append_right _ (mem_singleton_self _))
  calc (bytesOf mc.segs).length
      = env.room mp * mc.front.length + mc.m_last.dataLen := hm.length
    _ ≤ env.room mp * (mc.front.length + 1) := by
        rw [Nat.mul_succ]
        omega
    _ ≤ env.room mp * (h₀.free mp).length := by
        rw [← hm.taken]
        exact Nat.mul_le_mul_left _ (Nat.le_add_right _ _)

end Copy.Making

/-- **The pool runs out of mbufs** for so many bytes. -/
def RanOut (env : Env) (h : Heap) (mp n : ℕ) : Prop :=
  h.free mp = [] ∨ env.room mp * (h.free mp).length < n

/-- **What a copy is to be**: the bytes from an offset on, in a packet of the pool that
can be used and that gives back what it holds; `NULL` only at the end or without
mbufs, and nothing is held then. -/
def CopyOk (env : Env) (h : Heap) (mp : ℕ) (m : Pkt) (off len : ℕ) : Prop :=
  ∃ r h', rtePktmbufCopy env h m mp off len = some (r, h') ∧
    match r with
    | none => (m.pkt_len ≤ off ∨ RanOut env h mp (min len (m.pkt_len - off))) ∧ Restored h h' mp
    | some mc =>
      (∀ s ∈ mc.segs, env.poolOf s.mbuf = mp) ∧
        mc.bytes = (m.bytes.drop off).take (min len (m.pkt_len - off)) ∧ Usable env h' mc ∧
        ∃ h'', rtePktmbufFree env h' mc.segs = some h'' ∧ Restored h h'' mp

/-- **Copies are what they are to be exactly for pools without pinned buffers** – where
the mbufs can be counted, and where there is anything to copy and mbufs for it. -/
theorem copyOk_iff {m : Pkt} (hchain : Chain m) (hstock : Stocked env h mp) {off len : ℕ} :
    CopyOk env h mp m off len ↔
      m.pkt_len ≤ off ∨ RanOut env h mp (min len (m.pkt_len - off)) ∨
        env.pinned mp = false ∧ (min len (m.pkt_len - off) - 1) / env.room mp + 1 < 2 ^ 16 := by
  by_cases hoff : m.pkt_len ≤ off
  · refine iff_of_true ⟨none, h, ?_, .inl hoff, (Lent.refl h mp).restored⟩ (.inl hoff)
    rw [rtePktmbufCopy, if_pos hoff]
  rw [or_iff_right hoff]
  by_cases hempty : h.free mp = []
  · refine iff_of_true ⟨none, h, ?_, .inr (.inl hempty), (Lent.refl h mp).restored⟩
      (.inl (.inl hempty))
    rw [rtePktmbufCopy, if_neg hoff, rtePktmbufAlloc_eq_none.mpr hempty]
  rcases rtePktmbufCopy_spec hchain hstock (Nat.lt_of_not_le hoff) hempty rfl with
    ⟨h', heq, hrestored, hshort⟩ | ⟨mc, h', heq, hm, hbytes, hcount⟩
  · exact iff_of_true ⟨none, h', heq, .inr (.inr hshort), hrestored⟩ (.inl (.inr hshort))
  · have hpkt := hchain.pkt_len
    have hlength : (bytesOf mc.segs).length = min len (m.pkt_len - off) := by
      rw [hbytes, length_take, length_drop]
      omega
    have hran : ¬ RanOut env h mp (min len (m.pkt_len - off)) := by
      rw [RanOut, or_iff_right hempty, Nat.not_lt, ← hlength]
      exact hm.enough
    rw [or_iff_right hran, ← hcount]
    have h32 := hchain.pkt_len_lt
    constructor
    · rintro ⟨r, h'', heq', hr⟩
      rw [heq] at heq'
      obtain ⟨rfl, rfl⟩ := Prod.mk.inj (Option.some.inj heq')
      obtain ⟨-, -, husable, -⟩ := hr
      have hsegs := husable.chain.nb_segs
      have hattach := husable.attach
      rw [Pkt.nb_segs_ofSegs, Pkt.segs_ofSegs, hm.nb_segs] at hsegs
      rw [Pkt.segs_ofSegs] at hattach
      refine ⟨hm.not_pinned hstock (fun s hs => told_of_attach (hattach s hs s)), ?_⟩
      show (mc.front ++ [mc.m_last]).length < 2 ^ 16
      rw [← hsegs]
      exact Nat.mod_lt _ (Nat.two_pow_pos 16)
    · rintro ⟨hpin, hfew⟩
      obtain ⟨h'', hfree, hrestored⟩ := hm.free hstock
      have htold := hm.told hstock hpin
      refine ⟨_, h', heq, fun s hs => ?_, ?_, Usable.of_told (hm.chain hfew (by omega)) ?_, h'', ?_,
        hrestored⟩
      · rw [Pkt.segs_ofSegs] at hs
        exact (hm.place hstock hs).1
      · rw [Pkt.bytes_eq, Pkt.segs_ofSegs]
        exact hbytes
      · rw [Pkt.segs_ofSegs]
        exact htold
      · rw [Pkt.segs_ofSegs]
        exact hfree

end Pktmbuf
