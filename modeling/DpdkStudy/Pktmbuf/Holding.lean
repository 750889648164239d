import DpdkStudy.Pktmbuf.Pktmbuf
import Mathlib.Data.List.Count

/-!
# What is held

A function that takes mbufs of a pool and attaches them to buffers keeps account
of both (`Lent`): the mbufs are missing in the pool, and the buffers are referred
to more often. Each segment that is freed puts its mbuf back, and takes its
reference away, so that everything is as it was in the end (`Restored`) – if the
flags of the segment say where its buffer is (`Seg.Told`), and the pool has no
pinned buffers to lose.
-/

namespace Pktmbuf

open Function

variable {env : Env} {h h₀ : Heap} {mp : ℕ}

variable {x : UInt16} {s : Seg} {p : Place} {taken : List (ℕ × Place)} {refs : List Place}

/-! ## Flags -/

theorem and_eq_zero_of_or {x y z : UInt64} (h : x &&& (y ||| z) = 0) : x &&& z = 0 := by
  have hand : (x &&& (y ||| z)) &&& z = x &&& z := by
    apply UInt64.toBitVec_inj.mp
    ext i
    simp only [UInt64.toBitVec_and, UInt64.toBitVec_or, BitVec.getElem_and, BitVec.getElem_or]
    cases x.toBitVec[i] <;> cases y.toBitVec[i] <;> cases z.toBitVec[i] <;> rfl
  rw [← hand, h, UInt64.zero_and]

theorem Seg.IsDirect.not_hasExtbuf (h : s.IsDirect) : ¬ s.HasExtbuf :=
  not_not.mpr (and_eq_zero_of_or h)

/-- The flag of attached mbufs says nothing of external buffers. -/
theorem or_indirect_and_external (x : UInt64) :
    (x ||| fIndirect) &&& fExternal = x &&& fExternal := by
  have hzero : fIndirect &&& fExternal = 0 := by decide
  have hbits :
      (x ||| fIndirect) &&& fExternal = (x &&& fExternal) ||| (fIndirect &&& fExternal) := by
    apply UInt64.toBitVec_inj.mp
    ext i
    simp only [UInt64.toBitVec_and, UInt64.toBitVec_or, BitVec.getElem_and, BitVec.getElem_or]
    cases x.toBitVec[i] <;> cases fIndirect.toBitVec[i] <;> cases fExternal.toBitVec[i] <;> rfl
  rw [hbits, hzero, UInt64.or_zero]

theorem or_indirect_ne_zero (x : UInt64) :
    (x ||| fIndirect) &&& (fIndirect ||| fExternal) ≠ 0 := by
  intro h0
  have hand : ((x ||| fIndirect) &&& (fIndirect ||| fExternal)) &&& fIndirect = fIndirect := by
    apply UInt64.toBitVec_inj.mp
    ext i
    simp only [UInt64.toBitVec_and, UInt64.toBitVec_or, BitVec.getElem_and, BitVec.getElem_or]
    cases x.toBitVec[i] <;> cases fIndirect.toBitVec[i] <;> cases fExternal.toBitVec[i] <;> rfl
  rw [h0, UInt64.zero_and] at hand
  exact absurd hand (by decide)

/-- **The flags tell where the buffer is.** -/
def Seg.Told (s : Seg) : Prop :=
  match s.place with
  | .external _ => s.HasExtbuf
  | .embedded _ => ¬ s.HasExtbuf

instance (s : Seg) : Decidable s.Told := by
  unfold Seg.Told
  split <;> infer_instance

/-! ## References -/

/-- How often a buffer is referred to. -/
def Heap.count (h : Heap) : Place → ℕ
  | .embedded md => (h.refcnt md).toNat
  | .external e => (h.shinfo e).toNat

/-- One more reference to a buffer. -/
def Heap.refer (h : Heap) : Place → Heap
  | .embedded md => { h with refcnt := update h.refcnt md (h.refcnt md + 1) }
  | .external e => { h with shinfo := update h.shinfo e (h.shinfo e + 1) }

/-- One reference less. -/
def Heap.unrefer (h : Heap) : Place → Heap
  | .embedded md => { h with refcnt := update h.refcnt md (h.refcnt md - 1) }
  | .external e => { h with shinfo := update h.shinfo e (h.shinfo e - 1) }

theorem toNat_add_one (h : x.toNat + 1 < 2 ^ 16) : (x + 1).toNat = x.toNat + 1 := by
  rw [UInt16.toNat_add]
  exact Nat.mod_eq_of_lt h

theorem toNat_sub_one (h : 1 ≤ x.toNat) : (x - 1).toNat = x.toNat - 1 := by
  have hlt := x.toNat_lt
  rw [UInt16.toNat_sub]
  show (2 ^ 16 - 1 + x.toNat) % 2 ^ 16 = x.toNat - 1
  omega

/-- A reference is counted, as long as the counter does not overflow. -/
theorem Heap.count_refer (hlt : h.count p + 1 < 2 ^ 16) (q : Place) :
    (h.refer p).count q = h.count q + if q = p then 1 else 0 := by
  cases p with
  | embedded md =>
    cases q with
    | embedded md' =>
      simp only [refer, count, update_apply, Place.embedded.injEq]
      split
      · rename_i heq
        rw [toNat_add_one hlt, heq]
      · rfl
    | external e => simp [refer, count]
  | external e =>
    cases q with
    | embedded md => simp [refer, count]
    | external e' =>
      simp only [refer, count, update_apply, Place.external.injEq]
      split
      · rename_i heq
        rw [toNat_add_one hlt, heq]
      · rfl

/-- A reference that is taken away is not counted any more. -/
theorem Heap.count_unrefer (hpos : 1 ≤ h.count p) (q : Place) :
    (h.unrefer p).count q + (if q = p then 1 else 0) = h.count q := by
  cases p with
  | embedded md =>
    cases q with
    | embedded md' =>
      simp only [unrefer, count, update_apply, Place.embedded.injEq]
      split
      · rename_i heq
        rw [heq, toNat_sub_one hpos]
        exact Nat.sub_add_cancel hpos
      · rfl
    | external e => simp [unrefer, count]
  | external e =>
    cases q with
    | embedded md => simp [unrefer, count]
    | external e' =>
      simp only [unrefer, count, update_apply, Place.external.injEq]
      split
      · rename_i heq
        rw [heq, toNat_sub_one hpos]
        exact Nat.sub_add_cancel hpos
      · rfl

@[simp]
theorem Heap.free_refer (h : Heap) (p : Place) : (h.refer p).free = h.free := by
  cases p <;> rfl

@[simp]
theorem Heap.released_refer (h : Heap) (p : Place) : (h.refer p).released = h.released := by
  cases p <;> rfl

@[simp]
theorem Heap.free_unrefer (h : Heap) (p : Place) : (h.unrefer p).free = h.free := by
  cases p <;> rfl

@[simp]
theorem Heap.released_unrefer (h : Heap) (p : Place) : (h.unrefer p).released = h.released := by
  cases p <;> rfl

@[simp]
theorem count_rteMbufRawFree (mbuf : ℕ) (place q : Place) :
    (rteMbufRawFree env h mbuf place).count q = h.count q := by
  cases q <;> rfl

/-! ## One segment -/

/-- There is no mbuf in a pool that is empty, and only there. -/
theorem rtePktmbufAlloc_eq_none : rtePktmbufAlloc env h mp = none ↔ h.free mp = [] := by
  rw [rtePktmbufAlloc]
  cases h.free mp with
  | nil => simp
  | cons x rest => simp

/-- An mbuf is attached to a buffer that its flags tell of. -/
theorem rtePktmbufAttach_eq {m : Seg} (htold : m.Told) (mi : Seg) :
    ∃ c, rtePktmbufAttach h mi m = some (c, h.refer m.place) ∧ c.mbuf = mi.mbuf ∧
      c.place = m.place ∧ c.data = m.data ∧ c.tailroom = m.tailroom ∧ c.Told ∧ ¬ c.IsDirect := by
  rw [rtePktmbufAttach]
  unfold Seg.Told at htold
  cases hplace : m.place with
  | external e =>
    rw [hplace] at htold
    rw [if_pos htold]
    exact ⟨_, rfl, rfl, rfl, rfl, rfl, htold, fun hdirect => hdirect.not_hasExtbuf htold⟩
  | embedded md =>
    rw [hplace] at htold
    rw [if_neg htold]
    refine ⟨_, rfl, rfl, rfl, rfl, rfl, ?_, or_indirect_ne_zero _⟩
    show ¬ (m.ol_flags ||| fIndirect) &&& fExternal ≠ 0
    rw [or_indirect_and_external]
    exact htold

/-- What the flags do not tell is not attached to. -/
theorem told_of_attach {m mi : Seg} (hsome : (rtePktmbufAttach h mi m).isSome) : m.Told := by
  rw [rtePktmbufAttach] at hsome
  unfold Seg.Told
  split
  · rename_i e hplace
    by_contra hext
    rw [if_neg hext, hplace] at hsome
    cases hsome
  · rename_i md hplace
    intro hext
    rw [if_pos hext, hplace] at hsome
    cases hsome

theorem sub_one_ne_zero (h : 2 ≤ x.toNat) : x - 1 ≠ 0 := by
  intro h0
  have hsub := toNat_sub_one (x := x) (by omega)
  rw [h0] at hsub
  have hzero : (0 : UInt16).toNat = 0 := rfl
  omega

/-- **A segment that is attached is freed**: its reference is taken away, and its mbuf
goes back into its pool with a buffer of its own – unless the buffer counts as
pinned. -/
theorem rtePktmbufFreeSeg_attached {c : Seg} (hdirect : ¬ c.IsDirect) (htold : c.Told)
    (hone : h.refcnt c.mbuf = 1) (htwo : 2 ≤ h.count c.place) :
    rtePktmbufFreeSeg env h c =
      some (if c.HasExtbuf ∧ env.pinned (env.poolOf c.mbuf) then h.unrefer c.place
        else rteMbufRawFree env (h.unrefer c.place) c.mbuf (.embedded c.mbuf)) := by
  rw [rtePktmbufFreeSeg]
  simp only [if_neg (show ¬ (h.refcnt c.mbuf ≠ 1 ∧ h.refcnt c.mbuf - 1 ≠ 0) from
    fun hne => hne.1 hone), if_neg hdirect]
  unfold Seg.Told at htold
  cases hplace : c.place with
  | external e =>
    rw [hplace] at htold htwo
    have hne : h.shinfo e ≠ 1 := by
      intro h1
      have h2 : 2 ≤ (h.shinfo e).toNat := htwo
      rw [h1] at h2
      exact absurd h2 (by decide)
    have hleft : h.shinfo e - 1 ≠ 0 := sub_one_ne_zero htwo
    rw [rtePktmbufDetach, if_pos htold, hplace]
    by_cases hpin : env.pinned (env.poolOf c.mbuf) = true
    · rw [if_pos hpin, if_pos ⟨htold, hpin⟩]
      show Option.bind _ _ = _
      rw [Option.bind_some]
      simp only
      rw [if_pos ⟨htold, hpin⟩, rtePktmbufPinnedExtbufDecref]
      simp only [if_neg hne, update_self, if_pos hleft]
      rfl
    · rw [if_neg hpin, if_neg (fun hboth => hpin hboth.2)]
      show Option.bind _ _ = _
      rw [Option.bind_some]
      simp only
      rw [if_neg (fun hboth => hpin hboth.2), rtePktmbufFreeExtbuf]
      simp only [update_self, if_neg hleft]
      rfl
  | embedded md =>
    rw [hplace] at htold htwo
    have hleft : h.refcnt md - 1 ≠ 0 := sub_one_ne_zero htwo
    rw [rtePktmbufDetach, if_neg htold, hplace, if_neg (fun hboth => htold hboth.1)]
    show Option.bind _ _ = _
    rw [Option.bind_some]
    simp only
    rw [if_neg (fun hboth => hboth.1 (UInt64.zero_and)), rtePktmbufFreeDirect]
    simp only [update_self, if_neg hleft]
    rfl

/-- **A segment of its own pool is freed**: its mbuf goes back with its buffer. -/
theorem rtePktmbufFreeSeg_own (hone : h.refcnt s.mbuf = 1)
    (hown : s.IsDirect ∨ s.HasExtbuf ∧ env.pinned (env.poolOf s.mbuf) ∧
      ∃ e, s.place = .external e ∧ h.shinfo e = 1) :
    rtePktmbufFreeSeg env h s = some (rteMbufRawFree env h s.mbuf s.place) := by
  rw [rtePktmbufFreeSeg]
  simp only [if_neg (show ¬ (h.refcnt s.mbuf ≠ 1 ∧ h.refcnt s.mbuf - 1 ≠ 0) from
    fun hne => hne.1 hone)]
  rcases hown with hdirect | ⟨hext, hpin, e, hplace, hpinned⟩
  · rw [if_pos hdirect]
  · rw [if_neg (fun hdirect => Seg.IsDirect.not_hasExtbuf hdirect hext), rtePktmbufDetach,
      if_pos hext, if_pos hpin]
    show Option.bind _ _ = _
    rw [Option.bind_some]
    simp only
    rw [if_pos ⟨hext, hpin⟩, hplace, rtePktmbufPinnedExtbufDecref]
    simp only [if_pos hpinned]
    rfl

/-- **A segment is freed** without harm, if its flags tell where its buffer is. -/
theorem rtePktmbufFreeSeg_isSome (htold : s.Told) :
    (rtePktmbufFreeSeg env h s).isSome := by
  rw [rtePktmbufFreeSeg]
  simp only
  split_ifs
  · rfl
  · rfl
  · unfold Seg.Told at htold
    rw [rtePktmbufDetach]
    cases hplace : s.place with
    | external e =>
      rw [hplace] at htold
      rw [if_pos htold]
      split_ifs with hpin
      · show Option.isSome (Option.bind _ _) = true
        rw [Option.bind_some]
        simp only
        rw [if_pos ⟨htold, hpin⟩, rtePktmbufPinnedExtbufDecref]
        simp only
        split_ifs <;> rfl
      · show Option.isSome (Option.bind _ _) = true
        rw [Option.bind_some]
        simp only
        rw [if_neg (fun hboth => hpin hboth.2)]
        rfl
    | embedded md =>
      rw [hplace] at htold
      rw [if_neg htold]
      show Option.isSome (Option.bind _ _) = true
      rw [Option.bind_some]
      simp only
      rw [if_neg (fun hboth => hboth.1 (UInt64.zero_and))]
      rfl

/-- **A packet is freed** without harm, if the flags of its segments tell where their
buffers are. -/
theorem rtePktmbufFree_isSome {segs : List Seg} (htold : ∀ s ∈ segs, s.Told) :
    (rtePktmbufFree env h segs).isSome := by
  induction segs generalizing h with
  | nil => rfl
  | cons s segs ih =>
    obtain ⟨h', heq⟩ := Option.isSome_iff_exists.mp
      (rtePktmbufFreeSeg_isSome (htold s List.mem_cons_self))
    rw [rtePktmbufFree, heq]
    exact ih (fun t ht => htold t (List.mem_cons_of_mem s ht))

/-! ## What is lent -/

/-- **So many references are counted** beside those that there were. -/
def Counted (h₀ h : Heap) (refs : List Place) : Prop :=
  ∀ p, h.count p = h₀.count p + refs.count p

/-- **Mbufs are lent**: they are missing in the pool, and so many references are
counted beside those that there were. -/
structure Lent (h₀ h : Heap) (mp : ℕ) (taken : List (ℕ × Place)) (refs : List Place) : Prop where
  free : (taken ++ h.free mp).Perm (h₀.free mp)
  others : ∀ p ≠ mp, h.free p = h₀.free p
  counted : Counted h₀ h refs
  released : h.released = h₀.released

/-- **Everything is as it was.** -/
structure Restored (h₀ h : Heap) (mp : ℕ) : Prop where
  free : (h.free mp).Perm (h₀.free mp)
  others : ∀ p ≠ mp, h.free p = h₀.free p
  refcnt : h.refcnt = h₀.refcnt
  shinfo : h.shinfo = h₀.shinfo
  released : h.released = h₀.released

/-- The place of the buffer that an mbuf of a pool has of its own. -/
def Env.home (env : Env) (mp mbuf : ℕ) : Place :=
  if env.pinned mp then .external (env.pin mbuf) else .embedded mbuf

/-- **The mbufs in a pool** are of the pool, with the buffers that they have of their
own, and nobody else refers to them or to these. -/
def Stocked (env : Env) (h : Heap) (mp : ℕ) : Prop :=
  ∀ x ∈ h.free mp, env.poolOf x.1 = mp ∧ x.2 = env.home mp x.1 ∧ h.refcnt x.1 = 1 ∧
    (env.pinned mp → h.shinfo (env.pin x.1) = 1)

theorem Lent.refl (h : Heap) (mp : ℕ) : Lent h h mp [] [] :=
  ⟨List.Perm.refl _, fun _ _ => rfl, fun p => by simp, rfl⟩

theorem Lent.restored (hl : Lent h₀ h mp [] []) : Restored h₀ h mp where
  free := hl.free
  others := hl.others
  refcnt := funext fun md => UInt16.toNat_inj.mp (hl.counted (.embedded md))
  shinfo := funext fun e => UInt16.toNat_inj.mp (hl.counted (.external e))
  released := hl.released

theorem Lent.perm {taken' : List (ℕ × Place)} {refs' : List Place} (hl : Lent h₀ h mp taken refs)
    (htaken : taken'.Perm taken) (hrefs : refs'.Perm refs) :
    Lent h₀ h mp taken' refs' where
  free := (htaken.append_right _).trans hl.free
  others := hl.others
  counted p := by rw [hl.counted, hrefs.count_eq]
  released := hl.released

theorem Lent.mem (hl : Lent h₀ h mp taken refs) {x : ℕ × Place} (hx : x ∈ taken) : x ∈ h₀.free mp :=
  hl.free.mem_iff.mp (List.mem_append_left _ hx)

theorem Lent.alloc (hl : Lent h₀ h mp taken refs) {h' : Heap}
    (halloc : rtePktmbufAlloc env h mp = some (s, h')) :
    Lent h₀ h' mp ((s.mbuf, s.place) :: taken) refs ∧ s.data = [] ∧ s.tailroom = env.room mp ∧
      s.ol_flags = (if env.pinned mp then fExternal else 0) ∧
      (h'.free mp).length + 1 = (h.free mp).length := by
  rw [rtePktmbufAlloc] at halloc
  split at halloc
  · cases halloc
  · rename_i mbuf place rest hfree
    obtain ⟨rfl, rfl⟩ := Prod.mk.inj (Option.some.inj halloc)
    refine ⟨⟨?_, fun p hp => ?_, hl.counted, hl.released⟩, rfl, rfl, rfl, ?_⟩
    · have hperm := hl.free
      rw [hfree] at hperm
      simp only [update_self]
      exact List.perm_middle.symm.trans hperm
    · simp only [update_of_ne hp]
      exact hl.others p hp
    · simp only [update_self]
      rw [hfree, List.length_cons]

theorem Lent.refer (hl : Lent h₀ h mp taken refs) (hlt : h.count p + 1 < 2 ^ 16) :
    Lent h₀ (h.refer p) mp taken (p :: refs) where
  free := by simpa using hl.free
  others q hq := by simpa using hl.others q hq
  counted q := by
    rw [Heap.count_refer hlt, hl.counted, List.count_cons]
    by_cases heq : q = p
    · subst heq
      simp [Nat.add_assoc]
    · simp [heq, Ne.symm heq]
  released := by simpa using hl.released

/-- A reference that is taken away is not counted. -/
theorem Counted.unrefer (hc : Counted h₀ h (p :: refs)) :
    Counted h₀ (h.unrefer p) refs := by
  intro q
  have hp := hc p
  rw [List.count_cons_self] at hp
  have hq := Heap.count_unrefer (show 1 ≤ h.count p by omega) q
  rw [hc q, List.count_cons] at hq
  by_cases heq : q = p
  · subst heq
    simp only [beq_self_eq_true, if_true] at hq
    omega
  · simp only [beq_iff_eq, if_neg heq, if_neg (Ne.symm heq)] at hq
    omega

theorem Lent.unrefer (hl : Lent h₀ h mp taken (p :: refs)) :
    Lent h₀ (h.unrefer p) mp taken refs where
  free := by simpa using hl.free
  others q hq := by simpa using hl.others q hq
  counted := hl.counted.unrefer
  released := by simpa using hl.released

theorem Lent.rawFree {mbuf : ℕ} {place : Place} (hl : Lent h₀ h mp ((mbuf, place) :: taken) refs)
    (hpool : env.poolOf mbuf = mp) :
    Lent h₀ (rteMbufRawFree env h mbuf place) mp taken refs where
  free := by
    rw [rteMbufRawFree, hpool]
    simp only [update_self]
    exact List.perm_middle.trans hl.free
  others q hq := by
    rw [rteMbufRawFree, hpool]
    simp only [update_of_ne hq]
    exact hl.others q hq
  counted q := by rw [count_rteMbufRawFree, hl.counted]
  released := hl.released

end Pktmbuf
