import DpdkStudy.IpFrag.Table
import DpdkStudy.Ipsec.AntiReplay
import DpdkStudy.Lib.Runs

/-!
# Conservation

Every mbuf that is passed to the reassembly is held by the table, or chained in
a packet that was returned, or it was on the death row, and it is at one of
these places only (`Conserved`). Mbufs get lost only where fragments do not
fit in one packet: the result of `rte_pktmbuf_chain` is not looked at.
-/

open List

namespace IpFrag

open Function Mbuf

/-! ## A table that is created -/

/-- The number of a bucket's first entry leaves room for the bucket. -/
theorem bucket_le (sig : ℕ) {mask n b : ℕ} (hbn : b ≤ n)
    (hmask : ∀ i, mask.testBit i = true → b ≤ i ∧ i < n) : (sig &&& mask) + 2 ^ b ≤ 2 ^ n := by
  have hbits : ∀ i, (sig &&& mask).testBit i = true → b ≤ i ∧ i < n := by
    intro i hi
    rw [Nat.testBit_and, Bool.and_eq_true] at hi
    exact hmask i hi.2
  have hlt : (sig &&& mask) < 2 ^ n := by
    refine Nat.lt_pow_two_of_testBit _ (fun i hi => ?_)
    by_contra h
    rw [Bool.not_eq_false] at h
    exact absurd (hbits i h).2 (Nat.not_lt.mpr hi)
  have hmod : (sig &&& mask) % 2 ^ b = 0 := by
    refine Nat.eq_of_testBit_eq (fun i => ?_)
    rw [Nat.testBit_mod_two_pow, Nat.zero_testBit, Bool.and_eq_false_iff]
    by_cases hi : i < b
    · right
      by_contra h
      rw [Bool.not_eq_false] at h
      exact absurd (hbits i h).1 (Nat.not_le.mpr hi)
    · left
      simp [hi]
  obtain ⟨c, hc⟩ := Nat.dvd_of_mod_eq_zero hmod
  obtain ⟨d, rfl⟩ := Nat.exists_eq_add_of_le hbn
  rw [pow_add] at hlt ⊢
  rw [hc] at hlt ⊢
  have hcd : c < 2 ^ d := Nat.lt_of_mul_lt_mul_left hlt
  calc 2 ^ b * c + 2 ^ b = 2 ^ b * (c + 1) := by rw [Nat.mul_add, Nat.mul_one]
    _ ≤ 2 ^ b * 2 ^ d := Nat.mul_le_mul_left _ hcd

/-- A number that passes `rte_is_power_of_2` is a power of two. -/
theorem rteIsPowerOf2_eq {x : UInt32} (hx : rteIsPowerOf2 x = true) : ∃ k, x.toNat = 2 ^ k := by
  rw [rteIsPowerOf2, Bool.and_eq_true, decide_eq_true_iff, decide_eq_true_iff] at hx
  have hne : x.toNat ≠ 0 := fun h => hx.1 (UInt32.toNat_inj.mp h)
  have hone : (x - 1).toNat = x.toNat - 1 := UInt32.toNat_sub_of_le x 1 (by
    rw [UInt32.le_iff_toNat_le]
    exact Nat.one_le_iff_ne_zero.mpr hne)
  have hand : x.toNat &&& (x.toNat - 1) = 0 := by
    rw [← hone, ← UInt32.toNat_and, hx.2]
    rfl
  exact (Nat.and_sub_one_eq_zero_iff_isPowerOfTwo hne).mp hand

/-- A table that is created is in order, and without mbufs. -/
theorem rteIpFragTableCreate_spec {crc : FragKey → UInt32} {P : Mbuf → Prop}
    {bucket_num bucket_entries max_entries : UInt32} {max_cycles : UInt64} {tbl : Tbl}
    (h : rteIpFragTableCreate bucket_num bucket_entries max_entries max_cycles = some tbl) :
    Tabled crc P tbl ∧ tbl.held = 0 ∧ tbl.max_entries = max_entries.toNat ∧
      tbl.max_cycles = max_cycles := by
  rw [rteIpFragTableCreate] at h
  split_ifs at h with hbad
  obtain rfl := Option.some.inj h
  simp only [not_or, Bool.not_eq_false, not_lt] at hbad
  obtain ⟨hpow, hle, hne, -⟩ := hbad
  have hzero : Idle FragPkt.zero := ⟨rfl, fun _ => rfl⟩
  obtain ⟨b, hb⟩ := rteIsPowerOf2_eq hpow
  obtain ⟨a, ha⟩ := Ipsec.rteAlign32pow2_eq bucket_num (by
    intro h0
    rw [h0] at hne
    exact hne (by simp))
  have hnb : (Ipsec.rteAlign32pow2 bucket_num).toNat * bucket_entries.toNat * 2 =
      2 ^ (a + b + 1) := by
    rw [ha, hb, pow_succ, pow_add]
  rw [hnb] at hle
  have hn : a + b + 1 < 32 := by
    by_contra hge
    have := Nat.pow_le_pow_right (by decide : 0 < 2) (Nat.not_lt.mp hge)
    rw [uint32Max] at hle
    omega
  have hlow : (UInt32.ofNat ((Ipsec.rteAlign32pow2 bucket_num).toNat * bucket_entries.toNat * 2) -
      1).toNat = 2 ^ (a + b + 1) - 1 := by
    have hlt : 2 ^ (a + b + 1) < 2 ^ 32 := Nat.pow_lt_pow_right (by decide) hn
    have hto : (UInt32.ofNat (2 ^ (a + b + 1))).toNat = 2 ^ (a + b + 1) :=
      UInt32.toNat_ofNat_of_lt' hlt
    rw [hnb, UInt32.toNat_sub_of_le, hto]
    · rfl
    · rw [UInt32.le_iff_toNat_le, hto]
      exact Nat.one_le_two_pow
  have hhigh : (bucket_entries - 1).toNat = 2 ^ b - 1 := by
    rw [UInt32.toNat_sub_of_le, hb]
    · rfl
    · rw [UInt32.le_iff_toNat_le, hb]
      exact Nat.one_le_two_pow
  refine ⟨?_, rfl, rfl, rfl⟩
  exact
    { lru_nodup := nodup_nil
      mem_lru := fun p => iff_of_false not_mem_nil (fun h => h rfl)
      use_entries := rfl
      placed := fun p k hk => by simp [FragPkt.zero] at hk
      unique := fun p q k hk => by simp [FragPkt.zero] at hk
      collecting := fun p k hk => by simp [FragPkt.zero] at hk
      idle := fun p _ => hzero
      inside := fun k p hp => by
        have hmask : ∀ i, ((UInt32.ofNat
            ((Ipsec.rteAlign32pow2 bucket_num).toNat * bucket_entries.toNat * 2) - 1) &&&
              ~~~(bucket_entries - 1)).toNat.testBit i = true → b ≤ i ∧ i < a + b + 1 := by
          intro i hi
          rw [UInt32.toNat_and, Nat.testBit_and, Bool.and_eq_true, hlow, UInt32.toNat_not,
            UInt32.size, ← Nat.sub_add_eq, Nat.add_comm 1,
            Nat.testBit_two_pow_sub_succ (UInt32.toNat_lt _), hhigh] at hi
          simp only [Nat.testBit_two_pow_sub_one, decide_eq_true_iff, Bool.and_eq_true,
            Bool.not_eq_true', decide_eq_false_iff_not, not_lt] at hi
          exact ⟨hi.2.2, hi.1⟩
        have hroom := fun sig => bucket_le sig (by omega : b ≤ a + b + 1) hmask
        simp only [candidates, mem_flatMap, mem_range, mem_cons, not_mem_nil,
          or_false] at hp
        obtain ⟨i, hi, hp⟩ := hp
        rcases hp with rfl | rfl
        · have hfits := hroom (ipv4FragHash crc k).1.toNat
          rw [← hnb] at hfits
          show _ < (Ipsec.rteAlign32pow2 bucket_num).toNat * bucket_entries.toNat * 2
          omega
        · have hfits := hroom (ipv4FragHash crc k).2.toNat
          rw [← hnb] at hfits
          show _ < (Ipsec.rteAlign32pow2 bucket_num).toNat * bucket_entries.toNat * 2
          omega }

/-! ## Runs -/

/-- **A packet that comes in**, and when. -/
structure Call where
  mb : Mbuf
  tms : UInt64

/-- **A table in use**: the packets that were passed to the reassembly, those
that it returned, and what was on the death row. -/
structure St where
  tbl : Tbl
  passed : List Mbuf
  returned : List Mbuf
  dead : List Mbuf

/-- A table nothing was passed to. -/
def St.fresh (tbl : Tbl) : St := ⟨tbl, [], [], []⟩

section Run

variable (crc : FragKey → UInt32)

/-- **One call**, of which the caller empties the death row. There is no state
after a read through a null pointer. -/
def callStep (st : Option St) (c : Call) : Option St :=
  st.bind (fun st => (rteIpv4FragReassemblePacket crc st.tbl c.mb c.tms).map
    (fun (tbl, dr, out) =>
      { tbl := tbl
        passed := c.mb :: st.passed
        returned := out.toList ++ st.returned
        dead := dr ++ st.dead }))

/-- **The fragments fit in one packet**, if the one that comes in makes the
datagram complete. -/
def Fits (st : Option St) (c : Call) : Prop :=
  ∀ s, st = some s → ∀ ms, Completes s.tbl c.mb c.tms ms → nbSegsOf ms ≤ maxNbSegs

end Run

/-- **Mbufs and entries are conserved.** Every mbuf is in a slot of an entry in
use, in a packet that was returned or on the death row, as often as it was
passed. The entries in use are those with a key, no two have the same one, and
their number is the one the table says. -/
structure Conserved (st : St) : Prop where
  mbufs : st.tbl.held + idsOf st.returned + idsOf st.dead = idsOf st.passed
  unique : ∀ p q k, (st.tbl.pkt p).key = some k → (st.tbl.pkt q).key = some k → p = q
  lru_nodup : st.tbl.lru.Nodup
  mem_lru : ∀ p, p ∈ st.tbl.lru ↔ p < st.tbl.nb_entries ∧ (st.tbl.pkt p).key ≠ none
  use_entries : st.tbl.use_entries = st.tbl.lru.length ∧
    st.tbl.use_entries =
      ((Finset.range st.tbl.nb_entries).filter (fun p => (st.tbl.pkt p).key.isSome)).card
  empty : ∀ p, (st.tbl.pkt p).key = none → ∀ j, ((st.tbl.pkt p).frags j).mb = none

variable {crc : FragKey → UInt32} {P : Mbuf → Prop}

/-- The state of a run that keeps the table in order. -/
structure Running (crc : FragKey → UInt32) (st : St) : Prop where
  tabled : Tabled crc (fun _ => True) st.tbl
  max_entries : 0 < st.tbl.max_entries
  mbufs : st.tbl.held + idsOf st.returned + idsOf st.dead = idsOf st.passed

theorem Running.conserves {st : St} (hr : Running crc st) : Conserved st := by
  have hmem : ∀ p, p ∈ st.tbl.lru ↔ p < st.tbl.nb_entries ∧ (st.tbl.pkt p).key ≠ none := by
    intro p
    rw [hr.tabled.mem_lru]
    refine ⟨fun h => ⟨?_, h⟩, fun h => h.2⟩
    obtain ⟨k, hk⟩ := Option.ne_none_iff_exists'.mp h
    exact hr.tabled.inside k p (hr.tabled.placed p k hk)
  have hcard : st.tbl.lru.length =
      ((Finset.range st.tbl.nb_entries).filter (fun p => (st.tbl.pkt p).key.isSome)).card := by
    rw [← toFinset_card_of_nodup hr.tabled.lru_nodup]
    congr 1
    ext p
    rw [mem_toFinset, hmem, Finset.mem_filter, Finset.mem_range, Option.isSome_iff_ne_none]
  exact
    { mbufs := hr.mbufs
      unique := hr.tabled.unique
      lru_nodup := hr.tabled.lru_nodup
      mem_lru := hmem
      use_entries := ⟨hr.tabled.use_entries, hr.tabled.use_entries.trans hcard⟩
      empty := fun p hp => (hr.tabled.idle p hp).empty }

/-- One call conserves mbufs, if the fragments fit in one packet. -/
theorem callStep_running {st : St} {c : Call} (hr : Running crc st)
    (hfits : Fits (some st) c) :
    ∃ st', callStep crc (some st) c = some st' ∧ Running crc st' := by
  obtain ⟨tbl', dr, out, heq, hrec⟩ := (rteIpv4FragReassemblePacket_spec hr.tabled
    (fun _ : 0 < c.mb.fragLen => trivial) c.tms).resolve_left (fun h => hr.max_entries.ne' h.2)
  refine ⟨_, by rw [callStep, Option.bind_some, heq]; rfl, hrec.tabled, ?_, ?_⟩
  · show 0 < tbl'.max_entries
    rw [hrec.shape.max_entries]
    exact hr.max_entries
  · have hids := hrec.ids (hfits st rfl)
    show tbl'.held + idsOf (out.toList ++ st.returned) + idsOf (dr ++ st.dead) =
      idsOf (c.mb :: st.passed)
    rw [idsOf_append, idsOf_append, idsOf_cons, ← hr.mbufs]
    calc tbl'.held + (idsOf out.toList + idsOf st.returned) + (idsOf dr + idsOf st.dead) =
        (tbl'.held + idsOf out.toList + idsOf dr) + (idsOf st.returned + idsOf st.dead) := by abel
      _ = (st.tbl.held + c.mb.ids) + (idsOf st.returned + idsOf st.dead) := by rw [hids]
      _ = c.mb.ids + (st.tbl.held + idsOf st.returned + idsOf st.dead) := by abel

/-- **Reassembly conserves mbufs and entries**, in a table with room for an
entry, as long as the fragments of a datagram fit in one packet. -/
theorem reassembly_conserves (crc : FragKey → UInt32)
    (bucket_num bucket_entries max_entries : UInt32) (max_cycles : UInt64) (tbl : Tbl)
    (hcreate : rteIpFragTableCreate bucket_num bucket_entries max_entries max_cycles = some tbl)
    (hmax : max_entries ≠ 0) (calls : List Call)
    (hfits : Runs.Along (callStep crc) Fits (some (St.fresh tbl)) calls) :
    ∃ st, Runs.run (callStep crc) (some (St.fresh tbl)) calls = some st ∧ Conserved st := by
  have hspec : Tabled crc (fun _ => True) tbl ∧ _ := rteIpFragTableCreate_spec hcreate
  obtain ⟨htabled, hheld, hmax', -⟩ := hspec
  have hstart : Running crc (St.fresh tbl) :=
    { tabled := htabled
      max_entries := by
        show 0 < tbl.max_entries
        rw [hmax']
        exact Nat.pos_of_ne_zero (fun h => hmax (UInt32.toNat_inj.mp h))
      mbufs := by
        show tbl.held + 0 + 0 = 0
        rw [hheld]
        rfl }
  have hrun := hfits.invariant (P := fun o => ∃ st, o = some st ∧ Running crc st) (by
    rintro _ c ⟨st, rfl, hr⟩ hok
    exact callStep_running hr hok) ⟨_, rfl, hstart⟩
  obtain ⟨st, heq, hr⟩ := hrun
  exact ⟨st, heq, hr.conserves⟩

/-! ## Two fragments -/

/-- A packet with eight bytes of a datagram of sixteen, in some segments, of
which all but the first are empty. -/
def eightBytes (mbuf : ℕ) (fragment_offset : UInt16) (nb_segs : ℕ) : Mbuf :=
  { ip := ⟨0x45, 0, 28, 1, fragment_offset, 64, 17, 0, 1, 2, []⟩
    l2_len := 0
    l3_len := 20
    pkt_len := 28
    nb_segs := nb_segs
    seg := ⟨mbuf, List.replicate 28 0⟩
    next := (List.range (nb_segs - 1)).map (fun i => ⟨mbuf + 1 + i, []⟩) }

/-- The first fragment and the last one. -/
def twoCalls (nb_segs : ℕ) : List Call :=
  [⟨eightBytes 0 hdrMfFlag nb_segs, 0⟩, ⟨eightBytes 100000 1 nb_segs, 0⟩]

/-- Two fragments of a segment each are put together. -/
theorem reassembly_conserves_two_calls :
    ∃ tbl, rteIpFragTableCreate 1 1 1 0 = some tbl ∧
      ∃ st, Runs.run (callStep (fun _ => 0)) (some (St.fresh tbl)) (twoCalls 1) = some st ∧
        Conserved st := by
  refine ⟨_, rfl, reassembly_conserves (fun _ => 0) 1 1 1 0 _ rfl (by decide) (twoCalls 1)
    ⟨?_, ?_, trivial⟩⟩
  · rintro s hs ms ⟨p, hkey, -⟩
    obtain rfl := Option.some.inj hs
    simp [St.fresh, FragPkt.zero] at hkey
  · rintro s hs ms ⟨p, hkey, -, rfl, -⟩
    obtain rfl := Option.some.inj hs
    cases p with
    | zero => decide +kernel
    | succ p =>
      have hnone : none = some (eightBytes 100000 1 1).ip.key := hkey
      simp at hnone

theorem eightBytes_valid (mbuf : ℕ) (fragment_offset : UInt16) {nb_segs : ℕ} (hpos : 0 < nb_segs)
    (hle : nb_segs ≤ maxNbSegs) : (eightBytes mbuf fragment_offset nb_segs).Valid where
  nb_segs := by simp [eightBytes, segs]; omega
  nb_segs_le := hle
  pkt_len := by simp [eightBytes, bytes, segs, flatMap_map]
  data_len s hs := by
    simp only [eightBytes, segs, mem_cons, mem_map] at hs
    rcases hs with rfl | ⟨i, -, rfl⟩
    · simp [Seg.dataLen]
    · simp [Seg.dataLen]

set_option maxRecDepth 100000 in
/-- **Two fragments of forty thousand segments each** do not fit in one packet:
the mbufs of the second are lost. -/
theorem reassembly_loses_mbufs :
    ¬ ∀ (tbl : Tbl) (calls : List Call), rteIpFragTableCreate 1 1 1 0 = some tbl →
      (∀ c ∈ calls, c.mb.Valid) →
      ∃ st, Runs.run (callStep (fun _ => 0)) (some (St.fresh tbl)) calls = some st ∧
        Conserved st := by
  intro hall
  obtain ⟨st, hrun, hconserved⟩ := hall _ (twoCalls 40000) rfl (by
    intro c hc
    simp only [twoCalls, mem_cons, not_mem_nil, or_false] at hc
    rcases hc with rfl | rfl
    · exact eightBytes_valid 0 hdrMfFlag (by decide) (by decide)
    · exact eightBytes_valid 100000 1 (by decide) (by decide))
  have hstate := congrArg
    (Option.map (fun s : St => (s.tbl.lru, s.dead, s.returned.map Mbuf.segs, s.passed))) hrun
  change some ([], [], [(eightBytes 0 hdrMfFlag 40000).segs],
    [eightBytes 100000 1 40000, eightBytes 0 hdrMfFlag 40000]) = _ at hstate
  simp only [Option.map_some, Option.some.injEq, Prod.mk.injEq] at hstate
  obtain ⟨hlru, hdead, hreturned, hpassed⟩ := hstate
  have hids : idsOf st.returned = (eightBytes 0 hdrMfFlag 40000).ids := by
    have hmap : st.returned.map Mbuf.ids =
        (st.returned.map Mbuf.segs).map (fun l => (↑(l.map Seg.mbuf) : Multiset ℕ)) := by
      rw [map_map]
      rfl
    rw [idsOf, hmap, ← hreturned, map_singleton, sum_singleton, ids]
  have hmbufs := hconserved.mbufs
  rw [Tbl.held, ← hlru, ← hdead, ← hpassed, hids, idsOf_cons, idsOf_cons, idsOf_nil, add_zero,
    add_zero, map_nil, sum_nil, zero_add, right_eq_add] at hmbufs
  rw [ids, segs, map_cons, Multiset.coe_eq_zero] at hmbufs
  exact cons_ne_nil _ _ hmbufs

end IpFrag
