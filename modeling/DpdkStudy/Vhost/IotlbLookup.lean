import Mathlib.Data.List.Chain
import DpdkStudy.Vhost.Iotlb

/-!
# What a lookup in the IOTLB finds

An entry maps the bytes of its range to host addresses, one after the other. A lookup goes
from entry to entry, as long as each goes on where the one before has ended: this is the
**route** of a range (`route`). What the loop of `vhost_user_iotlb_cache_find` computes is
said by the route alone (`findLoop_eq`): the size is as far as the route leads, and the host
address is that of its first entry – the addresses of the others are never looked at. So the
lookup is right where the host addresses go on along the route as the bytes do
(`cacheFind_sound`).

Ranges are ranges of natural numbers here: no byte lies behind $2^{64}$, and an entry whose
end wraps is on no route.
-/

open Nat

namespace Vhost.Iotlb

namespace VhostIotlbEntry

/-- The byte behind the range of an entry. -/
def endOf (e : VhostIotlbEntry) : ℕ := e.iova.toNat + e.size.toNat

/-- **A byte lies in an entry.** -/
def Covers (e : VhostIotlbEntry) (b : ℕ) : Prop := e.iova.toNat ≤ b ∧ b < e.endOf

/-- **An entry grants a permission.** -/
def Grants (e : VhostIotlbEntry) (perm : BitVec 8) : Prop := perm &&& e.perm = perm

/-- **The host address of a byte** in an entry. -/
def hostOf (e : VhostIotlbEntry) (b : ℕ) : BitVec 64 :=
  e.uaddr + e.uoffset + BitVec.ofNat 64 (b - e.iova.toNat)

instance (e : VhostIotlbEntry) (b : ℕ) : Decidable (e.Covers b) :=
  inferInstanceAs (Decidable (_ ∧ _))

instance (e : VhostIotlbEntry) (perm : BitVec 8) : Decidable (e.Grants perm) :=
  inferInstanceAs (Decidable (_ = _))

theorem hostOf_add (e : VhostIotlbEntry) {b : ℕ} (hb : e.iova.toNat ≤ b) (k : ℕ) :
    e.hostOf (b + k) = e.hostOf b + BitVec.ofNat 64 k := by
  rw [hostOf, hostOf, Nat.sub_add_comm hb, BitVec.ofNat_add, BitVec.add_assoc, BitVec.add_assoc,
    BitVec.add_assoc]

end VhostIotlbEntry

open VhostIotlbEntry

/-! ## Routes -/

/-- **The route from a byte on**: the entries that each go on where the one before ends, until
the range up to `stop` is through; and whether all that have been met grant the permission. -/
def route (pool : ℕ → VhostIotlbEntry) (perm : BitVec 8) (stop : ℕ) :
    List ℕ → ℕ → List ℕ × Bool
  | [], _ => ([], true)
  | node :: rest, b =>
    if b < (pool node).iova.toNat then ([], true)
    else if (pool node).endOf ≤ b ∨ 2 ^ 64 ≤ (pool node).endOf then route pool perm stop rest b
    else if ¬ (pool node).Grants perm then ([], false)
    else if stop ≤ (pool node).endOf then ([node], true)
    else
      let r := route pool perm stop rest (pool node).endOf
      (node :: r.1, r.2)

/-- **How far a route leads** from a byte. -/
def reach (pool : ℕ → VhostIotlbEntry) : List ℕ → ℕ → ℕ
  | [], b => b
  | node :: rest, _ => reach pool rest (pool node).endOf

/-- The host address that the lookup makes of a route: the first one that is not zero. -/
def firstHost (pool : ℕ → VhostIotlbEntry) : List ℕ → ℕ → BitVec 64 → BitVec 64
  | [], _, vva => vva
  | node :: rest, b, vva =>
    firstHost pool rest (pool node).endOf (if vva = 0 then (pool node).hostOf b else vva)

/-- **Entries that go on where the one before ends**, and grant a permission. -/
def Linked (pool : ℕ → VhostIotlbEntry) (perm : BitVec 8) : List ℕ → ℕ → Prop
  | [], _ => True
  | node :: rest, b => (pool node).Covers b ∧ (pool node).Grants perm ∧
      (pool node).endOf < 2 ^ 64 ∧ Linked pool perm rest (pool node).endOf

variable {pool : ℕ → VhostIotlbEntry} {perm : BitVec 8} {stop : ℕ}

theorem route_linked (l : List ℕ) (b : ℕ) : Linked pool perm (route pool perm stop l b).1 b := by
  induction l generalizing b with
  | nil => trivial
  | cons node rest ih =>
    rw [route]
    split
    · trivial
    split
    · exact ih b
    split
    · trivial
    rename_i hle hin hgrants
    have hcovers : (pool node).Covers b := ⟨Nat.le_of_not_lt hle, by omega⟩
    split
    · exact ⟨hcovers, not_not.mp hgrants, by omega, trivial⟩
    · exact ⟨hcovers, not_not.mp hgrants, by omega, ih _⟩

theorem route_subset (l : List ℕ) (b : ℕ) : (route pool perm stop l b).1 ⊆ l := by
  induction l generalizing b with
  | nil => exact fun _ h => h
  | cons node rest ih =>
    have hrest := ih b
    rw [route]
    split
    · exact List.nil_subset _
    split
    · exact List.subset_cons_of_subset node hrest
    split
    · exact List.nil_subset _
    split
    · exact List.cons_subset_cons node (List.nil_subset _)
    · exact List.cons_subset_cons node (ih _)

theorem Linked.reach_lt {l : List ℕ} {b : ℕ} (h : Linked pool perm l b) (hb : b < 2 ^ 64) :
    reach pool l b < 2 ^ 64 := by
  induction l generalizing b with
  | nil => exact hb
  | cons node rest ih => exact ih h.2.2.2 h.2.2.1

/-- **Host addresses that go on along a route.** -/
def Continues (pool : ℕ → VhostIotlbEntry) (l : List ℕ) : Prop :=
  l.IsChain fun n m => (pool m).hostOf (pool n).endOf = (pool n).hostOf (pool n).endOf

/-- **Along such a route**, each byte has the host address that is counted from the first. -/
theorem Linked.exists_host {l : List ℕ} {b : ℕ} (h : Linked pool perm l b)
    (hcont : Continues pool l) {v : BitVec 64} (hv : ∀ n ∈ l.head?, (pool n).hostOf b = v) (k : ℕ)
    (hk : b + k < reach pool l b) :
    ∃ n ∈ l, (pool n).Covers (b + k) ∧ (pool n).Grants perm ∧
      (pool n).hostOf (b + k) = v + BitVec.ofNat 64 k := by
  induction l generalizing b v k with
  | nil => exact absurd hk (not_lt.mpr (le_add_right b k))
  | cons node rest ih =>
    obtain ⟨hcovers, hgrants, -, hrest⟩ := h
    have hhost : (pool node).hostOf b = v := hv node rfl
    by_cases hin : b + k < (pool node).endOf
    · refine ⟨node, List.mem_cons_self, ⟨hcovers.1.trans (le_add_right b k), hin⟩, hgrants, ?_⟩
      rw [hostOf_add _ hcovers.1, hhost]
    · -- the byte lies behind this entry
      obtain ⟨j, hj⟩ : ∃ j, b + k = (pool node).endOf + j :=
        ⟨b + k - (pool node).endOf, by omega⟩
      obtain ⟨len, hlen⟩ : ∃ len, (pool node).endOf = b + len :=
        ⟨_, (Nat.add_sub_cancel' (Nat.le_of_lt hcovers.2)).symm⟩
      have hend : (pool node).hostOf (pool node).endOf = v + BitVec.ofNat 64 len := by
        rw [hlen, hostOf_add _ hcovers.1, hhost]
      obtain ⟨n, hn, hcov, hgr, heq⟩ := ih hrest (List.IsChain.tail hcont)
        (v := v + BitVec.ofNat 64 len) (fun m hm => by
          rw [← hend]
          cases rest with
          | nil => exact absurd hm (by simp)
          | cons m' rest' =>
            obtain rfl : m' = m := by simpa using hm
            exact (List.isChain_cons_cons.mp hcont).1) j (hj ▸ hk)
      refine ⟨n, List.mem_cons_of_mem node hn, hj ▸ hcov, hgr, ?_⟩
      rw [hj, heq, BitVec.add_assoc, ← BitVec.ofNat_add]
      congr 2
      omega

/-! ## The loop -/

variable {dev : VirtioNet}

/-- The end of an entry in 64 bits, by which the loop tells whether a byte behind the start
of the entry lies in it. -/
theorem ge_end_iff (e : VhostIotlbEntry) {iova : BitVec 64} (hle : ¬ iova < e.iova) :
    iova ≥ e.iova + e.size ↔ e.endOf ≤ iova.toNat ∨ 2 ^ 64 ≤ e.endOf := by
  have h1 := e.iova.isLt
  have h2 := e.size.isLt
  have h3 := iova.isLt
  have hstart : e.iova.toNat ≤ iova.toNat := BitVec.le_def.mp (BitVec.not_lt.mp hle)
  rw [ge_iff_le, BitVec.le_def, BitVec.toNat_add, endOf]
  rcases lt_or_ge (e.iova.toNat + e.size.toNat) (2 ^ 64) with hlt | hge
  · rw [mod_eq_of_lt hlt]
    omega
  · rw [mod_eq_sub_mod hge, mod_eq_of_lt (by omega)]
    omega

/-- An entry that a byte lies in ends within the 64 bits. -/
theorem toNat_end (e : VhostIotlbEntry) {iova : BitVec 64} (hle : ¬ iova < e.iova)
    (hin : ¬ iova ≥ e.iova + e.size) :
    (e.iova + e.size).toNat = e.endOf ∧ iova.toNat < e.endOf := by
  have hnot := mt (ge_end_iff e hle).mpr hin
  rw [BitVec.toNat_add]
  unfold endOf at *
  rw [mod_eq_of_lt (by omega)]
  omega

theorem hostOf_toNat (e : VhostIotlbEntry) {iova : BitVec 64} (hle : ¬ iova < e.iova) :
    e.hostOf iova.toNat = e.uaddr + e.uoffset + (iova - e.iova) := by
  have hsub : (iova - e.iova).toNat = iova.toNat - e.iova.toNat :=
    BitVec.toNat_sub_of_le (BitVec.not_lt.mp hle)
  rw [hostOf, ← hsub, BitVec.ofNat_toNat, BitVec.setWidth_eq]

/-- What has been mapped when the loop leaves an entry. -/
theorem toNat_mapped (e : VhostIotlbEntry) {iova mapped : BitVec 64} {start : ℕ}
    (hstart : start + mapped.toNat = iova.toNat) (hle : ¬ iova < e.iova)
    (hin : ¬ iova ≥ e.iova + e.size) :
    (mapped + (e.size - (iova - e.iova))).toNat = e.endOf - start := by
  obtain ⟨hend, hlt⟩ := toNat_end e hle hin
  have hsub : (iova - e.iova).toNat = iova.toNat - e.iova.toNat :=
    BitVec.toNat_sub_of_le (BitVec.not_lt.mp hle)
  have hiova : e.iova.toNat ≤ iova.toNat := BitVec.le_def.mp (BitVec.not_lt.mp hle)
  have hlast := (e.iova + e.size).isLt
  rw [hend] at hlast
  unfold endOf at *
  have hrest : (e.size - (iova - e.iova)).toNat = e.size.toNat - (iova.toNat - e.iova.toNat) := by
    rw [BitVec.toNat_sub_of_le (BitVec.le_def.mpr (by omega)), hsub]
  rw [BitVec.toNat_add, hrest, mod_eq_of_lt (by omega)]
  omega

/-- **What the loop of the lookup computes**: how far the route leads, and the first host
address on it, or none if an entry has been met that does not grant the permission. -/
theorem findLoop_eq {size : BitVec 64} (start : ℕ) (l : List ℕ) :
    ∀ iova vva mapped : BitVec 64, start + mapped.toNat = iova.toNat → mapped < size →
      dev.findLoop size perm l iova vva mapped =
        (let r := route dev.iotlb_pool perm (start + size.toNat) l iova.toNat
         (if r.2 then firstHost dev.iotlb_pool r.1 iova.toNat vva else 0,
          BitVec.ofNat 64 (reach dev.iotlb_pool r.1 iova.toNat - start))) := by
  induction l with
  | nil =>
    intro iova vva mapped hstart hmapped
    simp only [VirtioNet.findLoop, route, reach, firstHost, if_true]
    rw [← hstart, Nat.add_sub_cancel_left, BitVec.ofNat_toNat, BitVec.setWidth_eq]
  | cons node rest ih =>
    intro iova vva mapped hstart hmapped
    have hzero : BitVec.ofNat 64 (iova.toNat - start) = mapped := by
      rw [← hstart, Nat.add_sub_cancel_left, BitVec.ofNat_toNat, BitVec.setWidth_eq]
    rw [VirtioNet.findLoop, route]
    simp only [← BitVec.lt_def]
    by_cases hle : iova < (dev.iotlb_pool node).iova
    · simp only [if_pos hle, reach, firstHost, if_true, hzero]
    simp only [if_neg hle]
    by_cases hskip : iova ≥ (dev.iotlb_pool node).iova + (dev.iotlb_pool node).size
    · rw [if_pos hskip, if_pos ((ge_end_iff _ hle).mp hskip)]
      exact ih iova vva mapped hstart hmapped
    rw [if_neg hskip, if_neg (mt (ge_end_iff _ hle).mpr hskip)]
    by_cases hgrants : perm &&& (dev.iotlb_pool node).perm = perm
    · obtain ⟨hend, hlt⟩ := toNat_end _ hle hskip
      have hmore := toNat_mapped _ hstart hle hskip
      have hgrants' : ¬ ¬ (dev.iotlb_pool node).Grants perm := not_not.mpr hgrants
      rw [if_neg (not_not.mpr hgrants), if_neg hgrants', ← hostOf_toNat _ hle]
      by_cases hstop : mapped + ((dev.iotlb_pool node).size - (iova - (dev.iotlb_pool node).iova)) ≥
          size
      · have hthrough : start + size.toNat ≤ (dev.iotlb_pool node).endOf := by
          have hle' := BitVec.le_def.mp hstop
          omega
        rw [if_pos hstop, if_pos hthrough]
        simp only [firstHost, reach, if_true, ← hmore, BitVec.ofNat_toNat, BitVec.setWidth_eq]
      · have hon : ¬ start + size.toNat ≤ (dev.iotlb_pool node).endOf := by
          have hlt' := BitVec.lt_def.mp (BitVec.not_le.mp hstop)
          omega
        rw [if_neg hstop, if_neg hon,
          ih _ _ _ (by rw [hmore, hend]; omega) (BitVec.not_le.mp hstop), hend]
        rfl
    · have hgrants' : ¬ (dev.iotlb_pool node).Grants perm := hgrants
      rw [if_pos hgrants, if_pos hgrants']
      simp only [reach, hzero]
      rfl

/-! ## The lookup -/

/-- The route of a range through the entries of a device. -/
def VirtioNet.routeOf (dev : VirtioNet) (iova size : BitVec 64) (perm : BitVec 8) :
    List ℕ × Bool :=
  route dev.iotlb_pool perm (iova.toNat + size.toNat) dev.iotlb_list iova.toNat

/-- **How much of a range is mapped** without a gap from its start on. -/
def VirtioNet.mappedLen (dev : VirtioNet) (iova size : BitVec 64) (perm : BitVec 8) : ℕ :=
  min size.toNat
    (reach dev.iotlb_pool (dev.routeOf iova size perm).1 iova.toNat - iova.toNat)

/-- **A range whose host addresses go on as its bytes do.** An address that is zero is no
address where the route goes on behind its entry. -/
def VirtioNet.Contiguous (dev : VirtioNet) (iova size : BitVec 64) (perm : BitVec 8) : Prop :=
  (dev.routeOf iova size perm).2 = true →
    Continues dev.iotlb_pool (dev.routeOf iova size perm).1 ∧
    (2 ≤ (dev.routeOf iova size perm).1.length →
      ∀ n ∈ (dev.routeOf iova size perm).1.head?, (dev.iotlb_pool n).hostOf iova.toNat ≠ 0)

/-- **An answer is sound**: each byte of the range that is returned lies in an entry that
grants the permission, at the host address that is counted from the one returned. -/
def SoundAnswer (entries : List VhostIotlbEntry) (iova : BitVec 64) (perm : BitVec 8)
    (vva : BitVec 64) (len : ℕ) : Prop :=
  vva ≠ 0 → ∀ k < len, ∃ e ∈ entries, e.Covers (iova.toNat + k) ∧ e.Grants perm ∧
    e.hostOf (iova.toNat + k) = vva + BitVec.ofNat 64 k

variable {iova size : BitVec 64}

theorem routeOf_linked (dev : VirtioNet) (iova size : BitVec 64) (perm : BitVec 8) :
    Linked dev.iotlb_pool perm (dev.routeOf iova size perm).1 iova.toNat :=
  route_linked _ _

theorem routeOf_subset (dev : VirtioNet) (iova size : BitVec 64) (perm : BitVec 8) :
    (dev.routeOf iova size perm).1 ⊆ dev.iotlb_list :=
  route_subset _ _

theorem cacheFind_eq (hsize : size ≠ 0) : dev.cacheFind iova size perm =
    (if (dev.routeOf iova size perm).2 then
        firstHost dev.iotlb_pool (dev.routeOf iova size perm).1 iova.toNat 0 else 0,
      BitVec.ofNat 64 (dev.mappedLen iova size perm)) := by
  have hpos : (0 : BitVec 64) < size :=
    BitVec.lt_def.mpr (Nat.pos_of_ne_zero fun h => hsize (BitVec.eq_of_toNat_eq h))
  have hlt := (routeOf_linked dev iova size perm).reach_lt iova.isLt
  rw [VirtioNet.cacheFind, if_neg hsize, findLoop_eq iova.toNat _ _ _ _ rfl hpos]
  change (let r := dev.routeOf iova size perm; (_, if BitVec.ofNat 64
    (reach dev.iotlb_pool r.1 iova.toNat - iova.toNat) < size then BitVec.ofNat 64
      (reach dev.iotlb_pool r.1 iova.toNat - iova.toNat) else size)) = _
  refine Prod.ext rfl ?_
  simp only [VirtioNet.mappedLen]
  generalize reach dev.iotlb_pool (dev.routeOf iova size perm).1 iova.toNat = far at *
  have hfar : (BitVec.ofNat 64 (far - iova.toNat)).toNat = far - iova.toNat := by
    rw [BitVec.toNat_ofNat]
    exact mod_eq_of_lt (by omega)
  by_cases hless : BitVec.ofNat 64 (far - iova.toNat) < size
  · rw [if_pos hless, min_eq_right]
    rw [← hfar]
    exact le_of_lt (BitVec.lt_def.mp hless)
  · rw [if_neg hless, min_eq_left, BitVec.ofNat_toNat, BitVec.setWidth_eq]
    rw [← hfar]
    exact BitVec.le_def.mp (BitVec.not_lt.mp hless)

theorem mappedLen_toNat :
    (BitVec.ofNat 64 (dev.mappedLen iova size perm)).toNat = dev.mappedLen iova size perm := by
  rw [BitVec.toNat_ofNat]
  exact mod_eq_of_lt (lt_of_le_of_lt (min_le_left _ _) size.isLt)

theorem firstHost_of_ne {vva : BitVec 64} (hvva : vva ≠ 0) (l : List ℕ) (b : ℕ) :
    firstHost pool l b vva = vva := by
  induction l generalizing b with
  | nil => rfl
  | cons node rest ih => rw [firstHost, if_neg hvva, ih]

/-- A lookup is right where the host addresses go on. -/
theorem cacheFind_sound (h : dev.Contiguous iova size perm) :
    SoundAnswer (dev.iotlb_list.map dev.iotlb_pool) iova perm (dev.cacheFind iova size perm).1
      (dev.cacheFind iova size perm).2.toNat := by
  intro hvva k hk
  by_cases hsize : size = 0
  · subst hsize
    exact absurd rfl hvva
  rw [cacheFind_eq hsize] at hvva hk ⊢
  rw [mappedLen_toNat, VirtioNet.mappedLen] at hk
  simp only at hvva
  by_cases hgranted : (dev.routeOf iova size perm).2 = true
  · obtain ⟨hcont, hzero⟩ := h hgranted
    have hlinked := routeOf_linked dev iova size perm
    have hsub := routeOf_subset dev iova size perm
    rw [if_pos hgranted] at hvva ⊢
    generalize (dev.routeOf iova size perm).1 = l at *
    cases l with
    | nil => exact absurd rfl hvva
    | cons node rest =>
      -- the address of the first entry is the one that is returned
      have hfirst : (dev.iotlb_pool node).hostOf iova.toNat ≠ 0 := by
        intro hhost
        cases rest with
        | nil =>
          rw [firstHost, if_pos rfl, hhost] at hvva
          exact absurd rfl hvva
        | cons node' rest => exact hzero (by simp) node rfl hhost
      rw [firstHost, if_pos rfl, firstHost_of_ne hfirst]
      obtain ⟨n, hn, hcovers, hgrants, hhost⟩ := hlinked.exists_host hcont
        (fun m hm => by rw [← Option.some.inj hm]) k (by omega)
      exact ⟨_, List.mem_map_of_mem (hsub hn), hcovers, hgrants, hhost⟩
  · rw [if_neg hgranted] at hvva
    exact absurd rfl hvva

end Vhost.Iotlb
