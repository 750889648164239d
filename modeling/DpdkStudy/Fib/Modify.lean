import DpdkStudy.Fib.Tables
import DpdkStudy.Rib.PrefixMap
import DpdkStudy.Rib.Walk

/-!
# Modifying a prefix

`modify_fib` walks over the more specific routes of a prefix and installs a
next hop on the gaps between them. The routes it stops at are the topmost
ones of the prefix (`Topmost`), as they are read off the table of the routes
(`mem_covers_iff`). If it succeeds, the next hop is installed on the addresses
of the prefix that no such route has (`modifyFib_spec`).

There are two kinds of prefixes for which this fails. The edges of a gap are
numbers of 32 bits, and both the beginning of the address space and its end
are zero. If the last gap is empty, and ends where the address space does, the
walk takes it for the whole space (`WrapsAround`). If the last gap begins in
the first 256 addresses, and ends there too, it is taken for a part of one
entry, and nothing is written (`LowRemainder`).
-/

open List

namespace Fib

open Rib Prefix

variable {d : ℕ} {c : Cursor} {before rest : List Cursor} {ledge : UInt32}

/-! ## Topmost routes -/

/-- **A route is a topmost one of a prefix**: it is more specific than the
prefix, and no other such route is between them. -/
def Topmost (M : Table ℕ) (depth P d p : ℕ) : Prop :=
  M d p ≠ none ∧ depth < d ∧ d ≤ 32 ∧ trunc 32 d p = p ∧ trunc 32 depth p = P
    ∧ ∀ e, depth < e → e < d → M e (trunc 32 e p) = none

/-- The first address of a route. -/
def start (c : Cursor) : ℕ := (rteRibGetIp c).toNat

/-- The address after its last one. -/
def finish (c : Cursor) : ℕ := start c + 2 ^ (32 - rteRibGetDepth c)

theorem start_lt_finish (c : Cursor) : start c < finish c :=
  Nat.lt_add_of_pos_right (Nat.two_pow_pos _)

theorem mem_covers_iff {rib : RteRib} {M : Table ℕ} (h : RibShows rib M) {ip : UInt32} {depth : ℕ}
    (hdepth : depth ≤ 32) {p : ℕ} :
    (∃ c ∈ covers rib ip depth, rteRibGetDepth c = d ∧ start c = p)
      ↔ Topmost M depth (trunc 32 depth ip.toNat) d p :=
  exists_mem_covers_iff h hdepth

/-! ## The loop -/

/-- An address of one of some routes. -/
def Covered (cs : List Cursor) (a : ℕ) : Prop := ∃ c ∈ cs, start c ≤ a ∧ a < finish c

theorem covered_cons {cs : List Cursor} {a : ℕ} :
    Covered (c :: cs) a ↔ (start c ≤ a ∧ a < finish c) ∨ Covered cs a := by
  simp [Covered]

/-- **The last gap is empty**, at the end of the address space: a topmost
route of the prefix ends there, and begins where the prefix or another
topmost route ends. -/
def WrapsAround (M : Table ℕ) (depth P : ℕ) : Prop :=
  ∃ d p, Topmost M depth P d p ∧ p + 2 ^ (32 - d) = 2 ^ 32
    ∧ (p = P ∨ ∃ d' p', Topmost M depth P d' p' ∧ p' + 2 ^ (32 - d') = p)

/-- **The last gap begins in the first 256 addresses**, and is the rest of the
address space. -/
def LowRemainder (M : Table ℕ) (depth P : ℕ) : Prop :=
  depth = 0 ∧ (∃ d p, Topmost M depth P d p) ∧ ∀ d p, Topmost M depth P d p → p + 2 ^ (32 - d) < 256

/-- **The gaps can be told from each other.** -/
structure Tellable (M : Table ℕ) (depth P : ℕ) : Prop where
  notWraps : ¬ WrapsAround M depth P
  notLow : ¬ LowRemainder M depth P

theorem modifyLoop_frame (rib : RteRib) (ip : UInt32) (depth nextHop fuel : ℕ)
    (dp : Dir24_8Tbl) (tmp : Option Cursor) (ledge : UInt32) :
    Frame dp (modifyLoop rib ip depth nextHop fuel dp tmp ledge).2 := by
  induction fuel generalizing dp tmp ledge with
  | zero => exact Frame.refl dp
  | succ fuel ih =>
    unfold modifyLoop
    split
    · dsimp only
      have hinstall := installToFib_frame dp ledge
      split
      · exact ih _ _ _
      · split
        · exact ih _ _ _
        · split
          · exact hinstall _ _
          · split
            · exact hinstall _ _
            · exact (hinstall _ _).trans (ih _ _ _)
    · dsimp only
      split
      · exact Frame.refl dp
      · exact installToFib_frame dp _ _ _

/-- `modify_fib` leaves the frame, whatever it returns. -/
theorem modifyFib_frame (dp : Dir24_8Tbl) (rib : RteRib) (ip : UInt32) (depth nextHop : ℕ) :
    Frame dp (modifyFib dp rib ip depth nextHop).2 :=
  modifyLoop_frame _ _ _ _ _ _ _ _

theorem toNat_prefixSize (hd : d ≤ 32) : (prefixSize d).toNat = 2 ^ (32 - d) % 2 ^ 32 := by
  revert d
  decide

theorem edge_add_prefixSize {ip : UInt32} (hd : d ≤ 32) (hend : ip.toNat + 2 ^ (32 - d) ≤ 2 ^ 32) :
    edge (ip + prefixSize d) = ip.toNat + 2 ^ (32 - d)
      ∧ (ip + prefixSize d).toNat = (ip.toNat + 2 ^ (32 - d)) % 2 ^ 32 := by
  have hsum : (ip + prefixSize d).toNat = (ip.toNat + 2 ^ (32 - d)) % 2 ^ 32 := by
    rw [UInt32.toNat_add, toNat_prefixSize hd, Nat.add_mod_mod]
  have hpos := Nat.two_pow_pos (32 - d)
  refine ⟨?_, hsum⟩
  unfold edge
  by_cases hz : ip + prefixSize d = 0
  · rw [if_pos hz]
    rw [hz] at hsum
    have h0 : (0 : UInt32).toNat = 0 := rfl
    omega
  · rw [if_neg hz, hsum]
    have hnz : (ip + prefixSize d).toNat ≠ 0 := fun hc => hz (UInt32.toNat_inj.mp hc)
    omega

section Walk

variable {rib : RteRib} {M : Table ℕ} {ip : UInt32} {depth : ℕ}

section

variable (h : RibShows rib M) (hdepth : depth ≤ 32)

include h hdepth

/-- **Every route of the walk** has its addresses among those of the prefix,
and its address as the mask of its depth leaves it. -/
theorem covers_bounds (hip : trunc 32 depth ip.toNat = ip.toNat) (hc : c ∈ covers rib ip depth) :
    rteRibGetDepth c ≠ depth ∧ rteRibGetDepth c ≤ 32 ∧ ip.toNat ≤ start c
      ∧ finish c ≤ ip.toNat + 2 ^ (32 - depth)
      ∧ rteRibGetIp c &&& rteRibDepthToMask (rteRibGetDepth c) = rteRibGetIp c := by
  obtain ⟨d, p, v, hat, -, hlt, hd, hp, hcov⟩ := covers_at h hdepth hc
  obtain ⟨hcd, hcp, -⟩ := hat.get
  obtain ⟨hle, hend⟩ := range_le (le_of_lt hlt) hd hp (hcov.trans hip)
  unfold finish start
  rw [hcd, hcp]
  refine ⟨by omega, hd, hle, hend, ?_⟩
  refine UInt32.toNat_inj.mp ?_
  rw [toNat_and_rteRibDepthToMask _ hd, hcp, hp]

theorem nxt_eq (hcovers : covers rib ip depth = before ++ rest) :
    rteRibGetNxt rib ip depth before.getLast? true = rest.head? := by
  cases hlast : before.getLast? with
  | none =>
    rw [getLast?_eq_none_iff] at hlast
    subst hlast
    rw [rteRibGetNxt_none h ip hdepth, hcovers]
    rfl
  | some c =>
    obtain ⟨l, rfl⟩ := getLast?_eq_some_iff.mp hlast
    rw [append_assoc] at hcovers
    exact rteRibGetNxt_some h hdepth hcovers

/-- The routes of the walk up to one end where it ends, or before; those after
it begin there, or later. -/
theorem finish_le_of_last (hcovers : covers rib ip depth = before ++ rest)
    (hlast : before.getLast? = some c) :
    (∀ c' ∈ before, finish c' ≤ finish c) ∧ ∀ c' ∈ rest, finish c ≤ start c' := by
  have hpair := covers_pairwise h ip hdepth
  rw [hcovers] at hpair
  obtain ⟨l, rfl⟩ := getLast?_eq_some_iff.mp hlast
  obtain ⟨hbefore, -, hcross⟩ := pairwise_append.mp hpair
  obtain ⟨-, -, hl⟩ := pairwise_append.mp hbefore
  refine ⟨fun c' hc' => ?_, fun c' hc' => hcross c (by simp) c' hc'⟩
  rcases mem_append.mp hc' with hc' | hc'
  · have hle : finish c' ≤ start c := hl c' hc' c (mem_singleton.mpr rfl)
    have hlt := start_lt_finish c
    omega
  · rw [mem_singleton.mp hc']

theorem topmost_of_mem (hip : trunc 32 depth ip.toNat = ip.toNat) (hc : c ∈ covers rib ip depth) :
    Topmost M depth ip.toNat (rteRibGetDepth c) (start c) := by
  have htop := (mem_covers_iff h hdepth).mp ⟨c, hc, rfl, rfl⟩
  rw [hip] at htop
  exact htop

/-- **The left edge of the walk**: the beginning of the prefix, or the end of
the last route. -/
def LeftEdge (ip : UInt32) (before : List Cursor) (ledge : UInt32) : Prop :=
  (before = [] ∧ ledge = ip) ∨ ∃ c, before.getLast? = some c ∧ finish c = ledge.toNat

theorem LeftEdge.le (hip : trunc 32 depth ip.toNat = ip.toNat)
    (hcovers : covers rib ip depth = before ++ rest) (hledge : LeftEdge ip before ledge) :
    ip.toNat ≤ ledge.toNat ∧ ledge.toNat ≤ ip.toNat + 2 ^ (32 - depth)
      ∧ ∀ c ∈ rest, ledge.toNat ≤ start c := by
  rcases hledge with ⟨rfl, rfl⟩ | ⟨c, hlast, hfin⟩
  · refine ⟨le_refl _, Nat.le_add_right _ _, fun c hc => ?_⟩
    exact (covers_bounds h hdepth hip (by rw [hcovers]; exact hc)).2.2.1
  · have hc : c ∈ covers rib ip depth := by
      rw [hcovers]
      exact mem_append_left rest (mem_of_getLast? hlast)
    obtain ⟨-, -, hle, hend, -⟩ := covers_bounds h hdepth hip hc
    have hlt := start_lt_finish c
    refine ⟨by omega, by omega, fun c' hc' => ?_⟩
    rw [← hfin]
    exact (finish_le_of_last h hdepth hcovers hlast).2 c' hc'

end

/-- The addresses of a prefix end where the address space does, or before. -/
theorem finish_le {ip : UInt32} {depth : ℕ} (hdepth : depth ≤ 32)
    (hip : trunc 32 depth ip.toNat = ip.toNat) : ip.toNat + 2 ^ (32 - depth) ≤ 2 ^ 32 := by
  have hadd := trunc_add_le hdepth ip.toNat_lt
  rw [hip] at hadd
  exact hadd

variable (h : RibShows rib M) (hdepth : depth ≤ 32)

include h hdepth

/-- **The last turn of the loop**: the gap behind the last route is empty, or
the next hop is installed on it. -/
theorem modifyLoop_nil (hip : trunc 32 depth ip.toNat = ip.toNat)
    (htell : Tellable M depth ip.toNat) (hcovers : covers rib ip depth = before)
    (hledge : LeftEdge ip before ledge) (nextHop fuel : ℕ) (dp : Dir24_8Tbl) :
    (ledge.toNat = ip.toNat + 2 ^ (32 - depth)
        ∧ modifyLoop rib ip depth nextHop (fuel + 1) dp before.getLast? ledge = (0, dp))
      ∨ (ledge.toNat < ip.toNat + 2 ^ (32 - depth)
        ∧ edge (ip + prefixSize depth) = ip.toNat + 2 ^ (32 - depth)
        ∧ (ip + prefixSize depth = 0 → ledge.toNat = 0 ∨ 256 ≤ ledge.toNat)
        ∧ modifyLoop rib ip depth nextHop (fuel + 1) dp before.getLast? ledge
          = installToFib dp ledge (ip + prefixSize depth) nextHop) := by
  have hcovers' : covers rib ip depth = before ++ [] := hcovers.trans (append_nil _).symm
  obtain ⟨hge, hle, -⟩ := hledge.le h hdepth hip hcovers'
  have hl32 := ledge.toNat_lt
  have hend := finish_le hdepth hip
  obtain ⟨hedge, hnat⟩ := edge_add_prefixSize hdepth hend
  unfold modifyLoop
  rw [nxt_eq h hdepth hcovers']
  dsimp only [head?_nil]
  by_cases hempty : ledge = ip + prefixSize depth ∧ ledge ≠ 0
  · rw [if_pos hempty]
    have hnz : ledge.toNat ≠ 0 := fun hc => hempty.2 (UInt32.toNat_inj.mp hc)
    rw [← hempty.1] at hnat
    exact Or.inl ⟨by omega, rfl⟩
  · rw [if_neg hempty]
    have hlt : ledge.toNat < ip.toNat + 2 ^ (32 - depth) := by
      refine lt_of_le_of_ne hle (fun heq => hempty ?_)
      have hsame : ledge.toNat = (ip + prefixSize depth).toNat := by omega
      have hpos := Nat.two_pow_pos (32 - depth)
      refine ⟨UInt32.toNat_inj.mp hsame, fun hc => ?_⟩
      rw [hc] at heq
      have h0 : (0 : UInt32).toNat = 0 := rfl
      omega
    refine Or.inr ⟨hlt, hedge, fun hz => ?_, rfl⟩
    -- a last gap that begins in the first 256 addresses begins at the first one
    by_contra hc
    obtain ⟨hl0, hl256⟩ := not_or.mp hc
    rw [hz] at hedge
    have htop : ip.toNat + 2 ^ (32 - depth) = 2 ^ 32 := hedge.symm
    have hd0 : depth = 0 := by
      by_contra hd
      have hpow : 2 ^ (32 - depth) ≤ 2 ^ 31 := Nat.pow_le_pow_right (by decide) (by omega)
      omega
    have hip0 : ip.toNat = 0 := by
      rw [hd0] at htop
      omega
    rcases hledge with ⟨-, rfl⟩ | ⟨c, hlast, hfin⟩
    · exact hl0 hip0
    · have hmem : c ∈ covers rib ip depth := by
        rw [hcovers]
        exact mem_of_getLast? hlast
      refine htell.notLow ⟨hd0, ⟨_, _, topmost_of_mem h hdepth hip hmem⟩, fun d p hdp => ?_⟩
      rw [← hip] at hdp
      obtain ⟨c', hc', rfl, rfl⟩ := (mem_covers_iff h hdepth).mpr hdp
      rw [hcovers] at hc'
      have hfle := (finish_le_of_last h hdepth hcovers' hlast).1 c' hc'
      unfold finish at hfle hfin
      omega

/-- The address after a route, as the loop computes it. -/
def after (c : Cursor) : UInt32 := rteRibGetIp c + prefixSize (rteRibGetDepth c)

/-- **A turn of the loop** at a route of the walk: the gap in front of the
route is empty, or the next hop is installed on it. The loop goes on behind the
route, if the address space goes on there. -/
theorem modifyLoop_cons (hip : trunc 32 depth ip.toNat = ip.toNat)
    (htell : Tellable M depth ip.toNat) (hcovers : covers rib ip depth = before ++ c :: rest)
    (hledge : LeftEdge ip before ledge) (nextHop fuel : ℕ) (dp : Dir24_8Tbl) :
    (ledge.toNat = start c ∧ (after c).toNat = finish c ∧ LeftEdge ip (before ++ [c]) (after c)
        ∧ modifyLoop rib ip depth nextHop (fuel + 1) dp before.getLast? ledge
          = modifyLoop rib ip depth nextHop fuel dp (before ++ [c]).getLast? (after c))
      ∨ (ledge.toNat < start c ∧ edge (rteRibGetIp c) = start c ∧ rteRibGetIp c ≠ 0
        ∧ ((installToFib dp ledge (rteRibGetIp c) nextHop).1 ≠ 0 →
          modifyLoop rib ip depth nextHop (fuel + 1) dp before.getLast? ledge
            = installToFib dp ledge (rteRibGetIp c) nextHop)
        ∧ ∀ dp', installToFib dp ledge (rteRibGetIp c) nextHop = (0, dp') →
          (rest = [] ∧ finish c = ip.toNat + 2 ^ (32 - depth)
              ∧ modifyLoop rib ip depth nextHop (fuel + 1) dp before.getLast? ledge = (0, dp'))
            ∨ ((after c).toNat = finish c ∧ LeftEdge ip (before ++ [c]) (after c)
              ∧ modifyLoop rib ip depth nextHop (fuel + 1) dp before.getLast? ledge
                = modifyLoop rib ip depth nextHop fuel dp' (before ++ [c]).getLast? (after c))) := by
  have hmem : c ∈ covers rib ip depth := by
    rw [hcovers]
    exact mem_append_right before mem_cons_self
  have hsplit : covers rib ip depth = (before ++ [c]) ++ rest := by
    rw [hcovers, append_assoc]
    rfl
  have hlast : (before ++ [c]).getLast? = some c := getLast?_concat
  obtain ⟨hne, hd, hip', hfin, hmask⟩ := covers_bounds h hdepth hip hmem
  obtain ⟨hge, hle, hrest⟩ := hledge.le h hdepth hip hcovers
  have hstart := hrest c mem_cons_self
  have hend := finish_le hdepth hip
  have hnext : (after c).toNat = finish c % 2 ^ 32 :=
    (edge_add_prefixSize hd (hfin.trans hend)).2
  rw [hlast]
  rw [modifyLoop, nxt_eq h hdepth hcovers]
  dsimp only [head?_cons]
  rw [if_neg hne, hmask]
  by_cases hgap : ledge = rteRibGetIp c
  · -- the gap is empty
    rw [if_pos hgap]
    have hsame : ledge.toNat = start c := by
      rw [hgap]
      rfl
    have hroom : finish c < 2 ^ 32 := by
      refine lt_of_le_of_ne (hfin.trans hend) (fun hwrap => htell.notWraps ?_)
      refine ⟨_, _, topmost_of_mem h hdepth hip hmem, hwrap, ?_⟩
      rcases hledge with ⟨-, rfl⟩ | ⟨c', hlast', hfin'⟩
      · exact Or.inl hsame.symm
      · have hmem' : c' ∈ covers rib ip depth := by
          rw [hcovers]
          exact mem_append_left _ (mem_of_getLast? hlast')
        exact Or.inr ⟨_, _, topmost_of_mem h hdepth hip hmem', hfin'.trans hsame⟩
    rw [Nat.mod_eq_of_lt hroom] at hnext
    exact Or.inl ⟨hsame, hnext, Or.inr ⟨c, hlast, hnext.symm⟩, rfl⟩
  · rw [if_neg hgap]
    have hlt' : ledge.toNat < start c :=
      lt_of_le_of_ne hstart (fun heq => hgap (UInt32.toNat_inj.mp heq))
    have hnz : rteRibGetIp c ≠ 0 := by
      intro hz
      unfold start at hlt'
      rw [hz] at hlt'
      exact Nat.not_lt_zero _ hlt'
    refine Or.inr ⟨hlt', if_neg hnz, hnz, fun hr => if_pos hr, fun dp' hinst => ?_⟩
    rw [hinst, if_neg (not_not.mpr rfl)]
    by_cases hwrap : after c = 0
    · -- the route ends where the address space does
      have hfull : finish c = 2 ^ 32 := by
        rw [hwrap] at hnext
        have h0 : (0 : UInt32).toNat = 0 := rfl
        have hpos := start_lt_finish c
        omega
      have hnil : rest = [] := by
        cases hr : rest with
        | nil => rfl
        | cons c' rest' =>
          have hc' : c' ∈ rest := hr ▸ mem_cons_self
          have hle' := (finish_le_of_last h hdepth hsplit hlast).2 c' hc'
          have hlt := (rteRibGetIp c').toNat_lt
          unfold start at hle'
          omega
      exact Or.inl ⟨hnil, by omega, if_pos hwrap⟩
    · have hnz' : (after c).toNat ≠ 0 := fun hc => hwrap (UInt32.toNat_inj.mp hc)
      have hroom : finish c < 2 ^ 32 := by
        refine lt_of_le_of_ne (hfin.trans hend) (fun heq => hnz' ?_)
        rw [hnext, heq, Nat.mod_self]
      rw [Nat.mod_eq_of_lt hroom] at hnext
      exact Or.inr ⟨hnext, Or.inr ⟨c, hlast, hnext.symm⟩, if_neg hwrap⟩

/-- **The gaps of a walk.** The induction is on the routes that are still to
come. -/
theorem modifyLoop_spec (hip : trunc 32 depth ip.toNat = ip.toNat)
    (htell : Tellable M depth ip.toNat) (hcovers : covers rib ip depth = before ++ rest)
    {nextHop fuel : ℕ} (hfuel : rest.length < fuel) {dp dp' : Dir24_8Tbl} (hs : Sound dp)
    (hfits : Fits dp) (hnh : nextHop ≤ getMaxNh dp.nhSz) (hledge : LeftEdge ip before ledge)
    (hr : modifyLoop rib ip depth nextHop fuel dp before.getLast? ledge = (0, dp')) :
    Installs dp dp' nextHop (fun a => ledge.toNat ≤ a ∧ a < ip.toNat + 2 ^ (32 - depth)
      ∧ ¬ Covered rest a) := by
  induction rest generalizing before fuel dp ledge with
  | nil =>
    cases fuel with
    | zero => exact absurd hfuel (Nat.not_lt_zero _)
    | succ fuel =>
      rw [append_nil] at hcovers
      have hnone : ∀ a, ¬ Covered [] a := fun a ⟨c, hc, _⟩ => nomatch hc
      rcases modifyLoop_nil h hdepth hip htell hcovers hledge nextHop fuel dp with
        ⟨hend, heq⟩ | ⟨hlt, hedge, htop, heq⟩
      · rw [heq] at hr
        obtain ⟨-, rfl⟩ := Prod.mk.inj hr
        exact Installs.refl hs nextHop (fun a _ => by omega)
      · rw [heq] at hr
        have hinst := installToFib_spec hs hfits hnh (by rw [hedge]; exact hlt) htop hr
        rw [hedge] at hinst
        exact hinst.congr (fun a _ => by simp [hnone])
  | cons c rest ih =>
    cases fuel with
    | zero => exact absurd hfuel (Nat.not_lt_zero _)
    | succ fuel =>
      have hsplit : covers rib ip depth = (before ++ [c]) ++ rest := by
        rw [hcovers, append_assoc]
        rfl
      have hlt := start_lt_finish c
      have hmem : c ∈ covers rib ip depth := by
        rw [hcovers]
        exact mem_append_right before mem_cons_self
      have hfin := (covers_bounds h hdepth hip hmem).2.2.2.1
      have hafter : ∀ a, Covered rest a → finish c ≤ a := by
        rintro a ⟨c', hc', hge', -⟩
        exact ((finish_le_of_last h hdepth hsplit getLast?_concat).2 c' hc').trans hge'
      rw [length_cons] at hfuel
      rcases modifyLoop_cons h hdepth hip htell hcovers hledge nextHop fuel dp with
        ⟨hsame, hnext, hledge', heq⟩ | ⟨hlt', hedge, hnz, hfail, hgo⟩
      · rw [heq] at hr
        refine (ih hsplit (by omega) hs hfits hnh hledge' hr).congr (fun a ha => ?_)
        rw [hnext, covered_cons]
        by_cases hcov : Covered rest a
        · simp only [hcov, not_true_eq_false, or_true, and_false]
        · simp only [hcov, not_false_eq_true, or_false, and_true]
          omega
      · cases hinst : installToFib dp ledge (rteRibGetIp c) nextHop with
        | mk r dp₁ =>
          by_cases hr₁ : r = 0
          · subst hr₁
            have hi₁ := installToFib_spec hs hfits hnh (by rw [hedge]; exact hlt')
              (fun hz => absurd hz hnz) hinst
            rw [hedge] at hi₁
            rcases hgo dp₁ hinst with ⟨rfl, hfull, heq⟩ | ⟨hnext, hledge', heq⟩
            · rw [heq] at hr
              obtain ⟨-, rfl⟩ := Prod.mk.inj hr
              refine hi₁.congr (fun a ha => ?_)
              have hnone : ¬ Covered [] a := fun ⟨c, hc, _⟩ => nomatch hc
              rw [covered_cons, or_iff_left hnone]
              omega
            · rw [heq] at hr
              have hnh₁ : nextHop ≤ getMaxNh dp₁.nhSz := by
                rw [hi₁.frame.nhSz]
                exact hnh
              have hi₂ := ih hsplit (by omega) hi₁.sound (hfits.frame hi₁.frame) hnh₁ hledge' hr
              refine (hi₁.trans hi₂).congr (fun a ha => ?_)
              rw [hnext, covered_cons]
              by_cases hcov : Covered rest a
              · have hge' := hafter a hcov
                simp only [hcov, not_true_eq_false, or_true, and_false, or_false, iff_false]
                omega
              · simp only [hcov, not_false_eq_true, or_false, and_true]
                omega
          · rw [hinst] at hfail
            rw [hfail hr₁] at hr
            exact absurd (Prod.mk.inj hr).1 hr₁

theorem length_covers_le :
    (covers rib ip depth).length ≤ sizeOfTree rib.tree := by
  have hnodup : ((covers rib ip depth).map (fun c => (rteRibGetDepth c, start c))).Nodup := by
    refine List.Pairwise.map _ (fun c c' hbefore heq => ?_) (covers_pairwise h ip hdepth)
    obtain ⟨-, hs⟩ := Prod.mk.inj heq
    have hle : finish c ≤ start c' := hbefore
    have hlt := start_lt_finish c
    omega
  have hsub : (covers rib ip depth).map (fun c => (rteRibGetDepth c, start c))
      ⊆ pairsOf rib.tree := by
    intro r hr
    obtain ⟨c, hc, rfl⟩ := mem_map.mp hr
    obtain ⟨d, p, v, hat, hM, -⟩ := covers_at h hdepth hc
    obtain ⟨hcd, hcp, -⟩ := hat.get
    refine mem_pairsOf.mpr ⟨v, (h.holds _ _ v).mpr ?_⟩
    show M (rteRibGetDepth c) (rteRibGetIp c).toNat = some v
    rw [hcd, hcp, hM]
  have hle := (hnodup.subperm hsub).length_le
  rw [length_map, length_pairsOf] at hle
  have hsize : ∀ t : RteRibNode, routes t ≤ sizeOfTree t := by
    intro t
    induction t with
    | null => exact Nat.le_refl 0
    | node ip d valid nh left right ihl ihr =>
      show valid.toNat + routes left + routes right ≤ sizeOfTree left + sizeOfTree right + 1
      have hone := Bool.toNat_le valid
      omega
  exact hle.trans (hsize _)

/-- An address of a route of the walk has a more specific route than the
prefix, and conversely. -/
theorem covered_iff (hip : trunc 32 depth ip.toNat = ip.toNat) {a : ℕ} :
    Covered (covers rib ip depth) a
      ↔ trunc 32 depth a = ip.toNat
        ∧ ∃ e, depth < e ∧ e < 33 ∧ M e (trunc 32 e a) ≠ none := by
  constructor
  · rintro ⟨c, hc, ha⟩
    obtain ⟨hM, hlt, hd, hp, hcov, -⟩ := topmost_of_mem h hdepth hip hc
    have hat := (trunc_eq_iff_mem hp).mpr ha
    refine ⟨?_, _, hlt, by omega, ?_⟩
    · rw [← trunc_trunc (le_of_lt hlt) hd, hat, hcov]
    · rw [hat]
      exact hM
  · rintro ⟨hcov, e, he, he33, hM⟩
    obtain ⟨v, hv⟩ := Option.ne_none_iff_exists'.mp hM
    have hcov' : trunc 32 depth (trunc 32 e a) = trunc 32 depth ip.toNat := by
      rw [trunc_trunc (le_of_lt he) (by omega), hcov, hip]
    obtain ⟨c, hc, hle, hccov⟩ := covers_complete h hdepth hv he hcov'
    obtain ⟨-, -, -, hp, -⟩ := topmost_of_mem h hdepth hip hc
    refine ⟨c, hc, (trunc_eq_iff_mem hp).mp ?_⟩
    rw [trunc_trunc hle (by omega)] at hccov
    exact hccov

/-- **`modify_fib`**, if it succeeds, installs the next hop on the addresses of
the prefix that have no more specific route. -/
theorem modifyFib_spec (hip : trunc 32 depth ip.toNat = ip.toNat)
    (htell : Tellable M depth ip.toNat) {nextHop : ℕ} {dp dp' : Dir24_8Tbl} (hs : Sound dp)
    (hfits : Fits dp) (hnh : nextHop ≤ getMaxNh dp.nhSz)
    (hr : modifyFib dp rib ip depth nextHop = (0, dp')) :
    Installs dp dp' nextHop (Decides 32 M depth ip.toNat 33) := by
  have hwalk := modifyLoop_spec h hdepth hip htell (nil_append _).symm
    (Nat.lt_succ_of_le (length_covers_le h hdepth)) hs hfits hnh (Or.inl ⟨rfl, rfl⟩) hr
  refine hwalk.congr (fun a ha => ?_)
  rw [covered_iff h hdepth hip, Decides, trunc_eq_iff_mem hip]
  constructor
  · rintro ⟨hge, hlt, hnot⟩
    refine ⟨⟨hge, hlt⟩, fun e he he33 => ?_⟩
    by_contra hM
    exact hnot ⟨⟨hge, hlt⟩, e, he, he33, hM⟩
  · rintro ⟨⟨hge, hlt⟩, hall⟩
    exact ⟨hge, hlt, fun ⟨_, e, he, he33, hM⟩ => hM (hall e he he33)⟩

end Walk

end Fib
