import DpdkStudy.Fib.Flat

/-!
# Changes of the FIB that are atomic

What `rte_fib_add` and `rte_fib_delete` promise by what they return
(`Atomic`): a call that fails leaves the answers, the routes and the groups as
they were, and after a call that returns 0 the addresses of its prefix are
answered from the new routes.

The code keeps the promise where the call has room (`Roomy`): the gaps between
the more specific routes of its prefix can be told from each other, and there
is room in the flat table for all of them, one after the other; or there is no
group for the very first of them, and the call is not a change of the next hop
of a route. Otherwise the installation stops between two gaps, and what was
installed is not taken back; and a change of a next hop returns 0 all the same.
-/

open List

namespace Fib

open Rib Prefix
open Runs (run Along)

/-! ## Room for a prefix -/

/-- **The gaps** between some ranges, from an address on, up to an end. -/
def gaps (l e : ℕ) : List (ℕ × ℕ) → List (ℕ × ℕ)
  | [] => if l < e then [(l, e)] else []
  | (s, f) :: rs => if l < s then (l, s) :: gaps f e rs else gaps f e rs

/-- A next hop is installed on some ranges, one after the other. -/
def Flat.installAll (s : Flat) (nh : ℕ) : List (ℕ × ℕ) → Flat
  | [] => s
  | g :: gs => (s.install g.1 g.2 nh).installAll nh gs

/-- **There is room for all of them.** -/
def Flat.AdmitsAll (s : Flat) (nh : ℕ) : List (ℕ × ℕ) → Prop
  | [] => True
  | g :: gs => s.Admits g.1 g.2 nh ∧ (s.install g.1 g.2 nh).AdmitsAll nh gs

/-- **There is no group for the first of them.** -/
def Flat.RefusesFirst (s : Flat) : List (ℕ × ℕ) → Prop
  | [] => False
  | g :: _ => s.Refuses g.1 g.2

/-- **The ranges of the topmost routes** of a prefix, by their addresses. -/
def Ranges (M : Table ℕ) (depth P : ℕ) (rs : List (ℕ × ℕ)) : Prop :=
  rs.Pairwise (fun x y => x.2 ≤ y.1)
    ∧ ∀ l r, (l, r) ∈ rs ↔ ∃ d, Topmost M depth P d l ∧ r = l + 2 ^ (32 - d)

/-- The range of a route of the walk. -/
def range (c : Cursor) : ℕ × ℕ := (start c, finish c)

section Walk

variable {rib : RteRib} {M : Table ℕ} {ip : UInt32} {depth nextHop : ℕ}

/-- **The loop succeeds** where there is room for all gaps. The induction is on
the routes that are still to come. -/
theorem modifyLoop_flat (h : RibShows rib M) (hdepth : depth ≤ 32)
    (hip : trunc 32 depth ip.toNat = ip.toNat) (htell : Tellable M depth ip.toNat)
    {before rest : List Cursor} (hcovers : covers rib ip depth = before ++ rest) {fuel : ℕ}
    (hfuel : rest.length < fuel) {dp : Dir24_8Tbl} {s : Flat} (hs : Flattens dp s)
    (hfits : Fits dp) (hN : dp.numberTbl8s.toNat % 64 = 0) (hnh : nextHop ≤ getMaxNh dp.nhSz)
    {ledge : UInt32} (hledge : LeftEdge ip before ledge)
    (hroom : s.AdmitsAll nextHop
      (gaps ledge.toNat (ip.toNat + 2 ^ (32 - depth)) (rest.map range))) :
    ∃ dp', modifyLoop rib ip depth nextHop fuel dp before.getLast? ledge = (0, dp')
      ∧ Flattens dp' (s.installAll nextHop
        (gaps ledge.toNat (ip.toNat + 2 ^ (32 - depth)) (rest.map range))) := by
  induction rest generalizing before fuel dp s ledge with
  | nil =>
    cases fuel with
    | zero => exact absurd hfuel (Nat.not_lt_zero _)
    | succ fuel =>
      rw [append_nil] at hcovers
      rw [map_nil, gaps] at hroom ⊢
      rcases modifyLoop_nil h hdepth hip htell hcovers hledge nextHop fuel dp with
        ⟨hend, heq⟩ | ⟨hlt, hedge, htop, heq⟩
      · rw [if_neg (by omega), heq]
        exact ⟨dp, rfl, hs⟩
      · rw [if_pos hlt] at hroom ⊢
        rw [heq]
        have hadmits := hroom.1
        rw [← hedge] at hlt hadmits ⊢
        obtain ⟨dp', hr, -, hflat⟩ := installToFib_flat hs hfits hN hnh hlt htop hadmits
        exact ⟨dp', hr, hflat⟩
  | cons c rest ih =>
    cases fuel with
    | zero => exact absurd hfuel (Nat.not_lt_zero _)
    | succ fuel =>
      have hsplit : covers rib ip depth = (before ++ [c]) ++ rest := by
        rw [hcovers, append_assoc]
        rfl
      rw [length_cons] at hfuel
      rw [map_cons, range, gaps] at hroom ⊢
      rcases modifyLoop_cons h hdepth hip htell hcovers hledge nextHop fuel dp with
        ⟨hsame, hnext, hledge', heq⟩ | ⟨hlt, hedge, hnz, -, hgo⟩
      · rw [if_neg (by omega), ← hnext] at hroom ⊢
        rw [heq]
        exact ih hsplit (by omega) hs hfits hN hnh hledge' hroom
      · rw [if_pos hlt] at hroom ⊢
        obtain ⟨hadmits, hroom⟩ := hroom
        rw [← hedge] at hlt hadmits
        obtain ⟨dp₁, hinst, hf, hflat⟩ :=
          installToFib_flat hs hfits hN hnh hlt (fun hz => absurd hz hnz) hadmits
        rw [hedge] at hflat
        rcases hgo dp₁ hinst with ⟨rfl, hfull, heq⟩ | ⟨hnext, hledge', heq⟩
        · rw [heq, map_nil, gaps, hfull, if_neg (lt_irrefl _)]
          exact ⟨dp₁, rfl, hflat⟩
        · rw [heq]
          rw [← hnext] at hroom ⊢
          refine ih hsplit (by omega) hflat (hfits.frame hf) ?_ ?_ hledge' hroom
          · rw [hf.numberTbl8s]
            exact hN
          · rw [hf.nhSz]
            exact hnh

/-- **The loop fails and changes nothing** where there is no group for the
first gap. -/
theorem modifyLoop_refused (h : RibShows rib M) (hdepth : depth ≤ 32)
    (hip : trunc 32 depth ip.toNat = ip.toNat) (htell : Tellable M depth ip.toNat)
    {before rest : List Cursor} (hcovers : covers rib ip depth = before ++ rest) {fuel : ℕ}
    (hfuel : rest.length < fuel) {dp : Dir24_8Tbl} {s : Flat} (hs : Flattens dp s)
    {ledge : UInt32} (hledge : LeftEdge ip before ledge)
    (hfull : s.RefusesFirst (gaps ledge.toNat (ip.toNat + 2 ^ (32 - depth)) (rest.map range))) :
    modifyLoop rib ip depth nextHop fuel dp before.getLast? ledge = (-enospc, dp) := by
  induction rest generalizing before fuel ledge with
  | nil =>
    cases fuel with
    | zero => exact absurd hfuel (Nat.not_lt_zero _)
    | succ fuel =>
      rw [append_nil] at hcovers
      rw [map_nil, gaps] at hfull
      rcases modifyLoop_nil h hdepth hip htell hcovers hledge nextHop fuel dp with
        ⟨hend, -⟩ | ⟨hlt, hedge, htop, heq⟩
      · rw [if_neg (by omega)] at hfull
        exact hfull.elim
      · rw [if_pos hlt, ← hedge] at hfull
        rw [heq]
        rw [← hedge] at hlt
        exact installToFib_refused hs hlt htop hfull
  | cons c rest ih =>
    cases fuel with
    | zero => exact absurd hfuel (Nat.not_lt_zero _)
    | succ fuel =>
      have hsplit : covers rib ip depth = (before ++ [c]) ++ rest := by
        rw [hcovers, append_assoc]
        rfl
      rw [length_cons] at hfuel
      rw [map_cons, range, gaps] at hfull
      rcases modifyLoop_cons h hdepth hip htell hcovers hledge nextHop fuel dp with
        ⟨hsame, hnext, hledge', heq⟩ | ⟨hlt, hedge, hnz, hfail, -⟩
      · rw [if_neg (by omega), ← hnext] at hfull
        rw [heq]
        exact ih hsplit (by omega) hledge' hfull
      · rw [if_pos hlt, ← hedge] at hfull
        rw [← hedge] at hlt
        have hr := @installToFib_refused _ _ nextHop hs _ _ hlt (fun hz => absurd hz hnz) hfull
        rw [hr] at hfail
        exact hfail (show (-enospc : Int) ≠ 0 by decide)

/-- The ranges of the walk are those of the topmost routes. -/
theorem ranges_covers {N : Table ℕ} (h : RibShows rib N) (hN : ∀ e, depth < e → N e = M e)
    (hdepth : depth ≤ 32) (hip : trunc 32 depth ip.toNat = ip.toNat) :
    Ranges M depth ip.toNat ((covers rib ip depth).map range) := by
  refine ⟨pairwise_map.mpr (covers_pairwise h ip hdepth), fun l r => ?_⟩
  have hmem : ∀ d, (∃ c ∈ covers rib ip depth, rteRibGetDepth c = d ∧ start c = l)
      ↔ Topmost M depth ip.toNat d l := by
    intro d
    rw [mem_covers_iff h hdepth, hip, topmost_congr hN]
  rw [mem_map]
  constructor
  · rintro ⟨c, hc, heq⟩
    obtain ⟨rfl, rfl⟩ := Prod.mk.inj heq
    exact ⟨_, (hmem _).mp ⟨c, hc, rfl, rfl⟩, rfl⟩
  · rintro ⟨d, htop, rfl⟩
    obtain ⟨c, hc, rfl, rfl⟩ := (hmem d).mpr htop
    exact ⟨c, hc, rfl⟩

end Walk

/-! ## Calls that have room -/

/-- **What the data plane amounts to.** -/
def flatOf (dp : Dir24_8Tbl) : Flat := ⟨entry dp, freeGroups dp⟩

/-- **There is room for a next hop on a prefix.** -/
def PrefixRoom (dp : Dir24_8Tbl) (M : Table ℕ) (depth P nh : ℕ) : Prop :=
  Tellable M depth P ∧ ∀ rs, Ranges M depth P rs →
    (flatOf dp).AdmitsAll nh (gaps P (P + 2 ^ (32 - depth)) rs)

/-- **There is no group for the first gap of a prefix.** -/
def PrefixRefused (dp : Dir24_8Tbl) (M : Table ℕ) (depth P : ℕ) : Prop :=
  Tellable M depth P ∧ ∀ rs, Ranges M depth P rs →
    (flatOf dp).RefusesFirst (gaps P (P + 2 ^ (32 - depth)) rs)

/-- **A new route is not let in**: all groups are reserved, or there is no
memory for a node. -/
def Rejected (fib : RteFib) (ip : UInt32) (depth : ℕ) : Prop :=
  (24 < depth ∧ (deepRoute fib.rib ip).isNone ∧ fib.dp.rsvdTbl8s ≥ fib.dp.numberTbl8s)
    ∨ ∃ e, (rteRibInsert fib.rib ip depth).1 = .error e

/-- A FIB, and its routes. -/
structure Routed where
  fib : RteFib
  routes : Table ℕ

/-- The FIB as it is created. -/
def Routed.fresh (maxRoutes : ℕ) (dp : Dir24_8Tbl) : Routed :=
  ⟨rteFibCreate maxRoutes dp, Table.empty⟩

/-- A call is made: it changes the routes if it returns 0. -/
def Routed.called (t : Routed) (call : FibCall) : Routed :=
  ⟨t.fib.called call,
    if (rteFibCall t.fib call).1 = 0 then expected t.routes call else t.routes⟩

/-- **A call has room** for what it installs, if it installs anything, or is
refused before it does. A change of the next hop of a route is not to be
refused. -/
def Roomy (t : Routed) : FibCall → Prop
  | .add ip depth nextHop =>
    let P := trunc 32 depth ip.toNat
    depth ≤ 32 → nextHop ≤ getMaxNh t.fib.dp.nhSz →
      (t.routes depth P ≠ none → t.routes depth P ≠ some nextHop →
          PrefixRoom t.fib.dp t.routes depth P nextHop)
        ∧ (t.routes depth P = none → parentNh t.routes depth P ≠ some nextHop →
          Rejected t.fib (ip &&& rteRibDepthToMask depth) depth
            ∨ PrefixRoom t.fib.dp t.routes depth P nextHop
            ∨ PrefixRefused t.fib.dp t.routes depth P)
  | .delete ip depth =>
    let P := trunc 32 depth ip.toNat
    depth ≤ 32 → t.routes depth P ≠ none → t.routes depth P ≠ parentNh t.routes depth P →
      PrefixRoom t.fib.dp t.routes depth P
          (hopOf t.fib.dp.defNh (longest 32 t.routes P depth))
        ∨ PrefixRefused t.fib.dp t.routes depth P

/-- **A FIB that shows its routes**, and wastes no group. -/
structure FibTidy (fib : RteFib) (M : Table ℕ) : Prop where
  shows : FibShows fib M
  tidy : ∀ b < 2 ^ 24, TidyAt fib.dp b
  whole : fib.dp.numberTbl8s.toNat % 64 = 0

section Step

variable {fib : RteFib} {M : Table ℕ} {ip : UInt32} {depth nextHop : ℕ}

theorem FibTidy.flat (h : FibTidy fib M) : Flattens fib.dp (flatOf fib.dp) :=
  ⟨h.shows.sound, h.tidy, fun _ _ => rfl, rfl⟩

/-- `modify_fib` succeeds where there is room, and wastes no group. -/
theorem FibTidy.modifyFib_room (h : FibTidy fib M) {N : Table ℕ} {rib : RteRib}
    (hrib : RibShows rib N) (hN : ∀ e, depth < e → N e = M e) (hdepth : depth ≤ 32)
    (hip : trunc 32 depth ip.toNat = ip.toNat) (hnh : nextHop ≤ getMaxNh fib.dp.nhSz)
    (hroom : PrefixRoom fib.dp M depth ip.toNat nextHop) :
    (modifyFib fib.dp rib ip depth nextHop).1 = 0
      ∧ ∀ b < 2 ^ 24, TidyAt (modifyFib fib.dp rib ip depth nextHop).2 b := by
  obtain ⟨dp', hr, hflat⟩ := modifyLoop_flat hrib hdepth hip (hroom.1.congr hN)
    (nil_append _).symm (Nat.lt_succ_of_le (length_covers_le hrib hdepth)) h.flat
    h.shows.fits h.whole hnh (Or.inl ⟨rfl, rfl⟩) (hroom.2 _ (ranges_covers hrib hN hdepth hip))
  have heq : modifyFib fib.dp rib ip depth nextHop = (0, dp') := hr
  rw [heq]
  exact ⟨rfl, hflat.tidy⟩

/-- **`modify_fib` fails and changes nothing** where there is no group for the
first gap. -/
theorem FibTidy.modifyFib_refused (h : FibTidy fib M) {N : Table ℕ} {rib : RteRib}
    (hrib : RibShows rib N) (hN : ∀ e, depth < e → N e = M e) (hdepth : depth ≤ 32)
    (hip : trunc 32 depth ip.toNat = ip.toNat)
    (hfull : PrefixRefused fib.dp M depth ip.toNat) :
    modifyFib fib.dp rib ip depth nextHop = (-enospc, fib.dp) :=
  modifyLoop_refused hrib hdepth hip (hfull.1.congr hN) (nil_append _).symm
    (Nat.lt_succ_of_le (length_covers_le hrib hdepth)) h.flat (Or.inl ⟨rfl, rfl⟩)
    (hfull.2 _ (ranges_covers hrib hN hdepth hip))

/-- The tables are the same, and the RIB shows the same routes. -/
theorem FibTidy.same (h : FibTidy fib M) {fib' : RteFib} (hdp : fib'.dp = fib.dp)
    (hrib : RibShows fib'.rib M) : FibTidy fib' M := by
  obtain ⟨rib', dp'⟩ := fib'
  subst hdp
  exact ⟨⟨hrib, h.shows.sound, h.shows.fits, h.shows.hops, h.shows.defNh, h.shows.answers⟩,
    h.tidy, h.whole⟩

theorem FibTidy.changeNextHop (h : FibTidy fib M) (hdepth : depth ≤ 32)
    (hip : trunc 32 depth ip.toNat = ip.toNat) (hnh : nextHop ≤ getMaxNh fib.dp.nhSz)
    {node : Cursor} {v : ℕ} (hat : node.At fib.rib.tree depth ip.toNat v)
    (hv : M depth ip.toNat = some v)
    (hroom : v ≠ nextHop → PrefixRoom fib.dp M depth ip.toNat nextHop) :
    FibTidy (Fib.changeNextHop fib node ip depth nextHop).2 (M.insert depth ip.toNat nextHop) := by
  have hmod := fun hne => h.modifyFib_room h.shows.rib (fun _ _ => rfl) hdepth hip hnh (hroom hne)
  obtain ⟨hshows, -⟩ := changeNextHop_spec h.shows hdepth hip hnh hat hv
    (fun hne => (hroom hne).1) (fun hne => (hmod hne).1)
  have hget : rteRibGetNh node = v := hat.get.2.2
  unfold Fib.changeNextHop at hshows ⊢
  by_cases heq : rteRibGetNh node = nextHop
  · rw [if_pos heq] at hshows ⊢
    exact ⟨hshows, h.tidy, h.whole⟩
  · obtain ⟨hok, htidy⟩ := hmod fun hc => heq (hget.trans hc)
    rw [if_neg heq] at hshows ⊢
    dsimp only at hshows ⊢
    rw [if_pos hok] at hshows ⊢
    refine ⟨hshows, htidy, ?_⟩
    rw [(modifyFib_frame fib.dp fib.rib ip depth nextHop).numberTbl8s]
    exact h.whole

/-- **What becomes of a new route**: it is rejected, or it goes into the RIB,
and its next hop is installed, if it is not the one that its addresses have; if
that fails, it is taken out of the RIB again. -/
theorem addRoute_cases (h : RibShows fib.rib M) (hip : trunc 32 depth ip.toNat = ip.toNat) :
    ((addRoute fib ip depth nextHop).1 ≠ 0 ∧ (addRoute fib ip depth nextHop).2 = fib)
      ∨ ¬ Rejected fib ip depth ∧ M depth ip.toNat = none
        ∧ ∃ rib, RibShows rib (M.insert depth ip.toNat nextHop)
          ∧ ((parentNh M depth ip.toNat = some nextHop
              ∧ addRoute fib ip depth nextHop = (0, { fib with rib := rib }))
            ∨ parentNh M depth ip.toNat ≠ some nextHop
              ∧ ((modifyFib fib.dp rib ip depth nextHop).1 ≠ 0 →
                addRoute fib ip depth nextHop = ((modifyFib fib.dp rib ip depth nextHop).1,
                  ⟨rteRibRemove rib ip depth, (modifyFib fib.dp rib ip depth nextHop).2⟩))
              ∧ ((modifyFib fib.dp rib ip depth nextHop).1 = 0 → ∃ n,
                addRoute fib ip depth nextHop = (0, ⟨rib,
                  { (modifyFib fib.dp rib ip depth nextHop).2 with rsvdTbl8s := n }⟩))) := by
  unfold addRoute
  dsimp only
  split
  · exact Or.inl ⟨(by decide : -enospc ≠ 0), rfl⟩
  · next hroom =>
    cases hins : rteRibInsert fib.rib ip depth with
    | mk res rib =>
      cases res with
      | error e =>
        rcases rteRibInsert_spec h ip depth with ⟨e', heq⟩ | ⟨c, nh, hok, -⟩
        · rw [hins] at heq
          obtain ⟨-, rfl⟩ := Prod.mk.inj heq
          refine Or.inl ⟨?_, rfl⟩
          obtain rfl | rfl | rfl := rteRibInsert_error (congrArg Prod.fst hins)
          · exact (by decide : -einval ≠ 0)
          · exact (by decide : -eexist ≠ 0)
          · exact (by decide : -enomem ≠ 0)
        · rw [hins] at hok
          cases hok
      | ok node =>
        dsimp only
        obtain ⟨hnone, hshows, hparent⟩ := @insert_ok M ip depth nextHop _ _ h hip _ hins
        have hnot : ¬ Rejected fib ip depth := by
          rintro (hfull | ⟨e, he⟩)
          · exact hroom hfull
          · rw [hins] at he
            cases he
        refine Or.inr ⟨hnot, hnone, _, hshows, ?_⟩
        rw [hparent]
        by_cases hsame : parentNh M depth ip.toNat = some nextHop
        · exact Or.inl ⟨hsame, if_pos hsame⟩
        · rw [if_neg hsame]
          refine Or.inr ⟨hsame, fun hr => if_pos hr, fun hr => ?_⟩
          rw [if_neg (not_not.mpr hr)]
          split
          · exact ⟨_, rfl⟩
          · exact ⟨_, rfl⟩

/-- **A new route** that has room, or is refused before anything is
installed. -/
theorem FibTidy.addRoute (h : FibTidy fib M) (hdepth : depth ≤ 32)
    (hip : trunc 32 depth ip.toNat = ip.toNat) (hnh : nextHop ≤ getMaxNh fib.dp.nhSz)
    (hroom : parentNh M depth ip.toNat ≠ some nextHop → Rejected fib ip depth
      ∨ PrefixRoom fib.dp M depth ip.toNat nextHop ∨ PrefixRefused fib.dp M depth ip.toNat) :
    ((Fib.addRoute fib ip depth nextHop).1 = 0
        ∧ FibTidy (Fib.addRoute fib ip depth nextHop).2 (M.insert depth ip.toNat nextHop))
      ∨ (Fib.addRoute fib ip depth nextHop).1 ≠ 0
        ∧ (Fib.addRoute fib ip depth nextHop).2.dp = fib.dp
        ∧ RibShows (Fib.addRoute fib ip depth nextHop).2.rib M := by
  rcases @addRoute_cases fib M ip depth nextHop h.shows.rib hip with
    ⟨hr, hsame⟩ | ⟨hnot, hnone, rib, hrib, ⟨hsame, heq⟩ | ⟨hne, hfail, hok⟩⟩
  · rw [hsame]
    exact Or.inr ⟨hr, rfl, h.shows.rib⟩
  · have hinh := h.shows.inherited hdepth hnone
    rw [hopOf, ← parentNh, hsame] at hinh
    rw [heq]
    exact Or.inl ⟨rfl, h.shows.insert hdepth hnh hrib hinh, h.tidy, h.whole⟩
  · have hM : ∀ e, depth < e → (M.insert depth ip.toNat nextHop) e = M e :=
      fun e he => Table.insert_of_depth_ne M ip.toNat nextHop (Nat.ne_of_gt he)
    rcases (hroom hne).resolve_left hnot with hroom | hfull
    · obtain ⟨hr, htidy⟩ := h.modifyFib_room hrib hM hdepth hip hnh hroom
      obtain ⟨n, heq⟩ := hok hr
      have hinst := h.shows.modifyFib hrib hM hdepth hip hroom.1 hnh hr
      rw [heq]
      refine Or.inl ⟨rfl, (h.shows.insert hdepth hnh hrib hinst).reserve n, htidy, ?_⟩
      show (modifyFib fib.dp rib ip depth nextHop).2.numberTbl8s.toNat % 64 = 0
      rw [hinst.frame.numberTbl8s]
      exact h.whole
    · have hr := @FibTidy.modifyFib_refused _ _ _ _ nextHop h _ _ hrib hM hdepth hip hfull
      have hne : (modifyFib fib.dp rib ip depth nextHop).1 ≠ 0 := by
        rw [hr]
        exact (by decide : -enospc ≠ 0)
      rw [hfail hne, hr]
      refine Or.inr ⟨(by decide : -enospc ≠ 0), rfl, ?_⟩
      have herase := rteRibRemove_spec hrib ip hdepth
      rw [hip, Table.erase_insert nextHop hnone] at herase
      exact herase

theorem restored_eq (h : FibShows fib M) {node : Cursor} {v : ℕ}
    (hat : node.At fib.rib.tree depth ip.toNat v) (hv : M depth ip.toNat = some v) :
    restored fib node ip depth = if M depth ip.toNat = parentNh M depth ip.toNat then (0, fib.dp)
      else modifyFib fib.dp fib.rib ip depth
        (hopOf fib.dp.defNh (longest 32 M ip.toNat depth)) := by
  have hparent := parent_eq h.rib hat
  have hget : rteRibGetNh node = v := hat.get.2.2
  rw [hopOf, ← parentNh, ← hparent, hv]
  unfold restored
  cases rteRibLookupParent node.node node.parents with
  | none => rfl
  | some parent =>
    dsimp only [Option.map_some, Option.getD_some]
    by_cases hsame : rteRibGetNh parent = rteRibGetNh node
    · rw [if_neg (not_not.mpr hsame), if_pos (by rw [hsame, hget])]
    · rw [if_pos hsame, if_neg]
      intro hc
      exact hsame ((Option.some.inj hc).symm.trans hget.symm)

/-- The next hop of a parent, or the default one, fits. -/
theorem hopOf_le (h : FibShows fib M) (p n : ℕ) :
    hopOf fib.dp.defNh (longest 32 M p n) ≤ getMaxNh fib.dp.nhSz := by
  cases hl : longest 32 M p n with
  | none => exact h.defNh
  | some r =>
    obtain ⟨e, u⟩ := r
    exact h.hops _ _ u (longest_eq_some.mp hl).2.1

/-- **A deletion** that has room, or is refused before anything is
installed. -/
theorem FibTidy.deleteRoute (h : FibTidy fib M) (hdepth : depth ≤ 32)
    (hip : trunc 32 depth ip.toNat = ip.toNat) {node : Cursor} {v : ℕ}
    (hat : node.At fib.rib.tree depth ip.toNat v) (hv : M depth ip.toNat = some v)
    (hroom : M depth ip.toNat ≠ parentNh M depth ip.toNat →
      PrefixRoom fib.dp M depth ip.toNat (hopOf fib.dp.defNh (longest 32 M ip.toNat depth))
        ∨ PrefixRefused fib.dp M depth ip.toNat) :
    ((Fib.deleteRoute fib node ip depth).1 = 0
        ∧ FibTidy (Fib.deleteRoute fib node ip depth).2 (M.erase depth ip.toNat))
      ∨ (Fib.deleteRoute fib node ip depth).1 ≠ 0
        ∧ (Fib.deleteRoute fib node ip depth).2 = fib := by
  have heq := restored_eq h.shows hat hv
  -- what is installed succeeds and wastes no group, or nothing is
  have hcases : ((restored fib node ip depth).1 = 0
        ∧ (M depth ip.toNat ≠ parentNh M depth ip.toNat → Tellable M depth ip.toNat)
        ∧ ∀ b < 2 ^ 24, TidyAt (restored fib node ip depth).2 b)
      ∨ restored fib node ip depth = (-enospc, fib.dp) := by
    rw [heq]
    by_cases hsame : M depth ip.toNat = parentNh M depth ip.toNat
    · rw [if_pos hsame]
      exact Or.inl ⟨rfl, fun hc => absurd hsame hc, h.tidy⟩
    · rw [if_neg hsame]
      rcases hroom hsame with hroom | hfull
      · obtain ⟨hr, htidy⟩ := h.modifyFib_room h.shows.rib (fun _ _ => rfl) hdepth hip
          (hopOf_le h.shows _ _) hroom
        exact Or.inl ⟨hr, fun _ => hroom.1, htidy⟩
      · exact Or.inr (h.modifyFib_refused h.shows.rib (fun _ _ => rfl) hdepth hip hfull)
  rcases hcases with ⟨hr, htell, htidy⟩ | hfull
  · have hok : (Fib.deleteRoute fib node ip depth).1 = 0 := by
      rw [deleteRoute_eq, if_pos hr]
      split <;> rfl
    obtain ⟨hshows, -⟩ := deleteRoute_spec h.shows hdepth hip hat hv htell hok
    refine Or.inl ⟨hok, hshows, ?_, ?_⟩
    · rw [deleteRoute_eq, if_pos hr]
      split
      · exact htidy
      · exact htidy
    · have hN : (restored fib node ip depth).2.numberTbl8s.toNat % 64 = 0 := by
        rw [(restored_frame fib node ip depth).numberTbl8s]
        exact h.whole
      rw [deleteRoute_eq, if_pos hr]
      split
      · exact hN
      · exact hN
  · rw [deleteRoute_eq, hfull, if_neg (by decide : ¬ -enospc = 0)]
    exact Or.inr ⟨(by decide : -enospc ≠ 0), rfl⟩

end Step

/-! ## What a call promises -/

/-- **Nothing has changed**: not the answer for any address, no route, and not
the groups in use. -/
structure Unchanged (fib fib' : RteFib) : Prop where
  lookup : ∀ a, dir24_8Lookup fib'.dp a = dir24_8Lookup fib.dp a
  routes : ∀ ip depth, (rteRibLookupExact fib'.rib ip depth).map rteRibGetNh
    = (rteRibLookupExact fib.rib ip depth).map rteRibGetNh
  tbl8Idxes : fib'.dp.tbl8Idxes = fib.dp.tbl8Idxes
  curTbl8s : fib'.dp.curTbl8s = fib.dp.curTbl8s

/-- **The call is in force**: the route is there with its next hop, or it is
gone, and the addresses of its prefix are answered from the RIB. -/
def InForce (fib : RteFib) : FibCall → Prop
  | .add ip depth nextHop =>
    (rteRibLookupExact fib.rib ip depth).map rteRibGetNh = some nextHop
      ∧ ∀ a, isCovered a ip depth → dir24_8Lookup fib.dp a = dummyLookup fib.rib fib.dp.defNh a
  | .delete ip depth =>
    (rteRibLookupExact fib.rib ip depth).map rteRibGetNh = none
      ∧ ∀ a, isCovered a ip depth → dir24_8Lookup fib.dp a = dummyLookup fib.rib fib.dp.defNh a

/-- **The call is atomic.** -/
def Atomic (fib : RteFib) (call : FibCall) : Prop :=
  ((rteFibCall fib call).1 ≠ 0 → Unchanged fib (fib.called call))
    ∧ ((rteFibCall fib call).1 = 0 → InForce (fib.called call) call)

theorem rteRibLookupExact_nh {rib : RteRib} {M : Table ℕ} (h : RibShows rib M) (ip : UInt32)
    (depth : ℕ) : (rteRibLookupExact rib ip depth).map rteRibGetNh
      = if depth ≤ 32 then M depth (trunc 32 depth ip.toNat) else none := by
  by_cases hdepth : depth ≤ 32
  · rw [if_pos hdepth]
    obtain ⟨hfound, hmissing⟩ := rteRibLookupExact_spec h ip hdepth
    cases hlook : rteRibLookupExact rib ip depth with
    | none => exact (hmissing hlook).symm
    | some c =>
      obtain ⟨nh, hat, hM⟩ := hfound c hlook
      rw [hM, ← hat.get.2.2]
      rfl
  · rw [if_neg hdepth, rteRibLookupExact, if_pos (not_le.mp hdepth)]
    rfl

theorem FibShows.lookup_eq {fib : RteFib} {M : Table ℕ} (h : FibShows fib M) (a : UInt32) :
    dir24_8Lookup fib.dp a = dummyLookup fib.rib fib.dp.defNh a := by
  have hget := (rteRibLookup_spec h.rib a).get
  rw [dir24_8Lookup_eq, h.answers a.toNat a.toNat_lt, dummyLookup, ← hget]
  cases rteRibLookup fib.rib a <;> rfl

theorem unchanged_of_eq {fib fib' : RteFib} {M : Table ℕ} (h : RibShows fib.rib M)
    (hdp : fib'.dp = fib.dp) (hrib : RibShows fib'.rib M) : Unchanged fib fib' := by
  refine ⟨fun a => by rw [hdp], fun ip depth => ?_, by rw [hdp], by rw [hdp]⟩
  rw [rteRibLookupExact_nh hrib, rteRibLookupExact_nh h]

/-- **A call that has room**, or is refused before anything is installed:
either it returns 0, and the FIB shows the new routes, or it does not, and the
tables are the same. -/
theorem FibTidy.called {fib : RteFib} {M : Table ℕ} (h : FibTidy fib M) (call : FibCall)
    (hroom : Roomy ⟨fib, M⟩ call) :
    ((rteFibCall fib call).1 = 0 ∧ call.depth ≤ 32 ∧ FibTidy (fib.called call) (expected M call))
      ∨ (rteFibCall fib call).1 ≠ 0 ∧ (fib.called call).dp = fib.dp
        ∧ RibShows (fib.called call).rib M := by
  cases call with
  | add ip depth nextHop =>
    unfold Roomy at hroom
    dsimp only at hroom
    show ((dir24_8Modify fib ip depth nextHop .add).1 = 0 ∧ depth ≤ 32
        ∧ FibTidy (dir24_8Modify fib ip depth nextHop .add).2
          (M.insert depth (trunc 32 depth ip.toNat) nextHop))
      ∨ (dir24_8Modify fib ip depth nextHop .add).1 ≠ 0
        ∧ (dir24_8Modify fib ip depth nextHop .add).2.dp = fib.dp
        ∧ RibShows (dir24_8Modify fib ip depth nextHop .add).2.rib M
    unfold dir24_8Modify
    by_cases hdepth : depth > 32
    · rw [if_pos hdepth]
      exact Or.inr ⟨(by decide : -einval ≠ 0), rfl, h.shows.rib⟩
    by_cases hnh : nextHop > getMaxNh fib.dp.nhSz
    · rw [if_neg hdepth, if_pos hnh]
      exact Or.inr ⟨(by decide : -einval ≠ 0), rfl, h.shows.rib⟩
    rw [if_neg hdepth, if_neg hnh]
    have hdepth := not_lt.mp hdepth
    have hnh := not_lt.mp hnh
    have hbase := toNat_base ip hdepth
    have hip : trunc 32 depth (ip &&& rteRibDepthToMask depth).toNat
        = (ip &&& rteRibDepthToMask depth).toNat := by rw [hbase, trunc_idem]
    obtain ⟨hchange, hnew⟩ := hroom hdepth hnh
    obtain ⟨hfound, hmissing⟩ := rteRibLookupExact_spec h.shows.rib ip hdepth
    rw [← hbase] at hfound hmissing hchange hnew ⊢
    dsimp only
    rw [rteRibLookupExact_mask]
    cases hlook : rteRibLookupExact fib.rib ip depth with
    | some node =>
      obtain ⟨v, hat, hv⟩ := hfound node hlook
      refine Or.inl ⟨changeNextHop_result _ _ _ _ _, hdepth,
        h.changeNextHop hdepth hip hnh hat hv fun hne => hchange ?_ ?_⟩
      · rw [hv]
        exact Option.some_ne_none v
      · rw [hv]
        exact fun hc => hne (Option.some.inj hc)
    | none =>
      rcases h.addRoute hdepth hip hnh (hnew (hmissing hlook)) with ⟨hr, htidy⟩ | hfail
      · exact Or.inl ⟨hr, hdepth, htidy⟩
      · exact Or.inr hfail
  | delete ip depth =>
    unfold Roomy at hroom
    dsimp only at hroom
    show ((dir24_8Modify fib ip depth 0 .del).1 = 0 ∧ depth ≤ 32
        ∧ FibTidy (dir24_8Modify fib ip depth 0 .del).2 (M.erase depth (trunc 32 depth ip.toNat)))
      ∨ (dir24_8Modify fib ip depth 0 .del).1 ≠ 0
        ∧ (dir24_8Modify fib ip depth 0 .del).2.dp = fib.dp
        ∧ RibShows (dir24_8Modify fib ip depth 0 .del).2.rib M
    unfold dir24_8Modify
    by_cases hdepth : depth > 32
    · rw [if_pos hdepth]
      exact Or.inr ⟨(by decide : -einval ≠ 0), rfl, h.shows.rib⟩
    rw [if_neg hdepth, if_neg (Nat.not_lt_zero _)]
    have hdepth := not_lt.mp hdepth
    have hbase := toNat_base ip hdepth
    have hip : trunc 32 depth (ip &&& rteRibDepthToMask depth).toNat
        = (ip &&& rteRibDepthToMask depth).toNat := by rw [hbase, trunc_idem]
    obtain ⟨hfound, -⟩ := rteRibLookupExact_spec h.shows.rib ip hdepth
    have hgone := hroom hdepth
    rw [← hbase] at hfound hgone ⊢
    dsimp only
    rw [rteRibLookupExact_mask]
    cases hlook : rteRibLookupExact fib.rib ip depth with
    | none => exact Or.inr ⟨(by decide : -enoent ≠ 0), rfl, h.shows.rib⟩
    | some node =>
      obtain ⟨v, hat, hv⟩ := hfound node hlook
      have hthere : M depth (ip &&& rteRibDepthToMask depth).toNat ≠ none := by
        rw [hv]
        exact Option.some_ne_none v
      rcases h.deleteRoute hdepth hip hat hv (hgone hthere) with ⟨hr, htidy⟩ | ⟨hr, hsame⟩
      · exact Or.inl ⟨hr, hdepth, htidy⟩
      · refine Or.inr ⟨hr, ?_, ?_⟩
        · show (Fib.deleteRoute _ _ _ _).2.dp = _
          rw [hsame]
        · show RibShows (Fib.deleteRoute _ _ _ _).2.rib M
          rw [hsame]
          exact h.shows.rib

/-- **A call that has room is atomic**, and leads to a FIB that shows its
routes. -/
theorem FibTidy.atomic {t : Routed} (h : FibTidy t.fib t.routes) (call : FibCall)
    (hroom : Roomy t call) :
    Atomic t.fib call ∧ FibTidy (t.called call).fib (t.called call).routes := by
  obtain ⟨fib, M⟩ := t
  unfold Routed.called
  dsimp only at h ⊢
  rcases h.called call hroom with ⟨hr, hdepth, htidy⟩ | ⟨hr, hdp, hrib⟩
  · rw [if_pos hr]
    refine ⟨⟨fun hc => absurd hr hc, fun _ => ?_⟩, htidy⟩
    have hroute := rteRibLookupExact_nh htidy.shows.rib
    cases call with
    | add ip depth nextHop =>
      refine ⟨?_, fun a _ => htidy.shows.lookup_eq a⟩
      rw [hroute, if_pos (show depth ≤ 32 from hdepth)]
      exact Table.insert_self M depth _ nextHop
    | delete ip depth =>
      refine ⟨?_, fun a _ => htidy.shows.lookup_eq a⟩
      rw [hroute, if_pos (show depth ≤ 32 from hdepth)]
      exact Table.erase_self M depth _
  · rw [if_neg hr]
    exact ⟨⟨fun _ => unchanged_of_eq h.shows.rib hdp hrib, fun hc => absurd hc hr⟩,
      h.same hdp hrib⟩

theorem fresh_tidy {nhSz : NhSz} {numTbl8 : UInt32} {defNh maxRoutes : ℕ} {dp : Dir24_8Tbl}
    (hcreate : dir24_8Create nhSz numTbl8 defNh = .ok dp)
    (hplace : dp.numberTbl8s.toNat ≤ 2 ^ (24 - nhSz.val)) :
    FibTidy (Routed.fresh maxRoutes dp).fib (Routed.fresh maxRoutes dp).routes := by
  refine ⟨(@fresh_agrees _ _ _ maxRoutes _ hcreate hplace).shows, ?_, ?_⟩
  · unfold dir24_8Create at hcreate
    split at hcreate
    · cases hcreate
    · obtain rfl := Except.ok.inj hcreate
      intro b _ he
      have hodd : defNh * 2 % 2 = 1 := he
      omega
  · unfold dir24_8Create at hcreate
    split at hcreate
    · cases hcreate
    · obtain rfl := Except.ok.inj hcreate
      show ((numTbl8 + 63) &&& 0xffffffc0).toNat % 64 = 0
      rw [toNat_alignCeil64]
      exact Nat.mul_mod_left _ _

/-- **Changes of the FIB are atomic**, in every run of calls that have room. -/
theorem modify_atomic (nhSz : NhSz) (numTbl8 : UInt32) (defNh maxRoutes : ℕ)
    (dp : Dir24_8Tbl) (hcreate : dir24_8Create nhSz numTbl8 defNh = .ok dp)
    (hplace : dp.numberTbl8s.toNat ≤ 2 ^ (24 - nhSz.val)) (calls : List FibCall)
    (hroom : Along Routed.called Roomy (Routed.fresh maxRoutes dp) calls) :
    Along Routed.called (fun t call => Atomic t.fib call) (Routed.fresh maxRoutes dp) calls :=
  hroom.imp_of_invariant (fun _ call h hok => FibTidy.atomic h call hok)
    (fresh_tidy hcreate hplace)

/-- A prefix without more specific routes has one gap, its whole range. -/
theorem PrefixRoom.of_none {dp : Dir24_8Tbl} {M : Table ℕ} {depth P nh : ℕ}
    (h : ∀ e p, depth < e → M e p = none)
    (hroom : (flatOf dp).Admits P (P + 2 ^ (32 - depth)) nh) : PrefixRoom dp M depth P nh := by
  refine ⟨Tellable.of_none h, fun rs hrs => ?_⟩
  have hno : ∀ d p, ¬ Topmost M depth P d p := fun d p ht => ht.1 (h d p ht.2.1)
  have hempty : rs = [] := by
    refine eq_nil_iff_forall_not_mem.mpr fun g hg => ?_
    obtain ⟨d, htop, -⟩ := (hrs.2 g.1 g.2).mp hg
    exact hno d g.1 htop
  rw [hempty, gaps, if_pos (Nat.lt_add_of_pos_right (Nat.two_pow_pos _))]
  exact ⟨hroom, trivial⟩

/-- A route of eight bits, and one of 25 bits in it. -/
theorem modify_atomic_two_routes :
    ∃ dp, dir24_8Create .b4 64 0 = .ok dp
      ∧ Along Routed.called (fun t call => Atomic t.fib call) (Routed.fresh 8 dp)
        [.add 0x0a000000 8 1, .add 0x0a010280 25 2] := by
  refine ⟨_, rfl, modify_atomic .b4 64 0 8 _ rfl (by decide) _ ⟨?_, ?_, trivial⟩⟩
  · refine fun _ _ => ⟨fun hc => absurd rfl hc, fun _ _ => ?_⟩
    refine Or.inr (Or.inl (PrefixRoom.of_none (fun _ _ _ => rfl) ?_))
    unfold Flat.Admits
    rw [if_neg (by decide)]
    exact ⟨fun hc => absurd (by decide) hc, fun hc => absurd (by decide) hc⟩
  · refine fun _ _ => ⟨fun hc => absurd (by decide) hc, fun _ _ => ?_⟩
    refine Or.inr (Or.inl (PrefixRoom.of_none (fun e p he => ?_) ?_))
    · exact if_neg (fun hc => absurd hc.1 (Nat.ne_of_gt (lt_trans (by decide) he)))
    · unfold Flat.Admits
      rw [if_neg (by decide)]
      exact ⟨fun _ => Or.inr (by decide +kernel), fun hc => absurd (by decide) hc⟩

/-- All groups are in use: each of 64 blocks has a route of 32 bits. There are
two more deep routes, each with the next hop of the route that it is in. -/
def crowded : List FibCall :=
  [.add 0x0b000000 24 1, .add 0x0b000005 32 1, .add 0x0c000000 8 4, .add 0x0c000180 25 4]
    ++ (List.range 64).map fun i => .add (0x0a000001 + 256 * UInt32.ofNat i) 32 2

/-- **Where there is no group**, a change of a next hop returns 0, and the
route and its addresses keep the old one; and a new route over two gaps is
refused with `ENOSPC` after its first blocks have been written, so that they
are answered with a route that is not there. -/
theorem modify_atomic_fails :
    ∃ dp, dir24_8Create .b4 64 0 = .ok dp
      ∧ Along RteFib.called (fun fib call => (rteFibCall fib call).1 = 0)
        (rteFibCreate 128 dp) crowded
      ∧ ¬ Atomic (run RteFib.called (rteFibCreate 128 dp) crowded) (.add 0x0b000000 24 2)
      ∧ ¬ Atomic (run RteFib.called (rteFibCreate 128 dp) crowded) (.add 0x0c000000 16 3) := by
  have hruns : ∃ dp, dir24_8Create .b4 64 0 = .ok dp
      ∧ Along RteFib.called (fun fib call => (rteFibCall fib call).1 = 0)
        (rteFibCreate 128 dp) crowded
      ∧ ∃ fib, run RteFib.called (rteFibCreate 128 dp) crowded = fib
      ∧ (rteFibCall fib (.add 0x0b000000 24 2)).1 = 0
      ∧ (rteRibLookupExact (fib.called (.add 0x0b000000 24 2)).rib 0x0b000000 24).map rteRibGetNh
        ≠ some 2
      ∧ (rteFibCall fib (.add 0x0c000000 16 3)).1 ≠ 0
      ∧ dir24_8Lookup (fib.called (.add 0x0c000000 16 3)).dp 0x0c000001
        ≠ dir24_8Lookup fib.dp 0x0c000001 :=
    ⟨_, rfl, by decide +kernel, _, rfl, by decide +kernel⟩
  obtain ⟨dp, hdp, halong, fib, rfl, hok, hkept, hrefused, hwritten⟩ := hruns
  exact ⟨dp, hdp, halong, fun h => hkept (h.2 hok).1,
    fun h => hwritten ((h.1 hrefused).lookup 0x0c000001)⟩

end Fib
