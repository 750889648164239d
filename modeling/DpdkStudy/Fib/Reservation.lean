import DpdkStudy.Fib.LongestMatch

/-!
# Reserved groups

`dir24_8_modify` reserves a group for each block of 256 addresses that has a
route of more than 24 bits (a deep one): an addition reserves it with the first
such route, and a deletion gives it back with the last one. After a run of
calls, failed ones included, as many groups are reserved as there are such
blocks (`rsvdTbl8s_exact`), and the addition of a deep route to another block
is refused only if all groups are.

A step of the run must not be an addition of the first deep route of a block
with the next hop its addresses inherit, which returns before it reserves a
group; and there must be a group for a first deep route that is let in, two of
them if it is to end where its block does (`Reservable`).
-/

open Option

namespace Fib

open Rib Prefix
open Runs (run Along)

/-- **A block with a deep route.** -/
def DeepBlock (M : Table ℕ) (b : ℕ) : Prop := ∃ d p, 24 < d ∧ M d p ≠ none ∧ p / 256 = b

/-- **As many groups are reserved as there are blocks with deep routes**, for
the routes of the RIB. -/
structure Reserved (fib : RteFib) (M : Table ℕ) : Prop where
  rib : RibShows fib.rib M
  exact : ∃ S : Finset ℕ, (∀ b, b ∈ S ↔ DeepBlock M b) ∧ fib.dp.rsvdTbl8s.toNat = S.card

/-- There are groups that are not in use, one or two. -/
def FreeGroups (dp : Dir24_8Tbl) (two : Bool) : Prop :=
  ∃ i < dp.numberTbl8s.toNat / 64 * 64, i < 2 ^ 31 ∧ dp.tbl8Idxes i = false
    ∧ (two → ∃ j < dp.numberTbl8s.toNat / 64 * 64, j < 2 ^ 31 ∧ j ≠ i ∧ dp.tbl8Idxes j = false)

/-- **A step that keeps the reservation exact.** The condition is on the first
deep route of a block. -/
def Reservable (fib : RteFib) : FibCall → Prop
  | .add ip depth nextHop =>
    let base := ip &&& rteRibDepthToMask depth
    24 < depth → depth ≤ 32 → deepRoute fib.rib base = none →
      (rteRibLookup fib.rib base).map rteRibGetNh ≠ some nextHop
        ∧ (fib.dp.rsvdTbl8s < fib.dp.numberTbl8s →
          Extended fib.dp (base.toNat / 256)
            ∨ FreeGroups fib.dp (decide (base.toNat % 256 + 2 ^ (32 - depth) = 256)))
  | .delete _ _ => True

/-! ## Blocks with deep routes -/

/-- The routes of a table that a RIB shows are prefixes. -/
theorem route_lt {rib : RteRib} {M : Table ℕ} (h : RibShows rib M) {d p : ℕ}
    (hM : M d p ≠ none) : p < 2 ^ 32 := by
  obtain ⟨v, hv⟩ := ne_none_iff_exists'.mp hM
  obtain ⟨-, -, hP, -⟩ := h.ordered.route ((h.holds d p v).mpr hv)
  unfold trunc at hP
  omega

theorem trunc_24_eq_iff {a b : ℕ} : trunc 32 24 a = trunc 32 24 b ↔ a / 256 = b / 256 :=
  trunc_eq_trunc_iff

theorem deepRoute_eq_none {rib : RteRib} {M : Table ℕ} (h : RibShows rib M) (ip : UInt32) :
    deepRoute rib ip = none ↔ ¬ DeepBlock M (ip.toNat / 256) := by
  unfold deepRoute
  rw [rteRibGetNxt_none h ip (by decide), List.head?_eq_none_iff]
  constructor
  · rintro hnil ⟨d, p, hd, hM, hb⟩
    obtain ⟨v, hv⟩ := ne_none_iff_exists'.mp hM
    obtain ⟨c, hc, -⟩ := covers_complete h (by decide) hv hd (trunc_24_eq_iff.mpr hb)
    rw [hnil] at hc
    cases hc
  · intro hno
    cases hcs : covers rib ip 24 with
    | nil => rfl
    | cons c cs =>
      have hc : c ∈ covers rib ip 24 := by
        rw [hcs]
        exact List.mem_cons_self
      obtain ⟨d, p, v, -, hM, hd, -, -, hcov⟩ := covers_at h (by decide) hc
      exact absurd ⟨d, p, hd, by simp [hM], trunc_24_eq_iff.mp hcov⟩ hno

/-- The blocks with deep routes, with one more route. -/
theorem deepBlock_insert {M : Table ℕ} {d p v b : ℕ} :
    DeepBlock (M.insert d p v) b ↔ DeepBlock M b ∨ (24 < d ∧ p / 256 = b) := by
  unfold DeepBlock Table.insert
  constructor
  · rintro ⟨e, q, he, hne, hb⟩
    split at hne
    · next heq =>
      obtain ⟨rfl, rfl⟩ := heq
      exact Or.inr ⟨he, hb⟩
    · exact Or.inl ⟨e, q, he, hne, hb⟩
  · rintro (⟨e, q, he, hne, hb⟩ | ⟨hd, hb⟩)
    · refine ⟨e, q, he, ?_, hb⟩
      split
      · exact some_ne_none v
      · exact hne
    · exact ⟨d, p, hd, by simp, hb⟩

/-- The blocks with deep routes, with one route less. -/
theorem deepBlock_erase {M : Table ℕ} {d p b : ℕ} (hother : ¬ (24 < d ∧ p / 256 = b)) :
    DeepBlock (M.erase d p) b ↔ DeepBlock M b := by
  unfold DeepBlock Table.erase
  constructor
  · rintro ⟨e, q, he, hne, hb⟩
    split at hne
    · exact absurd rfl hne
    · exact ⟨e, q, he, hne, hb⟩
  · rintro ⟨e, q, he, hne, hb⟩
    refine ⟨e, q, he, ?_, hb⟩
    rw [if_neg]
    · exact hne
    · rintro ⟨rfl, rfl⟩
      exact hother ⟨he, hb⟩

/-- A block that has a deep route without a route has one with it. -/
theorem DeepBlock.of_erase {M : Table ℕ} {d p b : ℕ} (h : DeepBlock (M.erase d p) b) :
    DeepBlock M b := by
  obtain ⟨e, q, he, hne, hb⟩ := h
  refine ⟨e, q, he, ?_, hb⟩
  unfold Table.erase at hne
  split at hne
  · exact absurd rfl hne
  · exact hne

theorem DeepBlock.lt {rib : RteRib} {M : Table ℕ} (h : RibShows rib M) {b : ℕ}
    (hb : DeepBlock M b) : b < 2 ^ 24 := by
  obtain ⟨d, p, -, hM, rfl⟩ := hb
  have hp := route_lt h hM
  omega

/-! ## What a step does to the reservation -/

section Step

variable {fib : RteFib} {M : Table ℕ} {ip : UInt32} {depth nextHop : ℕ}

/-- The blocks with deep routes are as before, and so is the reservation. -/
theorem Reserved.same (h : Reserved fib M) {rib : RteRib} {dp : Dir24_8Tbl} {N : Table ℕ}
    (hrib : RibShows rib N) (hdp : dp.rsvdTbl8s = fib.dp.rsvdTbl8s)
    (hdeep : ∀ b, DeepBlock N b ↔ DeepBlock M b) : Reserved ⟨rib, dp⟩ N := by
  obtain ⟨S, hS, hcard⟩ := h.exact
  refine ⟨hrib, S, fun b => (hS b).trans (hdeep b).symm, ?_⟩
  show dp.rsvdTbl8s.toNat = S.card
  rw [hdp, hcard]

/-- A first deep route reserves a group for its block. -/
theorem Reserved.first (h : Reserved fib M) {rib : RteRib} {dp : Dir24_8Tbl} {p v : ℕ}
    (hrib : RibShows rib (M.insert depth p v)) (hdp : dp.rsvdTbl8s = fib.dp.rsvdTbl8s)
    (hd : 24 < depth) (hno : ¬ DeepBlock M (p / 256)) :
    Reserved ⟨rib, { dp with rsvdTbl8s := dp.rsvdTbl8s + 1 }⟩ (M.insert depth p v) := by
  obtain ⟨S, hS, hcard⟩ := h.exact
  have hmem : ∀ b, b ∈ insert (p / 256) S ↔ DeepBlock (M.insert depth p v) b := by
    intro b
    rw [Finset.mem_insert, deepBlock_insert, hS, or_comm, eq_comm]
    simp [hd]
  have hnew : p / 256 ∉ S := fun hc => hno ((hS _).mp hc)
  have hbound : (insert (p / 256) S).card ≤ 2 ^ 24 := by
    refine (Finset.card_le_card (fun b hb => ?_)).trans (le_of_eq (Finset.card_range (2 ^ 24)))
    exact Finset.mem_range.mpr (((hmem b).mp hb).lt hrib)
  refine ⟨hrib, insert (p / 256) S, hmem, ?_⟩
  show (dp.rsvdTbl8s + 1).toNat = _
  rw [Finset.card_insert_of_notMem hnew] at hbound ⊢
  rw [hdp, UInt32.toNat_add, hcard]
  exact Nat.mod_eq_of_lt (lt_of_le_of_lt hbound (by decide))

/-- The last deep route of a block gives its group back. -/
theorem Reserved.last (h : Reserved fib M) {rib : RteRib} {dp : Dir24_8Tbl} {p : ℕ}
    (hrib : RibShows rib (M.erase depth p)) (hdp : dp.rsvdTbl8s = fib.dp.rsvdTbl8s)
    (hd : 24 < depth) (hM : M depth p ≠ none) (hno : ¬ DeepBlock (M.erase depth p) (p / 256)) :
    Reserved ⟨rib, { dp with rsvdTbl8s := dp.rsvdTbl8s - 1 }⟩ (M.erase depth p) := by
  obtain ⟨S, hS, hcard⟩ := h.exact
  have hthere : p / 256 ∈ S := (hS _).mpr ⟨depth, p, hd, hM, rfl⟩
  have hmem : ∀ b, b ∈ S.erase (p / 256) ↔ DeepBlock (M.erase depth p) b := by
    intro b
    rw [Finset.mem_erase, hS]
    by_cases hb : b = p / 256
    · subst hb
      simp [hno]
    · rw [deepBlock_erase (fun hc => hb hc.2.symm)]
      simp [hb]
  refine ⟨hrib, S.erase (p / 256), hmem, ?_⟩
  show (dp.rsvdTbl8s - 1).toNat = _
  have hpos : 0 < S.card := Finset.card_pos.mpr ⟨_, hthere⟩
  have hone : (1 : UInt32).toNat = 1 := rfl
  have hlt := fib.dp.rsvdTbl8s.toNat_lt
  rw [Finset.card_erase_of_mem hthere, hdp, UInt32.toNat_sub, hcard]
  omega

theorem Reserved.changeNextHop (h : Reserved fib M) {node : Cursor} {v : ℕ}
    (hat : node.At fib.rib.tree depth ip.toNat v) (hM : M depth ip.toNat = some v) :
    ∃ N, Reserved (Fib.changeNextHop fib node ip depth nextHop).2 N := by
  have hmod := modifyFib_frame fib.dp fib.rib ip depth nextHop
  unfold Fib.changeNextHop
  split
  · exact ⟨M, h⟩
  · dsimp only
    split
    · refine ⟨_, h.same (rteRibSetNh_spec h.rib hat nextHop).1 hmod.rsvdTbl8s (fun b => ?_)⟩
      rw [deepBlock_insert, or_iff_left_of_imp]
      rintro ⟨hd, hb⟩
      exact ⟨depth, _, hd, by simp [hM], hb⟩
    · exact ⟨M, h.same h.rib hmod.rsvdTbl8s (fun b => Iff.rfl)⟩

theorem Reserved.deleteRoute (h : Reserved fib M) (hdepth : depth ≤ 32)
    (hip : trunc 32 depth ip.toNat = ip.toNat) {node : Cursor}
    (hM : M depth ip.toNat ≠ none) : ∃ N, Reserved (Fib.deleteRoute fib node ip depth).2 N := by
  have hframe := restored_frame fib node ip depth
  have hrib := rteRibRemove_spec h.rib ip hdepth
  rw [hip] at hrib
  have hnone := deepRoute_eq_none hrib ip
  rw [deleteRoute_eq]
  split
  · refine ⟨M.erase depth ip.toNat, ?_⟩
    split
    · next hlast =>
      obtain ⟨hd, hdeep⟩ := hlast
      exact h.last hrib hframe.rsvdTbl8s hd hM (hnone.mp (isNone_iff_eq_none.mp hdeep))
    · next hlast =>
      refine h.same hrib hframe.rsvdTbl8s (fun b => ?_)
      by_cases hown : 24 < depth ∧ ip.toNat / 256 = b
      · -- another deep route of the block is left
        obtain ⟨hd, rfl⟩ := hown
        have hleft : DeepBlock (M.erase depth ip.toNat) (ip.toNat / 256) := by
          by_contra hno
          exact hlast ⟨hd, isNone_iff_eq_none.mpr (hnone.mpr hno)⟩
        exact iff_of_true hleft hleft.of_erase
      · exact deepBlock_erase hown
  · exact ⟨M, h.same h.rib hframe.rsvdTbl8s (fun b => Iff.rfl)⟩

/-- What the addresses of a block without deep routes inherit is what a lookup
finds. -/
theorem lookup_eq_parentNh (h : RibShows fib.rib M) (hd : 24 < depth) (hdepth : depth ≤ 32)
    (hno : ¬ DeepBlock M (ip.toNat / 256)) :
    (rteRibLookup fib.rib ip).map rteRibGetNh = parentNh M depth ip.toNat := by
  have hget := (rteRibLookup_spec h ip).get
  have hshort : longest 32 M ip.toNat 33 = longest 32 M ip.toNat depth := by
    refine longest_eq_of_forall_lt (by omega) (fun r hr => ?_)
    obtain ⟨e, u⟩ := r
    obtain ⟨-, hu, -⟩ := longest_eq_some.mp hr
    by_contra hge
    have he : 24 < e := by
      have hle : ¬ e < depth := hge
      omega
    have he32 : e < 33 := (longest_eq_some.mp hr).1
    refine hno ⟨e, trunc 32 e ip.toNat, he, by simp [hu], ?_⟩
    exact trunc_24_eq_iff.mp (trunc_trunc (le_of_lt he) (by omega) ip.toNat)
  rw [parentNh, ← hshort, ← hget, map_map]
  rfl

theorem Reserved.addRoute (h : Reserved fib M) (hdepth : depth ≤ 32)
    (hip : trunc 32 depth ip.toNat = ip.toNat)
    (hcharged : 24 < depth → deepRoute fib.rib ip = none →
      (rteRibLookup fib.rib ip).map rteRibGetNh ≠ some nextHop) :
    ∃ N, Reserved (Fib.addRoute fib ip depth nextHop).2 N := by
  have hnone := deepRoute_eq_none h.rib ip
  -- a route that is not the first deep one of its block
  have hothers : ¬ (24 < depth ∧ deepRoute fib.rib ip = none) →
      ∀ b, DeepBlock (M.insert depth ip.toNat nextHop) b ↔ DeepBlock M b := by
    intro hnot b
    rw [deepBlock_insert, or_iff_left_of_imp]
    rintro ⟨hd, rfl⟩
    by_contra hno
    exact hnot ⟨hd, hnone.mpr hno⟩
  unfold Fib.addRoute
  dsimp only
  split
  · exact ⟨M, h⟩
  · cases hins : rteRibInsert fib.rib ip depth with
    | mk res rib =>
      cases res with
      | error e =>
        have hsame : rib = fib.rib := by
          rcases rteRibInsert_spec h.rib ip depth with ⟨e', he⟩ | ⟨c, nh₀, hok, -⟩
          · rw [hins] at he
            exact (Prod.mk.inj he).2
          · rw [hins] at hok
            cases hok
        subst hsame
        exact ⟨M, h⟩
      | ok node =>
        dsimp only
        obtain ⟨hM, hshows, hparent⟩ := @insert_ok M ip depth nextHop _ _ h.rib hip _ hins
        have hframe := modifyFib_frame fib.dp (rib.at (rteRibSetNh node nextHop)) ip depth nextHop
        rw [hparent]
        split
        · next hsame =>
          refine ⟨_, h.same hshows rfl (hothers ?_)⟩
          rintro ⟨hd, hdeep⟩
          refine hcharged hd hdeep ?_
          rw [lookup_eq_parentNh h.rib hd hdepth (hnone.mp hdeep), hsame]
        · split
          · -- the route is taken back
            have hrib := rteRibRemove_spec hshows ip hdepth
            rw [hip, Table.erase_insert nextHop hM] at hrib
            exact ⟨M, h.same hrib hframe.rsvdTbl8s (fun b => Iff.rfl)⟩
          · split
            · next hfirst =>
              obtain ⟨hd, hdeep⟩ := hfirst
              exact ⟨_, h.first hshows hframe.rsvdTbl8s hd
                (hnone.mp (isNone_iff_eq_none.mp hdeep))⟩
            · next hfirst =>
              refine ⟨_, h.same hshows hframe.rsvdTbl8s (hothers ?_)⟩
              rintro ⟨hd, hdeep⟩
              exact hfirst ⟨hd, isNone_iff_eq_none.mpr hdeep⟩

end Step

/-- A call keeps the reservation exact, whatever it returns. -/
theorem Reserved.called {fib : RteFib} {M : Table ℕ} (h : Reserved fib M) (call : FibCall)
    (hok : Reservable fib call) : ∃ N, Reserved (rteFibCall fib call).2 N := by
  cases call with
  | add ip depth nextHop =>
    show ∃ N, Reserved (dir24_8Modify fib ip depth nextHop .add).2 N
    unfold dir24_8Modify
    split
    · exact ⟨M, h⟩
    · next hdepth =>
      have hd : depth ≤ 32 := Nat.le_of_not_lt hdepth
      have hbase := toNat_base ip hd
      have hip : trunc 32 depth (ip &&& rteRibDepthToMask depth).toNat
          = (ip &&& rteRibDepthToMask depth).toNat := by rw [hbase, trunc_idem]
      split
      · exact ⟨M, h⟩
      · dsimp only
        rw [rteRibLookupExact_mask]
        cases hlook : rteRibLookupExact fib.rib ip depth with
        | some node =>
          obtain ⟨v, hat, hv⟩ := (rteRibLookupExact_spec h.rib ip hd).1 node hlook
          rw [← hbase] at hat hv
          exact h.changeNextHop hat hv
        | none => exact h.addRoute hd hip (fun hdeep hnone => (hok hdeep hd hnone).1)
  | delete ip depth =>
    show ∃ N, Reserved (dir24_8Modify fib ip depth 0 .del).2 N
    unfold dir24_8Modify
    split
    · exact ⟨M, h⟩
    · next hdepth =>
      have hd : depth ≤ 32 := Nat.le_of_not_lt hdepth
      have hbase := toNat_base ip hd
      have hip : trunc 32 depth (ip &&& rteRibDepthToMask depth).toNat
          = (ip &&& rteRibDepthToMask depth).toNat := by rw [hbase, trunc_idem]
      split
      · exact ⟨M, h⟩
      · dsimp only
        rw [rteRibLookupExact_mask]
        cases hlook : rteRibLookupExact fib.rib ip depth with
        | none => exact ⟨M, h⟩
        | some node =>
          obtain ⟨v, -, hv⟩ := (rteRibLookupExact_spec h.rib ip hd).1 node hlook
          rw [← hbase] at hv
          refine h.deleteRoute hd hip ?_
          rw [hv]
          exact some_ne_none v

/-! ## Refusals -/

theorem tbl8GetIdx_of_free {dp : Dir24_8Tbl} {i : ℕ} (hi : i < dp.numberTbl8s.toNat / 64 * 64)
    (hlt : i < 2 ^ 31) (hfree : dp.tbl8Idxes i = false) :
    ∃ idx, idx ≤ i ∧ dp.tbl8Idxes idx = false
      ∧ tbl8GetIdx dp = (some idx, { dp with
        tbl8Idxes := Function.update dp.tbl8Idxes idx true }) := by
  unfold tbl8GetIdx firstFree
  cases hfind : (List.range (dp.numberTbl8s.toNat / 64 * 64)).find?
      (fun i => !dp.tbl8Idxes i) with
  | none =>
    have hused := List.find?_eq_none.mp hfind i (List.mem_range.mpr hi)
    simp [hfree] at hused
  | some idx =>
    have hle : idx ≤ i := by
      by_contra hgt
      have hbefore := (List.find?_range_eq_some.mp hfind).2.2 i (Nat.lt_of_not_le hgt)
      simp [hfree] at hbefore
    refine ⟨idx, hle, by simpa using List.find?_some hfind, ?_⟩
    dsimp only
    rw [if_pos (lt_of_le_of_lt hle hlt)]

/-- An entry gets its group where there are enough of them. -/
theorem groupOf_ok {dp : Dir24_8Tbl} {ip : UInt32} {two : Bool}
    (h : Extended dp (ip.toNat / 256) ∨ FreeGroups dp two) :
    ∃ idx, (groupOf dp ip two).1 = some idx := by
  unfold groupOf
  dsimp only
  by_cases hext : Extended dp (ip.toNat / 256)
  · rw [if_pos (show dp.tbl24 (ip.toNat / 256) % 2 = 1 from hext)]
    exact ⟨_, rfl⟩
  · rw [if_neg (show ¬ dp.tbl24 (ip.toNat / 256) % 2 = 1 from hext)]
    obtain ⟨i, hi, hi31, hfree, hother⟩ := h.resolve_left hext
    obtain ⟨idx, -, hidx, hget⟩ := tbl8GetIdx_of_free hi hi31 hfree
    have halloc : tbl8Alloc dp (dp.tbl24 (ip.toNat / 256))
        = (some idx, { dp with
          tbl8Idxes := Function.update dp.tbl8Idxes idx true
          tbl8 := writeToFib dp.tbl8 (idx * 256) (dp.tbl24 (ip.toNat / 256) ||| 1) dp.nhSz 256
          curTbl8s := dp.curTbl8s + 1 }) := by
      unfold tbl8Alloc
      rw [hget]
    rw [halloc]
    cases two with
    | false => exact ⟨idx, rfl⟩
    | true =>
      -- of the two groups, one is not the one that was taken
      obtain ⟨j, hj, hj31, hne, hfree'⟩ := hother rfl
      obtain ⟨k, hk, hk31, hkne, hkfree⟩ : ∃ k < dp.numberTbl8s.toNat / 64 * 64,
          k < 2 ^ 31 ∧ k ≠ idx ∧ dp.tbl8Idxes k = false := by
        by_cases heq : i = idx
        · exact ⟨j, hj, hj31, fun hc => hne (hc.trans heq.symm), hfree'⟩
        · exact ⟨i, hi, hi31, heq, hfree⟩
      obtain ⟨idx', -, -, hget'⟩ := @tbl8GetIdx_of_free { dp with
          tbl8Idxes := Function.update dp.tbl8Idxes idx true
          tbl8 := writeToFib dp.tbl8 (idx * 256) (dp.tbl24 (ip.toNat / 256) ||| 1) dp.nhSz 256
          curTbl8s := dp.curTbl8s + 1 } k hk hk31
        ((Function.update_of_ne hkne true dp.tbl8Idxes).trans hkfree)
      rw [if_pos rfl]
      dsimp only at hget' ⊢
      rw [hget']
      exact ⟨idx, rfl⟩

theorem installTbl8_ok {dp : Dir24_8Tbl} {ip n : UInt32} {nextHop : ℕ} {two : Bool}
    (h : Extended dp (ip.toNat / 256) ∨ FreeGroups dp two) :
    (installTbl8 dp ip n nextHop two).1 = 0 := by
  obtain ⟨idx, hidx⟩ := groupOf_ok h
  unfold installTbl8
  dsimp only
  rw [hidx]

section Deep

variable {fib : RteFib} {M : Table ℕ} {dp : Dir24_8Tbl} {ip : UInt32} {depth nextHop : ℕ}

/-- A deep prefix is installed where there are groups for it. -/
theorem installToFib_deep (hd : 24 < depth) (hdepth : depth ≤ 32)
    (hip : trunc 32 depth ip.toNat = ip.toNat)
    (hroom : Extended dp (ip.toNat / 256)
      ∨ FreeGroups dp (decide (ip.toNat % 256 + 2 ^ (32 - depth) = 256))) :
    (installToFib dp ip (ip + prefixSize depth) nextHop).1 = 0 := by
  have hl32 := ip.toNat_lt
  have hfit : ip.toNat % 256 + 2 ^ (32 - depth) ≤ 256 := by
    have hmod := trunc_mod_add_le (a := ip.toNat) (show 24 ≤ depth by omega) hdepth
    rw [hip] at hmod
    exact hmod
  have hsize : 2 ^ (32 - depth) ≤ 128 :=
    Nat.pow_le_pow_right (by decide) (show 32 - depth ≤ 7 by omega)
  have hpos := Nat.two_pow_pos (32 - depth)
  obtain ⟨-, hred⟩ := @edge_add_prefixSize _ ip hdepth (by omega)
  have hround := toNat_roundup24 ip
  by_cases hend : ip.toNat % 256 + 2 ^ (32 - depth) = 256
  · -- the prefix ends where its block does
    rw [decide_eq_true hend] at hroom
    have heq : roundup24 ip = ip + prefixSize depth := by
      refine UInt32.toNat_inj.mp ?_
      rw [hround, hred]
      omega
    have hapart : ip >>> 8 ≠ (ip + prefixSize depth) >>> 8 := by
      intro hc
      have hnat := congrArg UInt32.toNat hc
      rw [toNat_shiftRight_8, toNat_shiftRight_8, hred] at hnat
      omega
    have hne : roundup24 ip - ip ≠ 0 := by
      intro hc
      have hnat := congrArg UInt32.toNat hc
      rw [UInt32.toNat_sub, hround] at hnat
      have h0 : (0 : UInt32).toNat = 0 := rfl
      omega
    have hleft : (installLeft dp ip nextHop).1 = 0 := by
      unfold installLeft
      rw [if_pos hne]
      exact installTbl8_ok hroom
    have hzero : (ip + prefixSize depth) &&& 255 = 0 := by
      refine UInt32.toNat_inj.mp ?_
      rw [toNat_and_255, hred]
      have h0 : (0 : UInt32).toNat = 0 := rfl
      omega
    rw [installToFib_of_apart dp nextHop (Or.inl hapart), if_neg (not_not.mpr hleft)]
    unfold installRight
    rw [if_neg (not_not.mpr hzero)]
  · rw [decide_eq_false hend] at hroom
    have htogether : ¬ (ip >>> 8 ≠ (ip + prefixSize depth) >>> 8
        ∨ rangeLen ip (ip + prefixSize depth) = 0x1000000) := by
      refine not_or.mpr ⟨not_not.mpr (UInt32.toNat_inj.mp ?_), fun hc => ?_⟩
      · rw [toNat_shiftRight_8, toNat_shiftRight_8, hred]
        omega
      · have hnat := congrArg UInt32.toNat hc
        unfold rangeLen at hnat
        rw [if_neg, toNat_shiftRight_8] at hnat
        · have hlt := ((ip + prefixSize depth &&& tbl24Mask) - roundup24 ip).toNat_lt
          have hval : (0x1000000 : UInt32).toNat = 2 ^ 24 := rfl
          omega
        · rintro ⟨-, hz⟩
          rw [hz] at hred
          have h0 : (0 : UInt32).toNat = 0 := rfl
          omega
    have hne : ip + prefixSize depth - ip ≠ 0 := by
      intro hc
      have hnat := congrArg UInt32.toNat hc
      rw [UInt32.toNat_sub, hred] at hnat
      have h0 : (0 : UInt32).toNat = 0 := rfl
      omega
    rw [installToFib_of_together dp nextHop htogether, if_pos hne]
    exact installTbl8_ok hroom

/-- **The first deep route of a block is let in** where there are groups for
it: its walk meets no route. -/
theorem modifyFib_deep {rib : RteRib} (h : RibShows rib M) (hd : 24 < depth)
    (hdepth : depth ≤ 32) (hip : trunc 32 depth ip.toNat = ip.toNat)
    (hno : ∀ e p, depth < e → p / 256 = ip.toNat / 256 → M e p = none)
    (hroom : Extended dp (ip.toNat / 256)
      ∨ FreeGroups dp (decide (ip.toNat % 256 + 2 ^ (32 - depth) = 256))) :
    (modifyFib dp rib ip depth nextHop).1 = 0 := by
  have hnil : covers rib ip depth = [] := by
    cases hcs : covers rib ip depth with
    | nil => rfl
    | cons c cs =>
      have hc : c ∈ covers rib ip depth := by
        rw [hcs]
        exact List.mem_cons_self
      obtain ⟨e, p, v, -, hM, he, -, -, hcov⟩ := covers_at h hdepth hc
      have hblock := trunc_24_eq_iff.mp (trunc_eq_of_le (le_of_lt hd) hdepth hcov)
      rw [hno e p he hblock] at hM
      cases hM
  have hne : ¬ (ip = ip + prefixSize depth ∧ ip ≠ 0) := by
    rintro ⟨heq, -⟩
    have hnat := congrArg UInt32.toNat heq
    have hpos := Nat.two_pow_pos (32 - depth)
    have hsize : 2 ^ (32 - depth) ≤ 128 :=
      Nat.pow_le_pow_right (by decide) (show 32 - depth ≤ 7 by omega)
    rw [UInt32.toNat_add, toNat_prefixSize hdepth] at hnat
    have hl32 := ip.toNat_lt
    omega
  unfold modifyFib modifyLoop
  rw [rteRibGetNxt_none h ip hdepth, hnil]
  dsimp only [List.head?_nil]
  rw [if_neg hne]
  exact installToFib_deep hd hdepth hip hroom

/-- **An addition of a first deep route is refused** only if all groups are
reserved. -/
theorem Reserved.refused (h : Reserved fib M) (hd : 24 < depth) (hdepth : depth ≤ 32)
    (hip : trunc 32 depth ip.toNat = ip.toNat) (hdeep : deepRoute fib.rib ip = none)
    (hroom : fib.dp.rsvdTbl8s < fib.dp.numberTbl8s → Extended fib.dp (ip.toNat / 256)
      ∨ FreeGroups fib.dp (decide (ip.toNat % 256 + 2 ^ (32 - depth) = 256)))
    (hr : (Fib.addRoute fib ip depth nextHop).1 = -enospc) :
    fib.dp.numberTbl8s ≤ fib.dp.rsvdTbl8s := by
  have hno := (deepRoute_eq_none h.rib ip).mp hdeep
  by_contra hnot
  have hlt : fib.dp.rsvdTbl8s < fib.dp.numberTbl8s := UInt32.not_le.mp hnot
  unfold Fib.addRoute at hr
  dsimp only at hr
  rw [if_neg (fun hc => hnot hc.2.2)] at hr
  cases hins : rteRibInsert fib.rib ip depth with
  | mk res rib =>
    rw [hins] at hr
    cases res with
    | error e =>
      obtain rfl | rfl | rfl := rteRibInsert_error (congrArg Prod.fst hins)
      · exact absurd (show -einval = -enospc from hr) (by decide)
      · exact absurd (show -eexist = -enospc from hr) (by decide)
      · exact absurd (show -enomem = -enospc from hr) (by decide)
    | ok node =>
      dsimp only at hr
      obtain ⟨-, hshows, -⟩ := @insert_ok M ip depth nextHop _ _ h.rib hip _ hins
      have hmod : (modifyFib fib.dp (rib.at (rteRibSetNh node nextHop)) ip depth nextHop).1 = 0 := by
        refine modifyFib_deep hshows hd hdepth hip (fun e p he hp => ?_) (hroom hlt)
        rw [Table.insert_of_depth_ne M ip.toNat nextHop (Nat.ne_of_gt he)]
        by_contra hM
        exact hno ⟨e, p, by omega, hM, hp⟩
      split at hr
      · exact absurd (show 0 = -enospc from hr) (by decide)
      · rw [if_neg (not_not.mpr hmod)] at hr
        split at hr
        · exact absurd (show 0 = -enospc from hr) (by decide)
        · exact absurd (show 0 = -enospc from hr) (by decide)

end Deep

/-! ## Runs of calls -/

/-- The FIB after a call, whatever it returns. -/
def RteFib.called (fib : RteFib) (call : FibCall) : RteFib := (rteFibCall fib call).2

theorem changeNextHop_result (fib : RteFib) (node : Cursor) (ip : UInt32) (depth nextHop : ℕ) :
    (changeNextHop fib node ip depth nextHop).1 = 0 := by
  unfold changeNextHop
  split
  · rfl
  · dsimp only
    split
    · rfl
    · rfl

/-- **As many groups are reserved as there are blocks with deep routes.** In a
run whose steps keep the reservation exact, failed calls included, the first
deep route of another block is refused with `ENOSPC` only if as many blocks
have deep routes as there are groups. -/
theorem rsvdTbl8s_exact (nhSz : NhSz) (numTbl8 : UInt32) (defNh maxRoutes : ℕ)
    (dp : Dir24_8Tbl) (hcreate : dir24_8Create nhSz numTbl8 defNh = .ok dp)
    (calls : List FibCall)
    (hok : Along RteFib.called Reservable (rteFibCreate maxRoutes dp) calls) :
    ∃ S : Finset ℕ,
      (∀ b, b ∈ S ↔ ∃ d p v, 24 < d ∧ p / 256 = b
        ∧ Route (run RteFib.called (rteFibCreate maxRoutes dp) calls).rib.tree d p v)
      ∧ (run RteFib.called (rteFibCreate maxRoutes dp) calls).dp.rsvdTbl8s.toNat = S.card
      ∧ ∀ ip depth nextHop,
        Reservable (run RteFib.called (rteFibCreate maxRoutes dp) calls) (.add ip depth nextHop) →
        24 < depth → trunc 32 depth ip.toNat / 256 ∉ S →
        (rteFibCall (run RteFib.called (rteFibCreate maxRoutes dp) calls)
          (.add ip depth nextHop)).1 = -enospc →
        (run RteFib.called (rteFibCreate maxRoutes dp) calls).dp.numberTbl8s.toNat ≤ S.card := by
  have hfresh : ∃ M, Reserved (rteFibCreate maxRoutes dp) M := by
    refine ⟨Table.empty, rteRibCreate_shows _, ∅, fun b => ?_, ?_⟩
    · refine iff_of_false (Finset.notMem_empty b) ?_
      rintro ⟨d, p, -, hM, -⟩
      exact hM rfl
    · unfold dir24_8Create at hcreate
      split at hcreate
      · cases hcreate
      · obtain rfl := Except.ok.inj hcreate
        rfl
  have hstep : ∀ fib call, (∃ M, Reserved fib M) → Reservable fib call →
      ∃ N, Reserved (fib.called call) N :=
    fun fib call ⟨_, h⟩ hc => h.called call hc
  obtain ⟨M, hM⟩ : ∃ M, Reserved (run RteFib.called (rteFibCreate maxRoutes dp) calls) M :=
    hok.invariant hstep hfresh
  generalize run RteFib.called (rteFibCreate maxRoutes dp) calls = fib at hM ⊢
  obtain ⟨S, hS, hcard⟩ := hM.exact
  refine ⟨S, fun b => ?_, hcard, fun ip depth nextHop hres hd hnot hr => ?_⟩
  · rw [hS]
    constructor
    · rintro ⟨d, p, hd, hne, hb⟩
      obtain ⟨v, hv⟩ := ne_none_iff_exists'.mp hne
      exact ⟨d, p, v, hd, hb, (hM.rib.holds d p v).mpr hv⟩
    · rintro ⟨d, p, v, hd, hb, hroute⟩
      refine ⟨d, p, hd, ?_, hb⟩
      rw [(hM.rib.holds d p v).mp hroute]
      exact some_ne_none v
  · rw [← hcard]
    refine UInt32.le_iff_toNat_le.mp ?_
    change (dir24_8Modify fib ip depth nextHop .add).1 = -enospc at hr
    unfold dir24_8Modify at hr
    by_cases hdepth : depth > 32
    · rw [if_pos hdepth] at hr
      exact absurd (show -einval = -enospc from hr) (by decide)
    · rw [if_neg hdepth] at hr
      have hd32 : depth ≤ 32 := Nat.le_of_not_lt hdepth
      have hbase := toNat_base ip hd32
      rw [← hbase] at hnot
      have hdeep : deepRoute fib.rib (ip &&& rteRibDepthToMask depth) = none :=
        (deepRoute_eq_none hM.rib _).mpr (fun hc => hnot ((hS _).mpr hc))
      split at hr
      · exact absurd (show -einval = -enospc from hr) (by decide)
      · dsimp only at hr
        split at hr
        · rw [changeNextHop_result] at hr
          exact absurd hr (by decide)
        · refine hM.refused hd hd32 ?_ hdeep (hres hd hd32 hdeep).2 hr
          rw [hbase, trunc_idem]
        · next heq _ => cases heq
        · next heq _ => cases heq

/-- A route of eight bits, and a deep one in it with another next hop. -/
theorem rsvdTbl8s_exact_two_routes :
    ∃ dp, dir24_8Create .b4 64 0 = .ok dp ∧ ∃ S : Finset ℕ,
      (∀ b, b ∈ S ↔ ∃ d p v, 24 < d ∧ p / 256 = b
        ∧ Route (run RteFib.called (rteFibCreate 8 dp)
          [.add 0x0a000000 8 1, .add 0x0a000080 25 2]).rib.tree d p v)
      ∧ (run RteFib.called (rteFibCreate 8 dp)
          [.add 0x0a000000 8 1, .add 0x0a000080 25 2]).dp.rsvdTbl8s.toNat = S.card := by
  obtain ⟨S, hS, hcard, -⟩ := rsvdTbl8s_exact .b4 64 0 8 _ rfl
    [.add 0x0a000000 8 1, .add 0x0a000080 25 2]
    ⟨fun hd => absurd hd (by decide),
      fun _ _ _ => ⟨by decide, fun _ => Or.inr ⟨0, by decide, by decide, rfl,
        fun _ => ⟨1, by decide, by decide, by decide, rfl⟩⟩⟩, trivial⟩
  exact ⟨_, rfl, S, hS, hcard⟩

/-- **A deep route with the next hop that it inherits** is added without a
group, and gives one back when it is deleted: all calls return 0, none is
reserved while there is a block with a deep route, and then 2 ^ 32 - 1 are, so
that the next deep route is refused. -/
theorem rsvdTbl8s_exact_fails :
    ∃ dp, dir24_8Create .b4 64 0 = .ok dp
      ∧ Along RteFib.called (fun fib call => (rteFibCall fib call).1 = 0) (rteFibCreate 8 dp)
        [.add 0x0a000000 8 1, .add 0x0a000080 25 1, .delete 0x0a000080 25]
      ∧ (run RteFib.called (rteFibCreate 8 dp)
          [.add 0x0a000000 8 1, .add 0x0a000080 25 1]).dp.rsvdTbl8s = 0
      ∧ Route (run RteFib.called (rteFibCreate 8 dp)
          [.add 0x0a000000 8 1, .add 0x0a000080 25 1]).rib.tree 25 0x0a000080 1
      ∧ (run RteFib.called (rteFibCreate 8 dp)
          [.add 0x0a000000 8 1, .add 0x0a000080 25 1, .delete 0x0a000080 25]).dp.rsvdTbl8s
        = 0xffffffff
      ∧ (rteFibCall (run RteFib.called (rteFibCreate 8 dp)
          [.add 0x0a000000 8 1, .add 0x0a000080 25 1, .delete 0x0a000080 25])
          (.add 0x0b000080 25 2)).1 = -enospc :=
  ⟨_, rfl, ⟨by decide, by decide, by decide, trivial⟩, by decide,
    Or.inr (Or.inl (Or.inl ⟨rfl, rfl, rfl, rfl⟩)), by decide, by decide⟩

end Fib
