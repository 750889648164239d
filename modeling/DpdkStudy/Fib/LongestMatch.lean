import DpdkStudy.Lib.Runs
import DpdkStudy.Fib.Modify

/-!
# The FIB answers as its RIB does

What a lookup of the data plane returns after a run of additions and
deletions: the next hop of the longest route that covers the address, or the
default one (`lookup_eq_longest`). The dummy FIB, which looks routes up in its
RIB, returns the same after the same calls.

A step of the run must not meet what the code gets wrong (`Sane`): a prefix
whose gaps cannot be told from each other (`Tellable`), and a change of a next
hop that the data plane has no groups for. It is reported as a success.
-/

namespace Fib

open Rib Prefix
open Runs (run Along)

/-! ## The trace -/

/-- **A FIB, the RIB of a dummy FIB after the same calls, and the routes that
are expected of both.** -/
structure FibTrace where
  fib : RteFib
  dummy : RteRib
  routes : Table ℕ

/-- Both FIBs as they are created. -/
def FibTrace.fresh (maxRoutes : ℕ) (dp : Dir24_8Tbl) : FibTrace :=
  ⟨rteFibCreate maxRoutes dp, rteRibCreate (maxRoutes * 2), Table.empty⟩

/-- The routes after a call that succeeds. -/
def expected (routes : Table ℕ) : FibCall → Table ℕ
  | .add ip depth nextHop => routes.insert depth (trunc 32 depth ip.toNat) nextHop
  | .delete ip depth => routes.erase depth (trunc 32 depth ip.toNat)

/-- A call is made of both FIBs. -/
def FibTrace.called (t : FibTrace) (call : FibCall) : FibTrace :=
  ⟨(rteFibCall t.fib call).2, (dummyCall t.dummy call).2, expected t.routes call⟩

/-- The depth of a call. -/
def FibCall.depth : FibCall → ℕ
  | .add _ depth _ => depth
  | .delete _ depth => depth

/-- The first address of the prefix of a call. -/
def FibCall.base : FibCall → ℕ
  | .add ip depth _ => trunc 32 depth ip.toNat
  | .delete ip depth => trunc 32 depth ip.toNat

/-- The next hop of the parent of a prefix. -/
def parentNh (M : Table ℕ) (depth P : ℕ) : Option ℕ := (longest 32 M P depth).map Prod.snd

/-- **The call changes the answers of its prefix**: an addition gives it
another next hop than it has or, if it is new, than its parent has; a deletion
takes one away that its parent does not have. -/
def Reinstalls (M : Table ℕ) : FibCall → Prop
  | .add ip depth nextHop =>
    M depth (trunc 32 depth ip.toNat) ≠ some nextHop
      ∧ (M depth (trunc 32 depth ip.toNat) = none →
        parentNh M depth (trunc 32 depth ip.toNat) ≠ some nextHop)
  | .delete ip depth =>
    M depth (trunc 32 depth ip.toNat) ≠ parentNh M depth (trunc 32 depth ip.toNat)

/-- **The failure of the call is not told**: it changes the next hop of a route,
and the data plane has no groups for it. -/
def Swallowed (fib : RteFib) (M : Table ℕ) : FibCall → Prop
  | .add ip depth nextHop =>
    M depth (trunc 32 depth ip.toNat) ≠ none ∧ M depth (trunc 32 depth ip.toNat) ≠ some nextHop
      ∧ (modifyFib fib.dp fib.rib (ip &&& rteRibDepthToMask depth) depth nextHop).1 ≠ 0
  | .delete _ _ => False

/-- **A step of a run where every call returned 0**, and none met what the code
gets wrong. -/
structure Sane (t : FibTrace) (call : FibCall) : Prop where
  succeeds : (rteFibCall t.fib call).1 = 0
  tellable : Reinstalls t.routes call → Tellable t.routes call.depth call.base
  notSwallowed : ¬ Swallowed t.fib t.routes call

/-! ## What a FIB shows -/

/-- The next hop of a match, or the default one. -/
def hopOf (defNh : ℕ) (r : Option (ℕ × ℕ)) : ℕ := (r.map Prod.snd).getD defNh

/-- **The answers of a data plane are those of a table of routes.** -/
def Answers (dp : Dir24_8Tbl) (M : Table ℕ) : Prop :=
  ∀ a < 2 ^ 32, entry dp a = hopOf dp.defNh (longest 32 M a 33)

/-- **A FIB shows a table of routes**: in its RIB, and in its data plane. -/
structure FibShows (fib : RteFib) (M : Table ℕ) : Prop where
  rib : RibShows fib.rib M
  sound : Sound fib.dp
  fits : Fits fib.dp
  hops : ∀ d p v, M d p = some v → v ≤ getMaxNh fib.dp.nhSz
  defNh : fib.dp.defNh ≤ getMaxNh fib.dp.nhSz
  answers : Answers fib.dp M

/-- A prefix gets a next hop, on the addresses that it decides on. -/
theorem Answers.installs {dp dp' : Dir24_8Tbl} {M M' : Table ℕ} (h : Answers dp M) {d P nh : ℕ}
    (hi : Installs dp dp' nh (Decides 32 M d P 33))
    (hown : ∀ a, Decides 32 M d P 33 a → hopOf dp.defNh (longest 32 M' a 33) = nh)
    (hother : ∀ a, ¬ Decides 32 M d P 33 a → longest 32 M' a 33 = longest 32 M a 33) :
    Answers dp' M' := by
  intro a ha
  rw [hi.frame.defNh]
  by_cases hdec : Decides 32 M d P 33 a
  · rw [hi.hit a ha hdec, hown a hdec]
  · rw [hi.miss a ha hdec, h a ha, hother a hdec]

/-- Nothing has to be installed where the answers are right. -/
theorem Installs.of_eq {dp : Dir24_8Tbl} (h : Sound dp) {nh : ℕ} {P : ℕ → Prop}
    (heq : ∀ a < 2 ^ 32, P a → entry dp a = nh) : Installs dp dp nh P :=
  ⟨h, Frame.refl dp, heq, fun _ _ _ => rfl⟩

/-- **A route is added, or its next hop changed**, with its next hop
installed. -/
theorem FibShows.insert {fib : RteFib} {M : Table ℕ} (h : FibShows fib M) {rib : RteRib}
    {dp : Dir24_8Tbl} {d P nh : ℕ} (hd : d ≤ 32) (hnh : nh ≤ getMaxNh fib.dp.nhSz)
    (hrib : RibShows rib (M.insert d P nh))
    (hi : Installs fib.dp dp nh (Decides 32 M d P 33)) :
    FibShows ⟨rib, dp⟩ (M.insert d P nh) := by
  refine ⟨hrib, hi.sound, h.fits.frame hi.frame, fun e q v hv => ?_, ?_, ?_⟩
  · show v ≤ getMaxNh dp.nhSz
    rw [hi.frame.nhSz]
    unfold Table.insert at hv
    split at hv
    · rw [← Option.some.inj hv]
      exact hnh
    · exact h.hops e q v hv
  · show dp.defNh ≤ getMaxNh dp.nhSz
    rw [hi.frame.nhSz, hi.frame.defNh]
    exact h.defNh
  · refine h.answers.installs hi (fun a ha => ?_) (fun a ha => ?_)
    · rw [longest_insert_of_decides nh ha (by omega)]
      rfl
    · exact longest_insert_of_not_decides nh ha (by omega)

/-- A route is removed, with the next hop of its parent installed. -/
theorem FibShows.erase {fib : RteFib} {M : Table ℕ} (h : FibShows fib M) {rib : RteRib}
    {dp : Dir24_8Tbl} {d P : ℕ} (hd : d ≤ 32) (hrib : RibShows rib (M.erase d P))
    (hi : Installs fib.dp dp (hopOf fib.dp.defNh (longest 32 M P d)) (Decides 32 M d P 33)) :
    FibShows ⟨rib, dp⟩ (M.erase d P) := by
  refine ⟨hrib, hi.sound, h.fits.frame hi.frame, fun e q v hv => ?_, ?_, ?_⟩
  · show v ≤ getMaxNh dp.nhSz
    rw [hi.frame.nhSz]
    unfold Table.erase at hv
    split at hv
    · cases hv
    · exact h.hops e q v hv
  · show dp.defNh ≤ getMaxNh dp.nhSz
    rw [hi.frame.nhSz, hi.frame.defNh]
    exact h.defNh
  · refine h.answers.installs hi (fun a ha => ?_) (fun a ha => ?_)
    · rw [longest_erase_of_decides ha hd (by omega)]
    · exact longest_erase_of_not_decides ha (by omega)

/-- The number of reserved groups is not looked at. -/
theorem FibShows.reserve {rib : RteRib} {dp : Dir24_8Tbl} {M : Table ℕ}
    (h : FibShows ⟨rib, dp⟩ M) (n : UInt32) : FibShows ⟨rib, { dp with rsvdTbl8s := n }⟩ M :=
  ⟨h.rib, ⟨h.sound.lt, h.sound.index, h.sound.inUse, h.sound.apart, h.sound.odd⟩,
    ⟨h.fits.entry, h.fits.place⟩, h.hops, h.defNh, h.answers⟩

/-- Where a route decides, the answer is its next hop. -/
theorem FibShows.installed {fib : RteFib} {M : Table ℕ} (h : FibShows fib M) {d P nh : ℕ}
    (hd : d ≤ 32) (hM : M d P = some nh) : Installs fib.dp fib.dp nh (Decides 32 M d P 33) := by
  refine Installs.of_eq h.sound (fun a ha hdec => ?_)
  rw [h.answers a ha, hdec.longest_of_some (by omega) hM]
  rfl

/-- Where a prefix decides that has no route, the answer is that of its
parent. -/
theorem FibShows.inherited {fib : RteFib} {M : Table ℕ} (h : FibShows fib M) {d P : ℕ}
    (hd : d ≤ 32) (hM : M d P = none) :
    Installs fib.dp fib.dp (hopOf fib.dp.defNh (longest 32 M P d)) (Decides 32 M d P 33) := by
  refine Installs.of_eq h.sound (fun a ha hdec => ?_)
  rw [h.answers a ha, hdec.longest_of_none hd (by omega) hM]

/-! ## The two FIBs after a call -/

theorem toNat_base (ip : UInt32) {depth : ℕ} (hd : depth ≤ 32) :
    (ip &&& rteRibDepthToMask depth).toNat = trunc 32 depth ip.toNat :=
  toNat_and_rteRibDepthToMask ip hd

/-- The topmost routes depend on the more specific routes only. -/
theorem topmost_congr {M N : Table ℕ} {d P : ℕ} (heq : ∀ e, d < e → N e = M e) (e q : ℕ) :
    Topmost N d P e q ↔ Topmost M d P e q := by
  have hbetween : ∀ f, d < f → (N f (trunc 32 f q) = none ↔ M f (trunc 32 f q) = none) := by
    intro f hf
    rw [heq f hf]
  unfold Topmost
  constructor
  · rintro ⟨hN, hlt, hrest⟩
    rw [heq e hlt] at hN
    exact ⟨hN, hlt, hrest.1, hrest.2.1, hrest.2.2.1,
      fun f hf hfe => (hbetween f hf).mp (hrest.2.2.2 f hf hfe)⟩
  · rintro ⟨hM, hlt, hrest⟩
    rw [← heq e hlt] at hM
    exact ⟨hM, hlt, hrest.1, hrest.2.1, hrest.2.2.1,
      fun f hf hfe => (hbetween f hf).mpr (hrest.2.2.2 f hf hfe)⟩

/-- Whether the gaps of a prefix can be told from each other depends on the
more specific routes only. -/
theorem Tellable.congr {M N : Table ℕ} {d P : ℕ} (h : Tellable M d P)
    (heq : ∀ e, d < e → N e = M e) : Tellable N d P := by
  have htop := @topmost_congr M N d P heq
  refine ⟨fun hw => h.notWraps ?_, fun hl => h.notLow ?_⟩
  · obtain ⟨e, q, hq, hend, hbeg⟩ := hw
    refine ⟨e, q, (htop e q).mp hq, hend, hbeg.imp_right ?_⟩
    rintro ⟨e', q', hq', hend'⟩
    exact ⟨e', q', (htop e' q').mp hq', hend'⟩
  · obtain ⟨hd, ⟨e, q, hq⟩, hall⟩ := hl
    exact ⟨hd, ⟨e, q, (htop e q).mp hq⟩, fun e q hq => hall e q ((htop e q).mpr hq)⟩

section Step

variable {fib : RteFib} {M : Table ℕ} {ip : UInt32} {depth nextHop : ℕ}

/-- `modify_fib` with a next hop that fits, as a step from what a FIB shows. -/
theorem FibShows.modifyFib (h : FibShows fib M) {N : Table ℕ} {rib : RteRib}
    (hrib : RibShows rib N) (hN : ∀ e, depth < e → N e = M e) (hdepth : depth ≤ 32)
    (hip : trunc 32 depth ip.toNat = ip.toNat) (htell : Tellable M depth ip.toNat)
    (hnh : nextHop ≤ getMaxNh fib.dp.nhSz)
    (hr : (Fib.modifyFib fib.dp rib ip depth nextHop).1 = 0) :
    Installs fib.dp (Fib.modifyFib fib.dp rib ip depth nextHop).2 nextHop
      (Decides 32 M depth ip.toNat 33) := by
  have hmod := modifyFib_spec hrib hdepth hip (htell.congr hN) h.sound h.fits hnh
    (Prod.ext hr rfl)
  exact hmod.congr (fun a _ => decides_congr hN)

/-- The next hop of a route is changed. -/
theorem changeNextHop_spec (h : FibShows fib M) (hdepth : depth ≤ 32)
    (hip : trunc 32 depth ip.toNat = ip.toNat) (hnh : nextHop ≤ getMaxNh fib.dp.nhSz)
    {node : Cursor} {v : ℕ} (hat : node.At fib.rib.tree depth ip.toNat v)
    (hv : M depth ip.toNat = some v) (htell : v ≠ nextHop → Tellable M depth ip.toNat)
    (hmod : v ≠ nextHop → (modifyFib fib.dp fib.rib ip depth nextHop).1 = 0) :
    FibShows (changeNextHop fib node ip depth nextHop).2 (M.insert depth ip.toNat nextHop)
      ∧ (changeNextHop fib node ip depth nextHop).2.rib = fib.rib.at (rteRibSetNh node nextHop) := by
  have hget : rteRibGetNh node = v := hat.get.2.2
  unfold changeNextHop
  by_cases heq : rteRibGetNh node = nextHop
  · rw [if_pos heq]
    obtain rfl : v = nextHop := hget.symm.trans heq
    have hsame : M.insert depth ip.toNat v = M := Table.insert_eq_self hv
    rw [rteRibSetNh_self hat, hsame]
    exact ⟨h, rfl⟩
  · rw [if_neg heq]
    have hne : v ≠ nextHop := fun hc => heq (hget.trans hc)
    dsimp only
    rw [if_pos (hmod hne)]
    refine ⟨?_, rfl⟩
    exact h.insert hdepth hnh (rteRibSetNh_spec h.rib hat nextHop).1
      (h.modifyFib h.rib (fun _ _ => rfl) hdepth hip (htell hne) hnh (hmod hne))

theorem parent_eq {rib : RteRib} {N : Table ℕ} (hrib : RibShows rib N) {node : Cursor} {p v : ℕ}
    (hat : node.At rib.tree depth p v) :
    (rteRibLookupParent node.node node.parents).map rteRibGetNh = parentNh N depth p := by
  have hget := (rteRibLookupParent_eq hrib.holds hat).get
  rw [parentNh, ← hget, Option.map_map]
  rfl

/-- **An insertion into the RIB**, once the next hop is set: there was no route,
and the parent of the new one is that of its prefix. -/
theorem insert_ok {rib₀ rib : RteRib} (h : RibShows rib₀ M)
    (hip : trunc 32 depth ip.toNat = ip.toNat) {node : Cursor}
    (hins : rteRibInsert rib₀ ip depth = (.ok node, rib)) :
    M depth ip.toNat = none
      ∧ RibShows (rib.at (rteRibSetNh node nextHop)) (M.insert depth ip.toNat nextHop)
      ∧ (rteRibLookupParent (rteRibSetNh node nextHop).node (rteRibSetNh node nextHop).parents).map
        rteRibGetNh = parentNh M depth ip.toNat := by
  rcases rteRibInsert_spec h ip depth with ⟨e, he⟩ | ⟨c, nh₀, hok, -, hnone, hat, hshows⟩
  · rw [hins] at he
    cases he
  · rw [hins] at hok hat hshows
    obtain rfl := Except.ok.inj hok
    rw [hip] at hnone hat hshows
    obtain ⟨hshows', hat'⟩ := rteRibSetNh_spec hshows hat nextHop
    rw [Table.insert_insert] at hshows'
    refine ⟨hnone, hshows', ?_⟩
    rw [parent_eq hshows' hat', parentNh, parentNh, longest_congr_table (fun e he => ?_)]
    rw [Table.insert_of_depth_ne M ip.toNat nextHop (Nat.ne_of_lt he)]

theorem addRoute_spec (h : FibShows fib M) (hdepth : depth ≤ 32)
    (hip : trunc 32 depth ip.toNat = ip.toNat) (hnh : nextHop ≤ getMaxNh fib.dp.nhSz)
    (htell : parentNh M depth ip.toNat ≠ some nextHop → Tellable M depth ip.toNat)
    (hr : (addRoute fib ip depth nextHop).1 = 0) :
    FibShows (addRoute fib ip depth nextHop).2 (M.insert depth ip.toNat nextHop)
      ∧ ∃ node rib, rteRibInsert fib.rib ip depth = (.ok node, rib)
        ∧ (addRoute fib ip depth nextHop).2.rib = rib.at (rteRibSetNh node nextHop) := by
  unfold addRoute at hr ⊢
  dsimp only at hr ⊢
  split
  · next hfull =>
    rw [if_pos hfull] at hr
    exact absurd (show -enospc = 0 from hr) (by decide)
  · next hroom =>
    rw [if_neg hroom] at hr
    cases hins : rteRibInsert fib.rib ip depth with
    | mk res rib =>
      rw [hins] at hr
      cases res with
      | error e =>
        obtain rfl | rfl | rfl := rteRibInsert_error (congrArg Prod.fst hins)
        · exact absurd (show -einval = 0 from hr) (by decide)
        · exact absurd (show -eexist = 0 from hr) (by decide)
        · exact absurd (show -enomem = 0 from hr) (by decide)
      | ok node =>
        dsimp only at hr ⊢
        obtain ⟨hnone, hshows, hparent⟩ := @insert_ok M ip depth nextHop _ _ h.rib hip _ hins
        rw [hparent] at hr ⊢
        by_cases hsame : parentNh M depth ip.toNat = some nextHop
        · rw [if_pos hsame]
          refine ⟨h.insert hdepth hnh hshows ?_, node, rib, rfl, rfl⟩
          have hinh := h.inherited hdepth hnone
          rw [hopOf, ← parentNh, hsame] at hinh
          exact hinh
        · rw [if_neg hsame] at hr ⊢
          have hmod : (modifyFib fib.dp (rib.at (rteRibSetNh node nextHop)) ip depth nextHop).1
              = 0 := by
            by_contra hc
            rw [if_pos hc] at hr
            exact hc hr
          rw [if_neg (not_not.mpr hmod)]
          have hinst := h.modifyFib hshows
            (fun e he => Table.insert_of_depth_ne M ip.toNat nextHop (Nat.ne_of_gt he)) hdepth hip
            (htell hsame) hnh hmod
          split
          · exact ⟨(h.insert hdepth hnh hshows hinst).reserve _, node, rib, rfl, rfl⟩
          · exact ⟨h.insert hdepth hnh hshows hinst, node, rib, rfl, rfl⟩

/-- What a deletion does to the data plane: the next hop of the parent is
installed, where it is another one. -/
def restored (fib : RteFib) (node : Cursor) (ip : UInt32) (depth : ℕ) : Int × Dir24_8Tbl :=
  match rteRibLookupParent node.node node.parents with
  | some parent =>
    if rteRibGetNh parent ≠ rteRibGetNh node then
      modifyFib fib.dp fib.rib ip depth (rteRibGetNh parent)
    else (0, fib.dp)
  | none => modifyFib fib.dp fib.rib ip depth fib.dp.defNh

theorem deleteRoute_eq (fib : RteFib) (node : Cursor) (ip : UInt32) (depth : ℕ) :
    deleteRoute fib node ip depth
      = if (restored fib node ip depth).1 = 0 then
          if depth > 24 ∧ (deepRoute (rteRibRemove fib.rib ip depth) ip).isNone then
            (0, ⟨rteRibRemove fib.rib ip depth, { (restored fib node ip depth).2 with
              rsvdTbl8s := (restored fib node ip depth).2.rsvdTbl8s - 1 }⟩)
          else (0, ⟨rteRibRemove fib.rib ip depth, (restored fib node ip depth).2⟩)
        else ((restored fib node ip depth).1, { fib with dp := (restored fib node ip depth).2 }) :=
  rfl

/-- A deletion installs what the addresses of the route inherit. -/
theorem restored_spec (h : FibShows fib M) (hdepth : depth ≤ 32)
    (hip : trunc 32 depth ip.toNat = ip.toNat) {node : Cursor} {v : ℕ}
    (hat : node.At fib.rib.tree depth ip.toNat v) (hv : M depth ip.toNat = some v)
    (htell : M depth ip.toNat ≠ parentNh M depth ip.toNat → Tellable M depth ip.toNat)
    (hr : (restored fib node ip depth).1 = 0) :
    Installs fib.dp (restored fib node ip depth).2
      (hopOf fib.dp.defNh (longest 32 M ip.toNat depth)) (Decides 32 M depth ip.toNat 33) := by
  have hparent := parent_eq h.rib hat
  have hget : rteRibGetNh node = v := hat.get.2.2
  rw [hopOf, ← parentNh, ← hparent]
  unfold restored at hr ⊢
  cases hp : rteRibLookupParent node.node node.parents with
  | none =>
    rw [hp] at hr hparent
    refine h.modifyFib h.rib (fun _ _ => rfl) hdepth hip (htell ?_) h.defNh hr
    rw [← hparent, hv]
    exact Option.some_ne_none v
  | some parent =>
    rw [hp] at hr hparent
    dsimp only [Option.map_some] at hr hparent ⊢
    by_cases hsame : rteRibGetNh parent = rteRibGetNh node
    · rw [if_neg (not_not.mpr hsame), hsame, hget]
      exact h.installed hdepth hv
    · rw [if_pos hsame] at hr ⊢
      have hbound : rteRibGetNh parent ≤ getMaxNh fib.dp.nhSz := by
        rw [parentNh, eq_comm, Option.map_eq_some_iff] at hparent
        obtain ⟨⟨e, u⟩, he, hu⟩ := hparent
        rw [← hu]
        exact h.hops _ _ u (longest_eq_some.mp he).2.1
      refine h.modifyFib h.rib (fun _ _ => rfl) hdepth hip (htell ?_) hbound hr
      rw [← hparent, hv]
      intro hc
      exact hsame ((Option.some.inj hc).symm.trans hget.symm)

theorem deleteRoute_spec (h : FibShows fib M) (hdepth : depth ≤ 32)
    (hip : trunc 32 depth ip.toNat = ip.toNat) {node : Cursor} {v : ℕ}
    (hat : node.At fib.rib.tree depth ip.toNat v) (hv : M depth ip.toNat = some v)
    (htell : M depth ip.toNat ≠ parentNh M depth ip.toNat → Tellable M depth ip.toNat)
    (hr : (deleteRoute fib node ip depth).1 = 0) :
    FibShows (deleteRoute fib node ip depth).2 (M.erase depth ip.toNat)
      ∧ (deleteRoute fib node ip depth).2.rib = rteRibRemove fib.rib ip depth := by
  have hrib := rteRibRemove_spec h.rib ip hdepth
  rw [hip] at hrib
  rw [deleteRoute_eq] at hr ⊢
  by_cases hr₀ : (restored fib node ip depth).1 = 0
  · rw [if_pos hr₀]
    have herase := h.erase hdepth hrib (restored_spec h hdepth hip hat hv htell hr₀)
    split
    · exact ⟨herase.reserve _, rfl⟩
    · exact ⟨herase, rfl⟩
  · rw [if_neg hr₀] at hr
    exact absurd hr hr₀

end Step

/-! ## Runs of calls -/

/-- The configuration of a data plane does not change. -/
structure SameConfig (dp dp' : Dir24_8Tbl) : Prop where
  numberTbl8s : dp'.numberTbl8s = dp.numberTbl8s
  nhSz : dp'.nhSz = dp.nhSz
  defNh : dp'.defNh = dp.defNh

theorem Frame.sameConfig {dp dp' : Dir24_8Tbl} (h : Frame dp dp') : SameConfig dp dp' :=
  ⟨h.numberTbl8s, h.nhSz, h.defNh⟩

theorem SameConfig.trans {dp dp' dp'' : Dir24_8Tbl} (h : SameConfig dp dp')
    (h' : SameConfig dp' dp'') : SameConfig dp dp'' :=
  ⟨h'.numberTbl8s.trans h.numberTbl8s, h'.nhSz.trans h.nhSz, h'.defNh.trans h.defNh⟩

theorem restored_frame (fib : RteFib) (node : Cursor) (ip : UInt32) (depth : ℕ) :
    Frame fib.dp (restored fib node ip depth).2 := by
  unfold restored
  split
  · split
    · exact modifyFib_frame _ _ _ _ _
    · exact Frame.refl _
  · exact modifyFib_frame _ _ _ _ _

/-- No call changes the configuration, whatever it returns. -/
theorem rteFibCall_sameConfig (fib : RteFib) (call : FibCall) :
    SameConfig fib.dp (rteFibCall fib call).2.dp := by
  have hself : SameConfig fib.dp fib.dp := (Frame.refl _).sameConfig
  have hmod : ∀ rib ip depth nextHop,
      SameConfig fib.dp (modifyFib fib.dp rib ip depth nextHop).2 :=
    fun rib ip depth nextHop => (modifyFib_frame fib.dp rib ip depth nextHop).sameConfig
  have hmodify : ∀ ip depth nextHop op,
      SameConfig fib.dp (dir24_8Modify fib ip depth nextHop op).2.dp := by
    intro ip depth nextHop op
    unfold dir24_8Modify
    split
    · exact hself
    · split
      · exact hself
      · dsimp only
        split
        · unfold changeNextHop
          dsimp only
          split
          · exact hself
          · split
            · exact hmod _ _ _ _
            · exact hmod _ _ _ _
        · unfold addRoute
          dsimp only
          split
          · exact hself
          · split
            · exact hself
            · split
              · exact hself
              · split
                · exact hmod _ _ _ _
                · split
                  · exact (hmod _ _ _ _).trans ⟨rfl, rfl, rfl⟩
                  · exact hmod _ _ _ _
        · exact hself
        · rw [deleteRoute_eq]
          have hrest := fun node =>
            (restored_frame fib node (ip &&& rteRibDepthToMask depth) depth).sameConfig
          split
          · split
            · exact (hrest _).trans ⟨rfl, rfl, rfl⟩
            · exact hrest _
          · exact hrest _
  cases call with
  | add ip depth nextHop => exact hmodify _ _ _ _
  | delete ip depth => exact hmodify _ _ _ _

/-- **What holds of a trace**: the FIB shows the expected routes, and the dummy
FIB has the same RIB. -/
structure Agrees (defNh : ℕ) (t : FibTrace) : Prop where
  shows : FibShows t.fib t.routes
  dummy : t.dummy = t.fib.rib
  default : t.fib.dp.defNh = defNh

/-- An addition that succeeds has a prefix and a next hop that fit. -/
theorem dir24_8Modify_add {fib : RteFib} {ip : UInt32} {depth nextHop : ℕ}
    (hr : (dir24_8Modify fib ip depth nextHop .add).1 = 0) :
    depth ≤ 32 ∧ nextHop ≤ getMaxNh fib.dp.nhSz
      ∧ dir24_8Modify fib ip depth nextHop .add
        = match rteRibLookupExact fib.rib (ip &&& rteRibDepthToMask depth) depth with
          | some node => changeNextHop fib node (ip &&& rteRibDepthToMask depth) depth nextHop
          | none => addRoute fib (ip &&& rteRibDepthToMask depth) depth nextHop := by
  unfold dir24_8Modify at hr ⊢
  by_cases hdepth : depth > 32
  · rw [if_pos hdepth] at hr
    exact absurd (show -einval = 0 from hr) (by decide)
  · rw [if_neg hdepth] at hr ⊢
    by_cases hnh : nextHop > getMaxNh fib.dp.nhSz
    · rw [if_pos hnh] at hr
      exact absurd (show -einval = 0 from hr) (by decide)
    · rw [if_neg hnh]
      refine ⟨Nat.le_of_not_lt hdepth, Nat.le_of_not_lt hnh, ?_⟩
      dsimp only
      cases rteRibLookupExact fib.rib (ip &&& rteRibDepthToMask depth) depth <;> rfl

theorem dir24_8Modify_del {fib : RteFib} {ip : UInt32} {depth : ℕ}
    (hr : (dir24_8Modify fib ip depth 0 .del).1 = 0) :
    depth ≤ 32 ∧ ∃ node,
      rteRibLookupExact fib.rib (ip &&& rteRibDepthToMask depth) depth = some node
        ∧ dir24_8Modify fib ip depth 0 .del
          = deleteRoute fib node (ip &&& rteRibDepthToMask depth) depth := by
  unfold dir24_8Modify at hr ⊢
  by_cases hdepth : depth > 32
  · rw [if_pos hdepth] at hr
    exact absurd (show -einval = 0 from hr) (by decide)
  · rw [if_neg hdepth, if_neg (Nat.not_lt_zero _)] at hr ⊢
    dsimp only at hr ⊢
    cases hlook : rteRibLookupExact fib.rib (ip &&& rteRibDepthToMask depth) depth with
    | none =>
      rw [hlook] at hr
      exact absurd (show -enoent = 0 from hr) (by decide)
    | some node => exact ⟨Nat.le_of_not_lt hdepth, node, rfl, rfl⟩

/-- A call that succeeds keeps both FIBs to the expected routes. -/
theorem Agrees.called {defNh : ℕ} {t : FibTrace} (h : Agrees defNh t) (call : FibCall)
    (hok : Sane t call) : Agrees defNh (t.called call) := by
  have hdefault : (t.called call).fib.dp.defNh = defNh :=
    (rteFibCall_sameConfig t.fib call).defNh.trans h.default
  obtain ⟨fib, dummy, routes⟩ := t
  obtain ⟨hshows, hdummy, -⟩ := h
  dsimp only at hshows hdummy
  subst hdummy
  obtain ⟨hr, htell, hswallow⟩ := hok
  cases call with
  | add ip depth nextHop =>
    obtain ⟨hdepth, hnh, heq⟩ := dir24_8Modify_add hr
    have hbase := toNat_base ip hdepth
    have hip : trunc 32 depth (ip &&& rteRibDepthToMask depth).toNat
        = (ip &&& rteRibDepthToMask depth).toNat := by rw [hbase, trunc_idem]
    obtain ⟨hfound, hmissing⟩ := rteRibLookupExact_spec hshows.rib ip hdepth
    unfold Reinstalls at htell
    unfold Swallowed at hswallow
    simp only [FibCall.depth, FibCall.base] at htell hswallow
    rw [← hbase] at hfound hmissing htell hswallow
    have hdummy : dummyCall fib.rib (.add ip depth nextHop) = _ :=
      if_neg (Nat.not_lt_of_le hdepth)
    rw [rteRibLookupExact_mask] at heq
    have hboth : FibShows (dir24_8Modify fib ip depth nextHop .add).2
          (routes.insert depth (ip &&& rteRibDepthToMask depth).toNat nextHop)
        ∧ (dummyCall fib.rib (.add ip depth nextHop)).2
          = (dir24_8Modify fib ip depth nextHop .add).2.rib := by
      cases hlook : rteRibLookupExact fib.rib ip depth with
      | some node =>
        rw [hlook] at heq hdummy
        obtain ⟨v, hat, hv⟩ := hfound node hlook
        rw [hv] at htell hswallow
        have hne : v ≠ nextHop → some v ≠ some nextHop := fun hne hc => hne (Option.some.inj hc)
        obtain ⟨hshows', hrib⟩ := changeNextHop_spec hshows hdepth hip hnh hat hv
          (fun h => htell ⟨hne h, fun hc => absurd hc (Option.some_ne_none v)⟩)
          (fun h => not_not.mp fun hc => hswallow ⟨Option.some_ne_none v, hne h, hc⟩)
        rw [heq, hdummy]
        exact ⟨hshows', hrib.symm⟩
      | none =>
        rw [hlook] at heq hdummy
        have hnone := hmissing hlook
        rw [hnone] at htell
        have hr' : (addRoute fib (ip &&& rteRibDepthToMask depth) depth nextHop).1 = 0 :=
          (congrArg Prod.fst heq).symm.trans hr
        obtain ⟨hshows', node, rib, hins, hrib⟩ := addRoute_spec hshows hdepth hip hnh
          (fun h => htell ⟨(Option.some_ne_none nextHop).symm, fun _ => h⟩) hr'
        rw [rteRibInsert_mask] at hins
        rw [hins] at hdummy
        rw [heq, hdummy]
        exact ⟨hshows', hrib.symm⟩
    rw [hbase] at hboth
    exact ⟨hboth.1, hboth.2, hdefault⟩
  | delete ip depth =>
    obtain ⟨hdepth, node, hlook, heq⟩ := dir24_8Modify_del hr
    have hbase := toNat_base ip hdepth
    have hip : trunc 32 depth (ip &&& rteRibDepthToMask depth).toNat
        = (ip &&& rteRibDepthToMask depth).toNat := by rw [hbase, trunc_idem]
    rw [rteRibLookupExact_mask] at hlook
    obtain ⟨v, hat, hv⟩ := (rteRibLookupExact_spec hshows.rib ip hdepth).1 node hlook
    unfold Reinstalls at htell
    simp only [FibCall.depth, FibCall.base] at htell
    rw [← hbase] at hat hv htell
    have hr' : (deleteRoute fib node (ip &&& rteRibDepthToMask depth) depth).1 = 0 := by
      rw [← heq]
      exact hr
    obtain ⟨hshows', hrib⟩ := deleteRoute_spec hshows hdepth hip hat hv htell hr'
    refine ⟨?_, ?_, hdefault⟩
    · show FibShows (dir24_8Modify fib ip depth 0 .del).2
        (routes.erase depth (trunc 32 depth ip.toNat))
      rw [heq, ← hbase]
      exact hshows'
    · show (dummyCall fib.rib (.delete ip depth)).2 = (dir24_8Modify fib ip depth 0 .del).2.rib
      rw [heq, hrib, rteRibRemove_mask, dummyCall, if_neg (Nat.not_lt_of_le hdepth), hlook]

/-- A number of groups, rounded up to whole words of the bitmap. -/
theorem toNat_alignCeil64 (n : UInt32) :
    ((n + 63) &&& 0xffffffc0).toNat = (n.toNat + 63) % 2 ^ 32 / 64 * 64 := by
  rw [UInt32.toNat_and]
  refine (land_mask (show 26 ≤ 32 by decide) (n + 63).toNat_lt).trans ?_
  rw [UInt32.toNat_add]
  rfl

/-- The empty RIB, and a data plane as it is created, show no routes. -/
theorem fresh_agrees {nhSz : NhSz} {numTbl8 : UInt32} {defNh maxRoutes : ℕ} {dp : Dir24_8Tbl}
    (hcreate : dir24_8Create nhSz numTbl8 defNh = .ok dp)
    (hplace : dp.numberTbl8s.toNat ≤ 2 ^ (24 - nhSz.val)) :
    Agrees defNh (FibTrace.fresh maxRoutes dp) := by
  unfold dir24_8Create at hcreate
  split at hcreate
  · cases hcreate
  · next hnot =>
    obtain ⟨hnum, hrest⟩ := not_or.mp hnot
    obtain ⟨-, hdef⟩ := not_or.mp hrest
    obtain rfl := Except.ok.inj hcreate
    have hext : ¬ defNh * 2 % 2 = 1 := by omega
    have hround := toNat_alignCeil64 numTbl8
    refine ⟨⟨rteRibCreate_shows _, ⟨?_, ?_, ?_, ?_, ?_⟩, ⟨?_, hplace⟩, ?_, ?_, ?_⟩, rfl, rfl⟩
    · intro b _
      show defNh * 2 < 2 ^ bitsInNh nhSz
      revert hdef
      cases nhSz <;> simp only [getMaxNh, bitsInNh, NhSz.val] <;> omega
    · exact fun b _ he => absurd he hext
    · exact fun b _ he => absurd he hext
    · exact fun b _ _ _ he => absurd he hext
    · exact fun b _ he => absurd he hext
    · show ((numTbl8 + 63) &&& 0xffffffc0).toNat ≤ 2 ^ (bitsInNh nhSz - 1)
      rw [hround]
      revert hnum
      cases nhSz <;> simp only [getMaxNh, bitsInNh, NhSz.val] <;> omega
    · intro d p v hv
      cases hv
    · exact Nat.le_of_not_lt hdef
    · intro a _
      have hnone : longest 32 (Table.empty : Table ℕ) a 33 = none :=
        longest_eq_none.mpr (fun d _ => rfl)
      show entry _ a = hopOf defNh (longest 32 Table.empty a 33)
      rw [hnone]
      exact (if_neg hext).trans (Nat.mul_div_cancel defNh (by decide))

/-- **The FIB answers as its RIB does.** After a run of calls that all returned
0, none of which met what the code gets wrong, the RIB has the routes that
were added and not deleted, and every lookup returns the next hop of the
longest of them that covers the address, or the default next hop. So does the
dummy FIB. -/
theorem lookup_eq_longest (nhSz : NhSz) (numTbl8 : UInt32) (defNh maxRoutes : ℕ)
    (dp : Dir24_8Tbl) (hcreate : dir24_8Create nhSz numTbl8 defNh = .ok dp)
    (hplace : dp.numberTbl8s.toNat ≤ 2 ^ (24 - nhSz.val)) (calls : List FibCall)
    (hsane : Along FibTrace.called Sane (FibTrace.fresh maxRoutes dp) calls) (ip : UInt32) :
    (∀ d p v, Route (run FibTrace.called (FibTrace.fresh maxRoutes dp) calls).fib.rib.tree d p v
        ↔ (run FibTrace.called (FibTrace.fresh maxRoutes dp) calls).routes d p = some v)
      ∧ dir24_8Lookup (run FibTrace.called (FibTrace.fresh maxRoutes dp) calls).fib.dp ip
        = hopOf defNh
          (longest 32 (run FibTrace.called (FibTrace.fresh maxRoutes dp) calls).routes ip.toNat 33)
      ∧ dir24_8Lookup (run FibTrace.called (FibTrace.fresh maxRoutes dp) calls).fib.dp ip
        = dummyLookup (run FibTrace.called (FibTrace.fresh maxRoutes dp) calls).dummy defNh ip := by
  have hagrees : Agrees defNh (run FibTrace.called (FibTrace.fresh maxRoutes dp) calls) :=
    hsane.invariant (fun t call ht hok => ht.called call hok) (fresh_agrees hcreate hplace)
  generalize run FibTrace.called (FibTrace.fresh maxRoutes dp) calls = t at hagrees ⊢
  obtain ⟨hshows, hdummy, hdefault⟩ := hagrees
  have hanswer : dir24_8Lookup t.fib.dp ip = hopOf defNh (longest 32 t.routes ip.toNat 33) := by
    rw [dir24_8Lookup_eq, hshows.answers ip.toNat ip.toNat_lt, hdefault]
  refine ⟨hshows.rib.holds, hanswer, hanswer.trans ?_⟩
  have hget := (rteRibLookup_spec hshows.rib ip).get
  rw [hdummy, dummyLookup, ← hget]
  cases rteRibLookup t.fib.rib ip <;> rfl

/-- The gaps of a prefix without more specific routes can be told. -/
theorem Tellable.of_none {M : Table ℕ} {depth P : ℕ} (h : ∀ e p, depth < e → M e p = none) :
    Tellable M depth P := by
  have hno : ∀ d p, ¬ Topmost M depth P d p := fun d p ht => ht.1 (h d p ht.2.1)
  exact ⟨fun ⟨d, p, ht, _⟩ => hno d p ht, fun ⟨_, ⟨d, p, ht⟩, _⟩ => hno d p ht⟩

/-- A route of eight bits, and one of 25 bits in it. -/
theorem lookup_eq_longest_two_routes :
    ∃ dp, dir24_8Create .b4 64 0 = .ok dp
      ∧ dir24_8Lookup (run FibTrace.called (FibTrace.fresh 8 dp)
          [.add 0x0a000000 8 1, .add 0x0a010280 25 2]).fib.dp 0x0a010281
        = dummyLookup (run FibTrace.called (FibTrace.fresh 8 dp)
          [.add 0x0a000000 8 1, .add 0x0a010280 25 2]).dummy 0 0x0a010281 := by
  refine ⟨_, rfl, (lookup_eq_longest .b4 64 0 8 _ rfl (by decide)
    [.add 0x0a000000 8 1, .add 0x0a010280 25 2] ?_ 0x0a010281).2.2⟩
  refine ⟨⟨by decide, fun _ => ?_, fun h => h.1 rfl⟩,
    ⟨by decide, fun _ => ?_, fun h => h.1 (by decide)⟩, trivial⟩
  · exact Tellable.of_none (fun _ _ _ => rfl)
  · refine Tellable.of_none (fun e p he => ?_)
    exact if_neg (fun hc => absurd hc.1 (Nat.ne_of_gt (lt_trans (by decide) he)))

/-- **A default route over the two halves of the address space**, each with a
route of its own: all calls return 0, and every lookup returns the default
route, where the dummy FIB returns that of the half. -/
theorem lookup_eq_longest_fails :
    ∃ dp, dir24_8Create .b4 64 0 = .ok dp
      ∧ Along FibTrace.called (fun t call => (rteFibCall t.fib call).1 = 0) (FibTrace.fresh 8 dp)
        [.add 0 1 1, .add 0x80000000 1 2, .add 0 0 3]
      ∧ dir24_8Lookup (run FibTrace.called (FibTrace.fresh 8 dp)
          [.add 0 1 1, .add 0x80000000 1 2, .add 0 0 3]).fib.dp 0x0a000001 = 3
      ∧ dummyLookup (run FibTrace.called (FibTrace.fresh 8 dp)
          [.add 0 1 1, .add 0x80000000 1 2, .add 0 0 3]).dummy 0 0x0a000001 = 1 :=
  ⟨_, rfl, ⟨by decide, by decide, by decide, trivial⟩, by decide, by decide⟩

end Fib
