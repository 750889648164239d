import DpdkStudy.Rib.PrefixMap
import DpdkStudy.Rib.Walk
import DpdkStudy.Lib.Iteration

/-!
# Walking a sub-tree

`rte_rib_get_nxt`, called again and again with its last answer, over the
routes that are more specific than a prefix. With `RTE_RIB_GET_NXT_ALL` the
answers are all of these routes, each after those it covers: the walk goes
along `subTree`, the valid nodes below the prefix in postorder, as the one
with `RTE_RIB_GET_NXT_COVER` goes along `covers`.

Both walks come to an end, in any RIB that calls lead to (`sub_tree`).
-/

open List

namespace Rib

open Prefix
open Iteration (Visits byLast)
open Runs (run)

variable {D P d p : ℕ} {t tree : RteRibNode} {parents : List Frame} {c : Cursor}

/-! ## The routes of a tree, in postorder -/

/-- The pointer to a node, if it is a route that is longer than a prefix. -/
def own (depth : ℕ) (t : RteRibNode) (d : ℕ) (valid : Bool) (parents : List Frame) :
    List Cursor :=
  if valid ∧ depth < d then [⟨t, parents⟩] else []

/-- **The routes of a tree that are longer than a prefix**, each after those
below it. -/
def postorder (depth : ℕ) : RteRibNode → List Frame → List Cursor
  | .null, _ => []
  | .node ip d valid nh left right, parents =>
    postorder depth left (⟨false, ip, d, valid, nh, right⟩ :: parents)
      ++ (postorder depth right (⟨true, ip, d, valid, nh, left⟩ :: parents)
        ++ own depth (.node ip d valid nh left right) d valid parents)

theorem mem_own {depth : ℕ} {valid : Bool} :
    c ∈ own depth t d valid parents ↔ (valid = true ∧ depth < d) ∧ c = ⟨t, parents⟩ := by
  unfold own
  split
  · next h => simp [h]
  · next h => simp [h]

theorem postorder_ne_nil {depth : ℕ} (h : Ordered D P t) (hlt : depth < D) (hfull : Full t)
    (hnull : t.isNull = false) (parents : List Frame) :
    postorder depth t parents ≠ [] := by
  induction t generalizing D P parents with
  | null => cases hnull
  | node ip d valid nh left right ihl _ =>
    obtain ⟨hle, -, -, -, hl, -⟩ := h
    obtain ⟨hv, hfl, -⟩ := hfull
    intro hnil
    rw [postorder, append_eq_nil_iff, append_eq_nil_iff] at hnil
    rcases hv with hv | ⟨hln, -⟩
    · have hself : (⟨.node ip d valid nh left right, parents⟩ : Cursor)
          ∈ own depth (.node ip d valid nh left right) d valid parents :=
        mem_own.mpr ⟨⟨hv, by omega⟩, rfl⟩
      rw [hnil.2.2] at hself
      cases hself
    · exact ihl hl (by omega) hfl hln _ hnil.1

theorem found_eq {ip curIp : UInt32} {depth nh : ℕ} {valid : Bool} {left right : RteRibNode}
    (hdepth : depth ≤ 32) (hcov : trunc 32 depth curIp.toNat = trunc 32 depth ip.toNat)
    (parents : List Frame) (prev : Option Cursor) :
    (if isMoreSpecific ip depth (.node curIp d valid nh left right) then
        some (⟨.node curIp d valid nh left right, parents⟩ : Cursor) else prev)
      = (own depth (.node curIp d valid nh left right) d valid parents).head?.or prev := by
  have hiff : isMoreSpecific ip depth (.node curIp d valid nh left right) = true
      ↔ valid = true ∧ depth < d := by
    rw [isMoreSpecific_iff hdepth]
    exact ⟨fun h => ⟨h.1, h.2.2⟩, fun h => ⟨h.1, hcov, h.2⟩⟩
  unfold own
  by_cases h : valid = true ∧ depth < d
  · rw [if_pos (hiff.mpr h), if_pos h]
    rfl
  · rw [if_neg (mt hiff.mp h), if_neg h]
    rfl

/-- **Going down the tree below a prefix**, without stopping, ends at the
first of its routes. -/
theorem descend_all {ip : UInt32} {depth : ℕ} (hdepth : depth ≤ 32) (h : Ordered D P t)
    (hfull : Full t) (hle : depth ≤ D)
    (hin : ∀ a, trunc 32 D a = P → trunc 32 depth a = trunc 32 depth ip.toNat)
    (parents : List Frame) (prev : Option Cursor) :
    descend ip depth false t parents prev = (postorder depth t parents).head?.or prev := by
  induction t generalizing D P parents prev with
  | null => rfl
  | node curIp d valid nh left right ihl ihr =>
    obtain ⟨hDd, hd, hP, hip, hl, hr⟩ := h
    obtain ⟨-, hfl, hfr⟩ := hfull
    have hcov := hin _ hP
    unfold descend postorder
    dsimp only
    rw [if_neg (fun hc => absurd hc.2 Bool.false_ne_true), found_eq hdepth hcov]
    by_cases hd32 : d < 32
    · have hside := @side_inside ip _ _ _ (show depth ≤ d by omega) hd32 hip hcov
      by_cases hnull : left.isNull = true
      · cases left with
        | node => cases hnull
        | null =>
          rw [if_neg (not_not.mpr hnull), ihr hr hfr (by omega) (hside true), postorder,
            nil_append, head?_append, Option.or_assoc]
      · -- the first route is below the left child
        rw [if_pos hnull, ihl hl hfl (by omega) (hside false)]
        have hne := postorder_ne_nil hl (show depth < d + 1 by omega) hfl
          ((Bool.not_eq_true _).mp hnull) (⟨false, curIp, d, valid, nh, right⟩ :: parents)
        obtain ⟨c, rest, heq⟩ := exists_cons_of_ne_nil hne
        rw [heq]
        rfl
    · -- there is nothing below
      rw [hl.eq_null (by omega), hr.eq_null (by omega)]
      rfl

/-! ## Going up -/

/-- **What is still to come** after a cursor, up to the nodes that are above
the prefix of the walk: the routes on its right, and the nodes above it. -/
def remaining (depth : ℕ) : RteRibNode → List Frame → List Cursor
  | _, [] => []
  | t, f :: parents =>
    if f.depth < depth then []
    else
      (if f.right then []
        else postorder depth f.sibling ({ f with right := true, sibling := t } :: parents))
      ++ (own depth (f.fill t) f.depth f.valid parents ++ remaining depth (f.fill t) parents)

/-- A frame that is filled and not above the prefix is the answer it was. -/
theorem found_fill_eq {ip : UInt32} {depth : ℕ} (hdepth : depth ≤ 32) {f : Frame}
    (hcov : trunc 32 depth f.ip.toNat = trunc 32 depth ip.toNat) (t : RteRibNode)
    (parents : List Frame) (prev : Option Cursor) :
    (if isMoreSpecific ip depth (f.fill t) then some (⟨f.fill t, parents⟩ : Cursor) else prev)
      = (own depth (f.fill t) f.depth f.valid parents).head?.or prev := by
  unfold Frame.fill
  cases f.right
  · exact found_eq hdepth hcov parents prev
  · exact found_eq hdepth hcov parents prev

/-- Nothing is to come after a node that is not below the prefix. -/
theorem remaining_eq_nil {depth : ℕ} (h : holeDepth parents ≤ depth) (t : RteRibNode) :
    remaining depth t parents = [] := by
  cases parents with
  | nil => rfl
  | cons f parents => exact if_pos h

/-- **Going up and over**, without stopping, ends at the first of the routes
that are still to come; `a` is any address below the cursor that the prefix
covers. -/
theorem ascend_all {ip : UInt32} {depth a : ℕ} (hdepth : depth ≤ 32) (habove : OrderedAbove parents)
    (hfabove : FullAbove parents) (ha : trunc 32 (holeDepth parents) a = holePrefix parents)
    (hp : trunc 32 depth a = trunc 32 depth ip.toNat) (t : RteRibNode) :
    ascend ip depth false t parents = (remaining depth t parents).head? := by
  induction parents generalizing t with
  | nil => rfl
  | cons f parents ih =>
    have hside : trunc 32 (f.depth + 1) a = child 32 f.depth f.ip.toNat f.right := ha
    obtain ⟨hcov, hhole⟩ := habove.up hside
    obtain ⟨-, hsibFull, hfabove'⟩ := hfabove
    obtain ⟨hle, hf32, -, hip, hsib, habove'⟩ := id habove
    have hup := ih habove' hfabove' hhole (f.fill t)
    by_cases hlt : f.depth < depth
    · -- the node is above the prefix, and what is beside it is outside
      rw [remaining_eq_nil hlt]
      rw [remaining_eq_nil (hle.trans (le_of_lt hlt))] at hup
      exact ascend_above hdepth habove hside hp hlt hup
    · have hfcov : trunc 32 depth f.ip.toNat = trunc 32 depth ip.toNat := by
        rw [← hcov, trunc_trunc (not_lt.mp hlt) (le_of_lt hf32), hp]
      unfold ascend remaining
      rw [if_neg hlt]
      by_cases hgo : f.right = true ∨ f.sibling.isNull = true
      · have hempty : (if f.right then []
            else postorder depth f.sibling
              ({ f with right := true, sibling := t } :: parents)) = [] := by
          rcases hgo with hright | hnull
          · rw [if_pos hright]
          · cases hs : f.sibling with
            | null => exact ite_self _
            | node => rw [hs] at hnull; cases hnull
        rw [if_pos hgo, hempty, nil_append, head?_append, found_fill_eq hdepth hfcov,
          hup]
      · have hnull : f.sibling.isNull = false := (Bool.not_eq_true _).mp fun hc => hgo (Or.inr hc)
        rw [if_neg hgo, if_neg (fun hc => hgo (Or.inl hc)),
          descend_all hdepth hsib hsibFull (by omega)
            (side_inside (not_lt.mp hlt) hf32 hip hfcov _),
          Option.or_none, head?_append_of_ne_nil
            (postorder_ne_nil hsib (by omega) hsibFull hnull _)]

/-- **The walk goes along the routes** of a tree, and then on to what is to
come after it. -/
theorem remaining_postorder {depth : ℕ} (h : Ordered D P t) (hD : depth ≤ D)
    {before after : List Cursor} (hc : postorder depth t parents = before ++ c :: after) :
    remaining depth c.node c.parents = after ++ remaining depth t parents := by
  induction t generalizing D P parents before after with
  | null => simp [postorder] at hc
  | node ip d valid nh left right ihl ihr =>
    obtain ⟨hle, -, -, -, hl, hr⟩ := h
    have hstay : ¬ d < depth := by omega
    rw [postorder] at hc
    rcases Iteration.append_eq_split hc with ⟨rest, hleft, rfl⟩ | ⟨front, hc'⟩
    · rw [ihl hl (by omega) hleft, remaining, if_neg hstay]
      simp only [Bool.false_eq_true, if_false, append_assoc]
      rfl
    rcases Iteration.append_eq_split hc' with ⟨rest, hright, rfl⟩ | ⟨front', hself⟩
    · rw [ihr hr (by omega) hright, remaining, if_neg hstay]
      simp only [if_true, nil_append, append_assoc]
      rfl
    · -- the node itself is the last one
      have hmem := mem_own.mp (hself ▸ mem_append.mpr (Or.inr mem_cons_self))
      rw [own, if_pos hmem.1] at hself
      cases front' with
      | nil =>
        obtain ⟨rfl, rfl⟩ := cons.inj hself
        rfl
      | cons b front' => simp at hself

/-! ## What the routes are -/

/-- The routes of the list are in the tree, at routes of the subtree. -/
theorem postorder_at {depth : ℕ} (h : Cursor.In ⟨t, parents⟩ tree)
    (hc : c ∈ postorder depth t parents) :
    ∃ d p nh, c.At tree d p nh ∧ Route t d p nh ∧ depth < d := by
  induction t generalizing parents with
  | null => cases hc
  | node ip d valid nh left right ihl ihr =>
    rw [postorder, mem_append, mem_append] at hc
    have hd : left = .null ∧ right = .null ∨ d < 32 := by
      by_cases hd : d < 32
      · exact Or.inr hd
      · obtain ⟨-, -, -, -, hl, hr⟩ := h.below
        exact Or.inl ⟨hl.eq_null (by omega), hr.eq_null (by omega)⟩
    rcases hc with hc | hc | hc
    · rcases hd with ⟨rfl, -⟩ | hd
      · cases hc
      · obtain ⟨e, p, v, hat, hroute, hlt⟩ := ihl (h.down hd false) hc
        exact ⟨e, p, v, hat, Or.inr (Or.inl hroute), hlt⟩
    · rcases hd with ⟨-, rfl⟩ | hd
      · cases hc
      · obtain ⟨e, p, v, hat, hroute, hlt⟩ := ihr (h.down hd true) hc
        exact ⟨e, p, v, hat, Or.inr (Or.inr hroute), hlt⟩
    · obtain ⟨⟨rfl, hlt⟩, rfl⟩ := mem_own.mp hc
      exact ⟨d, ip.toNat, nh, ⟨h, ip, left, right, rfl, rfl⟩, Or.inl ⟨rfl, rfl, rfl, rfl⟩, hlt⟩

/-- **Every route of a tree is in the list**, if it is longer than the prefix. -/
theorem postorder_complete {depth : ℕ} (parents : List Frame) {e q v : ℕ} (hr : Route t e q v)
    (hlt : depth < e) :
    ∃ c ∈ postorder depth t parents, rteRibGetDepth c = e ∧ (rteRibGetIp c).toNat = q := by
  induction t generalizing parents with
  | null => exact hr.elim
  | node ip d valid nh left right ihl ihr =>
    rw [postorder]
    rcases hr with ⟨hv, rfl, rfl, -⟩ | hr | hr
    · exact ⟨_, mem_append_right _ (mem_append_right _ (mem_own.mpr ⟨⟨hv, hlt⟩, rfl⟩)),
        rfl, rfl⟩
    · obtain ⟨c, hc, hget⟩ := ihl _ hr
      exact ⟨c, mem_append_left _ hc, hget⟩
    · obtain ⟨c, hc, hget⟩ := ihr _ hr
      exact ⟨c, mem_append_right _ (mem_append_left _ hc), hget⟩

/-- **The first route covers the second one**, or is the same. -/
def Over (c c' : Cursor) : Prop :=
  rteRibGetDepth c ≤ rteRibGetDepth c'
    ∧ trunc 32 (rteRibGetDepth c) (rteRibGetIp c').toNat = (rteRibGetIp c).toNat

theorem postorder_pairwise {depth : ℕ} (h : Cursor.In ⟨t, parents⟩ tree) :
    (postorder depth t parents).Pairwise fun c c' => ¬ Over c c' := by
  induction t generalizing parents with
  | null => exact List.Pairwise.nil
  | node ip d valid nh left right ihl ihr =>
    rw [postorder]
    by_cases hd : d < 32
    · obtain ⟨-, -, -, hip, hl, hr⟩ := id h.below
      have hown : (own depth (.node ip d valid nh left right) d valid parents).Pairwise
          fun c c' => ¬ Over c c' := by
        unfold own
        split
        · exact pairwise_singleton _ _
        · exact List.Pairwise.nil
      refine pairwise_append.mpr ⟨ihl (h.down hd false), pairwise_append.mpr
        ⟨ihr (h.down hd true), hown, fun c hc c' hc' hover => ?_⟩, fun c hc c' hc' hover => ?_⟩
      · -- the node is not as long as the routes on its right
        obtain ⟨e, p, v, hat, hroute, -⟩ := postorder_at (h.down hd true) hc
        obtain ⟨-, rfl⟩ := mem_own.mp hc'
        have hlt := (hr.route hroute).1
        have hle := hover.1
        rw [hat.get.1] at hle
        exact absurd (show e ≤ d from hle) (by omega)
      · obtain ⟨e, p, v, hat, hroute, -⟩ := postorder_at (h.down hd false) hc
        obtain ⟨hlt, he, hside, -⟩ := hl.route hroute
        obtain ⟨hle, hover⟩ := hover
        rw [hat.get.1] at hle
        rw [hat.get.1, hat.get.2.1] at hover
        rcases mem_append.mp hc' with hc' | hc'
        · -- the two are on different sides
          obtain ⟨e', p', v', hat', hroute', -⟩ := postorder_at (h.down hd true) hc'
          rw [hat'.get.2.1] at hover
          rw [← hover, trunc_trunc hlt he, (hr.route hroute').2.2.1] at hside
          cases child_inj hside
        · obtain ⟨-, rfl⟩ := mem_own.mp hc'
          exact absurd (show e ≤ d from hle) (by omega)
    · obtain ⟨-, -, -, -, hl, hr⟩ := h.below
      rw [hl.eq_null (by omega), hr.eq_null (by omega)]
      unfold own
      split
      · exact pairwise_singleton _ _
      · exact List.Pairwise.nil

/-! ## The walk -/

/-- **All routes that are more specific** than a prefix, each after those it
covers. -/
def subTree (rib : RteRib) (ip : UInt32) (depth : ℕ) : List Cursor :=
  let s := skipTo ip depth rib.tree []
  if trunc 32 depth (rteRibGetIp s).toNat = trunc 32 depth ip.toNat then
    postorder depth s.node s.parents
  else []

theorem subTree_cases {rib : RteRib} {M : Table ℕ} (h : RibShows rib M) (ip : UInt32) {depth : ℕ}
    (hdepth : depth ≤ 32) : WalkFrom rib ip depth false (subTree rib ip depth) (postorder depth) :=
  walkFrom_skipTo h ip hdepth false fun _ => rfl

section SubTree

variable {rib : RteRib} {M : Table ℕ} {ip : UInt32} {depth : ℕ}

variable (h : RibShows rib M) (hdepth : depth ≤ 32)

include h hdepth

/-- The first answer of the walk is the first route of the sub-tree. -/
theorem rteRibGetNxt_all_none :
    rteRibGetNxt rib ip depth none false = (subTree rib ip depth).head? := by
  rcases subTree_cases h ip hdepth with ⟨hnil, hnone, -⟩
    | ⟨curIp, d, valid, nh, left, right, parents, hin, -, hd, hcov, hsub, hnxt, -⟩
  · rw [hnil, hnone]
    rfl
  have hfull := h.full
  rw [← hin.plugged] at hfull
  obtain ⟨-, hd32, -, hcur, -, -⟩ := id hin.below
  rw [hsub, hnxt, descend_all hdepth (hin.below.sink (le_refl d) hcur) hfull.of_plug.1 hd
    (fun a ha => by rw [← trunc_trunc hd hd32 a, ha, hcov]), Option.or_none]

/-- The next answer of the walk is the next route of the sub-tree. -/
theorem rteRibGetNxt_all_some {before after : List Cursor}
    (hc : subTree rib ip depth = before ++ c :: after) :
    rteRibGetNxt rib ip depth (some c) false = after.head? := by
  rcases subTree_cases h ip hdepth with ⟨hnil, -⟩
    | ⟨curIp, d, valid, nh, left, right, parents, hin, hupper, hd, hcov, hsub, -⟩
  · rw [hnil] at hc
    simp at hc
  rw [hsub] at hc
  obtain ⟨-, hd32, -, hcur, -, -⟩ := id hin.below
  have hsink := hin.below.sink (le_refl d) hcur
  have hend : remaining depth (.node curIp d valid nh left right) parents = [] := by
    cases parents with
    | nil => rfl
    | cons f parents => exact remaining_eq_nil (hupper f mem_cons_self) _
  have hnext := remaining_postorder hsink hd hc
  rw [hend, append_nil] at hnext
  obtain ⟨e, p, v, ⟨hcin, cip, cl, cr, hnode, hp⟩, hroute, -⟩ :=
    postorder_at hin (hc ▸ mem_append_right _ mem_cons_self)
  have hfull := h.full
  rw [← hcin.plugged] at hfull
  have hbelow := hcin.below
  rw [hnode] at hbelow
  have hcip : trunc 32 depth cip.toNat = trunc 32 depth ip.toNat := by
    obtain ⟨-, -, hside, -⟩ := hsink.route hroute
    rw [hp, ← trunc_trunc hd hd32 p, hside, hcov]
  have hasc := ascend_all hdepth hcin.above hfull.of_plug.2 hbelow.2.2.1 hcip c.node
  rw [hnext] at hasc
  unfold rteRibGetNxt
  rw [if_neg (by omega)]
  exact hasc

/-- **The sub-tree has the routes** that are more specific than the prefix. -/
theorem exists_mem_subTree_iff :
    (∃ c ∈ subTree rib ip depth, rteRibGetDepth c = d ∧ (rteRibGetIp c).toNat = p)
      ↔ M d p ≠ none ∧ depth < d ∧ trunc 32 depth p = trunc 32 depth ip.toNat := by
  have hM : ∀ {d p}, M d p ≠ none ↔ ∃ v, Route rib.tree d p v := fun {d p} => by
    rw [Option.ne_none_iff_exists']
    exact exists_congr fun v => (h.holds d p v).symm
  rcases subTree_cases h ip hdepth with ⟨hnil, -, hnone⟩
    | ⟨curIp, e, valid, nh, left, right, parents, hin, -, he, hcov, hsub, -, hall⟩
  · rw [hnil]
    refine iff_of_false (fun ⟨c, hc, _⟩ => (nomatch hc)) fun ⟨hthere, hlt, hp⟩ => ?_
    obtain ⟨v, hroute⟩ := hM.mp hthere
    exact hnone d p v hroute hlt hp
  rw [hsub]
  constructor
  · rintro ⟨c, hc, rfl, rfl⟩
    obtain ⟨d, p, v, hat, hroute, hlt⟩ := postorder_at hin hc
    obtain ⟨-, he32, -, hcur, -, -⟩ := id hin.below
    obtain ⟨-, -, hside, -⟩ := (hin.below.sink (le_refl e) hcur).route hroute
    rw [hat.get.1, hat.get.2.1]
    refine ⟨hM.mpr ⟨v, ?_⟩, hlt, ?_⟩
    · rw [← hin.plugged, route_plug]
      exact Or.inl hroute
    · rw [← trunc_trunc he he32 p, hside, hcov]
  · rintro ⟨hthere, hlt, hp⟩
    obtain ⟨v, hroute⟩ := hM.mp hthere
    exact postorder_complete parents (hall d p v hroute hlt hp) hlt

theorem subTree_at (hc : c ∈ subTree rib ip depth) :
    ∃ d p nh, c.At rib.tree d p nh := by
  rcases subTree_cases h ip hdepth with ⟨hnil, -⟩
    | ⟨curIp, e, valid, nh, left, right, parents, hin, -, -, -, hsub, -⟩
  · rw [hnil] at hc
    cases hc
  · rw [hsub] at hc
    obtain ⟨d, p, v, hat, -⟩ := postorder_at hin hc
    exact ⟨d, p, v, hat⟩

theorem subTree_pairwise :
    (subTree rib ip depth).Pairwise fun c c' => ¬ Over c c' := by
  rcases subTree_cases h ip hdepth with ⟨hnil, -⟩
    | ⟨curIp, e, valid, nh, left, right, parents, hin, -, -, -, hsub, -⟩
  · rw [hnil]
    exact List.Pairwise.nil
  · rw [hsub]
    exact postorder_pairwise hin

end SubTree

/-! ## Both walks, after any run of calls -/

theorem Cursor.At.trunc_eq {depth nh : ℕ} (h : c.At tree depth p nh) : trunc 32 depth p = p := by
  obtain ⟨hin, ip, left, right, hnode, rfl⟩ := h
  have hbelow := hin.below
  rw [hnode] at hbelow
  exact hbelow.2.2.2.1

/-- The pair of depth and prefix that a pointer is for. -/
def prefixOf (c : Cursor) : ℕ × ℕ := (rteRibGetDepth c, (rteRibGetIp c).toNat)

/-- **A stored prefix that is strictly more specific.** -/
def MoreSpecific (pairs : Table (Option ℕ)) (depth P d p : ℕ) : Prop :=
  pairs d p ≠ none ∧ depth < d ∧ trunc 32 depth p = P

/-- **A maximal one**: no other one covers it. -/
def Maximal (pairs : Table (Option ℕ)) (depth P d p : ℕ) : Prop :=
  MoreSpecific pairs depth P d p ∧ ∀ e, depth < e → e < d → pairs e (trunc 32 e p) = none

/-- **The calls with a flag end**, and have answered with the nodes of the
prefixes of a set, each once, in an order. -/
def Walks (rib : RteRib) (ip : UInt32) (depth : ℕ) (cover : Bool) (S : ℕ → ℕ → Prop)
    (R : Cursor → Cursor → Prop) : Prop :=
  ∃ l, Visits (byLast fun last => rteRibGetNxt rib ip depth last cover) none l
    ∧ (∀ c ∈ l, ∃ d p nh, c.At rib.tree d p nh)
    ∧ (l.map prefixOf).Nodup ∧ (∀ d p, (d, p) ∈ l.map prefixOf ↔ S d p) ∧ l.Pairwise R

theorem mem_map_prefixOf {l : List Cursor} :
    (d, p) ∈ l.map prefixOf ↔ ∃ c ∈ l, rteRibGetDepth c = d ∧ (rteRibGetIp c).toNat = p := by
  rw [mem_map]
  exact exists_congr fun c => and_congr_right fun _ => Prod.mk_inj

/-- A walk over no prefix, where the depth is not one of an address. -/
theorem walks_of_gt {rib : RteRib} {ip : UInt32} {depth : ℕ} (hdepth : 32 < depth) (cover : Bool)
    {S : ℕ → ℕ → Prop} (hS : ∀ d p, ¬ S d p) (R : Cursor → Cursor → Prop) :
    Walks rib ip depth cover S R := by
  refine ⟨[], Visits.done ?_, fun c hc => absurd hc not_mem_nil, nodup_nil, fun d p => ?_,
    List.Pairwise.nil⟩
  · rw [byLast, rteRibGetNxt, if_pos hdepth]
    rfl
  · exact iff_of_false not_mem_nil (hS d p)

/-- **Both walks over a sub-tree end.** One answers with all stored prefixes
that are strictly more specific than the prefix, each after those it covers;
the other one with the maximal ones of them, by their addresses. -/
theorem sub_tree (maxNodes : ℕ) (calls : List RibCall) (ip : UInt32) (depth : ℕ) :
    Walks (run RibTrace.called (RibTrace.fresh maxNodes) calls).rib ip depth false
        (MoreSpecific (run RibTrace.called (RibTrace.fresh maxNodes) calls).pairs depth
          (trunc 32 depth ip.toNat))
        (fun c c' => ¬ Over c c')
      ∧ Walks (run RibTrace.called (RibTrace.fresh maxNodes) calls).rib ip depth true
        (Maximal (run RibTrace.called (RibTrace.fresh maxNodes) calls).pairs depth
          (trunc 32 depth ip.toNat))
        Before := by
  obtain ⟨hops, h, hagree⟩ := shown_run maxNodes calls
  generalize run RibTrace.called (RibTrace.fresh maxNodes) calls = t at h hagree
  have hthere : ∀ d p, t.pairs d p ≠ none ↔ hops d p ≠ none := fun d p =>
    not_congr (hagree d p).1
  by_cases hdepth : 32 < depth
  · have hno : ∀ d p, ¬ MoreSpecific t.pairs depth (trunc 32 depth ip.toNat) d p := by
      rintro d p ⟨hp, hlt, -⟩
      exact (hthere d p).mp hp (h.eq_none (hdepth.trans hlt) p)
    exact ⟨walks_of_gt hdepth false hno _, walks_of_gt hdepth true (fun d p hm => hno d p hm.1) _⟩
  have hdepth' : depth ≤ 32 := not_lt.mp hdepth
  refine ⟨⟨subTree t.rib ip depth, ?_, fun c hc => subTree_at h hdepth' hc, ?_, fun d p => ?_,
    subTree_pairwise h hdepth'⟩, ⟨covers t.rib ip depth, ?_, fun c hc => ?_, ?_, fun d p => ?_,
    covers_pairwise h ip hdepth'⟩⟩
  · exact Iteration.visits_byLast (rteRibGetNxt_all_none h hdepth')
      fun before c after hc => rteRibGetNxt_all_some h hdepth' hc
  · refine pairwise_map.mpr ((subTree_pairwise h hdepth').imp_of_mem ?_)
    rintro c c' hc - hover heq
    obtain ⟨hd, hip⟩ := Prod.mk.inj heq
    obtain ⟨d, p, nh, hat⟩ := subTree_at h hdepth' hc
    refine hover ⟨le_of_eq hd, ?_⟩
    rw [← hip, hat.get.1, hat.get.2.1, hat.trunc_eq]
  · rw [mem_map_prefixOf, exists_mem_subTree_iff h hdepth']
    exact and_congr_left' (hthere d p).symm
  · exact Iteration.visits_byLast (rteRibGetNxt_none h ip hdepth')
      fun before c after hc => rteRibGetNxt_some h hdepth' hc
  · obtain ⟨d, p, nh, hat, -⟩ := covers_at h hdepth' hc
    exact ⟨d, p, nh, hat⟩
  · refine pairwise_map.mpr ((covers_pairwise h ip hdepth').imp ?_)
    intro c c' hb heq
    obtain ⟨-, hip⟩ := Prod.mk.inj heq
    have hpos := Nat.two_pow_pos (32 - rteRibGetDepth c)
    have hle : (rteRibGetIp c).toNat + 2 ^ (32 - rteRibGetDepth c) ≤ (rteRibGetIp c').toNat := hb
    omega
  · rw [mem_map_prefixOf, exists_mem_covers_iff h hdepth']
    constructor
    · rintro ⟨hp, hlt, -, -, hcov, hbetween⟩
      exact ⟨⟨(hthere d p).mpr hp, hlt, hcov⟩,
        fun e he hed => (hagree e _).1.mpr (hbetween e he hed)⟩
    · rintro ⟨⟨hp, hlt, hcov⟩, hbetween⟩
      obtain ⟨v, hv⟩ := Option.ne_none_iff_exists'.mp ((hthere d p).mp hp)
      obtain ⟨-, hd, -, hself⟩ := h.ordered.route ((h.holds d p v).mpr hv)
      exact ⟨(hthere d p).mp hp, hlt, hd, hself, hcov,
        fun e he hed => (hagree e _).1.mp (hbetween e he hed)⟩

end Rib
